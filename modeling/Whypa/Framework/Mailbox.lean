import Mathlib.Data.List.Basic

/-!
# A mailbox between two threads

A producer pushes messages into a shared box, and signals an event after some of
them. The consumer is woken by the event, takes all that is in the box, and
delivers what it took one by one or drops some of it; what it cannot deliver it
puts back, behind what has been pushed meanwhile.

Messages are delivered in order as long as nothing is put back behind others
(`Ordered.step`), and a message is never left in the box without a signal as
long as nothing is put back without one (`Covered.step`).
-/

namespace Framework

structure Mailbox (α : Type) where
  produced : List α
  box : List α
  /-- What the consumer has taken. -/
  held : List α
  delivered : List α
  signalled : Bool
  /-- The producer has pushed and not signalled since. -/
  batching : Bool
  /-- The consumer was woken, and is about to take. -/
  woken : Bool

namespace Mailbox

variable {α : Type} {s s' : Mailbox α}

inductive Act (α : Type)
  | push (a : α)
  | signal
  | wake
  | take
  | drop
  | deliver
  | putBack

inductive Step (s : Mailbox α) : Act α → Mailbox α → Prop
  | push (a : α) :
    Step s (.push a) { s with produced := s.produced ++ [a], box := s.box ++ [a], batching := true }
  | signal : Step s .signal { s with signalled := true, batching := false }
  | wake (h : s.signalled = true) : Step s .wake { s with signalled := false, woken := true }
  | take (h : s.held = []) : Step s .take { s with held := s.box, box := [], woken := false }
  | drop {held : List α} (h : held.Sublist s.held) : Step s .drop { s with held }
  | deliver {a : α} {held : List α} (h : s.held = a :: held) :
    Step s .deliver { s with held, delivered := s.delivered ++ [a] }
  | putBack : Step s .putBack { s with box := s.box ++ s.held, held := [] }

/-- What was delivered, what is held and what is in the box are, in this order,
messages in the order they were produced in. -/
def Ordered (s : Mailbox α) : Prop := (s.delivered ++ s.held ++ s.box).Sublist s.produced

/-- A step keeps the order, unless it puts messages back behind others. -/
theorem Ordered.step {a : Act α} (h : s.Ordered) (hp : a = .putBack → s.box = [])
    (hs : s.Step a s') : s'.Ordered := by
  unfold Ordered at h ⊢
  cases hs with
  | push a =>
    show (s.delivered ++ s.held ++ (s.box ++ [a])).Sublist (s.produced ++ [a])
    rw [← List.append_assoc]
    exact h.append (List.Sublist.refl [a])
  | signal => exact h
  | wake => exact h
  | take hheld =>
    rw [hheld, List.append_nil] at h
    show (s.delivered ++ s.box ++ []).Sublist s.produced
    rwa [List.append_nil]
  | drop hheld => exact ((hheld.append_left s.delivered).append_right s.box).trans h
  | deliver hheld =>
    rw [hheld] at h
    simpa using h
  | putBack =>
    rw [hp rfl, List.append_nil] at h
    show (s.delivered ++ [] ++ (s.box ++ s.held)).Sublist s.produced
    rw [hp rfl, List.append_nil, List.nil_append]
    exact h

/-- What is in the box is signalled, or about to be, or about to be taken. -/
def Covered (s : Mailbox α) : Prop :=
  s.box ≠ [] → s.signalled = true ∨ s.batching = true ∨ s.woken = true

/-- A step keeps the box covered, unless it puts messages back with no signal to
come. -/
theorem Covered.step {a : Act α} (h : s.Covered)
    (hp : a = .putBack → s.signalled = true ∨ s.batching = true) (hs : s.Step a s') :
    s'.Covered := by
  intro hne
  cases hs with
  | push => exact .inr (.inl rfl)
  | signal => exact .inl rfl
  | wake => exact .inr (.inr rfl)
  | take => exact absurd rfl hne
  | drop => exact h hne
  | deliver => exact h hne
  | putBack => exact (hp rfl).imp id .inl

end Mailbox

end Framework
