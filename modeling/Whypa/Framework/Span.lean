import Mathlib.Data.List.Pairwise

/-!
# Ranges of addresses

A range of addresses by its first address and its length (`Span`), which
addresses it has, and when two ranges share one. In a list of ranges that are
pairwise apart, at most one has a given address, so that a search by address
(`find?_eq_some_iff`) does not depend on the order of the list (`find?_perm`).
Ranges without gaps between them (`Contiguous`) are apart.
-/

namespace Framework

/-- The `len` addresses from `lo`. -/
structure Span where
  lo : Nat
  len : Nat
deriving DecidableEq, Repr

namespace Span

/-- The first address after the range. -/
def stop (s : Span) : Nat := s.lo + s.len

def Has (s : Span) (a : Nat) : Prop := s.lo ≤ a ∧ a < s.stop

instance (s : Span) (a : Nat) : Decidable (s.Has a) := inferInstanceAs (Decidable (_ ∧ _))

/-- One ends before the other starts. -/
def Apart (s t : Span) : Prop := s.stop ≤ t.lo ∨ t.stop ≤ s.lo

instance (s t : Span) : Decidable (s.Apart t) := inferInstanceAs (Decidable (_ ∨ _))

/-- The ranges share an address. -/
def Meets (s t : Span) : Prop := ∃ a, s.Has a ∧ t.Has a

variable {s t : Span} {a : Nat}

theorem Apart.symm (h : s.Apart t) : t.Apart s := Or.symm h

theorem Apart.not_meets (h : s.Apart t) : ¬ s.Meets t := by
  rintro ⟨a, hs, ht⟩
  unfold Apart Has at *
  omega

theorem apart_iff_not_meets (hs : 0 < s.len) (ht : 0 < t.len) : s.Apart t ↔ ¬ s.Meets t := by
  refine ⟨Apart.not_meets, fun h => ?_⟩
  by_contra hn
  have hlt : t.lo < s.stop ∧ s.lo < t.stop := by
    unfold Apart at hn
    omega
  refine h ⟨max s.lo t.lo, ?_, ?_⟩ <;> unfold Has stop at * <;> omega

theorem meets_iff (hs : 0 < s.len) (ht : 0 < t.len) : s.Meets t ↔ s.lo < t.stop ∧ t.lo < s.stop := by
  rw [← not_iff_not, ← apart_iff_not_meets hs ht]
  unfold Apart
  omega

/-! ## Lists of ranges -/

section
variable {α : Type} {span : α → Span} {l : List α} {x : α}

instance : Std.Symm fun x y => (span x).Apart (span y) := ⟨fun _ _ => Apart.symm⟩

/-- The ranges of the list are pairwise apart. -/
def Separate (span : α → Span) (l : List α) : Prop := l.Pairwise fun x y => (span x).Apart (span y)

theorem Separate.unique (h : Separate span l) {y : α} (hx : x ∈ l) (hy : y ∈ l)
    (hxa : (span x).Has a) (hya : (span y).Has a) : x = y := by
  by_contra hne
  exact (List.Pairwise.forall h hx hy hne).not_meets ⟨a, hxa, hya⟩

/-- A search by address finds the range that has it. -/
theorem Separate.find?_eq_some_iff (h : Separate span l) {p : α → Bool}
    (hp : ∀ y ∈ l, p y = true ↔ (span y).Has a) : l.find? p = some x ↔ x ∈ l ∧ (span x).Has a := by
  constructor
  · intro hf
    have hx := List.mem_of_find?_eq_some hf
    exact ⟨hx, (hp x hx).mp (List.find?_some hf)⟩
  · rintro ⟨hx, ha⟩
    cases hf : l.find? p with
    | none => exact absurd ((hp x hx).mpr ha) (List.find?_eq_none.mp hf x hx)
    | some y =>
      have hy := List.mem_of_find?_eq_some hf
      rw [h.unique hy hx ((hp y hy).mp (List.find?_some hf)) ha]

theorem Separate.perm {l' : List α} (h : Separate span l) (hl : l'.Perm l) : Separate span l' :=
  (hl.pairwise_iff fun h => Apart.symm h).mpr h

/-- The order of the list does not matter. -/
theorem Separate.find?_perm {l' : List α} (h : Separate span l) (hl : l'.Perm l) {p : α → Bool}
    (hp : ∀ y ∈ l, p y = true ↔ (span y).Has a) : l'.find? p = l.find? p := by
  refine Option.ext fun x => ?_
  rw [h.find?_eq_some_iff hp, (h.perm hl).find?_eq_some_iff fun y hy => hp y (hl.mem_iff.mp hy),
    hl.mem_iff]

/-- Each range starts where the one before it ends. -/
def Contiguous (l : List Span) : Prop := l.IsChain fun s t => s.stop = t.lo

theorem Contiguous.separate {l : List Span} (h : Contiguous l) : Separate id l := by
  let R : Span → Span → Prop := fun s t => s.stop ≤ t.lo
  have : Trans R R R :=
    ⟨fun {_ t _} hst htu => Nat.le_trans hst (Nat.le_trans (Nat.le_add_right t.lo t.len) htu)⟩
  have hle : l.IsChain R := List.IsChain.imp (fun _ _ => Nat.le_of_eq) h
  exact hle.pairwise.imp fun h => .inl h

end

end Span

end Framework
