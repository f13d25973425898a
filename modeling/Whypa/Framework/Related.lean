import Mathlib.Data.Option.Basic
import Mathlib.Logic.Relation
import Whypa.Framework.Prog

/-!
# Interrupted programs, and runs from related states

A program whose accesses are all of one kind stays such a program when it is
interrupted after an access (`Partly.next`), so that what one access of the kind
keeps is kept however the accesses of several programs are interleaved. If an
access of the kind answers the same from related states (`Respects`), then so
does what is left of the program after it (`Partly.next_related`), and the whole
program (`Partly.run_related`). So a program cannot tell a disturbance that
leaves the state related to what it was (`Disturbed.run`).
-/

namespace Framework

/-- `a` is answered the same from related states, which it leaves related, or it is refused in
both. -/
def Handler.Respects {A : Type} {R : A → Type} {σ : Type} (h : Handler A R σ) (E : σ → σ → Prop)
    (a : A) : Prop :=
  ∀ s t, E s t → (h a s = none ∧ h a t = none) ∨
    ∃ r s' t', h a s = some (r, s') ∧ h a t = some (r, t') ∧ E s' t'

namespace Prog

variable {A : Type} {R : A → Type} {α β σ : Type} {h : Handler A R σ} {P : A → Prop} {Q : α → Prop}

theorem Partly.mono {P' : A → Prop} {Q' : α → Prop} {p : Prog A R α} (hp : Partly P Q p)
    (hP : ∀ a, P a → P' a) (hQ : ∀ x, Q x → Q' x) : Partly P' Q' p := by
  induction p with
  | pure x => exact hQ x hp
  | panic => trivial
  | access a k ih => exact ⟨hP a hp.1, fun r => ih r (hp.2 r)⟩

theorem Partly.and {P' : A → Prop} {Q' : α → Prop} {p : Prog A R α} (hp : Partly P Q p)
    (hp' : Partly P' Q' p) : Partly (fun a => P a ∧ P' a) (fun x => Q x ∧ Q' x) p := by
  induction p with
  | pure x => exact ⟨hp, hp'⟩
  | panic => trivial
  | access a k ih => exact ⟨⟨hp.1, hp'.1⟩, fun r => ih r (hp.2 r) (hp'.2 r)⟩

/-- The next access is of the kind, or it is refused and changes nothing; and so is the rest. -/
theorem Partly.next {p p' : Prog A R α} {s s' : σ} (hp : Partly P Q p)
    (hn : Prog.next h p s = some (p', s')) :
    Partly P Q p' ∧ (s' = s ∨ ∃ a r, P a ∧ h a s = some (r, s')) := by
  obtain ⟨a, k, rfl⟩ := eq_access_of_next hn
  simp only [Prog.next] at hn
  cases e : h a s with
  | none =>
    rw [e] at hn
    obtain ⟨rfl, rfl⟩ := Prod.mk.inj (Option.some.inj hn)
    exact ⟨trivial, .inl rfl⟩
  | some q =>
    rw [e] at hn
    obtain ⟨rfl, rfl⟩ := Prod.mk.inj (Option.some.inj hn)
    exact ⟨hp.2 q.1, .inr ⟨a, q.1, hp.1, e⟩⟩

/-- From related states the same program is left after the next access. -/
theorem Partly.next_related {E : σ → σ → Prop} {p : Prog A R α} {s t : σ} (hp : Partly P Q p)
    (hP : ∀ a, P a → h.Respects E a) (hE : E s t) :
    (Prog.next h p s = none ∧ Prog.next h p t = none) ∨
      ∃ p' s' t', Prog.next h p s = some (p', s') ∧ Prog.next h p t = some (p', t') ∧ E s' t' := by
  cases p with
  | pure x => exact .inl ⟨rfl, rfl⟩
  | panic => exact .inl ⟨rfl, rfl⟩
  | access a k =>
    right
    simp only [Prog.next]
    rcases hP a hp.1 s t hE with ⟨hs, ht⟩ | ⟨r, s', t', hs, ht, hE'⟩
    · rw [hs, ht]
      exact ⟨.panic, s, t, rfl, rfl, hE⟩
    · rw [hs, ht]
      exact ⟨k r, s', t', rfl, rfl, hE'⟩

theorem run_bind_of {p : Prog A R α} {x : α} {s s' : σ} (hr : Prog.run h p s = some (x, s'))
    (f : α → Prog A R β) : Prog.run h (p >>= f) s = Prog.run h (f x) s' := by
  rw [run_bind, hr, Option.bind_some]

/-- The state in which a program comes to its end, by a result, a panic or an access that is refused. -/
def lastState (h : Handler A R σ) : Prog A R α → σ → σ
  | .pure _, s | .panic, s => s
  | .access a k, s => match h a s with
    | some (r, s') => (k r).lastState h s'
    | none => s

theorem lastState_access {a : A} {k : R a → Prog A R α} {r : R a} {s s' : σ}
    (ha : h a s = some (r, s')) : lastState h (.access a k) s = lastState h (k r) s' := by
  rw [lastState, ha]

theorem lastState_refused {a : A} (k : R a → Prog A R α) {s : σ} (ha : h a s = none) :
    lastState h (.access a k) s = s := by
  rw [lastState, ha]

theorem lastState_bind_of {p : Prog A R α} {x : α} {s s' : σ} (hr : Prog.run h p s = some (x, s'))
    (f : α → Prog A R β) : lastState h (p >>= f) s = lastState h (f x) s' := by
  induction p generalizing s with
  | pure y =>
    obtain ⟨rfl, rfl⟩ := Prod.mk.inj (Option.some.inj hr)
    rfl
  | panic => cases hr
  | access a k ih =>
    obtain ⟨⟨r, s₁⟩, ha, hr⟩ := Option.bind_eq_some_iff.mp hr
    rw [access_bind, lastState_access ha]
    exact ih r hr

/-- From related states the program has the same result, and ends in related states. -/
theorem Partly.run_related {E : σ → σ → Prop} {p : Prog A R α} {s t : σ} (hp : Partly P Q p)
    (hP : ∀ a, P a → h.Respects E a) (hE : E s t) :
    ((Prog.run h p s = none ∧ Prog.run h p t = none) ∨
      ∃ x s' t', Prog.run h p s = some (x, s') ∧ Prog.run h p t = some (x, t') ∧ E s' t') ∧
      E (lastState h p s) (lastState h p t) := by
  induction p generalizing s t with
  | pure x => exact ⟨.inr ⟨x, s, t, rfl, rfl, hE⟩, hE⟩
  | panic => exact ⟨.inl ⟨rfl, rfl⟩, hE⟩
  | access a k ih =>
    rcases hP a hp.1 s t hE with ⟨hs, ht⟩ | ⟨r, s', t', hs, ht, hE'⟩
    · rw [run_access, run_access, lastState_refused k hs, lastState_refused k ht, hs, ht]
      exact ⟨.inl ⟨rfl, rfl⟩, hE⟩
    · rw [run_access, run_access, lastState_access hs, lastState_access ht, hs, ht]
      exact ih r (hp.2 r) hE'

/-- What is left of a program, and of the state, after some of its accesses, with disturbances
in `N` before, between and after them. An access that is refused is not made yet. -/
inductive Disturbed (h : Handler A R σ) (N : σ → σ → Prop) (p : Prog A R α) (s : σ) :
    Prog A R α → σ → Prop
  | start : Disturbed h N p s p s
  | access {a : A} {k : R a → Prog A R α} {r : R a} {t t' : σ} (hd : Disturbed h N p s (.access a k) t)
      (ha : h a t = some (r, t')) : Disturbed h N p s (k r) t'
  | other {p' : Prog A R α} {t t' : σ} (hd : Disturbed h N p s p' t) (hn : N t t') :
      Disturbed h N p s p' t'

/-- Before its first access a program has been disturbed only. -/
theorem Disturbed.access_cases {N : σ → σ → Prop} {a : A} {k : R a → Prog A R α} {q p : Prog A R α}
    {s t : σ} (hd : Disturbed h N q s p t) (hq : q = .access a k) :
    (p = q ∧ Relation.ReflTransGen N s t) ∨
      ∃ s₁ r s₂, Relation.ReflTransGen N s s₁ ∧ h a s₁ = some (r, s₂) ∧ Disturbed h N (k r) s₂ p t := by
  induction hd with
  | start => exact .inl ⟨rfl, .refl⟩
  | @access a' k' r t t' hd ha ih =>
    rcases ih with ⟨he, hst⟩ | ⟨s₁, r₁, s₂, hs, h₁, hd'⟩
    · obtain ⟨rfl, hk⟩ := Prog.access.inj (he.trans hq)
      obtain rfl := eq_of_heq hk
      exact .inr ⟨t, r, t', hst, ha, .start⟩
    · exact .inr ⟨s₁, r₁, s₂, hs, h₁, hd'.access ha⟩
  | other hd hn ih =>
    rcases ih with ⟨he, hst⟩ | ⟨s₁, r₁, s₂, hs, h₁, hd'⟩
    · exact .inl ⟨he, hst.tail hn⟩
    · exact .inr ⟨s₁, r₁, s₂, hs, h₁, hd'.other hn⟩

/-- If disturbances leave the state related to what it was, the rest of a disturbed program does as
the whole program does: neither returns, or both return the same, and they end in related states. -/
theorem Disturbed.run {N E : σ → σ → Prop} (hE : Equivalence E) (hN : ∀ s t, N s t → E s t)
    {p p' : Prog A R α} {s s' : σ} (hd : Disturbed h N p s p' s') (hp : Partly P Q p)
    (hP : ∀ a, P a → h.Respects E a) :
    ((Prog.run h p' s' = none ∧ Prog.run h p s = none) ∨
      ∃ x t' t, Prog.run h p' s' = some (x, t') ∧ Prog.run h p s = some (x, t) ∧ E t' t) ∧
      E (lastState h p' s') (lastState h p s) := by
  have hrest : Partly P Q p' ∧ ∃ t, Prog.run h p' t = Prog.run h p s ∧
      lastState h p' t = lastState h p s ∧ E s' t := by
    induction hd with
    | start => exact ⟨hp, s, rfl, rfl, hE.refl s⟩
    | access hd ha ih =>
      obtain ⟨hp', t, ht, hl, hEt⟩ := ih
      refine ⟨hp'.2 _, ?_⟩
      rcases hP _ hp'.1 _ t hEt with ⟨h₁, -⟩ | ⟨q, u, v, h₁, h₂, h⟩
      · rw [h₁] at ha
        cases ha
      · rw [h₁] at ha
        obtain ⟨rfl, rfl⟩ := Prod.mk.inj (Option.some.inj ha)
        rw [run_access, h₂] at ht
        rw [lastState_access h₂] at hl
        exact ⟨v, ht, hl, h⟩
    | other hd hn ih =>
      obtain ⟨hp', t, ht, hl, hEt⟩ := ih
      exact ⟨hp', t, ht, hl, hE.trans (hE.symm (hN _ _ hn)) hEt⟩
  obtain ⟨hp', t, ht, hl, hEt⟩ := hrest
  rw [← ht, ← hl]
  exact hp'.run_related hP hEt

end Prog

end Framework
