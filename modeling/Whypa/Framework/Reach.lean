import Mathlib.Logic.Relation
import Mathlib.Order.WellFounded

/-!
# Transition systems

Labelled steps from initial states, the states a system can reach, and the
rule for invariants (`System.Reachable.invariant`). `System.ofStep` is the
system of a step function, whose runs can be computed (`Reachable.foldlM`), and
`System.under` keeps only the steps that meet a condition on the state before
them (`Reachable.foldlM_under`). A run in which a measure goes down comes to an
end (`Reachable.exists_final`).
-/

namespace Framework

/-- Initial states, and the steps from each state. -/
structure System (σ ℓ : Type) where
  init : σ → Prop
  step : σ → ℓ → σ → Prop

namespace System

variable {σ ℓ : Type}

/-- The states reached after any number of steps, in any order. -/
inductive Reachable (S : System σ ℓ) : σ → Prop
  | init {s : σ} (h : S.init s) : Reachable S s
  | step {s s' : σ} {l : ℓ} (h : Reachable S s) (hs : S.step s l s') : Reachable S s'

/-- The system in which `f s l` is the state after the step `l` from `s`, if
the step can be made. -/
def ofStep (init : σ → Prop) (f : σ → ℓ → Option σ) : System σ ℓ where
  init := init
  step s l s' := f s l = some s'

/-- The steps of `S` that meet `C` in the state before them. -/
def under (S : System σ ℓ) (C : σ → ℓ → Prop) : System σ ℓ where
  init := S.init
  step s l s' := C s l ∧ S.step s l s'

variable {S : System σ ℓ}

/-- What holds initially and is kept by every step holds in every state reached. -/
theorem Reachable.invariant {I : σ → Prop} (h0 : ∀ s, S.init s → I s)
    (hs : ∀ s l s', I s → S.step s l s' → I s') {s : σ} (h : S.Reachable s) : I s := by
  induction h with
  | init h => exact h0 _ h
  | step _ h ih => exact hs _ _ _ ih h

/-- If every state that is not final has a step that makes a measure smaller, a
final state is reached. -/
theorem Reachable.exists_final {β : Type} [Preorder β] [WellFoundedLT β] (μ : σ → β) {I F : σ → Prop}
    (hs : ∀ s, I s → F s ∨ ∃ l s', S.step s l s' ∧ I s' ∧ μ s' < μ s) {s : σ} (h : S.Reachable s)
    (hI : I s) : ∃ t, S.Reachable t ∧ F t := by
  induction hm : μ s using WellFoundedLT.induction generalizing s with
  | ind m ih =>
    rcases hs s hI with hF | ⟨l, s', hstep, hI', hlt⟩
    · exact ⟨s, h, hF⟩
    · exact ih (μ s') (hm ▸ hlt) (h.step hstep) hI' rfl

theorem Reachable.foldlM {init : σ → Prop} {f : σ → ℓ → Option σ} {s s' : σ} (ls : List ℓ)
    (h : (ofStep init f).Reachable s) (hr : ls.foldlM f s = some s') :
    (ofStep init f).Reachable s' := by
  induction ls generalizing s with
  | nil => exact Option.some.inj hr ▸ h
  | cons l ls ih =>
    rw [List.foldlM_cons, Option.bind_eq_bind, Option.bind_eq_some_iff] at hr
    obtain ⟨t, ht, hr⟩ := hr
    exact ih (h.step ht) hr

theorem Reachable.foldlM_under {init : σ → Prop} {f : σ → ℓ → Option σ} {C : σ → ℓ → Prop}
    [∀ s l, Decidable (C s l)] {s s' : σ} (ls : List ℓ) (h : ((ofStep init f).under C).Reachable s)
    (hr : ls.foldlM (fun s l => if C s l then f s l else none) s = some s') :
    ((ofStep init f).under C).Reachable s' := by
  induction ls generalizing s with
  | nil => exact Option.some.inj hr ▸ h
  | cons l ls ih =>
    rw [List.foldlM_cons, Option.bind_eq_bind, Option.bind_eq_some_iff] at hr
    obtain ⟨t, ht, hr⟩ := hr
    exact ih (h.step (Option.ite_none_right_eq_some.mp ht)) hr

end System

end Framework
