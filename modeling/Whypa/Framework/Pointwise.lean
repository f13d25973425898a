import Mathlib.Data.List.Nodup

/-!
# Loops that treat each index on its own

A loop over distinct indices whose body changes only what is seen of its own
index changes what is seen of each index as its body does, whatever the order.
-/

namespace Framework

variable {σ ι α : Type} {f : σ → ι → σ} {view : σ → ι → α} {g : α → α}

/-- `f s i` changes what is seen of `i` by `g`, and nothing of another index, as
long as `I` holds, which it keeps. -/
structure Local (I : σ → Prop) (view : σ → ι → α) (f : σ → ι → σ) (g : α → α) : Prop where
  keeps : ∀ s i, I s → I (f s i)
  self : ∀ s i, I s → view (f s i) i = g (view s i)
  other : ∀ s i j, I s → i ≠ j → view (f s i) j = view s j

variable {I : σ → Prop}

theorem Local.foldl_of_not_mem (h : Local I view f g) {l : List ι} {s : σ} (hs : I s) {j : ι}
    (hj : j ∉ l) : view (l.foldl f s) j = view s j := by
  induction l generalizing s with
  | nil => rfl
  | cons i l ih =>
    rw [List.mem_cons, not_or] at hj
    rw [List.foldl_cons, ih (h.keeps s i hs) hj.2, h.other s i j hs (Ne.symm hj.1)]

theorem Local.foldl_of_mem (h : Local I view f g) {l : List ι} (hl : l.Nodup) {s : σ} (hs : I s)
    {j : ι} (hj : j ∈ l) : view (l.foldl f s) j = g (view s j) := by
  induction l generalizing s with
  | nil => cases hj
  | cons i l ih =>
    obtain ⟨hi, hl⟩ := List.nodup_cons.mp hl
    rw [List.foldl_cons]
    by_cases hij : i = j
    · subst hij
      rw [h.foldl_of_not_mem (h.keeps s i hs) hi, h.self s i hs]
    · have hj : j ∈ l := (List.mem_cons.mp hj).resolve_left fun e => hij e.symm
      rw [ih hl (h.keeps s i hs) hj, h.other s i j hs hij]

end Framework
