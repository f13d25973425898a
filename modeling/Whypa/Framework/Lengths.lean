import Mathlib.Algebra.Ring.Nat
import Mathlib.Data.List.Basic

/-!
# Lists of lengths

A sequence of pieces by the lengths of its pieces, cut at a total `n`: `takeTotal` takes the
pieces up to the one that reaches `n`, which it takes whole, and `dropTotal` drops `n` from
the front, of which it may leave a part of a piece. No piece straddles the total if and
only if what is taken is no more than was asked for (`sum_takeTotal_eq_iff`).
-/

namespace Framework.Lengths

/-- The pieces up to the one that reaches `n`. -/
def takeTotal : Nat → List Nat → List Nat
  | _, [] => []
  | n, l :: ls => if n = 0 then [] else l :: takeTotal (n - l) ls

/-- What is left after `n`. -/
def dropTotal : Nat → List Nat → List Nat
  | _, [] => []
  | n, l :: ls => if n < l then (l - n) :: ls else dropTotal (n - l) ls

/-- No piece straddles `n`: it falls between two of them, or after the last. -/
def Cut : Nat → List Nat → Prop
  | _, [] => True
  | n, l :: ls => n = 0 ∨ l ≤ n ∧ Cut (n - l) ls

instance Cut.decidable : (n : Nat) → (ls : List Nat) → Decidable (Cut n ls)
  | _, [] => inferInstanceAs (Decidable True)
  | n, l :: ls =>
    have := Cut.decidable (n - l) ls
    inferInstanceAs (Decidable (n = 0 ∨ l ≤ n ∧ Cut (n - l) ls))

variable {n k : Nat} {ls : List Nat}

@[simp] theorem cut_zero (ls : List Nat) : Cut 0 ls := by
  cases ls with
  | nil => trivial
  | cons l ls => exact .inl rfl

/-- A total past the end. -/
theorem cut_of_sum_le (h : ls.sum ≤ n) : Cut n ls := by
  induction ls generalizing n with
  | nil => trivial
  | cons l ls ih =>
    rw [List.sum_cons] at h
    exact .inr ⟨by omega, ih (by omega)⟩

/-- `n` falls between two pieces, or past the end. -/
theorem cut_iff : Cut n ls ↔ ls.sum ≤ n ∨ ∃ i, (ls.take i).sum = n := by
  induction ls generalizing n with
  | nil => simp [Cut]
  | cons l ls ih =>
    constructor
    · rintro (rfl | ⟨hle, h⟩)
      · exact .inr ⟨0, rfl⟩
      · rcases ih.mp h with hs | ⟨i, hi⟩
        · rw [List.sum_cons]
          exact .inl (by omega)
        · refine .inr ⟨i + 1, ?_⟩
          rw [List.take_succ_cons, List.sum_cons, hi]
          omega
    · rintro (h | ⟨i, hi⟩)
      · exact cut_of_sum_le h
      · cases i with
        | zero => exact .inl hi.symm
        | succ i =>
          rw [List.take_succ_cons, List.sum_cons] at hi
          exact .inr ⟨by omega, ih.mpr (.inr ⟨i, by omega⟩)⟩

/-- Between two parts of a list. -/
theorem cut_append (ls ls' : List Nat) : Cut ls.sum (ls ++ ls') :=
  cut_iff.mpr (.inr ⟨ls.length, by rw [List.take_left]⟩)

/-- A cut stays one after a part before it is dropped. -/
theorem Cut.dropTotal (h : Cut n ls) (hk : k ≤ n) : Cut (n - k) (dropTotal k ls) := by
  induction ls generalizing n k with
  | nil => trivial
  | cons l ls ih =>
    rcases h with rfl | ⟨hle, h⟩
    · rw [Nat.zero_sub]
      exact cut_zero _
    · unfold Lengths.dropTotal
      split
      · refine .inr ⟨by omega, ?_⟩
        rwa [show n - k - (l - k) = n - l by omega]
      · have := ih h (k := k - l) (by omega)
        rwa [show n - l - (k - l) = n - k by omega] at this

/-- What is taken holds `n`, if there is as much. -/
theorem min_le_sum_takeTotal (n : Nat) (ls : List Nat) : min n ls.sum ≤ (takeTotal n ls).sum := by
  induction ls generalizing n with
  | nil => exact Nat.min_le_right ..
  | cons l ls ih =>
    unfold takeTotal
    split
    · omega
    · have := ih (n - l)
      rw [List.sum_cons, List.sum_cons]
      omega

/-- It is no more than that exactly if no piece straddles `n`. -/
theorem sum_takeTotal_eq_iff : (takeTotal n ls).sum = min n ls.sum ↔ Cut n ls := by
  induction ls generalizing n with
  | nil => simp [takeTotal, Cut]
  | cons l ls ih =>
    unfold takeTotal Cut
    split
    · rename_i h
      simp [h]
    · rename_i h
      have hge := min_le_sum_takeTotal (n - l) ls
      rw [List.sum_cons, List.sum_cons, ← ih]
      omega

end Framework.Lengths
