import Mathlib.Algebra.Ring.Nat
import Mathlib.Data.Nat.Find

/-!
# Single bits and halves of a word

Testing, setting and clearing the bit `1 <<< i` of a word, in terms of the
word's bits (`BitVec.getLsbD`), replacing a half of a word, and the lowest bit that is
set (`le_lowest_bit`).
-/

namespace Framework

variable {w : Nat}

theorem and_bit_ne_zero {x : BitVec w} {i : Nat} (hi : i < w) :
    x &&& 1#w <<< i ≠ 0#w ↔ x.getLsbD i = true := by
  rw [← BitVec.twoPow_eq, BitVec.and_twoPow]
  split
  · rename_i h
    refine ⟨fun _ => h, fun _ e => ?_⟩
    have hb := congrArg (·.getLsbD i) e
    simp [hi] at hb
  · rename_i h
    exact ⟨fun e => absurd rfl e, fun e => absurd e h⟩

theorem getLsbD_or_bit (x : BitVec w) (i j : Nat) :
    (x ||| 1#w <<< i).getLsbD j = (x.getLsbD j || (decide (i < w) && decide (i = j))) := by
  rw [← BitVec.twoPow_eq, BitVec.getLsbD_or, BitVec.getLsbD_twoPow]

theorem getLsbD_and_not_bit {x : BitVec w} {i j : Nat} :
    (x &&& ~~~(1#w <<< i)).getLsbD j = (x.getLsbD j && !decide (i = j)) := by
  rw [← BitVec.twoPow_eq, BitVec.getLsbD_and, BitVec.getLsbD_not, BitVec.getLsbD_twoPow]
  by_cases hj : j < w
  · by_cases hij : i = j
    · simp [hij, hj]
    · simp [hij, hj]
  · rw [BitVec.getLsbD_of_ge x j (Nat.not_lt.mp hj), Bool.false_and, Bool.false_and]

/-- The bit `i`, shifted down and alone. -/
theorem shift_and_one (x : BitVec w) (i : Nat) :
    (x >>> i) &&& 1#w = if x.getLsbD i then 1#w else 0#w := by
  rw [← BitVec.twoPow_zero, BitVec.and_twoPow, BitVec.getLsbD_ushiftRight, Nat.add_zero]

/-- A word is what it shares with `s` and what it adds to `s`. -/
theorem and_or_not_and (s v : BitVec w) : (s &&& v) ||| (~~~s &&& v) = v := by
  refine BitVec.eq_of_getLsbD_eq fun i hi => ?_
  simp only [BitVec.getLsbD_or, BitVec.getLsbD_and, BitVec.getLsbD_not, hi, decide_true,
    Bool.true_and]
  cases s.getLsbD i <;> simp

theorem and_or_self (s v : BitVec w) : s &&& (s ||| v) = s := by
  refine BitVec.eq_of_getLsbD_eq fun i _ => ?_
  rw [BitVec.getLsbD_and, BitVec.getLsbD_or]
  cases s.getLsbD i <;> simp

theorem and_not_or_and (s v : BitVec w) : (v &&& ~~~s) ||| (v &&& s) = v := by
  refine BitVec.eq_of_getLsbD_eq fun i hi => ?_
  simp only [BitVec.getLsbD_or, BitVec.getLsbD_and, BitVec.getLsbD_not, hi, decide_true,
    Bool.true_and]
  cases s.getLsbD i <;> simp

/-! ## Halves -/

/-- The upper half replaced. -/
theorem low_or_shiftLeft (x : BitVec 64) (v : BitVec 32) :
    (x &&& 0xffffffff#64) ||| v.setWidth 64 <<< 32 = v ++ x.extractLsb' 0 32 := by
  rw [show 0xffffffff#64 = (BitVec.allOnes 32).setWidth 64 from rfl]
  refine BitVec.eq_of_getLsbD_eq fun i hi => ?_
  simp only [BitVec.getLsbD_append, BitVec.getLsbD_extractLsb', BitVec.getLsbD_or,
    BitVec.getLsbD_and, BitVec.getLsbD_setWidth, BitVec.getLsbD_allOnes, BitVec.getLsbD_shiftLeft]
  by_cases h : i < 32
  · simp [h, hi]
  · have h' : i - 32 < 64 := by omega
    simp [h, hi, h']

/-- The lower half replaced. -/
theorem high_or (x : BitVec 64) (v : BitVec 32) :
    (x &&& ~~~0xffffffff#64) ||| v.setWidth 64 = x.extractLsb' 32 32 ++ v := by
  rw [show 0xffffffff#64 = (BitVec.allOnes 32).setWidth 64 from rfl]
  refine BitVec.eq_of_getLsbD_eq fun i hi => ?_
  simp only [BitVec.getLsbD_append, BitVec.getLsbD_extractLsb', BitVec.getLsbD_or,
    BitVec.getLsbD_and, BitVec.getLsbD_not, BitVec.getLsbD_setWidth, BitVec.getLsbD_allOnes]
  by_cases h : i < 32
  · simp [h, hi]
  · have h' : i - 32 < 32 := by omega
    have he : 32 + (i - 32) = i := by omega
    have hv : v.getLsbD i = false := BitVec.getLsbD_of_ge v i (Nat.not_lt.mp h)
    simp [h, hi, h', he, hv]

section
variable (x : BitVec 64) (v u : BitVec 32)

theorem extract_high_append : (v ++ u).extractLsb' 32 32 = v :=
  (BitVec.extractLsb'_append_eq_of_le (Nat.le_refl 32)).trans BitVec.extractLsb'_eq_self

theorem extract_low_append : (v ++ u).extractLsb' 0 32 = u :=
  (BitVec.extractLsb'_append_eq_of_add_le (by decide)).trans BitVec.extractLsb'_eq_self

theorem ushiftRight_high : (x >>> 32).setWidth 32 = x.extractLsb' 32 32 := by
  refine BitVec.eq_of_getLsbD_eq fun i hi => ?_
  simp only [BitVec.getLsbD_setWidth, BitVec.getLsbD_ushiftRight, BitVec.getLsbD_extractLsb', hi]

theorem and_low : (x &&& 0xffffffff#64).setWidth 32 = x.extractLsb' 0 32 := by
  rw [show 0xffffffff#64 = (BitVec.allOnes 32).setWidth 64 from rfl]
  refine BitVec.eq_of_getLsbD_eq fun i hi => ?_
  have h64 : i < 64 := by omega
  simp only [BitVec.getLsbD_setWidth, BitVec.getLsbD_and, BitVec.getLsbD_allOnes,
    BitVec.getLsbD_extractLsb', hi, h64, Nat.zero_add, decide_true, Bool.true_and, Bool.and_true]

end

/-- A power of two divides a word if the bits below are clear. -/
theorem two_pow_dvd_iff (x : BitVec w) (k : Nat) :
    2 ^ k ∣ x.toNat ↔ ∀ i < k, x.getLsbD i = false := by
  rw [Nat.dvd_iff_mod_eq_zero]
  constructor
  · intro h i hi
    have := congrArg (Nat.testBit · i) h
    rwa [Nat.testBit_mod_two_pow, decide_eq_true hi, Bool.true_and, Nat.zero_testBit] at this
  · intro h
    refine Nat.eq_of_testBit_eq fun i => ?_
    rw [Nat.testBit_mod_two_pow, Nat.zero_testBit]
    by_cases hi : i < k
    · rw [← BitVec.getLsbD, h i hi, Bool.and_false]
    · simp [hi]

/-- What `x & -x` leaves of a word is the largest power of two that divides it. -/
theorem le_lowest_bit {x : BitVec w} (hx : x ≠ 0) {k : Nat} :
    2 ^ k ≤ (x &&& (~~~x + 1)).toNat ↔ 2 ^ k ∣ x.toNat := by
  have hex : ∃ t, x.getLsbD t = true := by
    by_contra h
    refine hx (BitVec.eq_of_getLsbD_eq fun i _ => ?_)
    exact (Bool.eq_false_iff.mpr fun hi => h ⟨i, hi⟩).trans BitVec.getLsbD_zero.symm
  have hbit := Nat.find_spec hex
  have hmin : ∀ i < Nat.find hex, x.getLsbD i = false := fun i hi =>
    Bool.eq_false_iff.mpr (Nat.find_min hex hi)
  generalize Nat.find hex = t at hbit hmin
  have ht : t < w := BitVec.lt_of_getLsbD hbit
  have hlow : x &&& (~~~x + 1) = BitVec.twoPow w t := by
    have hneg : ~~~x + 1 = -x := (BitVec.neg_eq_not_add x).symm
    refine BitVec.eq_of_getLsbD_eq fun i hi => ?_
    rw [hneg, BitVec.getLsbD_and, BitVec.getLsbD_neg, BitVec.getLsbD_twoPow]
    rcases Nat.lt_trichotomy i t with h | rfl | h
    · have : t ≠ i := by omega
      simp [hmin i h, this]
    · have : ¬ ∃ j < i, x.getLsbD j = true := fun ⟨j, hj, hb⟩ => by simp [hmin j hj] at hb
      simp [hbit, this, hi]
    · have hj : ∃ j < i, x.getLsbD j = true := ⟨t, h, hbit⟩
      have : t ≠ i := by omega
      simp [hj, this, hi]
  rw [hlow, BitVec.toNat_twoPow_of_lt ht, Nat.pow_le_pow_iff_right (by decide), two_pow_dvd_iff]
  refine ⟨fun h i hi => hmin i (Nat.lt_of_lt_of_le hi h), fun h => Nat.le_of_not_lt fun hlt => ?_⟩
  rw [h t hlt] at hbit
  cases hbit

end Framework
