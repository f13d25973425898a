import Mathlib.Algebra.Order.Field.Basic
import Mathlib.Data.Nat.Cast.Order.Field
import Mathlib.Tactic.Linarith
import Whypa.Framework.Counter

/-!
# Rates in fixed point

A rate of `u` units in `f` ticks as a number of `w` binary places (`rate`), and the
units that it makes of a number of ticks (`units`), both rounded down. Between two
readings of a counter the units grow by less than 2 from what they should
(`elapsed_bounds`), if no more than `2 ^ w` ticks lie between them. Units that are computed
exactly, rounded down and cut to `w` bits are off by less than 1 (`wrapped_elapsed`).
-/

namespace Framework

def rate (w u f : Nat) : Nat := u * 2 ^ w / f

def units (w r t : Nat) : Nat := t * r / 2 ^ w

variable {w u f r t t' : Nat}

/-- A rate below 1 has no digits before the point. -/
theorem rate_lt (h : u < f) : rate w u f < 2 ^ w := by
  refine Nat.div_lt_of_lt_mul ?_
  exact Nat.mul_lt_mul_of_pos_right h (Nat.two_pow_pos w)

theorem units_mono (h : t ≤ t') : units w r t ≤ units w r t' :=
  Nat.div_le_div_right (Nat.mul_le_mul_right r h)

/-- At such a rate there are no more units than ticks. -/
theorem units_le (h : r ≤ 2 ^ w) (t : Nat) : units w r t ≤ t := by
  refine Nat.div_le_of_le_mul ?_
  rw [Nat.mul_comm]
  exact Nat.mul_le_mul_right t h

/-- The whole units between two readings, rounded down at each, are within one of what they
should be. -/
theorem floor_elapsed (hf : 0 < f) (ht : t ≤ t') :
    (t' * u / f - t * u / f) * f < (t' - t) * u + f ∧
      (t' - t) * u < (t' * u / f - t * u / f) * f + f := by
  have h := Nat.div_add_mod (t * u) f
  have h' := Nat.div_add_mod (t' * u) f
  have hm := Nat.mod_lt (t * u) hf
  have hm' := Nat.mod_lt (t' * u) hf
  have hle := Nat.mul_le_mul_right u ht
  have hq : f * (t * u / f) ≤ f * (t' * u / f) := Nat.mul_le_mul_left f (Nat.div_le_div_right hle)
  rw [Nat.sub_mul, Nat.sub_mul, Nat.mul_comm _ f, Nat.mul_comm _ f]
  omega

/-- So are they if the units wrap, but not between the readings. -/
theorem wrapped_elapsed (hf : 0 < f) (ht : t ≤ t') (hw : (t' - t) * u ≤ (2 ^ w - 1) * f) :
    (BitVec.ofNat w (t' * u / f) - BitVec.ofNat w (t * u / f)).toNat * f < (t' - t) * u + f ∧
      (t' - t) * u < (BitVec.ofNat w (t' * u / f) - BitVec.ofNat w (t * u / f)).toNat * f + f := by
  have hq : t * u / f ≤ t' * u / f := Nat.div_le_div_right (Nat.mul_le_mul_right u ht)
  have hd := floor_elapsed (u := u) hf ht
  have hlt : t' * u / f - t * u / f < 2 ^ w := by
    refine Nat.lt_of_mul_lt_mul_right (a := f) (hd.1.trans_le ?_)
    have := Nat.add_le_add_right hw f
    rwa [← Nat.succ_mul, Nat.succ_eq_add_one, Nat.sub_add_cancel Nat.one_le_two_pow] at this
  have hsub := Counter.toNat_ahead_sub 0#w hq hlt
  rw [Counter.ahead, Counter.ahead, BitVec.zero_add, BitVec.zero_add] at hsub
  rw [hsub]
  exact hd

section
variable {K : Type} [Field K] [LinearOrder K] [IsStrictOrderedRing K]

theorem div_bounds (a : Nat) {b : Nat} (hb : 0 < b) :
    ((a / b : Nat) : K) ≤ a / b ∧ (a : K) / b < (a / b : Nat) + 1 := by
  have hb' : (0 : K) < b := Nat.cast_pos.mpr hb
  refine ⟨Nat.cast_div_le, ?_⟩
  rw [div_lt_iff₀ hb']
  have hlt : a < (a / b + 1) * b := Nat.lt_mul_of_div_lt (Nat.lt_succ_self _) hb
  exact_mod_cast hlt

/-- The units between two readings of the counter. -/
theorem elapsed_bounds (hf : 0 < f) (ht : t ≤ t') (hw : t' - t ≤ 2 ^ w) :
    ((t' : K) - t) * u / f - 2 < (units w (rate w u f) t' : K) - units w (rate w u f) t ∧
      (units w (rate w u f) t' : K) - units w (rate w u f) t < ((t' : K) - t) * u / f + 1 := by
  have hN : 0 < 2 ^ w := Nat.two_pow_pos w
  have hN' : (0 : K) < (2 ^ w : Nat) := Nat.cast_pos.mpr hN
  have hd0 : (0 : K) ≤ (t' : K) - t := sub_nonneg.mpr (Nat.cast_le.mpr ht)
  have hdN : (t' : K) - t ≤ (2 ^ w : Nat) := by
    rw [← Nat.cast_sub ht]
    exact Nat.cast_le.mpr hw
  generalize hr : rate w u f = r
  obtain ⟨x, hx⟩ : ∃ x : K, x = r / (2 ^ w : Nat) := ⟨_, rfl⟩
  have hunits : ∀ n : Nat, (units w r n : K) ≤ n * x ∧ n * x < units w r n + 1 := fun n => by
    have h := @div_bounds K _ _ _ (n * r) (2 ^ w) hN
    rw [Nat.cast_mul, mul_div_assoc, ← hx] at h
    exact h
  obtain ⟨hle, hlt⟩ : x ≤ u / f ∧ (u : K) / f < x + 1 / (2 ^ w : Nat) := by
    have h := @div_bounds K _ _ _ (u * 2 ^ w) f hf
    rw [show u * 2 ^ w / f = r from hr, Nat.cast_mul, mul_div_right_comm] at h
    constructor
    · rw [hx, div_le_iff₀ hN']
      exact h.1
    · rw [hx, ← add_div, lt_div_iff₀ hN']
      exact h.2
  have hover : ((t' : K) - t) * x ≤ (t' - t) * (u / f) := mul_le_mul_of_nonneg_left hle hd0
  have hunder : ((t' : K) - t) * (u / f) ≤ (t' - t) * x + 1 := by
    calc ((t' : K) - t) * (u / f)
      _ ≤ (t' - t) * (x + 1 / (2 ^ w : Nat)) := mul_le_mul_of_nonneg_left hlt.le hd0
      _ = (t' - t) * x + (t' - t) / (2 ^ w : Nat) := by rw [mul_add, mul_one_div]
      _ ≤ (t' - t) * x + 1 := by
        rw [add_le_add_iff_left, div_le_one hN']
        exact hdN
  obtain ⟨h1, h2⟩ := hunits t
  obtain ⟨h1', h2'⟩ := hunits t'
  rw [mul_div_assoc]
  constructor
  · linarith
  · linarith

end

end Framework
