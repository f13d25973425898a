import Mathlib.Data.Nat.Bitwise
import Mathlib.Data.Nat.Count
import Mathlib.Data.Nat.ModEq

/-!
# Wrapping counters

A `w`-bit counter that only counts up stands for the number of steps it has
taken, modulo `2 ^ w`. The distance of two counters is exact while it is below
`2 ^ w` (`toNat_ahead_sub`), a ring whose size divides `2 ^ w` sees the same
slot for the counter as for the number (`slot_ahead`), and the comparison
`new - event - 1 < new - old` asks whether the counter has stepped over
`event` on its way from `old` to `new` (`passed_iff`). A bit of the counter is set in half of its
values over whole periods (`countP_ahead`).
-/

namespace Framework.Counter

variable {w : Nat}

/-- The counter `n` steps after `c`. -/
def ahead (c : BitVec w) (n : Nat) : BitVec w := c + BitVec.ofNat w n

@[simp] theorem ahead_zero (c : BitVec w) : ahead c 0 = c := by simp [ahead]

theorem ahead_ahead (c : BitVec w) (m n : Nat) : ahead (ahead c m) n = ahead c (m + n) := by
  simp only [ahead, BitVec.add_assoc, BitVec.ofNat_add]

theorem ahead_succ (c : BitVec w) (n : Nat) : ahead c n + 1#w = ahead c (n + 1) :=
  ahead_ahead c n 1

theorem toNat_ahead (c : BitVec w) (n : Nat) : (ahead c n).toNat = (c.toNat + n) % 2 ^ w := by
  simp [ahead, BitVec.toNat_add]

theorem ahead_sub (c : BitVec w) {m n : Nat} (h : m ≤ n) :
    ahead c n - ahead c m = BitVec.ofNat w (n - m) := by
  obtain ⟨k, rfl⟩ := Nat.exists_eq_add_of_le h
  rw [← ahead_ahead, Nat.add_sub_cancel_left, ahead, BitVec.add_comm (ahead c m)]
  exact BitVec.add_sub_cancel _ _

/-- The distance of two counters, while it is below `2 ^ w`. -/
theorem toNat_ahead_sub (c : BitVec w) {m n : Nat} (h : m ≤ n) (hn : n - m < 2 ^ w) :
    (ahead c n - ahead c m).toNat = n - m := by
  rw [ahead_sub c h, BitVec.toNat_ofNat, Nat.mod_eq_of_lt hn]

theorem ahead_eq_iff (c : BitVec w) {m n : Nat} (h : m ≤ n) (hn : n - m < 2 ^ w) :
    ahead c n = ahead c m ↔ n = m := by
  refine ⟨fun e => ?_, fun e => by rw [e]⟩
  have := toNat_ahead_sub c h hn
  rw [e, BitVec.sub_self, BitVec.toNat_zero] at this
  omega

theorem ahead_left_inj {c d : BitVec w} {n : Nat} (h : ahead c n = ahead d n) : c = d :=
  BitVec.add_left_inj _ |>.mp h

/-- A ring of a size dividing `2 ^ w` is indexed by the counter as by the
number it stands for. -/
theorem slot_ahead (c : BitVec w) (n : Nat) {q : Nat} (hq : q ∣ 2 ^ w) :
    (ahead c n).toNat % q = (c.toNat + n) % q := by
  rw [toNat_ahead, Nat.mod_mod_of_dvd _ hq]

/-- Two numbers less than `q` apart and in the same slot of a ring of size `q`
are equal. -/
theorem slot_inj {q a m n : Nat} (h : (a + m) % q = (a + n) % q) (hmn : m ≤ n) (hq : n - m < q) :
    m = n := by
  have h' : m ≡ n [MOD q] := Nat.ModEq.add_left_cancel' a h
  have := (Nat.modEq_iff_dvd' hmn).mp h'
  have := Nat.eq_zero_of_dvd_of_lt this hq
  omega

/-- On its way from `old`, `n` steps further, the counter took the value `ev`. -/
theorem passed_iff (old ev : BitVec w) {n : Nat} (hn : n < 2 ^ w) :
    ahead old n - ev - 1#w < ahead old n - old ↔ ∃ i < n, ev = ahead old i := by
  obtain ⟨d, hd, rfl⟩ : ∃ d < 2 ^ w, ev = ahead old d :=
    ⟨(ev - old).toNat, (ev - old).isLt, by
      rw [ahead, BitVec.ofNat_toNat, BitVec.setWidth_eq, BitVec.add_comm, BitVec.sub_add_cancel]⟩
  have hl : (ahead old n - old).toNat = n := by
    simpa using toNat_ahead_sub old (Nat.zero_le n) (by simpa using hn)
  rw [BitVec.lt_def, hl]
  rcases Nat.eq_zero_or_pos n with rfl | h0
  · simp
  rcases Nat.lt_or_ge d n with h | h
  · have hk : ahead old n - ahead old d - 1#w = BitVec.ofNat w (n - d - 1) := by
      rw [ahead_sub old h.le]
      obtain ⟨k, hk⟩ := Nat.exists_eq_add_of_lt h
      rw [show n - d = k + 1 by omega, BitVec.ofNat_add, Nat.add_sub_cancel]
      exact BitVec.add_sub_cancel _ _
    rw [hk, BitVec.toNat_ofNat, Nat.mod_eq_of_lt (by omega)]
    exact ⟨fun _ => ⟨d, h, rfl⟩, fun _ => by omega⟩
  · have hk : (ahead old n - ahead old d - 1#w).toNat = 2 ^ w - 1 - (d - n) := by
      have hs : ahead old n - ahead old d - 1#w = - BitVec.ofNat w (d - n + 1) := by
        rw [BitVec.ofNat_add, ← ahead_sub old h]
        simp only [BitVec.sub_eq_add_neg, BitVec.neg_add, BitVec.neg_neg]
        rw [BitVec.add_comm (ahead old n)]
      rw [hs, BitVec.toNat_neg, BitVec.toNat_ofNat, Nat.mod_eq_of_lt (a := d - n + 1) (by omega),
        Nat.mod_eq_of_lt (by omega)]
      omega
    rw [hk]
    refine ⟨fun hlt => absurd hlt (by omega), fun ⟨i, hi, he⟩ => ?_⟩
    have := (ahead_eq_iff old (by omega : i ≤ d) (by omega)).mp he
    omega

/-! ## Bits over time -/

/-- A period has as many numbers with `p` wherever it starts. -/
theorem count_period {p : Nat → Prop} [DecidablePred p] {a : Nat} (hp : ∀ n, p (n + a) ↔ p n)
    (c : Nat) : Nat.count (fun n => p (c + n)) a = Nat.count p a := by
  have h := (Nat.count_add p c a).symm.trans (Nat.count_add' p c a)
  simp only [hp] at h
  exact Nat.add_left_cancel h

theorem testBit_add_period (n b : Nat) : (n + 2 ^ (b + 1)).testBit b = n.testBit b := by
  rw [Nat.testBit_eq_decide_div_mod_eq, Nat.testBit_eq_decide_div_mod_eq, Nat.pow_succ,
    Nat.add_mul_div_left _ _ (Nat.two_pow_pos b), Nat.add_mod_right]

/-- The bit `b` is set in the second half of the first period. -/
theorem count_testBit_first (b : Nat) : Nat.count (fun n => n.testBit b) (2 ^ (b + 1)) = 2 ^ b := by
  have hlow : Nat.count (fun n => n.testBit b) (2 ^ b) = 0 :=
    Nat.count_of_forall_not fun n hn => by simp [Nat.testBit_lt_two_pow hn]
  have hhigh : Nat.count (fun n => (2 ^ b + n).testBit b) (2 ^ b) = 2 ^ b :=
    Nat.count_of_forall fun n hn => by
      simp [Nat.testBit_two_pow_add_eq, Nat.testBit_lt_two_pow hn]
  rw [Nat.pow_succ, Nat.mul_two, Nat.count_add, hlow, hhigh, Nat.zero_add]

/-- In whole periods the bit `b` of a number that counts up is set half of the time. -/
theorem count_testBit (c b k : Nat) :
    Nat.count (fun n => (c + n).testBit b) (k * 2 ^ (b + 1)) = k * 2 ^ b := by
  induction k with
  | zero => simp
  | succ k ih =>
    have hp := count_period (p := fun n => n.testBit b) (a := 2 ^ (b + 1))
      (fun n => by rw [testBit_add_period]) (c + k * 2 ^ (b + 1))
    rw [Nat.succ_mul, Nat.count_add, ih, Nat.succ_mul, ← count_testBit_first b, ← hp]
    simp only [Nat.add_assoc]

/-- So is the bit of a counter that wraps. -/
theorem countP_ahead (c : BitVec w) {b : Nat} (hb : b < w) (k : Nat) :
    (List.range (k * 2 ^ (b + 1))).countP (fun n => (ahead c n).getLsbD b) = k * 2 ^ b := by
  have hbit : ∀ n, (ahead c n).getLsbD b = (c.toNat + n).testBit b := fun n => by
    rw [BitVec.getLsbD, toNat_ahead, Nat.testBit_mod_two_pow, decide_eq_true hb, Bool.true_and]
  simp only [hbit]
  have h := count_testBit c.toNat b k
  rw [Nat.count] at h
  simpa using h
end Framework.Counter
