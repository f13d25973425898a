import Mathlib.Algebra.Ring.Nat

/-!
# Fixed-width integer arithmetic

`checkedAdd` reports an overflow. `plainAdd` is the operator `+` of a build whose
overflow checks are on (`ck = true`: an overflow is a panic, `none`) or off (it
wraps), and `plainSub`, `plainMul`, `plainShl` and `plainShr` are its `-`, `*`, `<<`
and `>>`, and `plainNeg` the `-` of a signed integer. `plainDiv` panics in every build.
A loop none of whose iterations panics is a fold (`foldlM_eq_some`).
-/

namespace Framework

variable {w : Nat}

def checkedAdd (a b : BitVec w) : Option (BitVec w) :=
  if a.toNat + b.toNat < 2 ^ w then some (a + b) else none

def plainAdd (ck : Bool) (a b : BitVec w) : Option (BitVec w) :=
  if a.toNat + b.toNat < 2 ^ w ∨ ck = false then some (a + b) else none

def plainSub (ck : Bool) (a b : BitVec w) : Option (BitVec w) :=
  if b.toNat ≤ a.toNat ∨ ck = false then some (a - b) else none

def plainMul (ck : Bool) (a b : BitVec w) : Option (BitVec w) :=
  if a.toNat * b.toNat < 2 ^ w ∨ ck = false then some (a * b) else none

/-- The least integer has no negation. -/
def plainNeg (ck : Bool) (a : BitVec w) : Option (BitVec w) :=
  if a ≠ BitVec.intMin w ∨ ck = false then some (-a) else none

def plainDiv (a b : BitVec w) : Option (BitVec w) := if b = 0 then none else some (a / b)

/-- Without checks the distance is taken modulo the width. -/
def plainShl (ck : Bool) (a : BitVec w) (n : Nat) : Option (BitVec w) :=
  if n < w ∨ ck = false then some (a <<< (n % w)) else none

def plainShr (ck : Bool) (a : BitVec w) (n : Nat) : Option (BitVec w) :=
  if n < w ∨ ck = false then some (a >>> (n % w)) else none

theorem checkedAdd_eq_some {a b c : BitVec w} :
    checkedAdd a b = some c ↔ a.toNat + b.toNat < 2 ^ w ∧ c = a + b := by
  unfold checkedAdd
  split
  · rename_i h
    simp [h, eq_comm]
  · rename_i h
    simp [h]

theorem checkedAdd_of_lt {a b : BitVec w} (h : a.toNat + b.toNat < 2 ^ w) :
    checkedAdd a b = some (a + b) := checkedAdd_eq_some.mpr ⟨h, rfl⟩

theorem checkedAdd_ofNat {x n : Nat} {b : BitVec w} (hx : x < 2 ^ w) (hn : n < 2 ^ w) :
    checkedAdd (BitVec.ofNat w x) (BitVec.ofNat w n) = some b ↔
      x + n < 2 ^ w ∧ b = BitVec.ofNat w (x + n) := by
  rw [checkedAdd_eq_some, BitVec.toNat_ofNat, BitVec.toNat_ofNat, Nat.mod_eq_of_lt hx,
    Nat.mod_eq_of_lt hn, BitVec.ofNat_add]

theorem plainAdd_of_lt (ck : Bool) {a b : BitVec w} (h : a.toNat + b.toNat < 2 ^ w) :
    plainAdd ck a b = some (a + b) := if_pos (.inl h)

/-- A build that checks for overflow has checked. -/
theorem plainAdd_eq_some {a b c : BitVec w} (h : plainAdd true a b = some c) :
    a.toNat + b.toNat < 2 ^ w ∧ c = a + b := by
  obtain ⟨hlt, hc⟩ := Option.ite_none_right_eq_some.mp h
  exact ⟨hlt.resolve_right (by decide), (Option.some.inj hc).symm⟩

theorem plainAdd_checked (a b : BitVec w) :
    plainAdd true a b = none ∨ plainAdd true a b = plainAdd false a b := by
  by_cases h : a.toNat + b.toNat < 2 ^ w
  · exact .inr (by rw [plainAdd_of_lt _ h, plainAdd_of_lt _ h])
  · exact .inl (if_neg (by simp [h]))

theorem isSome_plainAdd {a b : BitVec w} : (plainAdd true a b).isSome ↔ a.toNat + b.toNat < 2 ^ w := by
  unfold plainAdd
  split <;> simp_all

theorem plainSub_of_le (ck : Bool) {a b : BitVec w} (h : b.toNat ≤ a.toNat) :
    plainSub ck a b = some (a - b) := if_pos (.inl h)

theorem plainSub_of_gt (ck : Bool) {a b : BitVec w} (h : a.toNat < b.toNat) :
    plainSub ck a b = if ck then none else some (a - b) := by
  cases ck with
  | true => exact if_neg (by simp [h])
  | false => exact if_pos (.inr rfl)

theorem plainMul_of_lt (ck : Bool) {a b : BitVec w} (h : a.toNat * b.toNat < 2 ^ w) :
    plainMul ck a b = some (a * b) := if_pos (.inl h)

theorem plainShl_of_lt (ck : Bool) (a : BitVec w) {n : Nat} (h : n < w) :
    plainShl ck a n = some (a <<< n) := by
  rw [plainShl, if_pos (.inl h), Nat.mod_eq_of_lt h]

theorem plainShr_of_lt (ck : Bool) (a : BitVec w) {n : Nat} (h : n < w) :
    plainShr ck a n = some (a >>> n) := by
  rw [plainShr, if_pos (.inl h), Nat.mod_eq_of_lt h]

theorem foldlM_eq_some {σ ι : Type} {f : σ → ι → Option σ} {g : σ → ι → σ} {l : List ι}
    (h : ∀ s, ∀ i ∈ l, f s i = some (g s i)) (s : σ) : l.foldlM f s = some (l.foldl g s) := by
  induction l generalizing s with
  | nil => rfl
  | cons i l ih =>
    rw [List.foldlM_cons, h s i (List.mem_cons_self ..), List.foldl_cons]
    exact ih (fun s j hj => h s j (List.mem_cons_of_mem i hj)) (g s i)

theorem toNat_ofNat_of_lt {n : Nat} (hn : n < 2 ^ w) : (BitVec.ofNat w n).toNat = n := by
  rw [BitVec.toNat_ofNat, Nat.mod_eq_of_lt hn]

theorem toNat_ofNat_sub_one {n : Nat} (h1 : 1 ≤ n) (hn : n < 2 ^ w) :
    (BitVec.ofNat w n - 1).toNat = n - 1 := by
  have hsub : BitVec.ofNat w n - BitVec.ofNat w 1 = BitVec.ofNat w (n - 1) :=
    BitVec.ofNat_sub_ofNat_of_le n 1 (Nat.lt_of_le_of_lt h1 hn) h1
  rw [show BitVec.ofNat w n - 1 = _ from hsub, BitVec.toNat_ofNat, Nat.mod_eq_of_lt (by omega)]

end Framework
