import Mathlib.Data.Nat.Basic
import Mathlib.Tactic.Ring

/-!
# Byte memory, little-endian words

A memory is the byte at each address. Reads and writes of byte strings
(`Mem.read`, `Mem.write`), of little-endian words (`Mem.word`, `Mem.putWord`),
reads after writes to the same place (`word_putWord`) and to another one
(`word_putWord_sep`), and what a write leaves alone (`SameOn`).
-/

namespace Framework

abbrev Byte := BitVec 8

/-- The byte at each address. -/
def Mem := Nat → Byte

/-! ## Little-endian words -/

/-- The `n` low bytes of `v`, least significant first. -/
def leBytes : Nat → Nat → List Byte
  | 0, _ => []
  | n + 1, v => BitVec.ofNat 8 v :: leBytes n (v / 256)

/-- The number whose bytes, least significant first, are `bs`. -/
def ofLE : List Byte → Nat
  | [] => 0
  | b :: bs => b.toNat + 256 * ofLE bs

@[simp] theorem length_leBytes (n v : Nat) : (leBytes n v).length = n := by
  induction n generalizing v with
  | zero => rfl
  | succ n ih => simp [leBytes, ih]

theorem ofLE_leBytes (n v : Nat) : ofLE (leBytes n v) = v % 256 ^ n := by
  induction n generalizing v with
  | zero => simp [leBytes, ofLE, Nat.mod_one]
  | succ n ih =>
    have hb : (BitVec.ofNat 8 v).toNat = v % 256 := by simp
    rw [leBytes, ofLE, ih, hb, pow_succ', Nat.mod_mul]

/-- A word has the value of its bytes. -/
theorem ofNat_ofLE_leBytes (n : Nat) (v : BitVec (8 * n)) :
    BitVec.ofNat (8 * n) (ofLE (leBytes n v.toNat)) = v := by
  have hv : v.toNat < 256 ^ n := by
    have := v.isLt
    rwa [Nat.pow_mul] at this
  rw [ofLE_leBytes, Nat.mod_eq_of_lt hv, BitVec.ofNat_toNat, BitVec.setWidth_eq]

theorem leBytes_ofLE (bs : List Byte) : leBytes bs.length (ofLE bs) = bs := by
  induction bs with
  | nil => rfl
  | cons b bs ih =>
    have hb : (ofLE (b :: bs)) / 256 = ofLE bs := by
      have := b.isLt
      rw [ofLE]
      omega
    rw [List.length_cons, leBytes, hb, ih]
    refine congrArg (· :: bs) (BitVec.eq_of_toNat_eq ?_)
    have := b.isLt
    rw [ofLE, BitVec.toNat_ofNat]
    omega

theorem ofLE_lt (bs : List Byte) : ofLE bs < 256 ^ bs.length := by
  induction bs with
  | nil => decide
  | cons b bs ih =>
    have := b.isLt
    rw [List.length_cons, ofLE, pow_succ']
    omega

namespace Mem

/-- The `n` bytes at `a`. -/
def read (m : Mem) (a n : Nat) : List Byte := (List.range n).map fun i => m (a + i)

/-- The memory with `bs` stored at `a`. -/
def write (m : Mem) (a : Nat) (bs : List Byte) : Mem := fun x =>
  if a ≤ x then bs.getD (x - a) (m x) else m x

/-- The little-endian word of width `w` at `a`. -/
def word (m : Mem) (a w : Nat) : BitVec w := BitVec.ofNat w (ofLE (m.read a (w / 8)))

/-- The memory with the word `v` stored at `a`, little-endian. -/
def putWord {w : Nat} (m : Mem) (a : Nat) (v : BitVec w) : Mem :=
  m.write a (leBytes (w / 8) v.toNat)

/-- `m` and `m'` hold the same `n` bytes at `a`. -/
def SameOn (m m' : Mem) (a n : Nat) : Prop := ∀ i < n, m' (a + i) = m (a + i)

instance (m m' : Mem) (a n : Nat) : Decidable (m.SameOn m' a n) :=
  inferInstanceAs (Decidable (∀ i < n, m' (a + i) = m (a + i)))

@[simp] theorem length_read (m : Mem) (a n : Nat) : (m.read a n).length = n := by
  simp [read]

theorem read_add (m : Mem) (a n k : Nat) : m.read a (n + k) = m.read a n ++ m.read (a + n) k := by
  rw [read, List.range_add, List.map_append, List.map_map]
  refine congrArg (m.read a n ++ ·) (List.map_congr_left fun i _ => ?_)
  exact congrArg m (Nat.add_assoc a n i).symm

theorem read_congr {m m' : Mem} {a n : Nat} (h : m.SameOn m' a n) : m'.read a n = m.read a n :=
  List.map_congr_left fun i hi => h i (List.mem_range.mp hi)

/-- A word has the bytes it is loaded from. -/
theorem leBytes_word (m : Mem) (h n : Nat) : leBytes n (m.word h (8 * n)).toNat = m.read h n := by
  have hn : 8 * n / 8 = n := by omega
  have hlt := ofLE_lt (m.read h n)
  rw [length_read, show (256 : Nat) = 2 ^ 8 from rfl, ← Nat.pow_mul] at hlt
  have hr := leBytes_ofLE (m.read h n)
  rw [length_read] at hr
  rw [word, hn, BitVec.toNat_ofNat, Nat.mod_eq_of_lt hlt, hr]

theorem word_congr {m m' : Mem} {a w : Nat} (h : m.SameOn m' a (w / 8)) :
    m'.word a w = m.word a w := by
  simp only [word, read_congr h]

theorem word_of_zero {m : Mem} {a w : Nat} (h : ∀ i < w / 8, m (a + i) = 0) : m.word a w = 0 := by
  have hz : ∀ l : List Nat, ofLE (l.map fun _ => (0 : Byte)) = 0 := by
    intro l
    induction l with
    | nil => rfl
    | cons x l ih => rw [List.map_cons, ofLE, ih]; rfl
  have hr : m.read a (w / 8) = (List.range (w / 8)).map fun _ => (0 : Byte) :=
    List.map_congr_left fun i hi => h i (List.mem_range.mp hi)
  rw [word, hr, hz]
  rfl

theorem write_of_lt {m : Mem} {a x : Nat} {bs : List Byte} (h : x < a) : m.write a bs x = m x := by
  simp [write, Nat.not_le.mpr h]

theorem write_of_ge {m : Mem} {a x : Nat} {bs : List Byte} (h : a + bs.length ≤ x) :
    m.write a bs x = m x := by
  have : ¬ x - a < bs.length := by omega
  simp [write, List.getD_eq_getElem?_getD, List.getElem?_eq_none (Nat.not_lt.mp this)]

/-- A byte outside the range written. -/
theorem write_apply {m : Mem} {a x : Nat} {bs : List Byte} (h : x < a ∨ a + bs.length ≤ x) :
    m.write a bs x = m x :=
  h.elim write_of_lt write_of_ge

theorem write_apply_in {m : Mem} {a i : Nat} {bs : List Byte} (h : i < bs.length) :
    m.write a bs (a + i) = bs[i] := by
  simp [write, h]

/-- A write leaves every range it does not overlap. -/
theorem sameOn_write {m : Mem} {a n b : Nat} {bs : List Byte}
    (h : a + n ≤ b ∨ b + bs.length ≤ a) : m.SameOn (m.write b bs) a n :=
  fun i hi => write_apply (by omega)

theorem read_write_self (m : Mem) (a : Nat) (bs : List Byte) :
    (m.write a bs).read a bs.length = bs := by
  refine List.ext_getElem (by simp) fun i h₁ h₂ => ?_
  simp only [read, List.getElem_map, List.getElem_range]
  exact write_apply_in h₂

theorem write_nil (m : Mem) (a : Nat) : m.write a [] = m :=
  funext fun x => write_apply (Nat.lt_or_ge x a)

theorem write_append (m : Mem) (a : Nat) (bs cs : List Byte) :
    m.write a (bs ++ cs) = (m.write a bs).write (a + bs.length) cs := by
  funext x
  rcases Nat.lt_or_ge x a with h | h
  · rw [write_of_lt h, write_of_lt (by omega), write_of_lt h]
  · obtain ⟨i, rfl⟩ := Nat.exists_eq_add_of_le h
    rcases Nat.lt_or_ge i bs.length with hi | hi
    · rw [write_of_lt (m := m.write a bs) (by omega),
        write_apply_in (by rw [List.length_append]; omega), write_apply_in hi,
        List.getElem_append_left hi]
    · rcases Nat.lt_or_ge i (bs ++ cs).length with hl | hl
      · rw [write_apply_in hl, List.getElem_append_right hi]
        rw [List.length_append] at hl
        have := write_apply_in (m := m.write a bs) (a := a + bs.length)
          (show i - bs.length < cs.length by omega)
        rw [show a + bs.length + (i - bs.length) = a + i by omega] at this
        exact this.symm
      · rw [List.length_append] at hl
        rw [write_of_ge (by rw [List.length_append]; omega),
          write_of_ge (m := m.write a bs) (by omega), write_of_ge (by omega)]

theorem word_putWord_sep {w w' : Nat} {m : Mem} {a b : Nat} {v : BitVec w'}
    (h : a + w / 8 ≤ b ∨ b + w' / 8 ≤ a) : (m.putWord b v).word a w = m.word a w :=
  word_congr (sameOn_write (by simpa using h))

theorem word_putWord {n : Nat} (m : Mem) (a : Nat) (v : BitVec (8 * n)) :
    (m.putWord a v).word a (8 * n) = v := by
  have hn : 8 * n / 8 = n := by omega
  have hr : (m.write a (leBytes n v.toNat)).read a n = leBytes n v.toNat := by
    simpa using read_write_self m a (leBytes n v.toNat)
  simp only [word, putWord, hn, hr, ofNat_ofLE_leBytes]

theorem word_putWord16 (m : Mem) (a : Nat) (v : BitVec 16) : (m.putWord a v).word a 16 = v :=
  word_putWord (n := 2) m a v

namespace SameOn

theorem refl (m : Mem) (a n : Nat) : m.SameOn m a n := fun _ _ => rfl

theorem trans {m₁ m₂ m₃ : Mem} {a n : Nat} (h₁ : m₁.SameOn m₂ a n) (h₂ : m₂.SameOn m₃ a n) :
    m₁.SameOn m₃ a n := fun i hi => (h₂ i hi).trans (h₁ i hi)

/-- Fewer bytes. -/
theorem sub {m m' : Mem} {a n b k : Nat} (h : m.SameOn m' a n) (hl : a ≤ b) (hr : b + k ≤ a + n) :
    m.SameOn m' b k := fun i hi => by
  have := h (b - a + i) (by omega)
  rwa [show a + (b - a + i) = b + i by omega] at this

end SameOn

end Mem

end Framework
