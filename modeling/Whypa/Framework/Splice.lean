import Whypa.Framework.Bytes

/-!
# Parts of a list

`slice` is a part of a list and `splice` overwrites one. What is read back from the
part that was overwritten (`slice_splice_self`) and from another one
(`slice_splice_sep`); `putSlice` is the write that fails if the part is not in the
list.
-/

namespace Framework

variable {α : Type} {l bs : List α} {off a n : Nat}

/-- The `n` elements at `off`. -/
def slice (l : List α) (off n : Nat) : List α := (l.drop off).take n

/-- The list with `bs` in the place of what is at `off`. -/
def splice (l : List α) (off : Nat) (bs : List α) : List α :=
  l.take off ++ bs ++ l.drop (off + bs.length)

/-- Overwrites a part of the list, if it is one. -/
def putSlice (l : List α) (off : Nat) (bs : List α) : Option (List α) :=
  if off + bs.length ≤ l.length then some (splice l off bs) else none

theorem putSlice_eq_some {l' : List α} :
    putSlice l off bs = some l' ↔ off + bs.length ≤ l.length ∧ l' = splice l off bs := by
  rw [putSlice, Option.ite_none_right_eq_some, Option.some.injEq, eq_comm (a := l')]

theorem putSlice_of_le (h : off + bs.length ≤ l.length) : putSlice l off bs = some (splice l off bs) :=
  if_pos h

theorem exists_putSlice (l : List α) (off : Nat) (bs : List α) {n : Nat} (hl : l.length = n)
    (h : off + bs.length ≤ n) : ∃ l', putSlice l off bs = some l' ∧ l'.length = n := by
  subst hl
  refine ⟨_, putSlice_of_le h, ?_⟩
  simp only [splice, List.length_append, List.length_take, List.length_drop]
  omega

theorem length_splice (h : off + bs.length ≤ l.length) : (splice l off bs).length = l.length := by
  obtain ⟨l', hl', hlen⟩ := exists_putSlice l off bs rfl h
  rw [← (putSlice_eq_some.mp hl').2, hlen]

theorem getElem?_slice (l : List α) (off n i : Nat) :
    (slice l off n)[i]? = if i < n then l[off + i]? else none := by
  rw [slice, List.getElem?_take]
  split
  · rw [List.getElem?_drop]
  · rfl

/-- Each element: one of `bs` in the part that is overwritten, the old one elsewhere. -/
theorem getElem?_splice (h : off + bs.length ≤ l.length) (i : Nat) :
    (splice l off bs)[i]? =
      if off ≤ i ∧ i < off + bs.length then bs[i - off]? else l[i]? := by
  have hlen : (l.take off).length = off := by rw [List.length_take]; omega
  rw [splice, List.append_assoc]
  by_cases h1 : i < off
  · rw [if_neg (by omega), List.getElem?_append_left (by omega), List.getElem?_take_of_lt h1]
  · rw [List.getElem?_append_right (by omega), hlen]
    by_cases h2 : i < off + bs.length
    · rw [if_pos ⟨by omega, h2⟩, List.getElem?_append_left (by omega)]
    · rw [if_neg (by omega), List.getElem?_append_right (by omega), List.getElem?_drop]
      exact congrArg _ (by omega)

theorem slice_splice_self (h : off + bs.length ≤ l.length) :
    slice (splice l off bs) off bs.length = bs := by
  refine List.ext_getElem? fun i => ?_
  rw [getElem?_slice, getElem?_splice h]
  by_cases hi : i < bs.length
  · rw [if_pos hi, if_pos (by omega), Nat.add_sub_cancel_left]
  · rw [if_neg hi, List.getElem?_eq_none (by omega)]

theorem slice_splice_sep (h : off + bs.length ≤ l.length)
    (hs : a + n ≤ off ∨ off + bs.length ≤ a) : slice (splice l off bs) a n = slice l a n := by
  refine List.ext_getElem? fun i => ?_
  rw [getElem?_slice, getElem?_slice, getElem?_splice h]
  split
  · rw [if_neg (by omega)]
  · rfl

/-- One write right after the other. -/
theorem splice_splice {cs : List α} (h : off + bs.length + cs.length ≤ l.length) :
    splice (splice l off bs) (off + bs.length) cs = splice l off (bs ++ cs) := by
  have hbs : off + bs.length ≤ l.length := by omega
  refine List.ext_getElem? fun i => ?_
  rw [getElem?_splice (by rw [length_splice hbs]; exact h), getElem?_splice hbs,
    getElem?_splice (by rw [List.length_append]; omega), List.length_append]
  by_cases h1 : i < off
  · rw [if_neg (by omega), if_neg (by omega), if_neg (by omega)]
  by_cases h2 : i < off + bs.length
  · rw [if_neg (by omega), if_pos (by omega), if_pos (by omega), List.getElem?_append_left (by omega)]
  by_cases h3 : i < off + bs.length + cs.length
  · rw [if_pos (by omega), if_pos (by omega), List.getElem?_append_right (by omega)]
    exact congrArg _ (by omega)
  · rw [if_neg (by omega), if_neg (by omega), if_neg (by omega)]

theorem splice_nil (l : List α) (off : Nat) : splice l off [] = l := by
  simp [splice]

theorem drop_splice_of_le (h : off + bs.length ≤ l.length) (hs : off + bs.length ≤ a) :
    (splice l off bs).drop a = l.drop a := by
  refine List.ext_getElem? fun i => ?_
  rw [List.getElem?_drop, List.getElem?_drop, getElem?_splice h, if_neg (by omega)]

/-- A part of the tail depends on the tail alone. -/
theorem slice_congr {l' : List α} {k : Nat} (h : l'.drop k = l.drop k) (hk : k ≤ a) :
    slice l' a n = slice l a n := by
  obtain ⟨i, rfl⟩ := Nat.exists_eq_add_of_le hk
  rw [slice, slice, ← List.drop_drop, h, List.drop_drop]

theorem length_slice (h : off + n ≤ l.length) : (slice l off n).length = n := by
  simp only [slice, List.length_take, List.length_drop]
  omega

/-- A part of a part. -/
theorem slice_slice {b k : Nat} (h : b + k ≤ n) : slice (slice l off n) b k = slice l (off + b) k := by
  refine List.ext_getElem? fun i => ?_
  rw [getElem?_slice, getElem?_slice, getElem?_slice]
  split
  · rw [if_pos (by omega), Nat.add_assoc]
  · rfl

theorem length_flatMap_const {β : Type} {f : β → List α} (hf : ∀ x, (f x).length = n) (xs : List β) :
    (xs.flatMap f).length = n * xs.length := by
  induction xs with
  | nil => rfl
  | cons x xs ih => rw [List.flatMap_cons, List.length_append, hf, ih, List.length_cons, Nat.mul_succ,
      Nat.add_comm]

/-- Of records of one size, one after the other, the one with the number `i`. -/
theorem slice_flatMap {β : Type} {f : β → List α} (hf : ∀ x, (f x).length = n) {xs : List β} {x : β}
    {i : Nat} (hi : xs[i]? = some x) : slice (xs.flatMap f) (n * i) n = f x := by
  induction xs generalizing i with
  | nil => cases hi
  | cons y xs ih =>
    rw [List.flatMap_cons]
    cases i with
    | zero =>
      obtain rfl := Option.some.inj hi
      rw [Nat.mul_zero, slice, List.drop_zero, List.take_left' (hf y)]
    | succ i =>
      rw [Nat.mul_succ, Nat.add_comm, slice, ← List.drop_drop, List.drop_left' (hf y)]
      exact ih hi

/-- A part of the part of a memory. -/
theorem slice_read {m : Mem} {k : Nat} (h : off + k ≤ n) : slice (m.read a n) off k = m.read (a + off) k := by
  refine List.ext_getElem? fun i => ?_
  rw [getElem?_slice]
  split
  · rename_i hi
    simp only [Mem.read, List.getElem?_map]
    rw [List.getElem?_range (by omega), List.getElem?_range hi]
    exact congrArg some (congrArg m (by omega))
  · rename_i hi
    exact (List.getElem?_eq_none (by rw [Mem.length_read]; omega)).symm

/-- A part of what was written. -/
theorem read_write_slice (m : Mem) {bs : List Byte} (h : off + n ≤ bs.length) :
    (m.write a bs).read (a + off) n = slice bs off n := by
  rw [← slice_read h, Mem.read_write_self]

/-- A word in the bytes at an address. -/
theorem word_of_read {m : Mem} {bs : List Byte} {v : BitVec (8 * n)} (hr : m.read a bs.length = bs)
    (h : off + n ≤ bs.length) (hs : slice bs off n = leBytes n v.toNat) :
    m.word (a + off) (8 * n) = v := by
  have hn : 8 * n / 8 = n := by omega
  rw [← hr, slice_read h] at hs
  rw [Mem.word, hn, hs, ofNat_ofLE_leBytes]

end Framework
