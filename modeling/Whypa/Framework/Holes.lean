import Mathlib.Data.List.Basic
import Mathlib.Data.Nat.Basic

/-!
# A memory with holes

The value at each address that has one (`Holed`). An access of `n` values goes as
far as there are values (`extent`): it reads them (`read`), or stores as many
(`write`). Accesses that lie end to end are one (`extent_add`, `read_add`,
`write_write`), and a store makes no hole and fills none (`extent_write`).
-/

namespace Framework

/-- The value at each address, but for the holes. -/
abbrev Holed (α : Type) := Nat → Option α

namespace Holed

variable {α : Type}

/-- How many of the `n` addresses from `a` on come before the first hole. -/
def extent (m : Holed α) (a : Nat) : Nat → Nat
  | 0 => 0
  | n + 1 => if (m a).isSome then m.extent (a + 1) n + 1 else 0

/-- The values at `a`, `n` of them, or as many as there are before a hole. -/
def read (m : Holed α) (a : Nat) : Nat → List α
  | 0 => []
  | n + 1 => match m a with
    | some v => v :: m.read (a + 1) n
    | none => []

/-- The memory with `bs` stored at `a`, as far as there is no hole. -/
def write (m : Holed α) (a : Nat) (bs : List α) : Holed α := fun x =>
  if a ≤ x ∧ x < a + m.extent a bs.length then bs[x - a]? else m x

variable {m m' : Holed α} {a b k n x : Nat} {bs cs : List α}

theorem extent_le (m : Holed α) (a n : Nat) : m.extent a n ≤ n := by
  induction n generalizing a with
  | zero => exact le_rfl
  | succ n ih =>
    rw [extent]
    split
    · exact Nat.succ_le_succ (ih (a + 1))
    · exact Nat.zero_le _

theorem isSome_of_lt_extent (h : k < m.extent a n) : (m (a + k)).isSome := by
  induction n generalizing a k with
  | zero => cases h
  | succ n ih =>
    rw [extent] at h
    split at h
    · rename_i ha
      cases k with
      | zero => exact ha
      | succ k =>
        rw [show a + (k + 1) = a + 1 + k by omega]
        exact ih (Nat.lt_of_succ_lt_succ h)
    · cases h

/-- The extent is what comes before the first hole. -/
theorem extent_eq_iff : m.extent a n = k ↔
    k ≤ n ∧ (∀ i < k, (m (a + i)).isSome) ∧ (k = n ∨ m (a + k) = none) := by
  induction n generalizing a k with
  | zero =>
    refine ⟨fun h => ⟨h ▸ le_rfl, ?_, .inl h.symm⟩, fun h => (Nat.le_zero.mp h.1).symm⟩
    rw [← h]
    exact nofun
  | succ n ih =>
    rw [extent]
    split
    · rename_i ha
      cases k with
      | zero =>
        refine ⟨nofun, fun ⟨_, _, h⟩ => ?_⟩
        rcases h with h | h
        · cases h
        · have h : m a = none := h
          rw [h] at ha
          cases ha
      | succ k =>
        rw [Nat.add_right_cancel_iff, ih, Nat.succ_le_succ_iff, Nat.add_right_cancel_iff]
        refine and_congr_right fun _ => and_congr ⟨fun h i hi => ?_, fun h i hi => ?_⟩ ?_
        · cases i with
          | zero => exact ha
          | succ i =>
            rw [show a + (i + 1) = a + 1 + i by omega]
            exact h i (Nat.lt_of_succ_lt_succ hi)
        · rw [show a + 1 + i = a + (i + 1) by omega]
          exact h (i + 1) (Nat.succ_lt_succ hi)
        · rw [show a + (k + 1) = a + 1 + k by omega]
    · rename_i ha
      have ha : m a = none := Option.not_isSome_iff_eq_none.mp ha
      refine ⟨fun h => ?_, fun ⟨_, h, _⟩ => ?_⟩
      · rw [← h]
        exact ⟨Nat.zero_le _, nofun, .inr ha⟩
      · cases k with
        | zero => rfl
        | succ k =>
          have := h 0 (Nat.succ_pos k)
          rw [Nat.add_zero, ha] at this
          cases this

theorem extent_congr (h : ∀ x, (m' x).isSome = (m x).isSome) : m'.extent a n = m.extent a n := by
  induction n generalizing a with
  | zero => rfl
  | succ n ih => rw [extent, extent, h, ih]

@[simp] theorem length_read (m : Holed α) (a n : Nat) : (m.read a n).length = m.extent a n := by
  induction n generalizing a with
  | zero => rfl
  | succ n ih =>
    rw [read, extent]
    cases m a with
    | some b => exact congrArg Nat.succ (ih (a + 1))
    | none => rfl

theorem getElem?_read (h : k < m.extent a n) : (m.read a n)[k]? = m (a + k) := by
  induction n generalizing a k with
  | zero => cases h
  | succ n ih =>
    rw [read]
    rw [extent] at h
    cases ha : m a with
    | none =>
      rw [ha] at h
      cases h
    | some b =>
      rw [ha] at h
      cases k with
      | zero => exact ha.symm
      | succ k =>
        rw [show a + (k + 1) = a + 1 + k by omega]
        exact ih (Nat.lt_of_succ_lt_succ h)

/-- An access of values that are there goes on behind them. -/
theorem extent_add (h : m.extent a k = k) : m.extent a (k + n) = k + m.extent (a + k) n := by
  obtain ⟨-, hsome, -⟩ := extent_eq_iff.mp h
  have hle := m.extent_le (a + k) n
  obtain ⟨-, hsome', hend⟩ := extent_eq_iff.mp (rfl : m.extent (a + k) n = _)
  refine extent_eq_iff.mpr ⟨Nat.add_le_add_left hle k, fun i hi => ?_, ?_⟩
  · by_cases hik : i < k
    · exact hsome i hik
    · have := hsome' (i - k) (by omega)
      rwa [show a + k + (i - k) = a + i by omega] at this
  · rw [← Nat.add_assoc]
    exact hend.imp_left (congrArg (k + ·))

theorem read_add (h : m.extent a k = k) : m.read a (k + n) = m.read a k ++ m.read (a + k) n := by
  refine List.ext_getElem? fun i => ?_
  have hadd := extent_add (n := n) h
  have hlen : (m.read a k).length = k := by rw [length_read, h]
  by_cases hi : i < k + m.extent (a + k) n
  · rw [getElem?_read (by rwa [hadd]), List.getElem?_append, hlen]
    split
    · rename_i hik
      rw [getElem?_read (by rwa [h])]
    · rename_i hik
      rw [getElem?_read (by omega), show a + k + (i - k) = a + i by omega]
  · rw [List.getElem?_eq_none, List.getElem?_eq_none]
    · rw [List.length_append, hlen, length_read]
      omega
    · rw [length_read]
      omega

theorem extent_extent (m : Holed α) (a n : Nat) : m.extent a (m.extent a n) = m.extent a n := by
  obtain ⟨-, hsome, -⟩ := extent_eq_iff.mp (rfl : m.extent a n = _)
  exact extent_eq_iff.mpr ⟨le_rfl, hsome, .inl rfl⟩

theorem read_extent (m : Holed α) (a n : Nat) : m.read a (m.extent a n) = m.read a n := by
  have hk := m.extent_extent a n
  refine List.ext_getElem? fun k => ?_
  by_cases h : k < m.extent a n
  · rw [getElem?_read h, getElem?_read (hk.symm ▸ h)]
  · rw [List.getElem?_eq_none, List.getElem?_eq_none]
    · rw [length_read]
      omega
    · rw [length_read, hk]
      omega

theorem isSome_write (m : Holed α) (a : Nat) (bs : List α) (x : Nat) :
    (m.write a bs x).isSome = (m x).isSome := by
  unfold write
  split
  · rename_i h
    have hk : x - a < m.extent a bs.length := by omega
    have hx := isSome_of_lt_extent hk
    rw [show a + (x - a) = x by omega] at hx
    rw [hx, List.getElem?_eq_getElem (Nat.lt_of_lt_of_le hk (m.extent_le a _))]
    rfl
  · rfl

/-- A store makes no hole and fills none. -/
theorem extent_write (m : Holed α) (a : Nat) (bs : List α) (b n : Nat) :
    (m.write a bs).extent b n = m.extent b n := extent_congr (m.isSome_write a bs)

/-- Two stores, the second behind the first, are one. -/
theorem write_write (h : m.extent a bs.length = bs.length) :
    (m.write a bs).write (a + bs.length) cs = m.write a (bs ++ cs) := by
  have hadd := extent_add (n := cs.length) h
  funext x
  rw [write, extent_write, write, h, write, List.length_append, hadd, List.getElem?_append]
  by_cases hx : a ≤ x ∧ x < a + bs.length
  · rw [if_neg (by omega), if_pos hx, if_pos (by omega), if_pos (by omega)]
  · by_cases hx' : a + bs.length ≤ x ∧ x < a + bs.length + m.extent (a + bs.length) cs.length
    · rw [if_pos hx', if_pos (by omega), if_neg (by omega), Nat.sub_sub]
    · rw [if_neg hx', if_neg hx, if_neg (by omega)]

/-- A store of what there is room for. -/
theorem write_take (m : Holed α) (a : Nat) (bs : List α) :
    m.write a (bs.take (m.extent a bs.length)) = m.write a bs := by
  have hle := m.extent_le a bs.length
  funext x
  rw [write, write, List.length_take, Nat.min_eq_left hle, extent_extent]
  split
  · rw [List.getElem?_take_of_lt (by omega)]
  · rfl

end Holed

end Framework
