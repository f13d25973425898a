import Mathlib.Data.List.Nodup
import Whypa.Framework.Bytes

/-!
# Reads and writes at lists of addresses

`Mem.gather` reads the bytes at a list of addresses, `Mem.scatter` stores bytes there, one
after the other: what a device does with buffers that are spread over memory. Reads and
writes at consecutive addresses are instances (`read_eq_gather`, `write_eq_scatter`), the
addresses may be split anywhere (`scatter_append`), and bytes stored at different
addresses are read back (`gather_scatter`).
-/

namespace Framework

namespace Mem

/-- The bytes at the addresses. -/
def gather (m : Mem) (as : List Nat) : List Byte := as.map fun a => m a

/-- The memory with the bytes stored at the addresses; what one list has more of than the
other is left out. -/
def scatter (m : Mem) : List Nat → List Byte → Mem
  | a :: as, b :: bs => scatter (m.write a [b]) as bs
  | _, _ => m

variable {m : Mem} {as as' : List Nat} {bs bs' : List Byte} {x : Nat}

@[simp] theorem length_gather (m : Mem) (as : List Nat) : (m.gather as).length = as.length :=
  List.length_map _

theorem read_eq_gather (m : Mem) (a n : Nat) :
    m.read a n = m.gather ((List.range n).map fun i => a + i) := by
  rw [gather, List.map_map]
  rfl

theorem gather_append (m : Mem) (as as' : List Nat) : m.gather (as ++ as') = m.gather as ++ m.gather as' :=
  List.map_append

@[simp] theorem scatter_nil (m : Mem) (as : List Nat) : m.scatter as [] = m := by
  cases as <;> rfl

@[simp] theorem scatter_nil_left (m : Mem) (bs : List Byte) : m.scatter [] bs = m := rfl

/-- A byte whose address is not in the list. -/
theorem scatter_apply (h : x ∉ as) : m.scatter as bs x = m x := by
  induction as generalizing m bs with
  | nil => rfl
  | cons a as ih =>
    obtain ⟨hx, has⟩ := not_or.mp (mt List.mem_cons.mpr h)
    cases bs with
    | nil => rfl
    | cons b bs =>
      rw [scatter, ih has, write_apply]
      rw [List.length_singleton]
      omega

/-- The addresses may be split. -/
theorem scatter_append (m : Mem) (as as' : List Nat) (bs : List Byte) : m.scatter (as ++ as') bs =
    (m.scatter as (bs.take as.length)).scatter as' (bs.drop as.length) := by
  induction as generalizing m bs with
  | nil => rfl
  | cons a as ih =>
    cases bs with
    | nil => simp
    | cons b bs => exact ih ..

/-- Addresses for which there are no bytes stay as they are. -/
theorem scatter_take_left (m : Mem) (as : List Nat) (bs : List Byte) :
    m.scatter (as.take bs.length) bs = m.scatter as bs := by
  induction as generalizing m bs with
  | nil => simp
  | cons a as ih =>
    cases bs with
    | nil => simp
    | cons b bs => exact ih ..

/-- The bytes may be split. -/
theorem scatter_append_right (m : Mem) (as : List Nat) (bs bs' : List Byte) :
    m.scatter as (bs ++ bs') = (m.scatter as bs).scatter (as.drop bs.length) bs' := by
  induction as generalizing m bs with
  | nil => simp
  | cons a as ih =>
    cases bs with
    | nil => simp
    | cons b bs => exact ih ..

theorem write_eq_scatter (m : Mem) (a : Nat) (bs : List Byte) :
    m.write a bs = m.scatter ((List.range bs.length).map fun i => a + i) bs := by
  induction bs generalizing m a with
  | nil =>
    funext x
    simp [write]
  | cons b bs ih =>
    have hnext : (fun i => a + i) ∘ Nat.succ = fun i => a + 1 + i := funext fun i => by
      rw [Function.comp_apply]
      omega
    have hwrite : m.write a (b :: bs) = (m.write a [b]).write (a + 1) bs := write_append m a [b] bs
    rw [hwrite, ih, List.length_cons, List.range_succ_eq_map, List.map_cons, List.map_map, hnext]
    rfl

/-- Bytes stored at different addresses are read back. -/
theorem gather_scatter (m : Mem) (has : as.Nodup) (hl : as.length = bs.length) :
    (m.scatter as bs).gather as = bs := by
  induction as generalizing m bs with
  | nil => exact (List.length_eq_zero_iff.mp hl.symm).symm
  | cons a as ih =>
    cases bs with
    | nil => cases hl
    | cons b bs =>
      obtain ⟨ha, has⟩ := List.nodup_cons.mp has
      have hb : m.scatter (a :: as) (b :: bs) a = b := by
        rw [scatter, scatter_apply ha]
        exact @write_apply_in m a 0 [b] Nat.zero_lt_one
      rw [gather, List.map_cons, hb]
      exact congrArg (b :: ·) (ih (m.write a [b]) has (Nat.succ.inj hl))

end Mem

/-! ## Addresses with their bytes -/

section
variable {α β : Type}

theorem zip_take_left (as : List α) (bs : List β) : (as.take bs.length).zip bs = as.zip bs := by
  induction bs generalizing as with
  | nil => simp
  | cons b bs ih =>
    cases as with
    | nil => rfl
    | cons a as => exact congrArg ((a, b) :: ·) (ih as)

theorem zip_take_right (as : List α) (bs : List β) : as.zip (bs.take as.length) = as.zip bs := by
  induction as generalizing bs with
  | nil => rfl
  | cons a as ih =>
    cases bs with
    | nil => rfl
    | cons b bs => exact congrArg ((a, b) :: ·) (ih bs)

theorem zip_append_left (as as' : List α) (bs : List β) :
    (as ++ as').zip bs = as.zip bs ++ as'.zip (bs.drop as.length) := by
  induction as generalizing bs with
  | nil => rfl
  | cons a as ih =>
    cases bs with
    | nil => simp
    | cons b bs => exact congrArg ((a, b) :: ·) (ih bs)

end

end Framework
