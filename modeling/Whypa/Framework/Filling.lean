import Mathlib.Data.List.SplitLengths
import Whypa.Framework.Scatter

/-!
# Buffers filled in turn

Bytes that are stored in some areas of memory, each filled before the next: area by area
they are the pieces that `List.splitLengths` cuts (`gather_filled`). A reader that is told
the length of a piece modulo `n` gets all bytes if and only if each piece is shorter than
`n` (`flatten_take_mod_iff`).
-/

namespace Framework

section
variable {α : Type}

theorem flatten_splitLengths (sizes : List Nat) (xs : List α) :
    (sizes.splitLengths xs).flatten = xs.take sizes.sum := by
  induction sizes generalizing xs with
  | nil => rfl
  | cons n sizes ih =>
    rw [List.splitLengths_cons, List.flatten_cons, ih, List.sum_cons, List.take_add]

theorem splitLengths_append (sizes sizes' : List Nat) (xs : List α) :
    (sizes ++ sizes').splitLengths xs = sizes.splitLengths xs ++ sizes'.splitLengths (xs.drop sizes.sum) := by
  induction sizes generalizing xs with
  | nil => rfl
  | cons n sizes ih =>
    rw [List.cons_append, List.splitLengths_cons, List.splitLengths_cons, ih, List.drop_drop, List.sum_cons]
    rfl

/-- No piece is longer than the list. -/
theorem length_le_of_mem_splitLengths {sizes : List Nat} {xs piece : List α}
    (h : piece ∈ sizes.splitLengths xs) : piece.length ≤ xs.length := by
  have hsub := (List.sublist_flatten_of_mem h).length_le
  rw [flatten_splitLengths, List.length_take] at hsub
  omega

theorem length_flatten_take_mod_le (n : Nat) (ps : List (List α)) :
    (ps.map fun p => p.take (p.length % n)).flatten.length ≤ ps.flatten.length := by
  induction ps with
  | nil => exact Nat.le_refl 0
  | cons p ps ih =>
    have hmod := Nat.mod_le p.length n
    simp only [List.map_cons, List.flatten_cons, List.length_append, List.length_take]
    omega

/-- Pieces cut off at their lengths modulo `n`. -/
theorem flatten_take_mod_iff {n : Nat} (hn : 0 < n) {ps : List (List α)} :
    (ps.map fun p => p.take (p.length % n)).flatten = ps.flatten ↔ ∀ p ∈ ps, p.length < n := by
  induction ps with
  | nil => simp
  | cons p ps ih =>
    rw [List.map_cons, List.flatten_cons, List.flatten_cons, List.forall_mem_cons]
    constructor
    · intro h
      have hlen := congrArg List.length h
      have hle := length_flatten_take_mod_le n ps
      have hmod := Nat.mod_le p.length n
      rw [List.length_append, List.length_append, List.length_take] at hlen
      have hp : p.length % n = p.length := by omega
      rw [hp, List.take_length] at h
      exact ⟨hp ▸ Nat.mod_lt _ hn, ih.mp (List.append_cancel_left h)⟩
    · rintro ⟨hp, hps⟩
      rw [Nat.mod_eq_of_lt hp, List.take_length, ih.mpr hps]

end

namespace Mem

variable {m m' : Mem} {as : List Nat} {bs : List Byte}

theorem gather_congr (h : ∀ a ∈ as, m' a = m a) : m'.gather as = m.gather as :=
  List.map_congr_left h

/-- A byte depends on the byte that was there. -/
theorem scatter_congr {x : Nat} (h : m' x = m x) : m'.scatter as bs x = m.scatter as bs x := by
  induction as generalizing m m' bs with
  | nil => exact h
  | cons a as ih =>
    cases bs with
    | nil => exact h
    | cons b bs =>
      refine ih ?_
      by_cases hx : x = a
      · subst hx
        exact (@write_apply_in m' x 0 [b] Nat.zero_lt_one).trans
          (@write_apply_in m x 0 [b] Nat.zero_lt_one).symm
      · have hout : x < a ∨ a + [b].length ≤ x := by
          rw [List.length_singleton]
          omega
        rw [write_apply hout, write_apply hout, h]

/-- Bytes stored in a larger area are read back from its beginning. -/
theorem gather_scatter_take (m : Mem) (has : as.Nodup) (hl : bs.length ≤ as.length) :
    ((m.scatter as bs).gather as).take bs.length = bs := by
  have htake : ((m.scatter as bs).gather as).take bs.length = (m.scatter as bs).gather (as.take bs.length) :=
    List.map_take.symm
  rw [htake, ← scatter_take_left]
  exact gather_scatter m (has.sublist (List.take_sublist ..)) (List.length_take_of_le hl)

/-- Each area has its piece of the bytes. -/
theorem gather_filled {areas : List (List Nat)} (h : areas.flatten.Nodup) (m : Mem) (bs : List Byte) :
    ∀ p ∈ ((areas.map List.length).splitLengths bs).zip areas,
      ((m.scatter areas.flatten bs).gather p.2).take p.1.length = p.1 := by
  induction areas generalizing m bs with
  | nil => exact fun p hp => absurd hp List.not_mem_nil
  | cons as areas ih =>
    obtain ⟨has, hareas, hdisj⟩ := List.nodup_append.mp (List.flatten_cons ▸ h)
    rw [List.map_cons, List.splitLengths_cons, List.zip_cons_cons, List.forall_mem_cons, List.flatten_cons,
      scatter_append]
    refine ⟨?_, ih hareas _ _⟩
    have hrest : ((m.scatter as (bs.take as.length)).scatter areas.flatten (bs.drop as.length)).gather as =
        (m.scatter as (bs.take as.length)).gather as :=
      gather_congr fun a ha => scatter_apply fun ha' => hdisj a ha a ha' rfl
    rw [hrest]
    exact gather_scatter_take m has (List.length_take_le ..)

/-- The memory with bytes stored at their addresses, one after the other. -/
def put (m : Mem) (sts : List (Nat × Byte)) : Mem := m.scatter (sts.map Prod.fst) (sts.map Prod.snd)

theorem put_append (m : Mem) (sts sts' : List (Nat × Byte)) : m.put (sts ++ sts') = (m.put sts).put sts' := by
  have hlen : (sts.map Prod.fst).length = (sts.map Prod.snd).length := by simp
  rw [put, List.map_append, List.map_append, scatter_append, List.take_left' hlen.symm,
    List.drop_left' hlen.symm]
  rfl

theorem put_zip (m : Mem) (as : List Nat) (bs : List Byte) : m.put (as.zip bs) = m.scatter as bs := by
  induction as generalizing m bs with
  | nil => rfl
  | cons a as ih =>
    cases bs with
    | nil => rfl
    | cons b bs => exact ih (m.write a [b]) bs

end Mem

end Framework
