import Whypa.Framework.Splice

/-!
# Page tables

The four-level walk of a 64-bit processor over the tables in a memory
(`translateVa`), with pages of 4 KiB, 2 MiB and 1 GiB. One lemma for each thing an
entry can be (`walk_absent`, `walk_page`, `walk_table`), and the words of tables that
are filled in as a list of bytes (`wordAt`).
-/

namespace Framework

/-- An entry of a page table. -/
abbrev Pte := BitVec 64

namespace Pte

def present (e : Pte) : Bool := e.getLsbD 0

def writable (e : Pte) : Bool := e.getLsbD 1

/-- The entry is for a page, not for a table. -/
def large (e : Pte) : Bool := e.getLsbD 7

/-- The address in the entry. -/
def frame (e : Pte) : Nat := (e &&& 0x000ffffffffff000).toNat

end Pte

/-- Where an address is translated to. -/
structure Translation where
  addr : Nat
  writable : Bool
deriving DecidableEq, Repr

/-- How many addresses one entry of a table covers. The root is at level 3. -/
def reach (level : Nat) : Nat := 2 ^ (12 + 9 * level)

/-- The entry for the address in a table of memory. -/
def entryOf (mem : Mem) (level table va : Nat) : Pte := mem.word (table + 8 * (va / reach level % 512)) 64

/-- The translation by an entry for a page. -/
def Pte.page (e : Pte) (level va : Nat) : Translation :=
  ⟨e.frame / reach level * reach level + va % reach level, e.writable⟩

/-- The walk from a table at a level. An entry of the root cannot be for a page. -/
def walkTables (mem : Mem) : Nat → Nat → Nat → Option Translation
  | 0, table, va =>
    let e := entryOf mem 0 table va
    if e.present then some (e.page 0 va) else none
  | level + 1, table, va =>
    let e := entryOf mem (level + 1) table va
    if !e.present then none
    else if e.large then (if level < 2 then some (e.page (level + 1) va) else none)
    else (walkTables mem level e.frame va).map fun t => ⟨t.addr, t.writable && e.writable⟩

/-- The bits of an address from the 47th on are the same. -/
def Canonical (va : Nat) : Prop := va < 2 ^ 47 ∨ 2 ^ 64 - 2 ^ 47 ≤ va

instance (va : Nat) : Decidable (Canonical va) := inferInstanceAs (Decidable (_ ∨ _))

/-- What the processor makes of the address with the table at `root` in its register. -/
def translateVa (mem : Mem) (root va : Nat) : Option Translation :=
  if Canonical va then walkTables mem 3 root va else none

section
variable {mem : Mem} {level table va : Nat} {e : Pte}

theorem walk_absent (he : entryOf mem level table va = e) (hp : e.present = false) :
    walkTables mem level table va = none := by
  cases level with
  | zero => simp [walkTables, he, hp]
  | succ level => simp [walkTables, he, hp]

theorem walk_page (he : entryOf mem (level + 1) table va = e) (hl : level < 2) (hp : e.present = true)
    (hpage : e.large = true) : walkTables mem (level + 1) table va = some (e.page (level + 1) va) := by
  simp [walkTables, he, hp, hpage, hl]

theorem walk_table (he : entryOf mem (level + 1) table va = e) (hp : e.present = true)
    (htable : e.large = false) : walkTables mem (level + 1) table va =
      (walkTables mem level e.frame va).map fun t => ⟨t.addr, t.writable && e.writable⟩ := by
  simp [walkTables, he, hp, htable]

/-- A page that is where the address is. -/
theorem page_self (h : e.frame = va / reach level * reach level) : e.page level va = ⟨va, e.writable⟩ := by
  have hpos : 0 < reach level := Nat.two_pow_pos _
  rw [Pte.page, h, Nat.mul_div_cancel _ hpos, Nat.div_add_mod' va]

end

/-! ## Tables as bytes -/

/-- The word with the number `k`. -/
def wordAt (l : List Byte) (k : Nat) : BitVec 64 := BitVec.ofNat 64 (ofLE (slice l (8 * k) 8))

theorem wordAt_replicate (n k : Nat) : wordAt (List.replicate n 0) k = 0 := by
  have hz : ∀ n, ofLE (List.replicate n (0 : Byte)) = 0 := by
    intro n
    induction n with
    | zero => rfl
    | succ n ih =>
      rw [List.replicate_succ, ofLE, ih]
      rfl
  rw [wordAt, slice, List.drop_replicate, List.take_replicate, hz]
  rfl

theorem wordAt_splice {l : List Byte} {j : Nat} (h : 8 * j + 8 ≤ l.length) (v : BitVec 64) (k : Nat) :
    wordAt (splice l (8 * j) (leBytes 8 v.toNat)) k = if k = j then v else wordAt l k := by
  have hv : (leBytes 8 v.toNat).length = 8 := length_leBytes ..
  have hin : 8 * j + (leBytes 8 v.toNat).length ≤ l.length := by omega
  split
  · rename_i hk
    have hs := slice_splice_self hin
    rw [hv] at hs
    rw [hk, wordAt, hs]
    exact ofNat_ofLE_leBytes 8 v
  · rename_i hk
    rw [wordAt, slice_splice_sep hin (by omega), wordAt]

/-- A loop that writes one word after the other. -/
theorem foldlM_putSlice (f : Nat → BitVec 64) {l : List Byte} {base off n : Nat} (hoff : off = 8 * base)
    (h : 8 * (base + n) ≤ l.length) :
    ∃ l', (List.range n).foldlM (fun l i => putSlice l (off + i * 8) (leBytes 8 (f i).toNat)) l =
        some l' ∧ l'.length = l.length ∧
      ∀ k, wordAt l' k = if base ≤ k ∧ k < base + n then f (k - base) else wordAt l k := by
  induction n with
  | zero => exact ⟨l, rfl, rfl, fun k => (if_neg (by omega)).symm⟩
  | succ n ih =>
    obtain ⟨l', hl', hlen, hw⟩ := ih (by omega)
    have hv : (leBytes 8 (f n).toNat).length = 8 := length_leBytes ..
    have hat : off + n * 8 = 8 * (base + n) := by omega
    have hin : 8 * (base + n) + (leBytes 8 (f n).toNat).length ≤ l'.length := by omega
    refine ⟨splice l' (8 * (base + n)) (leBytes 8 (f n).toNat), ?_, (length_splice hin).trans hlen,
      fun k => ?_⟩
    · rw [List.range_succ, List.foldlM_append, hl', Option.bind_eq_bind, Option.bind_some,
        List.foldlM_cons, hat, putSlice_of_le hin]
      rfl
    · rw [wordAt_splice (by omega), hw]
      by_cases hk : k = base + n
      · rw [if_pos hk, if_pos (by omega), hk, Nat.add_sub_cancel_left]
      · rw [if_neg hk]
        exact if_congr (by omega) rfl rfl

/-- The words of tables that are in memory. -/
theorem word_wordAt {mem : Mem} {a : Nat} {bs : List Byte} (hr : mem.read a bs.length = bs) {k : Nat}
    (h : 8 * k + 8 ≤ bs.length) : mem.word (a + 8 * k) 64 = wordAt bs k := by
  have hs : mem.read (a + 8 * k) (64 / 8) = slice bs (8 * k) 8 := by
    rw [← slice_read h, hr]
  rw [Mem.word, hs, wordAt]

end Framework
