import Whypa.Boot.ZeroPage
import Whypa.Framework.PageWalk

/-!
# The page tables of the boot processor

`setupIdentityPaging` counts the gibibytes that the kernel needs and then fills in four
entries, whatever the count is. So the tables translate an address to itself exactly if
it is below 4 GiB (`translate_tables`), and what the kernel needs is mapped exactly if
the kernel ends there (`identity_paging_iff`).
-/

namespace Whypa

open Framework

def PML4_START : GuestAddress := 0xa000
def PDPTE_START : GuestAddress := 0xb000
def CMDLINE_MAX_SIZE : BitVec 64 := 0x10000

/-- The entry of the directory for the gibibyte with the number `i`: present, writable and
for a page. -/
def pdpEntry (i : Nat) : Pte := BitVec.ofNat 64 i <<< 30 ||| 0x83

/-- The directory has four entries, whatever the number that the range needs. -/
def setupIdentityPaging (ck : Bool) (mm : MemoryManager) (kernelLoadAddr : BitVec 64)
    (initSize : BitVec 32) (m : Mem) : Option (Except BootError Unit × Mem) := do
  let tables := List.replicate (4096 * 2) 0
  let pml4Entry := PDPTE_START ||| 0x3
  let tables ← putSlice tables 0 (AsBytes.bytes pml4Entry)
  let kernelEnd ← plainAdd ck kernelLoadAddr (initSize.setWidth 64)
  let cmdlineEnd := CMDLINE_START + CMDLINE_MAX_SIZE
  let maxAddr := if kernelEnd ≤ cmdlineEnd then cmdlineEnd else kernelEnd
  let rounded ← plainAdd ck maxAddr 0x3fffffff
  let _pdpEntriesNeeded ← plainAdd ck (rounded >>> 30) 1
  let pdpteOffset := (PDPTE_START - PML4_START).toNat
  let tables ← (List.range 4).foldlM
    (fun tables i => putSlice tables (pdpteOffset + i * 8) (AsBytes.bytes (pdpEntry i))) tables
  match ← mm.writeGuestMemory ck tables PML4_START m with
  | (.error e, m) => pure (.error (.memory e), m)
  | (.ok (), m) => pure (.ok (), m)

namespace Paging

/-! ## The tables -/

/-- The word with the number `k` of the tables: one entry of the root, and four of the
directory. -/
def entry (k : Nat) : Pte :=
  if 512 ≤ k ∧ k < 516 then pdpEntry (k - 512) else if k = 0 then 0xb003 else 0

/-- The tables do not depend on the kernel; the sums for its end are computed first. -/
theorem exists_tables : ∃ tables : List Byte, tables.length = 8192 ∧ (∀ k, wordAt tables k = entry k) ∧
    ∀ ck mm kernelLoadAddr initSize m, setupIdentityPaging ck mm kernelLoadAddr initSize m =
      (plainAdd ck kernelLoadAddr (initSize.setWidth 64)).bind fun kernelEnd =>
        (plainAdd ck (if kernelEnd ≤ 0x30000 then 0x30000 else kernelEnd) 0x3fffffff).bind fun _ =>
          (mm.writeGuestMemory ck tables PML4_START m).map fun s =>
            (s.1.mapError BootError.memory, s.2) := by
  have h0 : (List.replicate (4096 * 2) (0 : Byte)).length = 8192 := List.length_replicate
  have hv : (leBytes 8 (0xb003 : BitVec 64).toNat).length = 8 := length_leBytes ..
  have hin : 8 * 0 + (leBytes 8 (0xb003 : BitVec 64).toNat).length ≤
      (List.replicate (4096 * 2) (0 : Byte)).length := by omega
  have hl := length_splice hin
  obtain ⟨tables, ht, hlen, hw⟩ := @foldlM_putSlice pdpEntry _ 512 4096 4 rfl (by rw [hl, h0]; decide)
  refine ⟨tables, hlen.trans (hl.trans h0), fun k => ?_, fun ck mm kernelLoadAddr initSize m => ?_⟩
  · rw [hw, wordAt_splice (by omega), wordAt_replicate, entry]
  · have hroot : putSlice (List.replicate (4096 * 2) (0 : Byte)) 0 (AsBytes.bytes (PDPTE_START ||| 0x3)) =
        some (splice (List.replicate (4096 * 2) 0) (8 * 0) (leBytes 8 (0xb003 : BitVec 64).toNat)) :=
      putSlice_of_le hin
    have hoff : (PDPTE_START - PML4_START).toNat = 4096 := by decide
    have hcmd : CMDLINE_START + CMDLINE_MAX_SIZE = 0x30000 := by decide
    have hcount : ∀ x : BitVec 64, plainAdd ck (x >>> 30) 1 = some (x >>> 30 + 1) := by
      intro x
      refine plainAdd_of_lt ck ?_
      have := x.isLt
      rw [BitVec.toNat_ushiftRight, Nat.shiftRight_eq_div_pow]
      show x.toNat / 2 ^ 30 + 1 < 2 ^ 64
      omega
    unfold setupIdentityPaging
    simp only [Option.bind_eq_bind, hroot, Option.bind_some, hcmd, hcount, hoff]
    refine Option.bind_congr fun kernelEnd _ => Option.bind_congr fun _ _ => ?_
    rw [show (List.range 4).foldlM (fun tables i => putSlice tables (4096 + i * 8)
      (AsBytes.bytes (pdpEntry i))) _ = some tables from ht, Option.bind_some]
    cases mm.writeGuestMemory ck tables PML4_START m with
    | none => rfl
    | some s =>
      obtain ⟨r, m'⟩ := s
      cases r <;> rfl

theorem pdpEntry_eq : ∀ i < 4, (pdpEntry i).present = true ∧ (pdpEntry i).large = true ∧
    (pdpEntry i).writable = true ∧ (pdpEntry i).frame = i * 2 ^ 30 := by decide

section
variable {mem : Mem} {tables : List Byte} {va : Nat}

/-- What the directory makes of an address below 512 GiB. -/
theorem walk_directory (hmem : ∀ k < 1024, mem.word (0xa000 + 8 * k) 64 = entry k) (hva : va < 2 ^ 39) :
    walkTables mem 2 0xb000 va = if va < 2 ^ 32 then some ⟨va, true⟩ else none := by
  have hreach : reach 2 = 2 ^ 30 := by decide
  obtain ⟨i, hi⟩ : ∃ i, va / 2 ^ 30 = i := ⟨_, rfl⟩
  have hentry : entryOf mem 2 0xb000 va = entry (512 + i) := by
    rw [← hmem (512 + i) (by omega), entryOf, hreach, hi]
    exact congrArg (Mem.word mem · 64) (by omega)
  split
  · have hi4 : i < 4 := by omega
    obtain ⟨hp, hl, hw, hf⟩ := pdpEntry_eq i hi4
    have he : entry (512 + i) = pdpEntry i := by
      rw [entry, if_pos (by omega), Nat.add_sub_cancel_left]
    rw [walk_page (hentry.trans he) (by decide) hp hl, page_self (by rw [hf, hreach, hi]), hw]
  · have he : entry (512 + i) = 0 := by
      rw [entry, if_neg (by omega), if_neg (by omega)]
    exact walk_absent (hentry.trans he) rfl

/-- An address is translated to itself if it is below 4 GiB, and to nothing otherwise. -/
theorem translate_tables (hmem : ∀ k < 1024, mem.word (0xa000 + 8 * k) 64 = entry k) (hva : va < 2 ^ 64) :
    translateVa mem 0xa000 va = if va < 2 ^ 32 then some ⟨va, true⟩ else none := by
  have hreach : reach 3 = 2 ^ 39 := by decide
  have hroot : entryOf mem 3 0xa000 va = entry (va / 2 ^ 39 % 512) := by
    rw [← hmem _ (by omega), entryOf, hreach]
  rw [translateVa]
  by_cases hz : va / 2 ^ 39 % 512 = 0
  · have he : entry 0 = 0xb003 := by decide
    have hframe : (0xb003 : Pte).frame = 0xb000 := by decide
    have hw : (0xb003 : Pte).writable = true := by decide
    have htable := walk_table (hroot.trans (by rw [hz, he])) (show (0xb003 : Pte).present = true by decide)
      (by decide)
    rw [hframe, hw] at htable
    by_cases hc : Canonical va
    · rw [if_pos hc, htable, walk_directory hmem (by unfold Canonical at hc; omega)]
      split <;> rfl
    · rw [if_neg hc, if_neg (by unfold Canonical at hc; omega)]
  · have he : entry (va / 2 ^ 39 % 512) = 0 := by
      rw [entry, if_neg (by omega), if_neg hz]
    rw [walk_absent (hroot.trans he) rfl, ite_self, if_neg (by omega)]

end

/-! ## What the kernel needs -/

/-- What has to be mapped: the kernel, the zero page and the command line. -/
def needed (kernelLoadAddr : BitVec 64) (initSize : BitVec 32) : List Span :=
  [⟨kernelLoadAddr.toNat, initSize.toNat⟩, ⟨ZERO_PAGE_START.toNat, 4096⟩,
    ⟨CMDLINE_START.toNat, CMDLINE_MAX_SIZE.toNat⟩]

/-- Each address of the range is translated to itself, and can be written. -/
def IdentityMapped (mem : Mem) (s : Span) : Prop :=
  ∀ a, s.Has a → translateVa mem PML4_START.toNat a = some ⟨a, true⟩

/-- The tables are written, and map all that is needed. -/
def Mapped (ck : Bool) (mm : MemoryManager) (kernelLoadAddr : BitVec 64) (initSize : BitVec 32) (m : Mem) :
    Prop :=
  ∃ m', setupIdentityPaging ck mm kernelLoadAddr initSize m = some (.ok (), m') ∧
    ∀ s ∈ needed kernelLoadAddr initSize, IdentityMapped (mm.guest m') s

/-- A range is mapped if it is empty or ends at 4 GiB at the latest. -/
theorem identityMapped_iff {mem : Mem} (hmem : ∀ k < 1024, mem.word (0xa000 + 8 * k) 64 = entry k)
    {s : Span} (hs : s.stop ≤ 2 ^ 64) : IdentityMapped mem s ↔ s.len = 0 ∨ s.stop ≤ 2 ^ 32 := by
  have hpml4 : PML4_START.toNat = 0xa000 := by decide
  rw [IdentityMapped, hpml4]
  constructor
  · intro h
    by_contra hn
    rw [not_or] at hn
    have hlast := h (s.stop - 1) (by unfold Span.Has; unfold Span.stop at *; omega)
    rw [translate_tables hmem (by omega), if_neg (by omega)] at hlast
    cases hlast
  · intro h a ha
    have hlt : a < 2 ^ 32 := by
      unfold Span.Has Span.stop at *
      omega
    rw [translate_tables hmem (by omega), if_pos hlt]

section
variable {n source : Nat} {h1 : 1 ≤ n} {hn : n < 2 ^ 33}

/-- The tables are written if the end of what is needed can be rounded. -/
theorem setupIdentityPaging_machine (ck : Bool) {kernelLoadAddr : BitVec 64} {initSize : BitVec 32} (m : Mem)
    (h : kernelLoadAddr.toNat + initSize.toNat < 2 ^ 64) :
    ∃ m', (∀ k < 1024, ((Partition.machine n source h1 hn).memory.guest m').word (0xa000 + 8 * k) 64 =
        entry k) ∧
      setupIdentityPaging ck (Partition.machine n source h1 hn).memory kernelLoadAddr initSize m =
        if kernelLoadAddr.toNat + initSize.toNat + 0x3fffffff < 2 ^ 64 ∨ ck = false then some (.ok (), m')
        else none := by
  obtain ⟨tables, hlen, hw, hrun⟩ := exists_tables
  have hpml4 : PML4_START.toNat = 0xa000 := by decide
  have hgib := Partition.toNat_gib hn
  obtain ⟨m', hwrite, hguest⟩ := @MemoryManager.write_low PML4_START _ source (Partition.gib_pos h1 hn)
    (Partition.gib_fits hn) ck tables m (by rw [hgib, hlen, hpml4]; omega)
  have hread : ((Partition.machine n source h1 hn).memory.guest m').read 0xa000 tables.length = tables := by
    have hg : (Partition.machine n source h1 hn).memory.guest m' = _ := hguest
    rw [hg, hpml4]
    exact Mem.read_write_self _ _ _
  refine ⟨m', fun k hk => by rw [word_wordAt hread (by omega), hw], ?_⟩
  have hsize : (initSize.setWidth 64).toNat = initSize.toNat := BitVec.toNat_setWidth_of_le (by decide)
  have hend : (kernelLoadAddr + initSize.setWidth 64).toNat = kernelLoadAddr.toNat + initSize.toNat := by
    rw [BitVec.toNat_add_of_lt (by rw [hsize]; exact h), hsize]
  have hwrite : (Partition.machine n source h1 hn).memory.writeGuestMemory ck tables PML4_START m = _ :=
    hwrite
  have hcmd : (0x30000 : BitVec 64).toNat = 0x30000 := rfl
  have hround : (0x3fffffff : BitVec 64).toNat = 0x3fffffff := rfl
  rw [hrun, plainAdd_of_lt ck (by rw [hsize]; exact h), Option.bind_some, plainAdd, hwrite, hround]
  by_cases hle : kernelLoadAddr + initSize.setWidth 64 ≤ 0x30000
  · rw [if_pos hle, hcmd, if_pos (.inl (by decide)), if_pos]
    · rfl
    · rw [BitVec.le_def, hend, hcmd] at hle
      omega
  · rw [if_neg hle, hend]
    split <;> rfl

end

end Paging

open Paging in
/-- What the kernel needs is mapped exactly if the kernel ends at 4 GiB at the latest; an
empty kernel can be anywhere, but its end has to be rounded if the build checks for
overflow. -/
theorem identity_paging_iff (ck : Bool) (n source : Nat) (h1 : 1 ≤ n) (hn : n < 2 ^ 33)
    (kernelLoadAddr : BitVec 64) (initSize : BitVec 32) (m : Mem)
    (h : kernelLoadAddr.toNat + initSize.toNat < 2 ^ 64) :
    Mapped ck (Partition.machine n source h1 hn).memory kernelLoadAddr initSize m ↔
      kernelLoadAddr.toNat + initSize.toNat ≤ 2 ^ 32 ∨
        initSize = 0 ∧ (ck = false ∨ kernelLoadAddr.toNat + 0x3fffffff < 2 ^ 64) := by
  obtain ⟨m', hmem, hrun⟩ := @setupIdentityPaging_machine n source h1 hn ck _ _ m h
  have hempty : initSize = 0 ↔ initSize.toNat = 0 :=
    ⟨fun h => by rw [h]; rfl, fun h => BitVec.eq_of_toNat_eq (h.trans rfl)⟩
  have hneeded : (∀ s ∈ needed kernelLoadAddr initSize,
      IdentityMapped ((Partition.machine n source h1 hn).memory.guest m') s) ↔
        initSize.toNat = 0 ∨ kernelLoadAddr.toNat + initSize.toNat ≤ 2 ^ 32 := by
    have hfixed : ∀ s : Span, s.stop ≤ 2 ^ 32 →
        IdentityMapped ((Partition.machine n source h1 hn).memory.guest m') s :=
      fun s hs => (identityMapped_iff hmem (by omega)).mpr (.inr hs)
    have hpage : Span.stop ⟨ZERO_PAGE_START.toNat, 4096⟩ ≤ 2 ^ 32 := by decide
    have hcmd : Span.stop ⟨CMDLINE_START.toNat, CMDLINE_MAX_SIZE.toNat⟩ ≤ 2 ^ 32 := by decide
    simp only [needed, List.forall_mem_cons, List.not_mem_nil, false_implies, implies_true, and_true,
      hfixed _ hpage, hfixed _ hcmd]
    exact identityMapped_iff hmem h.le
  rw [Mapped, hrun]
  split
  · rename_i hok
    simp only [Option.some.injEq, Prod.mk.injEq, true_and, exists_eq_left', hneeded, hempty]
    constructor
    · rintro (h0 | hle)
      · exact .inr ⟨h0, hok.symm.imp id fun hok => by omega⟩
      · exact .inl hle
    · rintro (hle | ⟨h0, -⟩)
      · exact .inr hle
      · exact .inl h0
  · rename_i hpanic
    rw [not_or] at hpanic
    refine ⟨fun ⟨_, he, _⟩ => (by cases he), ?_⟩
    rintro (hle | ⟨h0, hck | hlt⟩)
    · omega
    · exact absurd hck hpanic.2
    · rw [hempty] at h0
      omega

/-- A kernel of 2 MiB at 1 MiB. -/
theorem identity_paging_iff_low : Paging.Mapped true
    (Partition.machine 1 0 (by decide) (by decide)).memory 0x100000 0x200000 fun _ => 0 :=
  (identity_paging_iff true 1 0 (by decide) (by decide) 0x100000 0x200000 (fun _ => 0) (by decide)).mpr
    (.inl (by decide))

/-- A kernel in the RAM above 4 GiB is not mapped. -/
theorem kernel_unmapped : ¬ ∀ ck n source h1 hn (kernelLoadAddr : BitVec 64) (initSize : BitVec 32) m,
    kernelLoadAddr.toNat + initSize.toNat < 2 ^ 64 →
      Paging.Mapped ck (Partition.machine n source h1 hn).memory kernelLoadAddr initSize m := by
  intro h
  obtain ⟨m, hrun, hneeded⟩ := h true 8 0 (by decide) (by decide) 0x100000000 0x1000 (fun _ => 0) (by decide)
  obtain ⟨m', hmem, hrun'⟩ := @Paging.setupIdentityPaging_machine 8 0 (by decide) (by decide) true
    0x100000000 0x1000 (fun _ => 0) (by decide)
  rw [hrun', if_pos (.inl (by decide))] at hrun
  obtain ⟨-, rfl⟩ := Prod.mk.inj (Option.some.inj hrun)
  have hkernel := (Paging.identityMapped_iff hmem (by decide)).mp (hneeded _ List.mem_cons_self)
  exact absurd hkernel (by decide)

end Whypa
