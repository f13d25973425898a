import Whypa.Boot.ElfFile

/-!
# Where an ELF kernel is in memory

The segments are copied one after the other, and what the boot structures (the zero page,
the command line and the tables of the firmware) put over them afterwards does not depend
on them (`setupElfBootParams_layout`). So an accepted kernel is in the RAM as its file
says exactly if the RAM has all its ranges, and no structure puts another byte into one of
them (`segments_placed_iff`).
-/

namespace Whypa

open Framework

/-! ## The boot structures -/

namespace MemoryManager

variable {mm : MemoryManager} {gpa : GuestAddress} {bs : List Byte}

/-- A write whose failure is not noticed: there is a block if the RAM accepts it. -/
theorem LowRam.write_layout (h : mm.LowRam) (ck : Bool) (gpa : GuestAddress) (hbs : bs.length < 2 ^ 63) :
    ∃ blocks : List Block,
      (∀ x, (∃ b ∈ blocks, b.span.Has x) ↔ mm.Accepts gpa bs.length ∧ Span.Has ⟨gpa.toNat, bs.length⟩ x) ∧
      ∀ m, ∃ r m', mm.writeGuestMemory ck bs gpa m = some (r, m') ∧ mm.guest m' = (mm.guest m).layout blocks := by
  by_cases ha : mm.Accepts gpa bs.length
  · refine ⟨[⟨gpa.toNat, bs⟩], fun x => ?_, fun m => ?_⟩
    · simp only [List.mem_singleton, exists_eq_left, and_iff_right ha]
      exact Iff.rfl
    · obtain ⟨m', hw, hg⟩ := (h.write ck hbs m).1 ha
      exact ⟨_, m', hw, hg⟩
  · refine ⟨[], fun x => ?_, fun m => ?_⟩
    · exact iff_of_false (fun ⟨b, hb, _⟩ => by cases hb) fun hx => ha hx.1
    · obtain ⟨e, hw⟩ := (h.write ck hbs m).2 ha
      exact ⟨_, m, hw, rfl⟩

end MemoryManager

section
variable (Sdt Rsdp : Type) [SdtOps Sdt] [RsdpOps Rsdp] [Aml DeviceManager] [Aml CpuManager]
  [AsBytes PciRangeEntry] (ck : Bool) (p : Partition) (dm : DeviceManager) (cm : CpuManager)

/-- The RSDP, and the tables after it if the RAM has the room, cover the address. -/
def AcpiCovers (x : Nat) : Prop := Span.Has ⟨0xe0000, 36⟩ x ∨
  p.memory.Accepts (dsdtAddr Rsdp) (tables Sdt (dsdtAddr Rsdp) dm cm).bytes.length ∧
    Span.Has ⟨(dsdtAddr Rsdp).toNat, (tables Sdt (dsdtAddr Rsdp) dm cm).bytes.length⟩ x

/-- A boot structure covers the address: the zero page, the command line, or one of the
firmware. -/
def BootCovers (x : Nat) : Prop := Span.Has ⟨ZERO_PAGE_START.toNat, 4096⟩ x ∨
  Span.Has ⟨CMDLINE_START.toNat, cmdLine.length⟩ x ∨ AcpiCovers Sdt Rsdp p dm cm x

/-- The memory of a guest whose RAM is zeroed, with the boot structures alone. -/
def bootImage (code32Start kernelSize : BitVec 64) : Mem :=
  match setupElfBootParams Sdt Rsdp ck p dm cm code32Start kernelSize (fun _ => 0) with
  | some (_, m) => p.memory.guest m
  | none => p.memory.guest fun _ => 0

variable {Sdt Rsdp ck p dm cm} in
theorem bootImage_eq {code32Start kernelSize : BitVec 64} {r : Except BootError (BitVec 32)} {m : Mem}
    (h : setupElfBootParams Sdt Rsdp ck p dm cm code32Start kernelSize (fun _ => 0) = some (r, m)) :
    bootImage Sdt Rsdp ck p dm cm code32Start kernelSize = p.memory.guest m := by
  unfold bootImage
  rw [h]

end

section
variable {Sdt Rsdp : Type} [SdtOps Sdt] [LawfulSdt Sdt] [RsdpOps Rsdp] [LawfulRsdp Rsdp]
  [Aml DeviceManager] [Aml CpuManager] [AsBytes PciRangeEntry] {ck : Bool} {dm : DeviceManager}
  {cm : CpuManager} {n source : Nat} {h1 : 1 ≤ n} {hn : n < 2 ^ 33}

/-- The tables of the firmware are blocks that do not depend on the memory. -/
theorem createAcpiTables_layout :
    (∀ m, createAcpiTables Sdt Rsdp ck dm cm (Partition.started n source h1 hn).memory m = none) ∨
    ∃ blocks : List Block,
      (∀ x, (∃ b ∈ blocks, b.span.Has x) ↔ AcpiCovers Sdt Rsdp (Partition.started n source h1 hn) dm cm x) ∧
      ∀ m, ∃ a m', createAcpiTables Sdt Rsdp ck dm cm (Partition.started n source h1 hn).memory m =
          some (a, m') ∧
        (Partition.started n source h1 hn).memory.guest m' =
          ((Partition.started n source h1 hn).memory.guest m).layout blocks := by
  have hmm := MemoryManager.lowRam_started source h1 hn
  have hp : RSDP_POINTER.toNat = 0xe0000 := by decide
  cases hi : createAcpiTablesInternal Sdt Rsdp (dsdtAddr Rsdp) dm cm with
  | none =>
    refine .inl fun m => ?_
    unfold createAcpiTables
    rw [checkedAdd_rsdp, Option.bind_eq_bind, Option.bind_some, hi]
    rfl
  | some out =>
    obtain ⟨hlen, -, rfl⟩ := createAcpiTablesInternal_eq_some.mp hi
    have hrlen := @LawfulRsdp.length_asBytes Rsdp _ _ (ascii "CLOUDH")
      (BitVec.ofNat 64 ((tables Sdt (dsdtAddr Rsdp) dm cm).xsdtAddr (dsdtAddr Rsdp).toNat)) (by decide)
    obtain ⟨rsdp, hrsdp⟩ : ∃ rsdp : Rsdp, rsdp = RsdpOps.new (ascii "CLOUDH")
      (BitVec.ofNat 64 ((tables Sdt (dsdtAddr Rsdp) dm cm).xsdtAddr (dsdtAddr Rsdp).toNat)) := ⟨_, rfl⟩
    rw [← hrsdp] at hi hrlen
    obtain ⟨bs₁, hcov₁, hw₁⟩ := @MemoryManager.LowRam.write_layout _ (RsdpOps.asBytes rsdp) hmm ck
      RSDP_POINTER (by rw [hrlen]; decide)
    obtain ⟨bs₂, hcov₂, hw₂⟩ := @MemoryManager.LowRam.write_layout _
      (tables Sdt (dsdtAddr Rsdp) dm cm).bytes hmm ck (dsdtAddr Rsdp) hlen
    refine .inr ⟨bs₁ ++ bs₂, fun x => ?_, fun m => ?_⟩
    · have hroom := @MemoryManager.accepts_started RSDP_POINTER n source 36 h1 hn (by decide)
      rw [hrlen, hp] at hcov₁
      simp only [List.mem_append, or_and_right, exists_or, hcov₁, hcov₂, AcpiCovers, and_iff_right hroom]
    · obtain ⟨r₁, m₁, he₁, hg₁⟩ := hw₁ m
      obtain ⟨r₂, m₂, he₂, hg₂⟩ := hw₂ m₁
      refine ⟨RSDP_POINTER, m₂, ?_, by rw [hg₂, hg₁, Mem.layout_append]⟩
      unfold createAcpiTables
      rw [checkedAdd_rsdp, Option.bind_eq_bind, Option.bind_some, hi, Option.bind_eq_bind, Option.bind_some]
      dsimp only
      rw [he₁, Option.bind_eq_bind, Option.bind_some, he₂]
      rfl

/-- The boot structures of an ELF kernel are blocks that do not depend on the memory. -/
theorem setupElfBootParams_layout (code32Start kernelSize : BitVec 64) :
    (∀ m, setupElfBootParams Sdt Rsdp ck (Partition.started n source h1 hn) dm cm code32Start kernelSize m =
      none) ∨
    ∃ blocks : List Block,
      (∀ x, (∃ b ∈ blocks, b.span.Has x) ↔ BootCovers Sdt Rsdp (Partition.started n source h1 hn) dm cm x) ∧
      ∀ m, ∃ r m', setupElfBootParams Sdt Rsdp ck (Partition.started n source h1 hn) dm cm code32Start
          kernelSize m = some (r, m') ∧
        (Partition.started n source h1 hn).memory.guest m' =
          ((Partition.started n source h1 hn).memory.guest m).layout blocks := by
  have hgib := Partition.toNat_gib hn
  obtain ⟨page, initSize, hpage, hsetup⟩ := @setupElfBootParams_eq Sdt Rsdp _ _ _ _ _ ck dm cm
    (Partition.started n source h1 hn) code32Start kernelSize
  obtain ⟨size, hsize, -⟩ := Partition.getMemorySize_started ck source h1 hn
  obtain ⟨page', hlen, -, -, hfill⟩ := @fillBootParams_eq Sdt Rsdp _ _ _ _ _ ck
    (Partition.started n source h1 hn) dm cm _ source (Partition.gib_pos h1 hn) (Partition.gib_fits hn)
    rfl (by omega) size hsize (Partition.length_e820Entries source h1 hn size) page hpage code32Start
  cases hadd : plainAdd ck kernelSize 0xfff with
  | none => exact .inl fun m => by rw [hsetup, hadd, Option.bind_none]
  | some rounded =>
    rcases @createAcpiTables_layout Sdt Rsdp _ _ _ _ _ _ _ ck dm cm n source h1 hn with hnone | ⟨bs, hcov, hacpi⟩
    · refine .inl fun m => ?_
      obtain ⟨m₁, hrun, -⟩ := hfill m
      rw [hsetup, hadd, Option.bind_some, hrun, hnone]
      rfl
    · refine .inr ⟨[⟨0x20000, cmdLine⟩, ⟨0x7000, page'⟩] ++ bs, fun x => ?_, fun m => ?_⟩
      · have hpage' : Block.span ⟨0x7000, page'⟩ = ⟨ZERO_PAGE_START.toNat, 4096⟩ := by
          rw [Block.span, hlen]
          rfl
        have hcmd : Block.span ⟨0x20000, cmdLine⟩ = ⟨CMDLINE_START.toNat, cmdLine.length⟩ := rfl
        simp only [List.cons_append, List.nil_append, List.mem_cons, exists_eq_or_imp]
        rw [hcov, hpage', hcmd, BootCovers, or_left_comm]
      · obtain ⟨m₁, hrun, hg₁⟩ := hfill m
        obtain ⟨a, m₂, he, hg₂⟩ := hacpi m₁
        refine ⟨.ok initSize, m₂, ?_, by rw [hg₂, hg₁, Mem.layout_append]; rfl⟩
        rw [hsetup, hadd, Option.bind_some, hrun, he]
        rfl

/-- The kernel finds its command line. -/
theorem setupElfBootParams_cmdLine {code32Start kernelSize : BitVec 64} {m m' : Mem}
    {r : Except BootError (BitVec 32)}
    (h : setupElfBootParams Sdt Rsdp ck (Partition.started n source h1 hn) dm cm code32Start kernelSize m =
      some (r, m')) {i : Nat} (hi : i < cmdLine.length) :
    (Partition.started n source h1 hn).memory.guest m' (0x20000 + i) = cmdLine[i] := by
  have hgib := Partition.toNat_gib hn
  have hcmd : cmdLine.length ≤ 0x10000 := by decide +kernel
  obtain ⟨page, initSize, hpage, hsetup⟩ := @setupElfBootParams_eq Sdt Rsdp _ _ _ _ _ ck dm cm
    (Partition.started n source h1 hn) code32Start kernelSize
  obtain ⟨size, hsize, -⟩ := Partition.getMemorySize_started ck source h1 hn
  obtain ⟨page', hlen, -, -, hfill⟩ := @fillBootParams_eq Sdt Rsdp _ _ _ _ _ ck
    (Partition.started n source h1 hn) dm cm _ source (Partition.gib_pos h1 hn) (Partition.gib_fits hn)
    rfl (by omega) size hsize (Partition.length_e820Entries source h1 hn size) page hpage code32Start
  obtain ⟨m₁, hrun, hg₁⟩ := hfill m
  rw [hsetup, hrun] at h
  obtain ⟨_, -, h⟩ := Option.bind_eq_some_iff.mp h
  obtain ⟨⟨_, _⟩, h, he⟩ := Option.map_eq_some_iff.mp h
  obtain ⟨⟨a, m₂⟩, hacpi, he'⟩ := Option.map_eq_some_iff.mp h
  obtain ⟨-, rfl⟩ := Prod.mk.inj he
  obtain ⟨-, rfl⟩ := Prod.mk.inj he'
  have hbelow := @createAcpiTables_below Sdt Rsdp _ _ _ _ _ _ _ _ source (Partition.gib_pos h1 hn)
    (Partition.gib_fits hn) dm cm ck m₁ m₂ a hacpi (0x20000 + i) (by omega)
  refine Eq.trans hbelow ?_
  change (Partition.started n source h1 hn).memory.guest m₁ _ = _
  rw [hg₁, Mem.write_of_ge (by omega), Mem.write_apply_in hi]

end

/-! ## The segments -/

namespace Elf64Phdr

variable (mm : MemoryManager) (file : KernelFile) (mem : Mem) (ph : Elf64Phdr)

/-- The byte `i` of the segment: the file's, and zero after them. -/
def byte (i : Nat) : Byte := if i < ph.pFilesz.toNat then file.bytes.getD (ph.pOffset.toNat + i) 0 else 0

/-- The RAM has the whole range of the segment. -/
def InRam : Prop := ∀ x, ph.span.Has x → ∃ r ∈ mm.regions, r.span.Has x

/-- The segment is in the RAM as the file says. -/
def Placed : Prop := ph.InRam mm ∧ ∀ i < ph.pMemsz.toNat, mem (ph.pPaddr.toNat + i) = ph.byte file i

variable {mm file ph}

theorem length_data (h : ph.Loads mm file) : (ph.data file).length = ph.pFilesz.toNat := by
  rcases h with h0 | ⟨hin, -⟩
  · rw [data, h0]
    exact congrArg List.length List.take_zero
  · exact length_slice hin

theorem data_eq_byte (h : ph.Loads mm file) {i : Nat} (hi : i < (ph.data file).length) :
    (ph.data file)[i] = ph.byte file i := by
  have hlen := length_data h
  have hget : (ph.data file)[i]? = file.bytes[ph.pOffset.toNat + i]? := by
    rw [data, getElem?_slice, if_pos (by omega)]
  rw [byte, if_pos (by omega), List.getD_eq_getElem?_getD, ← hget, List.getElem?_eq_getElem hi,
    Option.getD_some]

end Elf64Phdr

/-- Segments that do not meet are in a memory that was zeroed when all are copied. -/
theorem layout_segments {mm : MemoryManager} {file : KernelFile} {segs : List Elf64Phdr}
    (hloads : ∀ ph ∈ segs, ph.Loads mm file) (hsize : ∀ ph ∈ segs, ph.pFilesz.toNat ≤ ph.pMemsz.toNat)
    (hapart : segs.Pairwise fun ph ph' => ¬ ph.span.Meets ph'.span) {mem : Mem} (hzero : ∀ x, mem x = 0)
    {ph : Elf64Phdr} (hph : ph ∈ segs) {i : Nat} (hi : i < ph.pMemsz.toNat) :
    mem.layout (blocks file segs) (ph.pPaddr.toNat + i) = ph.byte file i := by
  have hblock : ∀ ph ∈ segs, ∀ x, Block.span ⟨ph.pPaddr.toNat, ph.data file⟩ |>.Has x → ph.span.Has x := by
    rintro ph hph x ⟨hlo, hhi⟩
    have hlen := Elf64Phdr.length_data (hloads ph hph)
    have := hsize ph hph
    unfold Block.span Span.stop at *
    dsimp only at *
    exact ⟨hlo, by unfold Elf64Phdr.span Span.stop; dsimp only; omega⟩
  have hx : ph.span.Has (ph.pPaddr.toNat + i) := ⟨Nat.le_add_right .., Nat.add_lt_add_left hi _⟩
  have hlen := Elf64Phdr.length_data (hloads ph hph)
  by_cases hfile : i < ph.pFilesz.toNat
  · have hmem : (⟨ph.pPaddr.toNat, ph.data file⟩ : Block) ∈ blocks file segs :=
      List.mem_map.mpr ⟨ph, hph, rfl⟩
    have hsep : (blocks file segs).Pairwise fun b c => ¬ b.span.Meets c.span := by
      refine List.pairwise_map.mpr (List.Pairwise.imp_of_mem (fun {a b} ha hb h => ?_) hapart)
      rintro ⟨x, hxa, hxb⟩
      exact h ⟨x, hblock a ha x hxa, hblock b hb x hxb⟩
    rw [Mem.layout_apply_in hsep hmem (show i < (ph.data file).length by omega)]
    exact Elf64Phdr.data_eq_byte (hloads ph hph) _
  · rw [Elf64Phdr.byte, if_neg hfile, Mem.layout_apply_out, hzero]
    rintro b hb hxb
    obtain ⟨ph', hph', rfl⟩ := List.mem_map.mp hb
    have : Std.Symm fun ph ph' : Elf64Phdr => ¬ ph.span.Meets ph'.span :=
      ⟨fun _ _ h ⟨x, hx, hx'⟩ => h ⟨x, hx', hx⟩⟩
    by_cases he : ph = ph'
    · subst he
      have hhi := hxb.2
      unfold Block.span Span.stop at hhi
      dsimp only at hhi
      omega
    · exact List.Pairwise.forall hapart hph hph' he ⟨_, hx, hblock ph' hph' _ hxb⟩

/-- For every ELF kernel that is accepted by a guest with zeroed RAM, whose segments do not
meet and have room for their bytes in the file: each segment is in the RAM as the file says
exactly if the RAM has each range, and what a boot structure puts at an address of a
segment is the segment's byte there. -/
theorem segments_placed_iff (Sdt Rsdp : Type) [SdtOps Sdt] [LawfulSdt Sdt] [RsdpOps Rsdp] [LawfulRsdp Rsdp]
    [Aml DeviceManager] [Aml CpuManager] [AsBytes PciRangeEntry] (ck : Bool) (dm : DeviceManager)
    (cm : CpuManager) (n source : Nat) (h1 : 1 ≤ n) (hn : n < 2 ^ 33) (file : KernelFile) (m : Mem)
    {ehdr : Elf64Ehdr} {phdrs : List Elf64Phdr} {entry : BitVec 64} {m' : Mem}
    (hread : readHeaders file = .ok (ehdr, phdrs))
    (hzero : ∀ x, (Partition.started n source h1 hn).memory.guest m x = 0)
    (hapart : (segments phdrs).Pairwise fun ph ph' => ¬ ph.span.Meets ph'.span)
    (hsize : ∀ ph ∈ segments phdrs, ph.pFilesz.toNat ≤ ph.pMemsz.toNat)
    (hok : loadElfKernel Sdt Rsdp ck (Partition.started n source h1 hn) dm cm file m = some (.ok entry, m')) :
    (∀ ph ∈ segments phdrs, ph.Placed (Partition.started n source h1 hn).memory file
      ((Partition.started n source h1 hn).memory.guest m')) ↔
    ∀ ph ∈ segments phdrs, ph.InRam (Partition.started n source h1 hn).memory ∧
      ∀ x, ph.span.Has x → BootCovers Sdt Rsdp (Partition.started n source h1 hn) dm cm x →
        bootImage Sdt Rsdp ck (Partition.started n source h1 hn) dm cm (extent phdrs).lowestPaddr
          ((extent phdrs).highestEnd - (extent phdrs).lowestPaddr) x = ph.byte file (x - ph.pPaddr.toNat) := by
  obtain ⟨-, ⟨m₁, kernelSize, initSize, hsegs, rfl, hboot⟩, -⟩ := loadElfKernel_eq_ok hread hok
  obtain ⟨hloads, hg₁⟩ := loadSegments_eq_ok (MemoryManager.lowRam_started source h1 hn) hsegs
  rcases @setupElfBootParams_layout Sdt Rsdp _ _ _ _ _ _ _ ck dm cm n source h1 hn
    (extent phdrs).lowestPaddr ((extent phdrs).highestEnd - (extent phdrs).lowestPaddr) with
    hnone | ⟨bs, hcov, hrun⟩
  · cases (hnone m₁).symm.trans hboot
  have hguest : (Partition.started n source h1 hn).memory.guest m' =
      ((Partition.started n source h1 hn).memory.guest m₁).layout bs := by
    obtain ⟨r, m₂, he, hg₂⟩ := hrun m₁
    obtain ⟨-, rfl⟩ := Prod.mk.inj (Option.some.inj (hboot.symm.trans he))
    exact hg₂
  obtain ⟨r, m₀, he, hg₀⟩ := hrun fun _ => 0
  have himage : bootImage Sdt Rsdp ck (Partition.started n source h1 hn) dm cm (extent phdrs).lowestPaddr
      ((extent phdrs).highestEnd - (extent phdrs).lowestPaddr) =
        (Partition.started n source h1 hn).memory.guest m₀ := bootImage_eq he
  have hbyte : ∀ ph ∈ segments phdrs, ∀ i < ph.pMemsz.toNat,
      (Partition.started n source h1 hn).memory.guest m₁ (ph.pPaddr.toNat + i) = ph.byte file i := by
    intro ph hph i hi
    rw [hg₁]
    exact layout_segments hloads hsize hapart hzero hph hi
  refine forall₂_congr fun ph hph => ?_
  rw [Elf64Phdr.Placed]
  refine and_congr_right fun _ => ⟨fun hplaced => fun x hx hc => ?_, fun himg => fun i hi => ?_⟩
  · obtain ⟨i, rfl⟩ := Nat.exists_eq_add_of_le (show ph.pPaddr.toNat ≤ x from hx.1)
    rw [Nat.add_sub_cancel_left, ← hplaced i (Nat.lt_of_add_lt_add_left hx.2), hguest, himage, hg₀]
    exact Mem.layout_apply_has ((hcov _).mpr hc)
  · have hx : ph.span.Has (ph.pPaddr.toNat + i) := ⟨Nat.le_add_right .., Nat.add_lt_add_left hi _⟩
    rw [hguest]
    by_cases hc : BootCovers Sdt Rsdp (Partition.started n source h1 hn) dm cm (ph.pPaddr.toNat + i)
    · have himg := himg _ hx hc
      rw [himage, hg₀, Nat.add_sub_cancel_left] at himg
      rw [← himg]
      exact Mem.layout_apply_has ((hcov _).mpr hc)
    · rw [Mem.layout_apply_out fun b hb hbx => hc ((hcov _).mp ⟨b, hb, hbx⟩)]
      exact hbyte ph hph i hi

theorem guest_zero (mm : MemoryManager) (x : Nat) : mm.guest (fun _ => 0) x = 0 := by
  unfold MemoryManager.guest
  split
  · cases mm.hostOf (BitVec.ofNat 64 x) <;> rfl
  · rfl

/-- Every machine has the RAM for a segment below 1 GiB. -/
theorem inRam_started {n source : Nat} {h1 : 1 ≤ n} {hn : n < 2 ^ 33} {ph : Elf64Phdr}
    (h : ph.span.stop ≤ 0x40000000) : ph.InRam (Partition.started n source h1 hn).memory := by
  intro x hx
  have hlt : x < 0x40000000 := hx.2.trans_le h
  have htoNat : (BitVec.ofNat 64 x).toNat = x := by rw [BitVec.toNat_ofNat, Nat.mod_eq_of_lt (by omega)]
  obtain ⟨r, hf, -⟩ := @MemoryManager.accepts_started (BitVec.ofNat 64 x) n source 0 h1 hn
    (by rw [htoNat]; exact hlt)
  have hc := MemoryManager.findRegion_contains hf
  rw [htoNat] at hc
  exact ⟨r, MemoryManager.mem_of_findRegion hf, hc⟩

/-- A kernel at 16 MiB is above all boot structures. -/
theorem segments_placed_high : ∃ file entry m', file.bytes = elfBytes (elfHeader 0x1000000 1)
      [⟨PT_LOAD, 120, 0x1000000, 0x1000000, 4, 0x1000⟩] [0x90, 0x90, 0x90, 0xf4] ∧
    @loadElfKernel ByteSdt ByteRsdp _ _ plainDevices plainCpus declaredOrder true
      (Partition.started 1 0 (by decide) (by decide)) plainMachine ⟨0⟩ file (fun _ => 0) =
        some (.ok entry, m') ∧
    ∀ ph ∈ segments [⟨PT_LOAD, 120, 0x1000000, 0x1000000, 4, 0x1000⟩],
      ph.Placed (Partition.started 1 0 (by decide) (by decide)).memory file
        ((Partition.started 1 0 (by decide) (by decide)).memory.guest m') := by
  let file : KernelFile := ⟨elfBytes (elfHeader 0x1000000 1)
    [⟨PT_LOAD, 120, 0x1000000, 0x1000000, 4, 0x1000⟩] [0x90, 0x90, 0x90, 0xf4], by decide +kernel⟩
  have hread := @readHeaders_elfHeader _ _ _ _ file rfl (by decide)
  obtain ⟨entry, m', hok⟩ := exists_plainKernel hread (by decide) (by decide +kernel) (by decide) (by decide)
  refine ⟨file, entry, m', rfl, hok, ?_⟩
  refine (@segments_placed_iff ByteSdt ByteRsdp _ _ _ _ plainDevices plainCpus declaredOrder true plainMachine
    ⟨0⟩ 1 0 (by decide) (by decide) file (fun _ => 0) _ _ _ _ hread (guest_zero _) (List.pairwise_singleton ..)
    (by decide) hok).mpr ?_
  intro ph hph
  obtain rfl := List.mem_singleton.mp hph
  refine ⟨inRam_started (by decide), fun x hx hc => ?_⟩
  have hlo : 0x1000000 ≤ x := hx.1
  have hd := toNat_dsdtAddr ByteRsdp
  have hlen : (@tables ByteSdt _ plainDevices plainCpus declaredOrder (dsdtAddr ByteRsdp) plainMachine
      ⟨0⟩).bytes.length = 499 := length_plainTables
  have hcmd : cmdLine.length ≤ 0x10000 := by decide +kernel
  have hz : ZERO_PAGE_START.toNat = 0x7000 := by decide
  have hcs : CMDLINE_START.toNat = 0x20000 := by decide
  unfold BootCovers AcpiCovers Span.Has Span.stop at hc
  rw [hd, hlen, hz, hcs] at hc
  dsimp only at hc
  omega

/-- A segment where the command line goes is overwritten by it. -/
theorem segment_overwritten : ¬ ∀ file ehdr phdrs entry m', readHeaders file = .ok (ehdr, phdrs) →
    ((segments phdrs).Pairwise fun ph ph' => ¬ ph.span.Meets ph'.span) →
    (∀ ph ∈ segments phdrs, ph.pFilesz.toNat ≤ ph.pMemsz.toNat) →
    @loadElfKernel ByteSdt ByteRsdp _ _ plainDevices plainCpus declaredOrder true
      (Partition.started 1 0 (by decide) (by decide)) plainMachine ⟨0⟩ file (fun _ => 0) =
        some (.ok entry, m') →
    ∀ ph ∈ segments phdrs, ph.Placed (Partition.started 1 0 (by decide) (by decide)).memory file
      ((Partition.started 1 0 (by decide) (by decide)).memory.guest m') := by
  intro h
  let file : KernelFile := ⟨elfBytes (elfHeader 0x20000 1)
    [⟨PT_LOAD, 120, 0x20000, 0x20000, 4, 0x1000⟩] [0x90, 0x90, 0x90, 0xf4], by decide +kernel⟩
  have hread := @readHeaders_elfHeader _ _ _ _ file rfl (by decide)
  obtain ⟨entry, m', hok⟩ := exists_plainKernel hread (by decide) (by decide +kernel) (by decide) (by decide)
  have hplaced := h file _ _ entry m' hread (List.pairwise_singleton ..) (by decide) hok _ List.mem_cons_self
  have hbyte := hplaced.2 0 (by decide)
  obtain ⟨-, ⟨m₁, kernelSize, initSize, -, -, hboot⟩, -⟩ := @loadElfKernel_eq_ok ByteSdt ByteRsdp _ _ plainDevices
    plainCpus declaredOrder _ _ _ _ _ _ _ _ _ _ hread hok
  have hcmd := @setupElfBootParams_cmdLine ByteSdt ByteRsdp _ _ _ _ plainDevices plainCpus declaredOrder _ _ _ _ _
    _ _ _ _ _ _ _ hboot 0 (by decide +kernel)
  have heq := hbyte.symm.trans hcmd
  revert heq
  decide +kernel

end Whypa
