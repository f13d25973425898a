import Whypa.Boot.ElfFile

/-!
# The entry point of an ELF kernel

An entry in the physical range of a segment is taken as it is. Any other is translated by
the distance of the first segment, whichever segment has it in its virtual range: so the
result is in that segment exactly if the segment is as far from its virtual range as the
first one (`elf_entry`).
-/

namespace Whypa

open Framework

/-- The address of the entry in the segment that has it in its virtual range. -/
def Elf64Phdr.translate (ph : Elf64Phdr) (entry : BitVec 64) : BitVec 64 := ph.pPaddr + (entry - ph.pVaddr)

namespace Elf64Phdr

variable {ph first : Elf64Phdr} {entry : BitVec 64}

/-- The distance of another segment gives the same address only if it is the segment's own. -/
theorem sub_delta_iff (entry : BitVec 64) :
    entry - first.delta = ph.translate entry ↔ ph.delta = first.delta := by
  have h : ph.translate entry = entry - ph.delta := by
    unfold translate delta
    bv_omega
  rw [h]
  constructor
  · intro he
    bv_omega
  · intro he
    rw [he]

/-- The address is as far into the physical range as the entry into the virtual one. -/
theorem translate_has (hend : ph.span.stop < 2 ^ 64) (h : ph.vspan.Has entry.toNat) :
    (ph.translate entry).toNat = ph.pPaddr.toNat + (entry.toNat - ph.pVaddr.toNat) ∧
      ph.span.Has (ph.translate entry).toNat := by
  obtain ⟨hlo, hhi⟩ := h
  unfold span vspan Span.stop at *
  dsimp only at *
  have hsub : (entry - ph.pVaddr).toNat = entry.toNat - ph.pVaddr.toNat := BitVec.toNat_sub_of_le hlo
  have hadd : (ph.translate entry).toNat = ph.pPaddr.toNat + (entry.toNat - ph.pVaddr.toNat) := by
    rw [translate, BitVec.toNat_add_of_lt (by rw [hsub]; omega), hsub]
  refine ⟨hadd, ?_⟩
  unfold Span.Has Span.stop
  dsimp only
  omega

end Elf64Phdr

section
variable {Sdt Rsdp : Type} [SdtOps Sdt] [RsdpOps Rsdp] [Aml DeviceManager] [Aml CpuManager]
  [AsBytes PciRangeEntry] {ck : Bool} {p : Partition} {dm : DeviceManager} {cm : CpuManager}
  {file : KernelFile} {ehdr : Elf64Ehdr} {phdrs : List Elf64Phdr} {entry : BitVec 64} {m m' : Mem}

/-- The entry is taken as it is if a segment has it, and is else as far from the header's as
the first segment from its virtual range. -/
theorem loadElfKernel_entry (hread : readHeaders file = .ok (ehdr, phdrs))
    (hends : ∀ ph ∈ segments phdrs, ph.span.stop < 2 ^ 64)
    (hok : loadElfKernel Sdt Rsdp ck p dm cm file m = some (.ok entry, m')) :
    ∃ first rest, segments phdrs = first :: rest ∧
      ((∃ ph ∈ segments phdrs, ph.span.Has ehdr.eEntry.toNat) → entry = ehdr.eEntry) ∧
      ((¬ ∃ ph ∈ segments phdrs, ph.span.Has ehdr.eEntry.toNat) → entry = ehdr.eEntry - first.delta) := by
  obtain ⟨hlow, -, physical, hphys, he⟩ := loadElfKernel_eq_ok hread hok
  obtain ⟨b, hb, hiff⟩ := @entryIsPhysical_eq ck ehdr.eEntry phdrs hends
  obtain rfl := Option.some.inj (hphys.symm.trans hb)
  cases hsegs : segments phdrs with
  | nil => exact absurd (by rw [extent, hsegs]; rfl) hlow
  | cons first rest =>
    rw [hsegs] at hiff
    refine ⟨first, rest, rfl, fun h => ?_, fun h => ?_⟩
    · rw [he, if_pos (hiff.mpr h)]
    · rw [he, if_neg fun hp => h (hiff.mp hp), extent_offset hsegs, Option.getD_some]

end

/-- For every ELF kernel that is accepted, none of whose ranges overflows: an entry in the
physical range of a segment is returned as it is. Any other is returned less the distance
of the first segment; if it is in the virtual range of a segment, it is translated to the
segment's physical range exactly if the segment has the distance of the first one. -/
theorem elf_entry (Sdt Rsdp : Type) [SdtOps Sdt] [RsdpOps Rsdp] [Aml DeviceManager] [Aml CpuManager]
    [AsBytes PciRangeEntry] (ck : Bool) (p : Partition) (dm : DeviceManager) (cm : CpuManager)
    (file : KernelFile) (m : Mem) {ehdr : Elf64Ehdr} {phdrs : List Elf64Phdr} {entry : BitVec 64} {m' : Mem}
    (hread : readHeaders file = .ok (ehdr, phdrs))
    (hends : ∀ ph ∈ segments phdrs, ph.span.stop < 2 ^ 64)
    (hok : loadElfKernel Sdt Rsdp ck p dm cm file m = some (.ok entry, m')) :
    ((∃ ph ∈ segments phdrs, ph.span.Has ehdr.eEntry.toNat) → entry = ehdr.eEntry) ∧
    ((¬ ∃ ph ∈ segments phdrs, ph.span.Has ehdr.eEntry.toNat) →
      ∃ first rest, segments phdrs = first :: rest ∧ entry = ehdr.eEntry - first.delta ∧
        ∀ ph ∈ segments phdrs, ph.vspan.Has ehdr.eEntry.toNat →
          (entry.toNat = ph.pPaddr.toNat + (ehdr.eEntry.toNat - ph.pVaddr.toNat) ∧ ph.span.Has entry.toNat ↔
            ph.delta = first.delta)) := by
  obtain ⟨first, rest, hsegs, hphys, hvirt⟩ := loadElfKernel_entry hread hends hok
  refine ⟨hphys, fun h => ⟨first, rest, hsegs, hvirt h, fun ph hph hv => ?_⟩⟩
  obtain ⟨hat, hin⟩ := Elf64Phdr.translate_has (hends ph hph) hv
  rw [← Elf64Phdr.sub_delta_iff ehdr.eEntry, ← hvirt h]
  constructor
  · rintro ⟨he, -⟩
    exact BitVec.eq_of_toNat_eq (he.trans hat.symm)
  · intro he
    rw [he]
    exact ⟨hat, hin⟩

/-- A kernel that is linked high and loaded at 16 MiB. -/
theorem elf_entry_high : ∃ file m', file.bytes = elfBytes (elfHeader 0xffffffff81000100 1)
      [⟨PT_LOAD, 120, 0xffffffff81000000, 0x1000000, 4, 0x1000⟩] [0x90, 0x90, 0x90, 0xf4] ∧
    @loadElfKernel ByteSdt ByteRsdp _ _ plainDevices plainCpus declaredOrder true
      (Partition.started 1 0 (by decide) (by decide)) plainMachine ⟨0⟩ file (fun _ => 0) =
        some (.ok 0x1000100, m') := by
  let file : KernelFile := ⟨elfBytes (elfHeader 0xffffffff81000100 1)
    [⟨PT_LOAD, 120, 0xffffffff81000000, 0x1000000, 4, 0x1000⟩] [0x90, 0x90, 0x90, 0xf4], by decide +kernel⟩
  have hread := @readHeaders_elfHeader _ _ _ _ file rfl (by decide)
  obtain ⟨entry, m', hok⟩ := exists_plainKernel hread (by decide) (by decide +kernel) (by decide) (by decide)
  obtain ⟨-, hvirt⟩ := @elf_entry ByteSdt ByteRsdp _ _ plainDevices plainCpus declaredOrder true
    (Partition.started 1 0 (by decide) (by decide)) plainMachine ⟨0⟩ file (fun _ => 0) _ _ _ _ hread
    (by decide) hok
  obtain ⟨first, rest, hsegs, he, -⟩ := hvirt (by decide)
  obtain ⟨rfl, -⟩ := List.cons.inj hsegs
  refine ⟨file, m', rfl, hok.trans ?_⟩
  rw [he]
  rfl

/-- The entry is what its segment makes of it. -/
def EntryTranslated (entry : BitVec 64) (segs : List Elf64Phdr) (result : BitVec 64) : Prop :=
  ((∃ ph ∈ segs, ph.span.Has entry.toNat) → result = entry) ∧
  ((¬ ∃ ph ∈ segs, ph.span.Has entry.toNat) → ∀ ph ∈ segs, ph.vspan.Has entry.toNat →
    result.toNat = ph.pPaddr.toNat + (entry.toNat - ph.pVaddr.toNat) ∧ ph.span.Has result.toNat)

/-- The entry is in the second segment, and the first one is loaded where it is linked. -/
theorem entry_outside : ¬ ∀ file ehdr phdrs entry m', readHeaders file = .ok (ehdr, phdrs) →
    (∀ ph ∈ segments phdrs, ph.span.stop < 2 ^ 64 ∧ ph.vspan.stop < 2 ^ 64) →
    @loadElfKernel ByteSdt ByteRsdp _ _ plainDevices plainCpus declaredOrder true
      (Partition.started 1 0 (by decide) (by decide)) plainMachine ⟨0⟩ file (fun _ => 0) =
        some (.ok entry, m') → EntryTranslated ehdr.eEntry (segments phdrs) entry := by
  intro h
  let file : KernelFile := ⟨elfBytes (elfHeader 0xffffffff80000000 2)
    [⟨PT_LOAD, 176, 0x1000000, 0x1000000, 4, 0x1000⟩, ⟨PT_LOAD, 176, 0xffffffff80000000, 0x2000000, 4, 0x1000⟩]
    [0x90, 0x90, 0x90, 0xf4], by decide +kernel⟩
  have hread := @readHeaders_elfHeader _ _ _ _ file rfl (by decide)
  obtain ⟨entry, m', hok⟩ := exists_plainKernel hread (by decide) (by decide +kernel) (by decide) (by decide)
  have htranslated := h file _ _ entry m' hread (by decide) hok
  obtain ⟨first, rest, hsegs, -, hvirt⟩ := @loadElfKernel_entry ByteSdt ByteRsdp _ _ plainDevices plainCpus
    declaredOrder _ _ _ _ _ _ _ _ _ _ hread (by decide) hok
  obtain ⟨rfl, -⟩ := List.cons.inj hsegs
  rw [hvirt (by decide)] at htranslated
  have hsecond := htranslated.2 (by decide) _ (List.mem_cons_of_mem _ List.mem_cons_self) (by decide)
  exact absurd hsecond (by decide)

end Whypa
