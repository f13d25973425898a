import Whypa.Boot.ElfFile

/-!
# Hostile kernel files

When a file is loaded or rejected with no sum, difference or length out of range
(`kernel_load_total_iff`). The loop over the segments stops at the first that cannot be
loaded, so what comes after it does no harm (`loadSegments_isSome_iff`).
-/

namespace Whypa

open Framework

/-- A segment does no harm: its end is an address if it is loaded, and it is rejected
before its bytes are read if there are too many of them. -/
structure Elf64Phdr.Harmless (mm : MemoryManager) (file : KernelFile) (ph : Elf64Phdr) : Prop where
  loaded : ph.Loads mm file → ph.span.stop < 2 ^ 64
  rejected : ¬ ph.Loads mm file → ¬ ph.Overlong

/-- The segments that the loop comes to do no harm; and if all are loaded, they are not
within a page of the whole address space. -/
structure ElfHarmless (mm : MemoryManager) (file : KernelFile) (segs : List Elf64Phdr) : Prop where
  reached : ∀ pre ph post, segs = pre ++ ph :: post → (∀ t ∈ pre, t.Loads mm file) → ph.Harmless mm file
  size : (∀ ph ∈ segs, ph.Loads mm file) → ∀ ph ∈ segs, ∀ ph' ∈ segs, ph'.span.stop + 0xfff < 2 ^ 64 + ph.span.lo

/-- The sectors before the kernel are in the file, if its header is one that is loaded. -/
def BzimageHarmless (file : KernelFile) : Prop :=
  ∀ header, readExact file 0x1f1 123 = .ok header → field header 0x11 4 = 0x53726448 →
    0x0200 ≤ (field header 0x15 2 : BitVec 16) → (field header 0x20 1 : BitVec 8) &&& 0x1 ≠ 0 →
      setupSize header ≤ file.bytes.length

/-- What a file has to be. -/
def Harmless (mm : MemoryManager) (file : KernelFile) : Prop :=
  if slice file.bytes 0 4 = ELF_MAGIC then
    ∀ ehdr phdrs, readHeaders file = .ok (ehdr, phdrs) → ElfHarmless mm file (segments phdrs)
  else BzimageHarmless file

/-! ## The loop over the segments -/

/-- The elements of a list that are reached: the first, and the others if it lets them be. -/
theorem reached_cons {α : Type} {P Q : α → Prop} {a : α} {l : List α} :
    (∀ pre x post, a :: l = pre ++ x :: post → (∀ t ∈ pre, P t) → Q x) ↔
      Q a ∧ (P a → ∀ pre x post, l = pre ++ x :: post → (∀ t ∈ pre, P t) → Q x) := by
  constructor
  · intro h
    refine ⟨h [] a l rfl fun _ ht => (by cases ht), fun ha pre x post he hpre => ?_⟩
    exact h (a :: pre) x post (by rw [he, List.cons_append]) (List.forall_mem_cons.mpr ⟨ha, hpre⟩)
  · rintro ⟨ha, hl⟩ pre x post he hpre
    cases pre with
    | nil =>
      obtain ⟨rfl, -⟩ := List.cons.inj he
      exact ha
    | cons b pre =>
      obtain ⟨rfl, htail⟩ := List.cons.inj he
      obtain ⟨hb, hpre⟩ := List.forall_mem_cons.mp hpre
      exact hl hb pre x post htail hpre

/-- All elements are reached if all let the others be. -/
theorem forall_of_reached {α : Type} {P Q : α → Prop} {l : List α} (hP : ∀ x ∈ l, P x)
    (h : ∀ pre x post, l = pre ++ x :: post → (∀ t ∈ pre, P t) → Q x) : ∀ x ∈ l, Q x := by
  intro x hx
  obtain ⟨pre, post, rfl⟩ := List.append_of_mem hx
  exact h pre x post rfl fun t ht => hP t (List.mem_append_left _ ht)

section
variable {mm : MemoryManager} {file : KernelFile}

/-- The loop ends if the segments that it comes to do no harm. -/
theorem loadSegments_isSome_iff (hmm : mm.LowRam) (phdrs : List Elf64Phdr) (s : Extent) (m : Mem) :
    (loadSegments true mm file phdrs s m).isSome ↔ ∀ pre ph post, segments phdrs = pre ++ ph :: post →
      (∀ t ∈ pre, t.Loads mm file) → ph.Harmless mm file := by
  induction phdrs generalizing s m with
  | nil =>
    refine iff_of_true rfl fun pre ph post he => ?_
    cases pre <;> cases he
  | cons ph phdrs ih =>
    rw [segments_cons, loadSegments]
    by_cases hp : ph.pType = PT_LOAD
    · rw [if_pos hp, reached_cons]
      rcases loadSegment_cases hmm true file hp s m with ⟨hl, m₁, -, he⟩ | ⟨hn, hlong, he⟩ | ⟨hn, hlong, e, he⟩
      · by_cases hend : ph.span.stop < 2 ^ 64
        · rw [he, plainAdd_of_lt true hend, Option.map_some, Option.bind_eq_bind, Option.bind_some]
          dsimp only
          rw [ih]
          have hq : ph.Harmless mm file := ⟨fun _ => hend, fun h => absurd hl h⟩
          rw [and_iff_right hq, forall_prop_of_true hl]
        · have hover : plainAdd true ph.pPaddr ph.pMemsz = none :=
            if_neg fun h => h.elim hend (by decide)
          rw [he, hover]
          exact iff_of_false Bool.false_ne_true fun h => hend (h.1.loaded hl)
      · rw [he]
        exact iff_of_false Bool.false_ne_true fun h => h.1.rejected hn hlong
      · rw [he]
        exact iff_of_true rfl ⟨⟨fun h => absurd h hn, fun _ => hlong⟩, fun h => absurd h hn⟩
    · rw [if_neg hp, loadSegment, if_pos hp]
      exact ih s m

end

/-! ## Whole kernels -/

section
variable {Sdt Rsdp : Type} [SdtOps Sdt] [LawfulSdt Sdt] [RsdpOps Rsdp] [LawfulRsdp Rsdp]
  [Aml DeviceManager] [Aml CpuManager] [AsBytes PciRangeEntry] {dm : DeviceManager} {cm : CpuManager}
  {n source : Nat} {h1 : 1 ≤ n} {hn : n < 2 ^ 33} {file : KernelFile}

/-- If all segments are loaded, only the size of the kernel can be out of range. -/
theorem loaded_isSome_iff (htables : (tables Sdt (dsdtAddr Rsdp) dm cm).bytes.length < 2 ^ 63)
    {ehdr : Elf64Ehdr} {phdrs : List Elf64Phdr} (hread : readHeaders file = .ok (ehdr, phdrs))
    (hloads : ∀ ph ∈ segments phdrs, ph.Loads (Partition.started n source h1 hn).memory file)
    (hends : ∀ ph ∈ segments phdrs, ph.span.stop < 2 ^ 64) (m : Mem) :
    (loadElfKernel Sdt Rsdp true (Partition.started n source h1 hn) dm cm file m).isSome ↔
      ∀ ph ∈ segments phdrs, ∀ ph' ∈ segments phdrs, ph'.span.stop + 0xfff < 2 ^ 64 + ph.span.lo := by
  by_cases hlow : (extent phdrs).lowestPaddr = -1
  · obtain ⟨m₁, hsegs⟩ := exists_loadSegments (MemoryManager.lowRam_started source h1 hn) true hloads hends
      ⟨-1, 0, none⟩ m
    have hrun : loadElfKernel Sdt Rsdp true (Partition.started n source h1 hn) dm cm file m =
        some (.error .noSegments, m₁) := by
      rw [← extent] at hsegs
      rw [loadElfKernel, hread]
      dsimp only
      rw [hsegs, Option.bind_eq_bind, Option.bind_some]
      dsimp only
      rw [if_pos hlow]
      rfl
    rw [hrun]
    refine iff_of_true rfl fun ph hph ph' hph' => ?_
    have hlo := ((extent_bounds hends (List.ne_nil_of_mem hph)).2.2 ph hph).1
    have hmax : (-1 : BitVec 64).toNat = 2 ^ 64 - 1 := by decide
    have := hends ph' hph'
    rw [hlow, hmax] at hlo
    omega
  · obtain ⟨entry, m', hrun⟩ := @exists_loadElfKernel Sdt Rsdp _ _ _ _ _ true dm cm file _ _ n source h1 hn
      htables ehdr phdrs hread hlow hloads hends m
    have hne : segments phdrs ≠ [] := by
      intro h
      exact hlow (by rw [extent, h]; rfl)
    obtain ⟨⟨pl, hpl, hlo⟩, ⟨ph, hph, hhi⟩, hall⟩ := extent_bounds hends hne
    have hsub : ((extent phdrs).highestEnd - (extent phdrs).lowestPaddr).toNat =
        (extent phdrs).highestEnd.toNat - (extent phdrs).lowestPaddr.toNat := by
      refine BitVec.toNat_sub_of_le ?_
      rw [BitVec.le_def, hlo]
      exact (Nat.le_add_right ..).trans (hall pl hpl).2
    have hround : (0xfff : BitVec 64).toNat = 0xfff := rfl
    rw [hrun, Option.isSome_map, isSome_plainAdd, hsub, hround]
    constructor
    · intro h ph hph ph' hph'
      have := (hall ph hph).1
      have := (hall ph' hph').2
      omega
    · intro h
      have := h pl hpl ph hph
      omega

theorem loadElfKernel_isSome_iff (htables : (tables Sdt (dsdtAddr Rsdp) dm cm).bytes.length < 2 ^ 63)
    (m : Mem) :
    (loadElfKernel Sdt Rsdp true (Partition.started n source h1 hn) dm cm file m).isSome ↔
      ∀ ehdr phdrs, readHeaders file = .ok (ehdr, phdrs) →
        ElfHarmless (Partition.started n source h1 hn).memory file (segments phdrs) := by
  have hmm := MemoryManager.lowRam_started source h1 hn
  cases hread : readHeaders file with
  | error e =>
    have hrun : loadElfKernel Sdt Rsdp true (Partition.started n source h1 hn) dm cm file m =
        some (.error e, m) := by rw [loadElfKernel, hread]
    rw [hrun]
    exact iff_of_true rfl fun _ _ h => by cases h
  | ok headers =>
    obtain ⟨ehdr, phdrs⟩ := headers
    have hloop := @loadSegments_isSome_iff _ file hmm phdrs ⟨-1, 0, none⟩ m
    constructor
    · intro hsome ehdr' phdrs' he
      obtain ⟨rfl, rfl⟩ := Prod.mk.inj (Except.ok.inj he)
      have hreached := hloop.mp (by
        rw [Option.isSome_iff_ne_none]
        intro hnone
        rw [loadElfKernel, hread] at hsome
        dsimp only at hsome
        rw [hnone] at hsome
        cases hsome)
      refine ⟨hreached, fun hloads => ?_⟩
      have hends : ∀ ph ∈ segments phdrs, ph.span.stop < 2 ^ 64 := fun ph hph =>
        (forall_of_reached hloads hreached ph hph).loaded (hloads ph hph)
      exact (loaded_isSome_iff htables hread hloads hends m).mp hsome
    · intro h
      have h := h ehdr phdrs rfl
      obtain ⟨⟨r, m₁⟩, hsegs⟩ := Option.isSome_iff_exists.mp (hloop.mpr h.reached)
      cases r with
      | error e =>
        rw [loadElfKernel, hread]
        dsimp only
        rw [hsegs]
        rfl
      | ok s =>
        obtain ⟨hloads, -⟩ := loadSegments_eq_ok hmm hsegs
        have hends : ∀ ph ∈ segments phdrs, ph.span.stop < 2 ^ 64 := fun ph hph =>
          (forall_of_reached hloads h.reached ph hph).loaded (hloads ph hph)
        exact (loaded_isSome_iff htables hread hloads hends m).mpr (h.size hloads)

theorem loadBzimageKernel_isSome_iff (htables : (tables Sdt (dsdtAddr Rsdp) dm cm).bytes.length < 2 ^ 63)
    (m : Mem) :
    (loadBzimageKernel Sdt Rsdp true (Partition.started n source h1 hn) dm cm file m).isSome ↔
      BzimageHarmless file := by
  have hmm := MemoryManager.lowRam_started source h1 hn
  have hfile := file.fits
  unfold loadBzimageKernel BzimageHarmless
  cases hread : readExact file 0x1f1 123 with
  | error e => exact iff_of_true rfl fun _ h => by cases h
  | ok header =>
    simp only [Except.ok.injEq, forall_eq']
    by_cases hmagic : field header 0x11 4 = 0x53726448
    · rw [if_neg (not_not.mpr hmagic), forall_prop_of_true hmagic]
      by_cases hver : (field header 0x15 2 : BitVec 16) < 0x0200 ∨ (field header 0x20 1 : BitVec 8) &&& 0x1 = 0
      · rw [if_pos hver]
        refine iff_of_true rfl fun hle hflag => absurd hver ?_
        exact not_or.mpr ⟨BitVec.not_lt.mpr hle, hflag⟩
      · rw [if_neg hver]
        obtain ⟨hle, hflag⟩ := not_or.mp hver
        rw [forall_prop_of_true (BitVec.not_lt.mp hle), forall_prop_of_true hflag]
        have hsize : setupSize header < 2 ^ 18 := by
          have := (header.getD 0 0).isLt
          unfold setupSize
          dsimp only
          split <;> omega
        have htoNat : (BitVec.ofNat 64 (setupSize header)).toNat = setupSize header := by
          rw [BitVec.toNat_ofNat, Nat.mod_eq_of_lt (by omega)]
        have htotal : (BitVec.ofNat 64 file.bytes.length).toNat = file.bytes.length := by
          rw [BitVec.toNat_ofNat, Nat.mod_eq_of_lt (by omega)]
        by_cases hin : setupSize header ≤ file.bytes.length
        · rw [plainSub_of_le true (by rw [htoNat, htotal]; exact hin), Option.bind_eq_bind, Option.bind_some]
          refine iff_of_true ?_ hin
          have hpayload : (file.bytes.drop (setupSize header)).length < 2 ^ 63 := by
            rw [List.length_drop]
            omega
          have hwrite := @MemoryManager.LowRam.write _ HIGH_RAM_START _ hmm true hpayload m
          by_cases ha : (Partition.started n source h1 hn).memory.Accepts HIGH_RAM_START
              (file.bytes.drop (setupSize header)).length
          · obtain ⟨m₁, hw, -⟩ := hwrite.1 ha
            obtain ⟨r, m', hboot, -⟩ := @exists_setupBzimageBootParams Sdt Rsdp _ _ _ _ _ _ _ true dm cm n
              source h1 hn htables file.bytes ((field header 0x23 4 : BitVec 32).setWidth 64) m₁
            rw [hw, Option.bind_eq_bind, Option.bind_some]
            dsimp only
            rw [hboot]
            rfl
          · obtain ⟨e, hw⟩ := hwrite.2 ha
            rw [hw]
            rfl
        · rw [plainSub_of_gt true (by rw [htoNat, htotal]; omega)]
          exact iff_of_false Bool.false_ne_true hin
    · rw [if_pos hmagic]
      exact iff_of_true rfl fun h => absurd h hmagic

end

/-- For every file: loading the kernel, in a build that checks for overflow, ends with an
entry or an error exactly if the file is harmless. -/
theorem kernel_load_total_iff (Sdt Rsdp : Type) [SdtOps Sdt] [LawfulSdt Sdt] [RsdpOps Rsdp] [LawfulRsdp Rsdp]
    [Aml DeviceManager] [Aml CpuManager] [AsBytes PciRangeEntry] (dm : DeviceManager) (cm : CpuManager)
    (htables : (tables Sdt (dsdtAddr Rsdp) dm cm).bytes.length < 2 ^ 63) (n source : Nat) (h1 : 1 ≤ n)
    (hn : n < 2 ^ 33) (file : KernelFile) (m : Mem) :
    (loadLinuxKernel Sdt Rsdp true (Partition.started n source h1 hn) dm cm file m).isSome ↔
      Harmless (Partition.started n source h1 hn).memory file := by
  unfold loadLinuxKernel Harmless
  rw [readExact, if_neg (by decide), readExactAt]
  by_cases h4 : 0 + 4 ≤ file.bytes.length
  · rw [if_pos h4]
    change Option.isSome (if slice file.bytes 0 4 = ELF_MAGIC then _ else _) = true ↔ _
    split
    · exact loadElfKernel_isSome_iff htables m
    · exact loadBzimageKernel_isSome_iff htables m
  · rw [if_neg h4, if_neg]
    · refine iff_of_true rfl fun header hread => ?_
      rw [readExact, if_neg (by decide), readExactAt, if_neg (by omega)] at hread
      cases hread
    · intro h
      have hlen := congrArg List.length h
      rw [slice, List.length_take, List.length_drop] at hlen
      have hmagic : ELF_MAGIC.length = 4 := rfl
      omega

/-- A kernel at 16 MiB is loaded. -/
theorem kernel_load_total : ∃ file, file.bytes = elfBytes (elfHeader 0x1000000 1)
      [⟨PT_LOAD, 120, 0x1000000, 0x1000000, 4, 0x1000⟩] [0x90, 0x90, 0x90, 0xf4] ∧
    (@loadLinuxKernel ByteSdt ByteRsdp _ _ plainDevices plainCpus declaredOrder true
      (Partition.started 1 0 (by decide) (by decide)) plainMachine ⟨0⟩ file (fun _ => 0)).isSome := by
  let file : KernelFile := ⟨elfBytes (elfHeader 0x1000000 1)
    [⟨PT_LOAD, 120, 0x1000000, 0x1000000, 4, 0x1000⟩] [0x90, 0x90, 0x90, 0xf4], by decide +kernel⟩
  refine ⟨file, rfl, ?_⟩
  have htables : (@tables ByteSdt _ plainDevices plainCpus declaredOrder (dsdtAddr ByteRsdp) plainMachine
      ⟨0⟩).bytes.length < 2 ^ 63 := length_plainTables.trans_lt (by decide)
  refine (@kernel_load_total_iff ByteSdt ByteRsdp _ _ _ _ plainDevices plainCpus declaredOrder plainMachine ⟨0⟩
    htables 1 0 (by decide) (by decide) file fun _ => 0).mpr ?_
  rw [Harmless, if_pos (by decide +kernel)]
  intro ehdr phdrs hread
  have hheaders := @readHeaders_elfHeader _ _ _ _ file rfl (by decide)
  obtain ⟨-, rfl⟩ := Prod.mk.inj (Except.ok.inj (hread.symm.trans hheaders))
  refine ⟨reached_cons.mpr ⟨⟨fun _ => by decide, fun _ h => absurd h.2 (by decide)⟩,
    fun _ pre ph post he => ?_⟩, fun _ => by decide⟩
  cases pre <;> cases he

/-- A segment whose end is beyond the last address: the sum is computed without a check of
the header. -/
theorem segment_overflow : ¬ ∀ file m, 4 ≤ file.bytes.length →
    (@loadLinuxKernel ByteSdt ByteRsdp _ _ plainDevices plainCpus declaredOrder true
      (Partition.started 1 0 (by decide) (by decide)) plainMachine ⟨0⟩ file m).isSome := by
  intro h
  let file : KernelFile := ⟨elfBytes (elfHeader 0x1000000 1)
    [⟨PT_LOAD, 0, 0xfffffffffffff000, 0xfffffffffffff000, 0, 0x2000⟩] [], by decide +kernel⟩
  have hsome := h file (fun _ => 0) (by decide +kernel)
  have hmagic : readExact file 0 4 = .ok ELF_MAGIC := by decide +kernel
  unfold loadLinuxKernel at hsome
  rw [hmagic] at hsome
  dsimp only at hsome
  rw [if_pos rfl] at hsome
  have htables : (@tables ByteSdt _ plainDevices plainCpus declaredOrder (dsdtAddr ByteRsdp) plainMachine
      ⟨0⟩).bytes.length < 2 ^ 63 := length_plainTables.trans_lt (by decide)
  have hharmless := (@loadElfKernel_isSome_iff ByteSdt ByteRsdp _ _ _ _ plainDevices plainCpus declaredOrder
    plainMachine ⟨0⟩ 1 0 (by decide) (by decide) file htables fun _ => 0).mp hsome _ _
      (@readHeaders_elfHeader _ _ _ _ file rfl (by decide))
  have hseg : segments [⟨PT_LOAD, 0, 0xfffffffffffff000, 0xfffffffffffff000, 0, 0x2000⟩] =
      [] ++ [⟨PT_LOAD, 0, 0xfffffffffffff000, 0xfffffffffffff000, 0, 0x2000⟩] := by decide
  have hph := hharmless.reached [] _ [] hseg fun _ ht => by cases ht
  exact absurd (hph.loaded (.inl rfl)) (by decide)

end Whypa
