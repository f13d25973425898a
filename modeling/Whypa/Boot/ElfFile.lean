import Whypa.Boot.Loader

/-!
# ELF files

The bytes of a file with given headers (`elfBytes`), and that the loader reads these
headers from them (`readHeaders_elfBytes`).
-/

namespace Whypa

open Framework

/-- What is before the field does not matter. -/
theorem field_append {n off : Nat} {pre b : List Byte} (h : pre.length ≤ off) :
    field (pre ++ b) off n = field b (off - pre.length) n := by
  rw [field, field, slice, slice, List.drop_append, List.drop_of_length_le h, List.nil_append]

/-- A field is what was written. -/
theorem field_leBytes {n : Nat} (v : BitVec (8 * n)) (b : List Byte) :
    field (leBytes n v.toNat ++ b) 0 n = v := by
  rw [field, slice, List.drop_zero, List.take_left' (length_leBytes ..), ofNat_ofLE_leBytes]

/-- The bytes of a file header; the fields that the loader does not look at are 0. -/
def Elf64Ehdr.bytes (h : Elf64Ehdr) : List Byte :=
  h.eIdent ++ (leBytes 2 0 ++ (leBytes 2 h.eMachine.toNat ++ (leBytes 4 0 ++ (leBytes 8 h.eEntry.toNat ++
    (leBytes 8 h.ePhoff.toNat ++ (leBytes 14 0 ++ (leBytes 2 h.ePhentsize.toNat ++
      (leBytes 2 h.ePhnum.toNat ++ leBytes 6 0))))))))

/-- The bytes of a program header. -/
def Elf64Phdr.bytes (ph : Elf64Phdr) : List Byte :=
  leBytes 4 ph.pType.toNat ++ (leBytes 4 0 ++ (leBytes 8 ph.pOffset.toNat ++ (leBytes 8 ph.pVaddr.toNat ++
    (leBytes 8 ph.pPaddr.toNat ++ (leBytes 8 ph.pFilesz.toNat ++ (leBytes 8 ph.pMemsz.toNat ++
      leBytes 8 0))))))

theorem Elf64Ehdr.length_bytes {h : Elf64Ehdr} (h16 : h.eIdent.length = 16) : h.bytes.length = 64 := by
  simp only [bytes, List.length_append, length_leBytes, h16]

theorem Elf64Phdr.length_bytes (ph : Elf64Phdr) : ph.bytes.length = 56 := by
  simp only [bytes, List.length_append, length_leBytes]

theorem Elf64Ehdr.ofBytes_bytes {h : Elf64Ehdr} (h16 : h.eIdent.length = 16) : ofBytes h.bytes = h := by
  have hident : slice h.bytes 0 16 = h.eIdent := List.take_left' h16
  rw [ofBytes, hident]
  simp (disch := simp [h16]) [bytes, field_append, field_leBytes, h16]

theorem Elf64Phdr.ofBytes_bytes (ph : Elf64Phdr) : ofBytes ph.bytes = ph := by
  simp (disch := simp) [ofBytes, bytes, field_append, field_leBytes]

/-- A file that starts with the header and the program headers. -/
def elfBytes (h : Elf64Ehdr) (phdrs : List Elf64Phdr) (rest : List Byte) : List Byte :=
  h.bytes ++ (phdrs.flatMap Elf64Phdr.bytes ++ rest)

/-- The headers that are in the file are read. -/
theorem readHeaders_elfBytes {h : Elf64Ehdr} {phdrs : List Elf64Phdr} {rest : List Byte} {file : KernelFile}
    (hfile : file.bytes = elfBytes h phdrs rest) (h16 : h.eIdent.length = 16) (hcheck : checkEhdr h = .ok ())
    (hphoff : h.ePhoff = 64) (hphnum : h.ePhnum.toNat = phdrs.length) :
    readHeaders file = .ok (h, phdrs) := by
  have hlen := Elf64Ehdr.length_bytes h16
  have hphdrs := length_flatMap_const Elf64Phdr.length_bytes phdrs
  have htotal : file.bytes.length = 64 + (56 * phdrs.length + rest.length) := by
    rw [hfile, elfBytes, List.length_append, List.length_append, hlen, hphdrs]
  have hehdr : readExact file 0 64 = .ok h.bytes := by
    rw [readExact, if_neg (by decide), readExactAt, if_pos (by omega), hfile, elfBytes]
    exact congrArg Except.ok (List.take_left' hlen)
  have htable : readExact file 64 (56 * phdrs.length) = .ok (phdrs.flatMap Elf64Phdr.bytes) := by
    rw [readExact]
    split
    · rename_i h0
      have hnil : phdrs = [] := List.eq_nil_of_length_eq_zero (by omega)
      rw [hnil]
      rfl
    · rw [readExactAt, if_pos (by omega), hfile, elfBytes, slice, List.drop_left' hlen,
        List.take_left' hphdrs]
      rfl
  have hseek : seek h.ePhoff = .ok 64 := by
    rw [hphoff]
    rfl
  have hphdr : ∀ i ∈ List.range phdrs.length,
      some (Elf64Phdr.ofBytes (slice (phdrs.flatMap Elf64Phdr.bytes) (56 * i) 56)) = phdrs[i]? := by
    intro i hi
    have hi := List.mem_range.mp hi
    rw [List.getElem?_eq_getElem hi, slice_flatMap Elf64Phdr.length_bytes (List.getElem?_eq_getElem hi),
      Elf64Phdr.ofBytes_bytes]
  have hlist : (List.range phdrs.length).map (fun i =>
      Elf64Phdr.ofBytes (slice (phdrs.flatMap Elf64Phdr.bytes) (56 * i) 56)) = phdrs := by
    refine List.ext_getElem? fun i => ?_
    rw [List.getElem?_map]
    by_cases hi : i < phdrs.length
    · rw [List.getElem?_range hi]
      exact hphdr i (List.mem_range.mpr hi)
    · rw [List.getElem?_eq_none (by rw [List.length_range]; omega), List.getElem?_eq_none (by omega)]
      rfl
  rw [readHeaders, hehdr]
  dsimp only [bind, Except.bind]
  rw [Elf64Ehdr.ofBytes_bytes h16, hcheck, hseek]
  dsimp only
  rw [hphnum, phdrSize, htable]
  dsimp only
  rw [hlist]
  rfl

/-- The header of a file for the loader. -/
def elfHeader (entry : BitVec 64) (phnum : BitVec 16) : Elf64Ehdr :=
  ⟨ELF_MAGIC ++ ([ELFCLASS64, ELFDATA2LSB] ++ List.replicate 10 0), EM_X86_64, entry, 64, 56, phnum⟩

theorem readHeaders_elfHeader {entry : BitVec 64} {phnum : BitVec 16} {phdrs : List Elf64Phdr}
    {rest : List Byte} {file : KernelFile} (hfile : file.bytes = elfBytes (elfHeader entry phnum) phdrs rest)
    (hphnum : phnum.toNat = phdrs.length) : readHeaders file = .ok (elfHeader entry phnum, phdrs) :=
  readHeaders_elfBytes hfile rfl rfl rfl hphnum

/-- A small machine accepts a kernel if the first gibibyte of its RAM has all segments. -/
theorem exists_plainKernel {file : KernelFile} {ehdr : Elf64Ehdr} {phdrs : List Elf64Phdr}
    (hread : readHeaders file = .ok (ehdr, phdrs)) (hne : segments phdrs ≠ [])
    (hin : ∀ ph ∈ segments phdrs, ph.pOffset.toNat + ph.pFilesz.toNat ≤ file.bytes.length)
    (hfile : ∀ ph ∈ segments phdrs, ph.pPaddr.toNat + ph.pFilesz.toNat < 0x40000000)
    (hends : ∀ ph ∈ segments phdrs, ph.span.stop < 2 ^ 63) : ∃ entry m',
      @loadElfKernel ByteSdt ByteRsdp _ _ plainDevices plainCpus declaredOrder true
        (Partition.started 1 0 (by decide) (by decide)) plainMachine ⟨0⟩ file (fun _ => 0) =
          some (.ok entry, m') := by
  have hends' : ∀ ph ∈ segments phdrs, ph.span.stop < 2 ^ 64 := fun ph hph => (hends ph hph).trans (by decide)
  obtain ⟨⟨pl, hpl, hlo⟩, ⟨ph, hph, hhi⟩, hall⟩ := extent_bounds hends' hne
  have hlow : (extent phdrs).lowestPaddr ≠ -1 := by
    intro h
    have := hfile pl hpl
    have hpa : pl.span.lo = pl.pPaddr.toNat := rfl
    rw [h, hpa] at hlo
    have hmax : (-1 : BitVec 64).toNat = 2 ^ 64 - 1 := by decide
    omega
  have htables : (@tables ByteSdt _ plainDevices plainCpus declaredOrder (dsdtAddr ByteRsdp) plainMachine
      ⟨0⟩).bytes.length < 2 ^ 63 := length_plainTables.trans_lt (by decide)
  obtain ⟨entry, m', hok⟩ := @exists_loadElfKernel ByteSdt ByteRsdp _ _ plainDevices plainCpus declaredOrder
    true plainMachine ⟨0⟩ file _ _ 1 0 (by decide) (by decide) htables ehdr phdrs hread hlow
    (fun ph hph => .inr ⟨hin ph hph, MemoryManager.accepts_started (hfile ph hph)⟩) hends' fun _ => 0
  refine ⟨entry, m', hok.trans ?_⟩
  have hsub : ((extent phdrs).highestEnd - (extent phdrs).lowestPaddr).toNat =
      (extent phdrs).highestEnd.toNat - (extent phdrs).lowestPaddr.toNat :=
    BitVec.toNat_sub_of_le (by
      rw [BitVec.le_def, hlo]
      exact (Nat.le_add_right ..).trans (hall pl hpl).2)
  have hround : (0xfff : BitVec 64).toNat = 0xfff := rfl
  rw [plainAdd_of_lt true]
  · rfl
  · have := hends ph hph
    rw [hsub, hhi, hround]
    omega

end Whypa
