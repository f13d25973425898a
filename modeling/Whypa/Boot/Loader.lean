import Whypa.Boot.ZeroPage
import Whypa.Framework.Layout
import Whypa.Memory.Bounds

/-!
# The kernel loader

`loadLinuxKernel` tells the two formats apart and loads the file into guest memory. An
ELF kernel is loaded one segment after the other (`loadSegment`); what a segment asks for
is whether its bytes are in the file and its range in the RAM (`Elf64Phdr.Loads`), and
`copySegment_loads` and `copySegment_not_loads` say what comes of it. A run of the loop
that is not given up has loaded every segment (`loadSegments_eq_ok`).
-/

namespace Whypa

open Framework

def HIGH_RAM_START : GuestAddress := 0x100000

/-- The content of a kernel file. Positions in it are signed numbers for the system. -/
structure KernelFile where
  bytes : List Byte
  fits : bytes.length < 2 ^ 63

/-- Why a kernel is not loaded. -/
inductive LoadError
  | boot (e : BootError)
  /-- "Not a valid ELF file" -/
  | notElf
  /-- "Not a 64-bit ELF (class={})" -/
  | notElf64 (elfClass : Byte)
  /-- "Not a little-endian ELF" -/
  | notLittleEndian
  /-- "Not an x86_64 ELF (machine={})" -/
  | notX86_64 (machine : BitVec 16)
  /-- "Unexpected phentsize: {} (expected 56)" -/
  | phentsize (size : BitVec 16)
  /-- "ELF has no PT_LOAD segments" -/
  | noSegments
  /-- "Invalid bzImage: missing HdrS magic (got 0x{:X})" -/
  | notBzImage (magic : BitVec 32)
  /-- "Unsupported bzImage version: 0x{:X}" -/
  | version (version : BitVec 16)
deriving DecidableEq, Repr

def seek (pos : BitVec 64) : Except LoadError Nat :=
  if pos.toNat < 2 ^ 63 then .ok pos.toNat else .error (.boot .io)

/-- Nothing can be read at any position. -/
def readExact (file : KernelFile) (pos n : Nat) : Except LoadError (List Byte) :=
  if n = 0 then .ok [] else (readExactAt file.bytes pos n).mapError .boot

/-- The little-endian field of a header at the offset. -/
def field (header : List Byte) (off n : Nat) : BitVec (8 * n) := BitVec.ofNat (8 * n) (ofLE (slice header off n))

/-! ## ELF kernels -/

def ELF_MAGIC : List Byte := [0x7f, 0x45, 0x4c, 0x46]
def ELFCLASS64 : Byte := 2
def ELFDATA2LSB : Byte := 1
def EM_X86_64 : BitVec 16 := 62
def PT_LOAD : BitVec 32 := 1

/-- The fields of the file header that the loader looks at. -/
structure Elf64Ehdr where
  eIdent : List Byte
  eMachine : BitVec 16
  eEntry : BitVec 64
  ePhoff : BitVec 64
  ePhentsize : BitVec 16
  ePhnum : BitVec 16
deriving DecidableEq, Repr

def Elf64Ehdr.ofBytes (b : List Byte) : Elf64Ehdr :=
  ⟨slice b 0 16, field b 18 2, field b 24 8, field b 32 8, field b 54 2, field b 56 2⟩

/-- The fields of a program header that the loader looks at. -/
structure Elf64Phdr where
  pType : BitVec 32
  pOffset : BitVec 64
  pVaddr : BitVec 64
  pPaddr : BitVec 64
  pFilesz : BitVec 64
  pMemsz : BitVec 64
deriving DecidableEq, Repr

def Elf64Phdr.ofBytes (b : List Byte) : Elf64Phdr :=
  ⟨field b 0 4, field b 8 8, field b 16 8, field b 24 8, field b 32 8, field b 40 8⟩

/-- The size of a program header. -/
def phdrSize : Nat := 56

def checkEhdr (ehdr : Elf64Ehdr) : Except LoadError Unit :=
  if slice ehdr.eIdent 0 4 ≠ ELF_MAGIC then .error .notElf
  else if ehdr.eIdent.getD 4 0 ≠ ELFCLASS64 then .error (.notElf64 (ehdr.eIdent.getD 4 0))
  else if ehdr.eIdent.getD 5 0 ≠ ELFDATA2LSB then .error .notLittleEndian
  else if ehdr.eMachine ≠ EM_X86_64 then .error (.notX86_64 ehdr.eMachine)
  else if ehdr.ePhentsize.toNat ≠ phdrSize then .error (.phentsize ehdr.ePhentsize)
  else .ok ()

/-- The file header and the program headers. -/
def readHeaders (file : KernelFile) : Except LoadError (Elf64Ehdr × List Elf64Phdr) := do
  let ehdr := Elf64Ehdr.ofBytes (← readExact file 0 64)
  checkEhdr ehdr
  let pos ← seek ehdr.ePhoff
  let phdrs ← readExact file pos (phdrSize * ehdr.ePhnum.toNat)
  pure (ehdr, (List.range ehdr.ePhnum.toNat).map fun i =>
    Elf64Phdr.ofBytes (slice phdrs (phdrSize * i) phdrSize))

/-- What the loop over the segments keeps track of. -/
structure Extent where
  lowestPaddr : BitVec 64
  highestEnd : BitVec 64
  /-- The distance from the virtual to the physical addresses, a signed number. -/
  vaddrToPaddrOffset : Option (BitVec 64)
deriving DecidableEq, Repr

section
variable (ck : Bool) (mm : MemoryManager) (file : KernelFile)

/-- Copies the bytes of the segment that are in the file. No vector has `2 ^ 63` bytes. -/
def copySegment (phdr : Elf64Phdr) (m : Mem) : Option (Except LoadError Unit × Mem) :=
  if phdr.pFilesz = 0 then some (.ok (), m)
  else match seek phdr.pOffset with
    | .error e => some (.error e, m)
    | .ok pos =>
      if 2 ^ 63 ≤ phdr.pFilesz.toNat then none
      else match readExact file pos phdr.pFilesz.toNat with
        | .error e => some (.error e, m)
        | .ok data => (mm.writeGuestMemory ck data phdr.pPaddr m).map fun s =>
            (s.1.mapError fun e => .boot (.memory e), s.2)

def loadSegment (phdr : Elf64Phdr) (s : Extent) (m : Mem) : Option (Except LoadError Extent × Mem) :=
  if phdr.pType ≠ PT_LOAD then some (.ok s, m)
  else do
    let vaddrToPaddrOffset := s.vaddrToPaddrOffset.getD (phdr.pVaddr - phdr.pPaddr)
    match ← copySegment ck mm file phdr m with
    | (.error e, m) => pure (.error e, m)
    | (.ok (), m) =>
      let stop ← plainAdd ck phdr.pPaddr phdr.pMemsz
      pure (.ok ⟨if s.lowestPaddr ≤ phdr.pPaddr then s.lowestPaddr else phdr.pPaddr,
        if s.highestEnd ≤ stop then stop else s.highestEnd, some vaddrToPaddrOffset⟩, m)

def loadSegments : List Elf64Phdr → Extent → Mem → Option (Except LoadError Extent × Mem)
  | [], s, m => some (.ok s, m)
  | phdr :: phdrs, s, m => do
    match ← loadSegment ck mm file phdr s m with
    | (.error e, m) => pure (.error e, m)
    | (.ok s, m) => loadSegments phdrs s m

/-- The entry is in the physical range of a segment. -/
def entryIsPhysical (entry : BitVec 64) : List Elf64Phdr → Option Bool
  | [] => some false
  | ph :: phs =>
    if ph.pType = PT_LOAD ∧ ph.pPaddr ≤ entry then do
      let stop ← plainAdd ck ph.pPaddr ph.pMemsz
      if entry < stop then pure true else entryIsPhysical entry phs
    else entryIsPhysical entry phs

end

section
variable (Sdt Rsdp : Type) [SdtOps Sdt] [RsdpOps Rsdp] [Aml DeviceManager] [Aml CpuManager]
  [AsBytes PciRangeEntry] (ck : Bool) (p : Partition) (dm : DeviceManager) (cm : CpuManager)

def loadElfKernel (file : KernelFile) (m : Mem) : Option (Except LoadError (BitVec 64) × Mem) :=
  match readHeaders file with
  | .error e => some (.error e, m)
  | .ok (ehdr, phdrs) => do
    match ← loadSegments ck p.memory file phdrs ⟨-1, 0, none⟩ m with
    | (.error e, m) => pure (.error e, m)
    | (.ok s, m) =>
      if s.lowestPaddr = -1 then pure (.error .noSegments, m)
      else
        let physical ← entryIsPhysical ck ehdr.eEntry phdrs
        let physEntry := if physical then ehdr.eEntry else ehdr.eEntry - s.vaddrToPaddrOffset.getD 0
        let kernelSize ← plainSub ck s.highestEnd s.lowestPaddr
        let (r, m) ← setupElfBootParams Sdt Rsdp ck p dm cm s.lowestPaddr kernelSize m
        pure ((r.mapError .boot).map fun _ => physEntry, m)

/-! ## bzImage kernels -/

/-- The bytes of the file before the kernel: the boot sector and as many sectors as the
header says, 4 if it says none. -/
def setupSize (bootHeader : List Byte) : Nat :=
  let setupSects := (bootHeader.getD 0 0).toNat
  ((if setupSects = 0 then 4 else setupSects) + 1) * 512

def loadBzimageKernel (file : KernelFile) (m : Mem) : Option (Except LoadError (BitVec 64) × Mem) :=
  let totalSize := BitVec.ofNat 64 file.bytes.length
  match readExact file 0x1f1 123 with
  | .error e => some (.error e, m)
  | .ok bootHeader =>
    let magic : BitVec 32 := field bootHeader 0x11 4
    let version : BitVec 16 := field bootHeader 0x15 2
    let loadflags : BitVec 8 := field bootHeader 0x20 1
    if magic ≠ 0x53726448 then some (.error (.notBzImage magic), m)
    else if version < 0x0200 ∨ loadflags &&& 0x1 = 0 then some (.error (.version version), m)
    else do
      let setupSize := setupSize bootHeader
      let _kernelSize ← plainSub ck totalSize (BitVec.ofNat 64 setupSize)
      let code32Start : BitVec 32 := field bootHeader 0x23 4
      match ← p.memory.writeGuestMemory ck (file.bytes.drop setupSize) HIGH_RAM_START m with
      | (.error e, m) => pure (.error (.boot (.memory e)), m)
      | (.ok (), m) =>
        let (r, m) ← setupBzimageBootParams Sdt Rsdp ck p dm cm file.bytes (code32Start.setWidth 64) m
        pure ((r.mapError .boot).map fun _ => HIGH_RAM_START + 0x200, m)

def loadLinuxKernel (file : KernelFile) (m : Mem) : Option (Except LoadError (BitVec 64) × Mem) :=
  match readExact file 0 4 with
  | .error e => some (.error e, m)
  | .ok magic =>
    if magic = ELF_MAGIC then loadElfKernel Sdt Rsdp ck p dm cm file m
    else loadBzimageKernel Sdt Rsdp ck p dm cm file m

end

/-! ## Writing to the RAM -/

namespace MemoryManager

/-- The regions are memory that can be read and written, each byte at one address below
`2 ^ 63`. -/
structure LowRam (mm : MemoryManager) : Prop where
  disjoint : mm.Disjoint
  distinct : mm.Distinct
  usable : mm.Usable
  low : ∀ r ∈ mm.regions, r.span.stop ≤ 2 ^ 63

/-- The bytes end before the last byte of a region that has the first one. -/
def Accepts (mm : MemoryManager) (gpa : GuestAddress) (n : Nat) : Prop :=
  ∃ r, mm.findRegion gpa = some r ∧ gpa.toNat + n < r.gpa.toNat + r.size.toNat

theorem lowRam_started {n : Nat} (source : Nat) (h1 : 1 ≤ n) (hn : n < 2 ^ 33) :
    (Partition.started n source h1 hn).memory.LowRam := by
  have hg := Partition.toNat_gib hn
  have hregion : ∀ r ∈ (Partition.started n source h1 hn).memory.regions,
      r.perms = .RWX ∧ r.hpa.isSome ∧ r.span.stop ≤ 2 ^ 63 := by
    intro r hr
    unfold Partition.started Partition.machine at hr
    by_cases hs : Partition.gib n ≤ MEM_32BIT_RESERVED_START
    · rw [regions_small hs] at hr
      obtain rfl := List.mem_singleton.mp hr
      exact ⟨rfl, rfl, show 0 + (Partition.gib n).toNat ≤ 2 ^ 63 by omega⟩
    · obtain ⟨lowPos, lowFits, highPos, highFits, hsub, -, e⟩ :=
        regions_large source (Partition.gib_pos h1 hn) (Partition.gib_fits hn) hs
      rw [e] at hr
      simp only [List.mem_cons, List.not_mem_nil, or_false] at hr
      rcases hr with rfl | rfl
      · exact ⟨rfl, rfl, show 0 + 0xc0000000 ≤ 2 ^ 63 by decide⟩
      · exact ⟨rfl, rfl,
          show 0x100000000 + (Partition.gib n - MEM_32BIT_DEVICES_START).toNat ≤ 2 ^ 63 by omega⟩
  refine ⟨@disjoint_allocated _ _ _ (Partition.gib_fits hn), @distinct_allocated _ _ _ (Partition.gib_fits hn),
    fun r hr => ?_, fun r hr => (hregion r hr).2.2⟩
  obtain ⟨hp, hh, -⟩ := hregion r hr
  rw [hp]
  exact ⟨rfl, rfl, hh⟩

variable {mm : MemoryManager} {ck : Bool} {gpa : GuestAddress} {bs : List Byte}

/-- A write is let through, and changes what the guest sees, exactly if the RAM accepts it;
no sum overflows in it. -/
theorem LowRam.write (h : mm.LowRam) (ck : Bool) (hbs : bs.length < 2 ^ 63) (m : Mem) :
    (mm.Accepts gpa bs.length → ∃ m', mm.writeGuestMemory ck bs gpa m = some (.ok (), m') ∧
      mm.guest m' = (mm.guest m).write gpa.toNat bs) ∧
    (¬ mm.Accepts gpa bs.length → ∃ e, mm.writeGuestMemory ck bs gpa m = some (.error e, m)) := by
  cases hf : mm.findRegion gpa with
  | none =>
    have hw : mm.writeGuestMemory ck bs gpa m = some (.error .notAllocated, m) := by
      rw [writeGuestMemory, locate, hf]
      rfl
    refine ⟨?_, fun _ => ⟨_, hw⟩⟩
    rintro ⟨r, hr, -⟩
    cases hf.symm.trans hr
  | some r =>
    have hc := findRegion_contains hf
    have hlow : r.gpa.toNat + r.size.toNat ≤ 2 ^ 63 := h.low r (mem_of_findRegion hf)
    have hlt : gpa.toNat + bs.length < 2 ^ 64 := by omega
    have hiff := @locate_accepts_iff ck mm gpa bs.length h.usable hlt MemoryPerms.write .readOnly
      fun _ _ hw => hw
    constructor
    · intro ha
      obtain ⟨a, hl⟩ := hiff.mpr ha
      have hw : mm.writeGuestMemory ck bs gpa m = some (.ok (), m.write a bs) := by
        rw [writeGuestMemory, hl]
        rfl
      exact ⟨_, hw, guest_write h.disjoint h.distinct (by omega) (fun _ => hlt) hw⟩
    · intro ha
      obtain ⟨l, hl⟩ := @exists_locate mm gpa bs.length ck MemoryPerms.write .readOnly hlt
      cases l with
      | ok a => exact absurd (hiff.mp ⟨a, hl⟩) ha
      | error e =>
        refine ⟨e, ?_⟩
        rw [writeGuestMemory, hl]
        rfl

/-- Every machine has RAM below 1 GiB. -/
theorem accepts_started {n source k : Nat} {h1 : 1 ≤ n} {hn : n < 2 ^ 33} (h : gpa.toNat + k < 0x40000000) :
    (Partition.started n source h1 hn).memory.Accepts gpa k := by
  have hg := Partition.toNat_gib hn
  have hk : (List.replicate k (0 : Byte)).length = k := List.length_replicate
  obtain ⟨m', hok, -⟩ := @write_low gpa _ source (Partition.gib_pos h1 hn) (Partition.gib_fits hn) true
    (List.replicate k 0) (fun _ => 0) (by rw [hk, hg]; omega)
  by_contra hn'
  obtain ⟨e, herr⟩ := ((lowRam_started source h1 hn).write true (by omega) fun _ => 0).2 (hk.symm ▸ hn')
  cases hok.symm.trans herr

end MemoryManager

/-! ## The segments -/

namespace Elf64Phdr

variable (mm : MemoryManager) (file : KernelFile) (ph : Elf64Phdr)

/-- The bytes of the segment that are in the file. -/
def data : List Byte := slice file.bytes ph.pOffset.toNat ph.pFilesz.toNat

/-- The bytes are in the file, and the RAM has their range. -/
def Loads : Prop := ph.pFilesz = 0 ∨
  ph.pOffset.toNat + ph.pFilesz.toNat ≤ file.bytes.length ∧ mm.Accepts ph.pPaddr ph.pFilesz.toNat

/-- More bytes than a vector can have, at a position that a file can have. -/
def Overlong : Prop := ph.pOffset.toNat < 2 ^ 63 ∧ 2 ^ 63 ≤ ph.pFilesz.toNat

end Elf64Phdr

section
variable {mm : MemoryManager} {ck : Bool} {file : KernelFile} {ph : Elf64Phdr} {m m' : Mem}

theorem copySegment_loads (hmm : mm.LowRam) (ck : Bool) (h : ph.Loads mm file) (m : Mem) :
    ∃ m', copySegment ck mm file ph m = some (.ok (), m') ∧
      mm.guest m' = (mm.guest m).write ph.pPaddr.toNat (ph.data file) := by
  have hfile := file.fits
  unfold copySegment
  by_cases h0 : ph.pFilesz = 0
  · have hdata : ph.data file = [] := by
      rw [Elf64Phdr.data, h0]
      exact List.take_zero
    refine ⟨m, by rw [if_pos h0], ?_⟩
    rw [hdata]
    exact (funext fun x => Mem.write_apply (by rw [List.length_nil]; omega)).symm
  · obtain ⟨hin, ha⟩ := h.resolve_left h0
    have hlen : (ph.data file).length = ph.pFilesz.toNat := length_slice hin
    have hn : ph.pFilesz.toNat ≠ 0 := fun hz => h0 (BitVec.eq_of_toNat_eq hz)
    obtain ⟨m', hw, hg⟩ := (hmm.write ck (by omega) m).1 (hlen.symm ▸ ha)
    refine ⟨m', ?_, hg⟩
    rw [if_neg h0, seek, if_pos (by omega)]
    dsimp only
    rw [if_neg (by omega), readExact, if_neg hn, readExactAt, if_pos hin]
    change (mm.writeGuestMemory ck (ph.data file) ph.pPaddr m).map _ = _
    rw [hw]
    rfl

theorem copySegment_not_loads (hmm : mm.LowRam) (ck : Bool) (h : ¬ ph.Loads mm file) (m : Mem) :
    (ph.Overlong → copySegment ck mm file ph m = none) ∧
    (¬ ph.Overlong → ∃ e, copySegment ck mm file ph m = some (.error e, m)) := by
  have hfile := file.fits
  rw [Elf64Phdr.Loads, not_or, not_and] at h
  obtain ⟨h0, h⟩ := h
  have hn : ph.pFilesz.toNat ≠ 0 := fun hz => h0 (BitVec.eq_of_toNat_eq hz)
  unfold copySegment Elf64Phdr.Overlong
  rw [if_neg h0, seek]
  by_cases hpos : ph.pOffset.toNat < 2 ^ 63
  · rw [if_pos hpos]
    dsimp only
    refine ⟨fun hl => if_pos hl.2, fun hl => ?_⟩
    rw [if_neg fun hlong => hl ⟨hpos, hlong⟩, readExact, if_neg hn, readExactAt]
    by_cases hin : ph.pOffset.toNat + ph.pFilesz.toNat ≤ file.bytes.length
    · have hlen : (ph.data file).length = ph.pFilesz.toNat := length_slice hin
      obtain ⟨e, hw⟩ := (hmm.write ck (by omega) m).2 (hlen.symm ▸ h hin)
      refine ⟨.boot (.memory e), ?_⟩
      rw [if_pos hin]
      change (mm.writeGuestMemory ck (ph.data file) ph.pPaddr m).map _ = _
      rw [hw]
      rfl
    · exact ⟨.boot .io, by rw [if_neg hin]; rfl⟩
  · exact ⟨fun hl => absurd hl.1 hpos, fun _ => ⟨_, by rw [if_neg hpos]⟩⟩

/-- The extent with the segment. -/
def Extent.add (s : Extent) (ph : Elf64Phdr) : Extent :=
  ⟨if s.lowestPaddr ≤ ph.pPaddr then s.lowestPaddr else ph.pPaddr,
    if s.highestEnd ≤ ph.pPaddr + ph.pMemsz then ph.pPaddr + ph.pMemsz else s.highestEnd,
    some (s.vaddrToPaddrOffset.getD (ph.pVaddr - ph.pPaddr))⟩

/-- The program headers that the loop does not skip. -/
def segments (phdrs : List Elf64Phdr) : List Elf64Phdr := phdrs.filter fun ph => ph.pType = PT_LOAD

/-- What the segments have of the file, and where they put it. -/
def blocks (file : KernelFile) (segs : List Elf64Phdr) : List Block :=
  segs.map fun ph => ⟨ph.pPaddr.toNat, ph.data file⟩

theorem segments_cons (ph : Elf64Phdr) (phdrs : List Elf64Phdr) :
    segments (ph :: phdrs) = if ph.pType = PT_LOAD then ph :: segments phdrs else segments phdrs := by
  simp only [segments, List.filter_cons, decide_eq_true_eq]

/-- What one turn of the loop does: the segment is loaded, and then its end may overflow;
or the file asks for too much; or the kernel is given up. -/
theorem loadSegment_cases (hmm : mm.LowRam) (ck : Bool) (file : KernelFile) (hp : ph.pType = PT_LOAD)
    (s : Extent) (m : Mem) :
    (ph.Loads mm file ∧ ∃ m', mm.guest m' = (mm.guest m).write ph.pPaddr.toNat (ph.data file) ∧
      loadSegment ck mm file ph s m =
        (plainAdd ck ph.pPaddr ph.pMemsz).map fun _ => (.ok (s.add ph), m')) ∨
    (¬ ph.Loads mm file ∧ ph.Overlong ∧ loadSegment ck mm file ph s m = none) ∨
    (¬ ph.Loads mm file ∧ ¬ ph.Overlong ∧ ∃ e, loadSegment ck mm file ph s m = some (.error e, m)) := by
  have hskip : ¬ ph.pType ≠ PT_LOAD := not_not.mpr hp
  unfold loadSegment
  rw [if_neg hskip]
  by_cases h : ph.Loads mm file
  · obtain ⟨m', hcopy, hg⟩ := copySegment_loads hmm ck h m
    refine .inl ⟨h, m', hg, ?_⟩
    rw [hcopy, Option.bind_eq_bind, Option.bind_some]
    cases hadd : plainAdd ck ph.pPaddr ph.pMemsz with
    | none => rfl
    | some stop =>
      obtain rfl := Option.some.inj (Option.ite_none_right_eq_some.mp hadd).2
      rfl
  · by_cases hlong : ph.Overlong
    · refine .inr (.inl ⟨h, hlong, ?_⟩)
      rw [(copySegment_not_loads hmm ck h m).1 hlong]
      rfl
    · obtain ⟨e, he⟩ := (copySegment_not_loads hmm ck h m).2 hlong
      refine .inr (.inr ⟨h, hlong, e, ?_⟩)
      rw [he]
      rfl

/-- The extent is that of all segments, whatever the memory is. -/
theorem loadSegments_extent {phdrs : List Elf64Phdr} {s s' : Extent}
    (h : loadSegments ck mm file phdrs s m = some (.ok s', m')) :
    s' = (segments phdrs).foldl Extent.add s := by
  induction phdrs generalizing s m with
  | nil => exact (Except.ok.inj (Prod.mk.inj (Option.some.inj h)).1).symm
  | cons ph phdrs ih =>
    obtain ⟨⟨r, m₁⟩, hseg, h⟩ := Option.bind_eq_some_iff.mp h
    rw [segments_cons]
    unfold loadSegment at hseg
    split at hseg
    · rename_i hp
      obtain ⟨rfl, rfl⟩ := Prod.mk.inj (Option.some.inj hseg)
      rw [if_neg hp]
      exact ih h
    · rename_i hp
      obtain ⟨⟨rc, m₂⟩, -, hseg⟩ := Option.bind_eq_some_iff.mp hseg
      cases rc with
      | error e =>
        obtain ⟨rfl, rfl⟩ := Prod.mk.inj (Option.some.inj hseg)
        cases h
      | ok u =>
        obtain ⟨stop, hadd, hseg⟩ := Option.bind_eq_some_iff.mp hseg
        obtain rfl := Option.some.inj (Option.ite_none_right_eq_some.mp hadd).2
        obtain ⟨rfl, rfl⟩ := Prod.mk.inj (Option.some.inj hseg)
        rw [if_pos (not_not.mp hp), List.foldl_cons]
        exact ih h

/-- A run that is not given up has loaded every segment. -/
theorem loadSegments_eq_ok (hmm : mm.LowRam) {phdrs : List Elf64Phdr} {s s' : Extent}
    (h : loadSegments ck mm file phdrs s m = some (.ok s', m')) :
    (∀ ph ∈ segments phdrs, ph.Loads mm file) ∧
      mm.guest m' = (mm.guest m).layout (blocks file (segments phdrs)) := by
  induction phdrs generalizing s m with
  | nil =>
    obtain ⟨-, rfl⟩ := Prod.mk.inj (Option.some.inj h)
    exact ⟨fun _ hph => (by cases hph), rfl⟩
  | cons ph phdrs ih =>
    rw [loadSegments] at h
    rw [segments_cons]
    by_cases hp : ph.pType = PT_LOAD
    · rw [if_pos hp, List.forall_mem_cons]
      rcases loadSegment_cases hmm ck file hp s m with ⟨hl, m₁, hg, he⟩ | ⟨-, -, he⟩ | ⟨-, -, e, he⟩
      · rw [he] at h
        cases hadd : plainAdd ck ph.pPaddr ph.pMemsz with
        | none =>
          rw [hadd] at h
          cases h
        | some stop =>
          rw [hadd] at h
          obtain ⟨hall, hguest⟩ := ih h
          refine ⟨⟨hl, hall⟩, ?_⟩
          rw [hguest, hg]
          rfl
      · rw [he] at h
        cases h
      · rw [he] at h
        cases h
    · rw [if_neg hp]
      rw [loadSegment, if_pos hp] at h
      exact ih h

/-- A run over segments that all load is not given up if no end overflows. -/
theorem exists_loadSegments (hmm : mm.LowRam) (ck : Bool) {phdrs : List Elf64Phdr}
    (hloads : ∀ ph ∈ segments phdrs, ph.Loads mm file)
    (hends : ∀ ph ∈ segments phdrs, ph.pPaddr.toNat + ph.pMemsz.toNat < 2 ^ 64) (s : Extent) (m : Mem) :
    ∃ m', loadSegments ck mm file phdrs s m = some (.ok ((segments phdrs).foldl Extent.add s), m') := by
  induction phdrs generalizing s m with
  | nil => exact ⟨m, rfl⟩
  | cons ph phdrs ih =>
    rw [segments_cons] at hloads hends ⊢
    rw [loadSegments]
    by_cases hp : ph.pType = PT_LOAD
    · rw [if_pos hp] at hloads hends ⊢
      obtain ⟨hl, hloads⟩ := List.forall_mem_cons.mp hloads
      obtain ⟨hend, hends⟩ := List.forall_mem_cons.mp hends
      rcases loadSegment_cases hmm ck file hp s m with ⟨-, m₁, -, he⟩ | ⟨hn, -⟩ | ⟨hn, -⟩
      · rw [he, plainAdd_of_lt ck hend]
        exact ih hloads hends (s.add ph) m₁
      · exact absurd hl hn
      · exact absurd hl hn
    · rw [if_neg hp] at hloads hends ⊢
      rw [loadSegment, if_pos hp]
      exact ih hloads hends s m

end

/-! ## The ranges of the segments -/

namespace Elf64Phdr

variable (ph : Elf64Phdr)

/-- The physical range. -/
def span : Span := ⟨ph.pPaddr.toNat, ph.pMemsz.toNat⟩

/-- The virtual range. -/
def vspan : Span := ⟨ph.pVaddr.toNat, ph.pMemsz.toNat⟩

/-- The distance from the virtual to the physical range. -/
def delta : BitVec 64 := ph.pVaddr - ph.pPaddr

end Elf64Phdr

/-- The search for the entry finds a segment that has it, if no end overflows. -/
theorem entryIsPhysical_eq (ck : Bool) {entry : BitVec 64} {phdrs : List Elf64Phdr}
    (hends : ∀ ph ∈ segments phdrs, ph.span.stop < 2 ^ 64) : ∃ b, entryIsPhysical ck entry phdrs = some b ∧
      (b = true ↔ ∃ ph ∈ segments phdrs, ph.span.Has entry.toNat) := by
  induction phdrs with
  | nil => exact ⟨false, rfl, by simp [segments]⟩
  | cons ph phdrs ih =>
    rw [segments_cons] at hends ⊢
    rw [entryIsPhysical]
    by_cases hp : ph.pType = PT_LOAD
    · rw [if_pos hp] at hends ⊢
      obtain ⟨hend, hends⟩ := List.forall_mem_cons.mp hends
      obtain ⟨b, hb, hiff⟩ := ih hends
      have hstop : (ph.pPaddr + ph.pMemsz).toNat = ph.span.stop := BitVec.toNat_add_of_lt hend
      by_cases hle : ph.pPaddr ≤ entry
      · rw [if_pos ⟨hp, hle⟩, plainAdd_of_lt ck hend, Option.bind_eq_bind, Option.bind_some]
        by_cases hlt : entry < ph.pPaddr + ph.pMemsz
        · refine ⟨true, if_pos hlt, iff_of_true rfl ⟨ph, List.mem_cons_self, hle, ?_⟩⟩
          rwa [BitVec.lt_def, hstop] at hlt
        · refine ⟨b, (if_neg hlt).trans hb, hiff.trans ?_⟩
          rw [BitVec.lt_def, hstop] at hlt
          simp only [List.mem_cons, exists_eq_or_imp]
          exact (or_iff_right fun h => hlt h.2).symm
      · refine ⟨b, by rw [if_neg fun h => hle h.2, hb], hiff.trans ?_⟩
        simp only [List.mem_cons, exists_eq_or_imp]
        exact (or_iff_right fun h => hle h.1).symm
    · rw [if_neg hp] at hends ⊢
      rw [if_neg fun h => hp h.1]
      exact ih hends

/-! ## The whole kernel -/

/-- The extent of the segments. -/
def extent (phdrs : List Elf64Phdr) : Extent := (segments phdrs).foldl Extent.add ⟨-1, 0, none⟩

/-- The distance is that of the first segment. -/
theorem extent_offset {phdrs segs : List Elf64Phdr} {ph : Elf64Phdr} (h : segments phdrs = ph :: segs) :
    (extent phdrs).vaddrToPaddrOffset = some ph.delta := by
  have hkeep : ∀ (segs : List Elf64Phdr) (s : Extent), s.vaddrToPaddrOffset = some ph.delta →
      (segs.foldl Extent.add s).vaddrToPaddrOffset = some ph.delta := by
    intro segs
    induction segs with
    | nil => exact fun s hs => hs
    | cons ph' segs ih => exact fun s hs => ih _ (by rw [Extent.add, hs]; rfl)
  rw [extent, h, List.foldl_cons]
  exact hkeep segs _ rfl

/-- The extent `t` is `s` and the segments: it starts and ends where one of them does. -/
structure Extent.Spans (s : Extent) (segs : List Elf64Phdr) (t : Extent) : Prop where
  low : t.lowestPaddr = s.lowestPaddr ∨ ∃ ph ∈ segs, t.lowestPaddr.toNat = ph.span.lo
  low_le : t.lowestPaddr.toNat ≤ s.lowestPaddr.toNat ∧ ∀ ph ∈ segs, t.lowestPaddr.toNat ≤ ph.span.lo
  high : t.highestEnd = s.highestEnd ∨ ∃ ph ∈ segs, t.highestEnd.toNat = ph.span.stop
  le_high : s.highestEnd.toNat ≤ t.highestEnd.toNat ∧ ∀ ph ∈ segs, ph.span.stop ≤ t.highestEnd.toNat

theorem Extent.spans_add (s : Extent) {ph : Elf64Phdr} (hend : ph.span.stop < 2 ^ 64) :
    s.Spans [ph] (s.add ph) := by
  have hstop : (ph.pPaddr + ph.pMemsz).toNat = ph.span.stop := BitVec.toNat_add_of_lt hend
  have hlo : ph.span.lo = ph.pPaddr.toNat := rfl
  constructor <;> simp only [add, List.mem_singleton, exists_eq_left, forall_eq] <;> split <;>
  · rename_i hle
    simp only [BitVec.le_def, hstop] at hle
    simp only [hstop, hlo, true_or, or_true, le_refl, true_and, and_true]
    try omega

theorem Extent.spans_foldl (segs : List Elf64Phdr) (s : Extent)
    (hends : ∀ ph ∈ segs, ph.span.stop < 2 ^ 64) : s.Spans segs (segs.foldl Extent.add s) := by
  induction segs generalizing s with
  | nil =>
    exact ⟨.inl rfl, ⟨le_rfl, fun _ h => by cases h⟩, .inl rfl, le_rfl, fun _ h => by cases h⟩
  | cons ph segs ih =>
    obtain ⟨hend, hends⟩ := List.forall_mem_cons.mp hends
    have h := s.spans_add hend
    have ht := ih (s.add ph) hends
    simp only [List.foldl_cons]
    refine ⟨?_, ⟨ht.low_le.1.trans h.low_le.1, List.forall_mem_cons.mpr
      ⟨ht.low_le.1.trans (h.low_le.2 ph List.mem_cons_self), ht.low_le.2⟩⟩, ?_,
      h.le_high.1.trans ht.le_high.1, List.forall_mem_cons.mpr
      ⟨(h.le_high.2 ph List.mem_cons_self).trans ht.le_high.1, ht.le_high.2⟩⟩
    · rcases ht.low with e | ⟨ph', hph', e⟩
      · rw [e]
        exact h.low.imp id fun ⟨ph', hph', e⟩ =>
          ⟨ph', List.mem_cons.mpr (.inl (List.mem_singleton.mp hph')), e⟩
      · exact .inr ⟨ph', List.mem_cons_of_mem _ hph', e⟩
    · rcases ht.high with e | ⟨ph', hph', e⟩
      · rw [e]
        exact h.high.imp id fun ⟨ph', hph', e⟩ =>
          ⟨ph', List.mem_cons.mpr (.inl (List.mem_singleton.mp hph')), e⟩
      · exact .inr ⟨ph', List.mem_cons_of_mem _ hph', e⟩

/-- The extent goes from the lowest start to the highest end, if no end overflows. -/
theorem extent_bounds {phdrs : List Elf64Phdr} (hends : ∀ ph ∈ segments phdrs, ph.span.stop < 2 ^ 64)
    (hne : segments phdrs ≠ []) :
    (∃ ph ∈ segments phdrs, (extent phdrs).lowestPaddr.toNat = ph.span.lo) ∧
    (∃ ph ∈ segments phdrs, (extent phdrs).highestEnd.toNat = ph.span.stop) ∧
    ∀ ph ∈ segments phdrs, (extent phdrs).lowestPaddr.toNat ≤ ph.span.lo ∧
      ph.span.stop ≤ (extent phdrs).highestEnd.toNat := by
  have h := Extent.spans_foldl (segments phdrs) ⟨-1, 0, none⟩ hends
  obtain ⟨ph, hph⟩ := List.exists_mem_of_ne_nil _ hne
  have hlow := h.low_le.2 ph hph
  have hhigh := h.le_high.2 ph hph
  refine ⟨h.low.elim (fun e => ⟨ph, hph, ?_⟩) id, h.high.elim (fun e => ⟨ph, hph, ?_⟩) id,
    fun ph hph => ⟨h.low_le.2 ph hph, h.le_high.2 ph hph⟩⟩
  · have hlt : ph.span.lo < 2 ^ 64 := ph.pPaddr.isLt
    have hmax : (-1 : BitVec 64).toNat = 2 ^ 64 - 1 := by decide
    rw [e] at hlow
    rw [extent, e]
    dsimp only at *
    omega
  · have h0 : (0 : BitVec 64).toNat = 0 := rfl
    rw [e] at hhigh
    rw [extent, e]
    dsimp only at *
    omega

section
variable {Sdt Rsdp : Type} [SdtOps Sdt] [RsdpOps Rsdp] [Aml DeviceManager] [Aml CpuManager]
  [AsBytes PciRangeEntry] {ck : Bool} {p : Partition} {dm : DeviceManager} {cm : CpuManager}
  {file : KernelFile} {m m' : Mem}

/-- What a kernel that is accepted went through. -/
theorem loadElfKernel_eq_ok {entry : BitVec 64} {ehdr : Elf64Ehdr} {phdrs : List Elf64Phdr}
    (hread : readHeaders file = .ok (ehdr, phdrs))
    (h : loadElfKernel Sdt Rsdp ck p dm cm file m = some (.ok entry, m')) :
    (extent phdrs).lowestPaddr ≠ -1 ∧
    (∃ m₁ kernelSize initSize, loadSegments ck p.memory file phdrs ⟨-1, 0, none⟩ m =
        some (.ok (extent phdrs), m₁) ∧
      kernelSize = (extent phdrs).highestEnd - (extent phdrs).lowestPaddr ∧
      setupElfBootParams Sdt Rsdp ck p dm cm (extent phdrs).lowestPaddr kernelSize m₁ =
        some (.ok initSize, m')) ∧
    ∃ physical, entryIsPhysical ck ehdr.eEntry phdrs = some physical ∧
      entry = if physical then ehdr.eEntry else ehdr.eEntry - (extent phdrs).vaddrToPaddrOffset.getD 0 := by
  rw [loadElfKernel, hread] at h
  obtain ⟨⟨r, m₁⟩, hsegs, h⟩ := Option.bind_eq_some_iff.mp h
  cases r with
  | error e => cases h
  | ok s =>
    obtain rfl : s = extent phdrs := loadSegments_extent hsegs
    dsimp only at h
    split at h
    · cases h
    · rename_i hlow
      obtain ⟨physical, hphys, h⟩ := Option.bind_eq_some_iff.mp h
      obtain ⟨kernelSize, hsub, h⟩ := Option.bind_eq_some_iff.mp h
      obtain ⟨⟨rb, m₂⟩, hboot, h⟩ := Option.bind_eq_some_iff.mp h
      obtain ⟨hr, rfl⟩ := Prod.mk.inj (Option.some.inj h)
      have hsize := (Option.some.inj (Option.ite_none_right_eq_some.mp hsub).2).symm
      cases rb with
      | error e => cases hr
      | ok initSize =>
        exact ⟨hlow, ⟨m₁, kernelSize, initSize, hsegs, hsize, hboot⟩, physical, hphys,
          (Except.ok.inj hr).symm⟩

/-- A kernel whose segments all load is accepted if no end overflows and its size can be
rounded. -/
theorem exists_loadElfKernel [LawfulSdt Sdt] [LawfulRsdp Rsdp] {n source : Nat} {h1 : 1 ≤ n} {hn : n < 2 ^ 33}
    (htables : (tables Sdt (dsdtAddr Rsdp) dm cm).bytes.length < 2 ^ 63) {ehdr : Elf64Ehdr}
    {phdrs : List Elf64Phdr} (hread : readHeaders file = .ok (ehdr, phdrs))
    (hlow : (extent phdrs).lowestPaddr ≠ -1)
    (hloads : ∀ ph ∈ segments phdrs, ph.Loads (Partition.started n source h1 hn).memory file)
    (hends : ∀ ph ∈ segments phdrs, ph.span.stop < 2 ^ 64) (m : Mem) : ∃ entry m',
      loadElfKernel Sdt Rsdp ck (Partition.started n source h1 hn) dm cm file m =
        (plainAdd ck ((extent phdrs).highestEnd - (extent phdrs).lowestPaddr) 0xfff).map fun _ =>
          (.ok entry, m') := by
  obtain ⟨m₁, hsegs⟩ :=
    exists_loadSegments (MemoryManager.lowRam_started source h1 hn) ck hloads hends ⟨-1, 0, none⟩ m
  obtain ⟨physical, hphys, -⟩ := @entryIsPhysical_eq ck ehdr.eEntry phdrs hends
  have hne : segments phdrs ≠ [] := by
    intro h
    exact hlow (by rw [extent, h]; rfl)
  obtain ⟨⟨ph, hph, hlo⟩, -, hall⟩ := extent_bounds hends hne
  have hle : (extent phdrs).lowestPaddr.toNat ≤ (extent phdrs).highestEnd.toNat := by
    rw [hlo]
    exact (Nat.le_add_right ..).trans (hall ph hph).2
  obtain ⟨initSize, m', hboot⟩ := @exists_setupElfBootParams Sdt Rsdp _ _ _ _ _ _ _ ck dm cm n source h1 hn
    htables (extent phdrs).lowestPaddr ((extent phdrs).highestEnd - (extent phdrs).lowestPaddr) m₁
  refine ⟨if physical then ehdr.eEntry else ehdr.eEntry - (extent phdrs).vaddrToPaddrOffset.getD 0, m', ?_⟩
  rw [← extent] at hsegs
  rw [loadElfKernel, hread]
  dsimp only
  rw [hsegs, Option.bind_eq_bind, Option.bind_some]
  dsimp only
  rw [if_neg hlow, hphys, Option.bind_eq_bind, Option.bind_some, plainSub_of_le ck hle, Option.bind_eq_bind,
    Option.bind_some, hboot]
  cases plainAdd ck ((extent phdrs).highestEnd - (extent phdrs).lowestPaddr) 0xfff <;> rfl

end

end Whypa
