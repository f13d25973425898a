import Whypa.Acpi.Tables
import Whypa.Memory.Windows

/-!
# The zero page

What the kernel is told of the machine: `setupElfBootParams` and
`setupBzimageBootParams` each start the page, `fillBootParams` writes the fields they
share and the E820 memory map, and puts the page into guest memory. The entries of the
map are written one after the other (`writeEntries_eq`), and nothing that is written
later touches them or their count (`fillBootParams_eq`), so that the map that is read
back has one entry for each region of RAM, for the reserved area below 4 GiB and for each
window (`zero_page_exact`).
-/

namespace Whypa

open Framework

def ZERO_PAGE_START : GuestAddress := 0x7000
def CMDLINE_START : GuestAddress := 0x20000
def PCI_MMCONFIG_START : BitVec 64 := 0xe8000000
def PCI_MMCONFIG_SIZE : BitVec 64 := 256 <<< 20
def IOAPIC_SIZE : BitVec 64 := 0x1000
def VIRTIO_MMIO_START : BitVec 64 := 0xfeb00000
def VIRTIO_MMIO_SIZE_PER_DEVICE : BitVec 64 := 0x1000
def MEM_32BIT_RESERVED_SIZE : BitVec 64 := 0x100000000 - MEM_32BIT_RESERVED_START

/-! ## The windows of the devices -/

namespace Partition

/-- Registers the windows in order, up to the first that cannot be. -/
def registerAll (ck : Bool) : List Request → Partition → Option (Except RegisterError Unit × Partition)
  | [], p => some (.ok (), p)
  | q :: qs, p =>
    match p.register ck q with
    | none => none
    | some (.error e, p) => some (.error e, p)
    | some (.ok (), p) => registerAll ck qs p

/-- The window of the virtio device with the number `i`. -/
def virtioWindow (i : BitVec 64) (name handler : String) : Request :=
  ⟨VIRTIO_MMIO_START + i * VIRTIO_MMIO_SIZE_PER_DEVICE, VIRTIO_MMIO_SIZE_PER_DEVICE, name, some handler,
    by decide⟩

/-- The windows that `register_devices` registers. -/
def deviceWindows : List Request :=
  [⟨IOAPIC_START, IOAPIC_SIZE, "IOAPIC", some "ioapic", by decide⟩,
    ⟨PCI_MMCONFIG_START, PCI_MMCONFIG_SIZE, "PCI ECAM", some "pci_ecam", by decide⟩,
    virtioWindow 0 "Virtio Block Device" "virtio_block",
    virtioWindow 1 "Virtio RNG Device" "virtio_rng",
    virtioWindow 2 "Virtio Console Device" "virtio_console",
    virtioWindow 3 "Virtio Net Device" "virtio_net"]

def registerDevices (ck : Bool) (p : Partition) : Option (Except RegisterError Unit × Partition) :=
  registerAll ck deviceWindows p

/-- Windows that share no address with the RAM and with each other are all registered. -/
theorem registerAll_eq {ck : Bool} {qs : List Request} {p : Partition} (hs : p.Separated)
    (hfit : ∀ q ∈ qs, q.gpa.toNat + q.size.toNat < 2 ^ 64)
    (hram : ∀ q ∈ qs, ∀ r ∈ p.memory.regions, ¬ q.span.Meets r.span)
    (hwin : ∀ q ∈ qs, ∀ w ∈ p.mmioRegions, ¬ q.span.Meets w.span)
    (hqs : qs.Pairwise fun q q' => ¬ q'.span.Meets q.span) :
    registerAll ck qs p = some (.ok (), { p with mmioRegions := p.mmioRegions ++ qs.map Request.region }) ∧
      Separated { p with mmioRegions := p.mmioRegions ++ qs.map Request.region } := by
  induction qs generalizing p with
  | nil => simpa [registerAll] using hs
  | cons q qs ih =>
    obtain ⟨hfitq, hfit⟩ := List.forall_mem_cons.mp hfit
    obtain ⟨hramq, hram⟩ := List.forall_mem_cons.mp hram
    obtain ⟨hwinq, hwin⟩ := List.forall_mem_cons.mp hwin
    obtain ⟨hqq, hqs⟩ := List.pairwise_cons.mp hqs
    have hc : q.Clear p := by
      intro r hr he
      have hpos := r.size_pos
      have hlast := r.toNat_lastAddr
      refine hramq r hr ⟨q.gpa.toNat, ⟨le_rfl, Nat.lt_add_of_pos_right q.size_pos⟩, ?_, ?_⟩ <;>
      simp only [MemoryRegion.span, Span.stop, he] <;> omega
    have hb : ¬ q.Blocked p := by
      rintro (h | ⟨r, hr, hm⟩ | ⟨w, hw, hm⟩)
      · omega
      · exact hramq r hr hm
      · exact hwinq w hw hm
    have hadd := (@register_spec ck p q hs hc).2 hb
    have hwin' : ∀ q' ∈ qs, ∀ w ∈ (p.add q).mmioRegions, ¬ q'.span.Meets w.span := by
      intro q' hq' w hw
      rcases List.mem_append.mp hw with hw | hw
      · exact hwin q' hq' w hw
      · obtain rfl := List.mem_singleton.mp hw
        exact hqq q' hq'
    obtain ⟨hreg, hsep⟩ := ih (hs.add hb) hfit hram hwin' hqs
    rw [registerAll, hadd]
    simp only [add, List.append_assoc, List.singleton_append] at hreg hsep
    exact ⟨hreg, hsep⟩

end Partition

/-! ## The E820 memory map -/

/-- An entry of the memory map: a range and its type, 1 for RAM and 2 for what is
reserved. -/
structure E820Entry where
  addr : BitVec 64
  size : BitVec 64
  type : BitVec 32
deriving DecidableEq, Repr

namespace E820Entry

def bytes (e : E820Entry) : List Byte :=
  AsBytes.bytes e.addr ++ AsBytes.bytes e.size ++ AsBytes.bytes e.type

def span (e : E820Entry) : Span := ⟨e.addr.toNat, e.size.toNat⟩

def ram (r : MemoryRegion) : E820Entry := ⟨r.startAddr, r.len, 1⟩

/-- The 32-bit reserved area. -/
def reserved : E820Entry := ⟨MEM_32BIT_RESERVED_START, MEM_32BIT_RESERVED_SIZE, 2⟩

def window (w : MmioRegion) : E820Entry := ⟨w.gpa, w.size, 2⟩

theorem length_bytes (e : E820Entry) : e.bytes.length = 20 := by
  simp only [bytes, List.length_append, length_bytes_bitVec]

end E820Entry

/-- The kernel's reading of the zero page at `base`: as many entries as the count says. -/
def decodeE820 (mem : Mem) (base : Nat) : List E820Entry :=
  (List.range (mem (base + 0x1e8)).toNat).map fun i =>
    ⟨mem.word (base + 0x2d0 + 20 * i) 64, mem.word (base + 0x2d0 + 20 * i + 8) 64,
      mem.word (base + 0x2d0 + 20 * i + 16) 32⟩

def writeE820 (bootParams : List Byte) (offset : Nat) (memAddr memSize : BitVec 64)
    (memType : BitVec 32) : Option (List Byte) := do
  let bootParams ← putSlice bootParams offset (AsBytes.bytes memAddr)
  let bootParams ← putSlice bootParams (offset + 8) (AsBytes.bytes memSize)
  putSlice bootParams (offset + 16) (AsBytes.bytes memType)

/-- Writes the entries one after the other. -/
def writeEntries (entries : List E820Entry) (s : List Byte × Nat) : Option (List Byte × Nat) :=
  entries.foldlM (fun (bootParams, offset) e =>
    (writeE820 bootParams offset e.addr e.size e.type).map fun bootParams => (bootParams, offset + 20)) s

section
variable {page : List Byte} {off : Nat}

theorem writeE820_eq (e : E820Entry) (h : off + 20 ≤ page.length) :
    writeE820 page off e.addr e.size e.type = some (splice page off e.bytes) := by
  have h8 : ∀ v : BitVec 64, (AsBytes.bytes v).length = 8 := fun v => length_bytes_bitVec v
  have h4 : (AsBytes.bytes e.type).length = 4 := length_bytes_bitVec _
  have h1 : off + (AsBytes.bytes e.addr).length + (AsBytes.bytes e.size).length ≤ page.length := by
    rw [h8, h8]
    omega
  have e1 := splice_splice h1
  rw [h8] at e1
  have h2 : off + (AsBytes.bytes e.addr ++ AsBytes.bytes e.size).length +
      (AsBytes.bytes e.type).length ≤ page.length := by
    rw [List.length_append, h8, h8, h4]
    omega
  have e2 := splice_splice h2
  rw [List.length_append, h8, h8] at e2
  have hl : (splice page off (AsBytes.bytes e.addr)).length = page.length :=
    length_splice (by rw [h8]; omega)
  have hl' : (splice page off (AsBytes.bytes e.addr ++ AsBytes.bytes e.size)).length = page.length :=
    length_splice (by rw [List.length_append, h8, h8]; omega)
  rw [writeE820, putSlice_of_le (by rw [h8]; omega), Option.bind_eq_bind, Option.bind_some,
    putSlice_of_le (by rw [hl, h8]; omega), Option.bind_some, e1,
    putSlice_of_le (by rw [hl', h4]; omega), e2]
  rfl

/-- The entries are the bytes of all of them. -/
theorem writeEntries_eq (entries : List E820Entry) (page : List Byte) (off : Nat)
    (h : off + 20 * entries.length ≤ page.length) :
    writeEntries entries (page, off) =
      some (splice page off (entries.flatMap E820Entry.bytes), off + 20 * entries.length) := by
  induction entries generalizing page off with
  | nil =>
    rw [List.flatMap_nil, splice_nil]
    rfl
  | cons e entries ih =>
    rw [List.length_cons, Nat.mul_succ] at h
    have hlen := length_flatMap_const E820Entry.length_bytes entries
    have hsp : splice (splice page off e.bytes) (off + e.bytes.length)
        (entries.flatMap E820Entry.bytes) = splice page off (e.bytes ++ entries.flatMap _) :=
      splice_splice (by rw [hlen, e.length_bytes]; omega)
    rw [e.length_bytes] at hsp
    have hl : (splice page off e.bytes).length = page.length :=
      length_splice (by rw [e.length_bytes]; omega)
    rw [writeEntries, List.foldlM_cons]
    dsimp only
    rw [writeE820_eq e (by omega)]
    refine (ih _ _ (by rw [hl]; omega)).trans ?_
    rw [hsp, List.flatMap_cons, List.length_cons, Nat.mul_succ]
    exact congrArg some (Prod.ext rfl (by omega))

/-- Entries that are written after others. -/
theorem writeEntries_after (entries entries' : List E820Entry) (page : List Byte) (off : Nat)
    (h : off + 20 * (entries ++ entries').length ≤ page.length) :
    writeEntries entries' (splice page off (entries.flatMap E820Entry.bytes), off + 20 * entries.length) =
      some (splice page off ((entries ++ entries').flatMap E820Entry.bytes),
        off + 20 * (entries ++ entries').length) := by
  have hall := writeEntries_eq (entries ++ entries') page off h
  rw [List.length_append] at h
  rw [writeEntries, List.foldlM_append] at hall
  change (writeEntries entries (page, off)).bind (writeEntries entries') = _ at hall
  rwa [writeEntries_eq entries page off (by omega), Option.bind_some] at hall

end

/-! ## The page -/

/-- Why the guest cannot be started. -/
inductive BootError
  | memory (e : MemoryError)
  /-- The kernel file is too short. -/
  | io
deriving DecidableEq, Repr

/-- The end of the RAM; `none` if the end of a region overflows. -/
def getMemorySize (ck : Bool) (mm : MemoryManager) : Option (BitVec 64) :=
  (mm.regions.mapM fun r => plainAdd ck r.startAddr r.len).map fun ends =>
    ends.foldl (fun a b => if a ≤ b then b else a) 0

/-- An address is before the end of the RAM if it is before the end of a region. -/
theorem getMemorySize_spec (ck : Bool) {mm : MemoryManager}
    (hfit : ∀ r ∈ mm.regions, r.span.stop < 2 ^ 64) :
    ∃ size, getMemorySize ck mm = some size ∧
      ∀ x : BitVec 64, x < size ↔ ∃ r ∈ mm.regions, x.toNat < r.span.stop := by
  have hends : ∀ rs : List MemoryRegion, (∀ r ∈ rs, r.span.stop < 2 ^ 64) →
      (rs.mapM fun r => plainAdd ck r.startAddr r.len) = some (rs.map fun r => r.startAddr + r.len) := by
    intro rs hrs
    induction rs with
    | nil => rfl
    | cons r rs ih =>
      obtain ⟨hr, hrs⟩ := List.forall_mem_cons.mp hrs
      have hr : plainAdd ck r.startAddr r.len = some (r.startAddr + r.len) := plainAdd_of_lt ck hr
      rw [List.mapM_cons, hr, ih hrs]
      rfl
  have hmax : ∀ (es : List (BitVec 64)) (a x : BitVec 64),
      x < es.foldl (fun a b => if a ≤ b then b else a) a ↔ x < a ∨ ∃ e ∈ es, x < e := by
    intro es a x
    induction es generalizing a with
    | nil => simp
    | cons e es ih =>
      have hstep : x < (if a ≤ e then e else a) ↔ x < a ∨ x < e := by
        split <;> simp only [BitVec.lt_def, BitVec.le_def] at * <;> omega
      rw [List.foldl_cons, ih, hstep, or_assoc]
      simp only [List.mem_cons, exists_eq_or_imp]
  refine ⟨_, by rw [getMemorySize, hends mm.regions hfit]; rfl, fun x => ?_⟩
  rw [hmax]
  simp only [BitVec.lt_def, List.mem_map, exists_exists_and_eq_and]
  have h0 : ¬ x.toNat < (0 : BitVec 64).toNat := Nat.not_lt_zero _
  rw [or_iff_right h0]
  refine exists_congr fun r => and_congr_right fun hr => ?_
  have hadd : (r.startAddr + r.len).toNat = r.span.stop := BitVec.toNat_add_of_lt (hfit r hr)
  rw [hadd]

def cmdLine : List Byte :=
  ascii ("console=hvc0 8250.nr_uarts=0 root=/dev/vda rw loglevel=7 " ++
    "ip=192.168.127.2::192.168.127.1:255.255.255.0:virtio-hostname:eth0:off") ++ [0]

section
variable (Sdt Rsdp : Type) [SdtOps Sdt] [RsdpOps Rsdp] [Aml DeviceManager] [Aml CpuManager]
  [AsBytes PciRangeEntry] (ck : Bool) (p : Partition) (dm : DeviceManager) (cm : CpuManager)

/-- Fills the fields of the page that both kinds of kernel have (`type_of_loader`, `loadflags`,
`code32_start` and `heap_end_ptr`, then `cmd_line_ptr`, then the E820 map), and puts it and the
tables of the firmware into guest memory. The page is returned, as the caller still reads it. -/
def fillBootParams (bootParams : List Byte) (gpa : GuestAddress) (code32Start : BitVec 64) (m : Mem) :
    Option (Except BootError (List Byte) × Mem) := do
  let bootParams ← putSlice bootParams 0x210 [0xff]
  let loadflags ← bootParams[0x211]?
  let bootParams ← putSlice bootParams 0x211 [loadflags ||| 0x81]
  let bootParams ← putSlice bootParams 0x214 (AsBytes.bytes (code32Start.setWidth 32))
  let bootParams ← putSlice bootParams 0x224 (AsBytes.bytes (0xfe00 : BitVec 16))
  match ← p.memory.writeGuestMemory ck cmdLine CMDLINE_START m with
  | (.error e, m) => pure (.error (.memory e), m)
  | (.ok (), m) =>
    let bootParams ← putSlice bootParams 0x228 (AsBytes.bytes (CMDLINE_START.setWidth 32))
    let bootParams ← putSlice bootParams 0x1e0 (List.replicate (0x1ef - 0x1e0) 0)
    let bootParams ← putSlice bootParams 0x202 (ascii "HdrS")
    let (bootParams, offset) ← writeEntries (p.memory.regions.map E820Entry.ram) (bootParams, 0x2d0)
    let memorySize ← getMemorySize ck p.memory
    let reserved := if MEM_32BIT_RESERVED_START < memorySize then [E820Entry.reserved] else []
    let (bootParams, offset) ← writeEntries reserved (bootParams, offset)
    let (bootParams, _) ← writeEntries (p.mmioRegions.map E820Entry.window) (bootParams, offset)
    let e820Count := p.memory.regions.length + reserved.length + p.mmioRegions.length
    let bootParams ← putSlice bootParams 0x1e8 [BitVec.ofNat 8 e820Count]
    match ← p.memory.writeGuestMemory ck bootParams gpa m with
    | (.error e, m) => pure (.error (.memory e), m)
    | (.ok (), m) =>
      let (_, m) ← createAcpiTables Sdt Rsdp ck dm cm p.memory m
      pure (.ok bootParams, m)

/-- The page for an ELF kernel, whose header is made up. -/
def setupElfBootParams (code32Start kernelSize : BitVec 64) (m : Mem) :
    Option (Except BootError (BitVec 32) × Mem) := do
  let bootParams := List.replicate 4096 0
  let bootParams ← putSlice bootParams 0x1f1 [0]
  let bootParams ← putSlice bootParams 0x202 (ascii "HdrS")
  let bootParams ← putSlice bootParams 0x206 (AsBytes.bytes (0x020f : BitVec 16))
  let rounded ← plainAdd ck kernelSize 0xfff
  let initSize := (rounded &&& ~~~0xfff).setWidth 32
  let bootParams ← putSlice bootParams 0x260 (AsBytes.bytes initSize)
  let (r, m) ← fillBootParams Sdt Rsdp ck p dm cm bootParams ZERO_PAGE_START code32Start m
  pure (r.map fun _ => initSize, m)

/-- `n` bytes of the file at the offset. -/
def readExactAt (file : List Byte) (off n : Nat) : Except BootError (List Byte) :=
  if off + n ≤ file.length then .ok (slice file off n) else .error .io

/-- The page for a bzImage, with the setup header of the file, whose end the byte at 0x201 gives. -/
def setupBzimageBootParams (file : List Byte) (code32Start : BitVec 64) (m : Mem) :
    Option (Except BootError (BitVec 32) × Mem) :=
  let bootParams := List.replicate 4096 0
  match readExactAt file 0x201 1 with
  | .error e => some (.error e, m)
  | .ok sizeByte =>
    let setupHeaderEnd := 0x202 + (sizeByte.getD 0 0).toNat
    match readExactAt file 0x1f1 (setupHeaderEnd - 0x1f1) with
    | .error e => some (.error e, m)
    | .ok header => do
      let bootParams ← putSlice bootParams 0x1f1 header
      let (r, m) ← fillBootParams Sdt Rsdp ck p dm cm bootParams ZERO_PAGE_START code32Start m
      pure (r.map fun bootParams => BitVec.ofNat 32 (ofLE (slice bootParams 0x260 4)), m)

end

/-- The map that the kernel reads is that of the machine: each region of RAM, the
reserved area if the RAM goes on after it, and each window; the RAM is `size` bytes, and
the ranges of RAM are apart from each other and from what is reserved. -/
structure ZeroPageExact (mem : Mem) (p : Partition) (size : Nat) : Prop where
  entries : decodeE820 mem ZERO_PAGE_START.toNat = p.memory.regions.map E820Entry.ram ++
    (if ∃ r ∈ p.memory.regions, E820Entry.reserved.span.stop < r.span.stop then [E820Entry.reserved]
      else []) ++
    p.mmioRegions.map E820Entry.window
  ram_separate : Span.Separate E820Entry.span
    ((decodeE820 mem ZERO_PAGE_START.toNat).filter fun e => e.type = 1)
  ram_sum : (((decodeE820 mem ZERO_PAGE_START.toNat).filter fun e => e.type = 1).map
    fun e => e.size.toNat).sum = size
  ram_apart : ∀ e ∈ decodeE820 mem ZERO_PAGE_START.toNat, ∀ e' ∈ decodeE820 mem ZERO_PAGE_START.toNat,
    e.type = 1 → e'.type = 2 → ¬ e.span.Meets e'.span

/-- The map is read back from a memory that holds the page. -/
theorem decodeE820_eq {mem : Mem} {base : Nat} {page : List Byte} {es : List E820Entry}
    (hpage : page.length = 4096) (hmem : mem.read base 4096 = page) (hfew : es.length ≤ 160)
    (hentries : slice page 0x2d0 (20 * es.length) = es.flatMap E820Entry.bytes)
    (hcount : slice page 0x1e8 1 = [BitVec.ofNat 8 es.length]) : decodeE820 mem base = es := by
  have h8 : ∀ v : BitVec 64, (AsBytes.bytes v).length = 8 := fun v => length_bytes_bitVec v
  have h4 : ∀ v : BitVec 32, (AsBytes.bytes v).length = 4 := fun v => length_bytes_bitVec v
  have hc : (mem (base + 0x1e8)).toNat = es.length := by
    have h : mem.read (base + 0x1e8) 1 = [BitVec.ofNat 8 es.length] := by
      rw [← hcount, ← hmem, slice_read (by decide)]
    have h : mem (base + 0x1e8) = BitVec.ofNat 8 es.length := (List.cons.inj h).1
    rw [h, BitVec.toNat_ofNat, Nat.mod_eq_of_lt (by omega)]
  rw [decodeE820, hc]
  refine List.ext_getElem (by rw [List.length_map, List.length_range]) fun i h₁ h₂ => ?_
  rw [List.getElem_map, List.getElem_range]
  have he : slice page (0x2d0 + 20 * i) 20 = es[i].bytes := by
    rw [← slice_slice (by omega : 20 * i + 20 ≤ 20 * es.length), hentries,
      slice_flatMap E820Entry.length_bytes (List.getElem?_eq_getElem h₂)]
  have hpart : ∀ (a n : Nat) (v : BitVec (8 * n)), a + n ≤ 20 →
      slice es[i].bytes a n = leBytes n v.toNat → mem.word (base + 0x2d0 + 20 * i + a) (8 * n) = v := by
    intro a n v ha hv
    rw [Nat.add_assoc base, Nat.add_assoc base]
    have hread : mem.read base page.length = page := by rw [hpage]; exact hmem
    refine word_of_read hread (by omega) ?_
    rw [← hv, ← he, slice_slice ha]
  have haddr : mem.word (base + 0x2d0 + 20 * i) 64 = es[i].addr := hpart 0 8 es[i].addr (by decide) (by
    rw [E820Entry.bytes, List.append_assoc, slice, List.drop_zero, List.take_left' (h8 _)]
    rfl)
  have hsize : mem.word (base + 0x2d0 + 20 * i + 8) 64 = es[i].size := hpart 8 8 es[i].size (by decide) (by
    rw [E820Entry.bytes, List.append_assoc, slice, List.drop_left' (h8 _), List.take_left' (h8 _)]
    rfl)
  have htype : mem.word (base + 0x2d0 + 20 * i + 16) 32 = es[i].type := hpart 16 4 es[i].type (by decide) (by
    rw [E820Entry.bytes, slice, List.drop_left' (by rw [List.length_append, h8, h8]),
      List.take_of_length_le (h4 _).le]
    rfl)
  rw [haddr, hsize, htype]

section
variable {Sdt Rsdp : Type} [SdtOps Sdt] [RsdpOps Rsdp] [Aml DeviceManager] [Aml CpuManager]
  [AsBytes PciRangeEntry] {ck : Bool} {p : Partition} {dm : DeviceManager} {cm : CpuManager}
  {total : BitVec 64} {source : Nat} {hpos : 0 < total.toNat}
  {hfits : 0x40000000 + total.toNat ≤ 2 ^ 64}

/-- The entries that are written. -/
def e820Entries (p : Partition) (memorySize : BitVec 64) : List E820Entry :=
  p.memory.regions.map E820Entry.ram ++
    (if MEM_32BIT_RESERVED_START < memorySize then [E820Entry.reserved] else []) ++
    p.mmioRegions.map E820Entry.window

/-- The page does not depend on the memory, and has the entries and their count; before the
tables of the firmware are created it is in memory, and so is the command line. -/
theorem fillBootParams_eq (hmm : p.memory = allocateMemoryWithSize total source hpos hfits)
    (htotal : 0x40000000 ≤ total.toNat) {memorySize : BitVec 64}
    (hsize : getMemorySize ck p.memory = some memorySize)
    (hfew : (e820Entries p memorySize).length ≤ 160) {page : List Byte} (hpage : page.length = 4096)
    (code32Start : BitVec 64) :
    ∃ page', page'.length = 4096 ∧
      slice page' 0x2d0 (20 * (e820Entries p memorySize).length) =
        (e820Entries p memorySize).flatMap E820Entry.bytes ∧
      slice page' 0x1e8 1 = [BitVec.ofNat 8 (e820Entries p memorySize).length] ∧
      ∀ m, ∃ m', fillBootParams Sdt Rsdp ck p dm cm page ZERO_PAGE_START code32Start m =
          ((createAcpiTables Sdt Rsdp ck dm cm p.memory m').map fun r => (.ok page', r.2)) ∧
        p.memory.guest m' = ((p.memory.guest m).write 0x20000 cmdLine).write 0x7000 page' := by
  have h32 : ∀ v : BitVec 32, (AsBytes.bytes v).length = 4 := fun v => length_bytes_bitVec v
  have h16 : ∀ v : BitVec 16, (AsBytes.bytes v).length = 2 := fun v => length_bytes_bitVec v
  have hcmd : cmdLine.length ≤ 0x10000 := by decide +kernel
  have hhdrs : (ascii "HdrS").length = 4 := by decide
  have hz : ZERO_PAGE_START.toNat = 0x7000 := by decide
  have hc : CMDLINE_START.toNat = 0x20000 := by decide
  obtain ⟨p1, e1, l1⟩ := exists_putSlice page 0x210 [0xff] hpage (by decide)
  have hflags : ∃ flags, p1[0x211]? = some flags := ⟨_, List.getElem?_eq_getElem (by omega)⟩
  obtain ⟨flags, hflags⟩ := hflags
  obtain ⟨p2, e2, l2⟩ := exists_putSlice p1 0x211 [flags ||| 0x81] l1 (by simp)
  obtain ⟨p3, e3, l3⟩ := exists_putSlice p2 0x214 (AsBytes.bytes (code32Start.setWidth 32)) l2
    (by rw [h32]; decide)
  obtain ⟨p4, e4, l4⟩ := exists_putSlice p3 0x224 (AsBytes.bytes (0xfe00 : BitVec 16)) l3
    (by rw [h16]; decide)
  obtain ⟨p5, e5, l5⟩ := exists_putSlice p4 0x228 (AsBytes.bytes (CMDLINE_START.setWidth 32)) l4
    (by rw [h32]; decide)
  obtain ⟨p6, e6, l6⟩ := exists_putSlice p5 0x1e0 (List.replicate (0x1ef - 0x1e0) 0) l5 (by decide)
  obtain ⟨p7, e7, l7⟩ := exists_putSlice p6 0x202 (ascii "HdrS") l6 (by rw [hhdrs]; decide)
  obtain ⟨ram, hram⟩ : ∃ es, es = p.memory.regions.map E820Entry.ram := ⟨_, rfl⟩
  obtain ⟨reserved, hreserved⟩ : ∃ es, es = if MEM_32BIT_RESERVED_START < memorySize then
    [E820Entry.reserved] else [] := ⟨_, rfl⟩
  obtain ⟨windows, hwindows⟩ : ∃ es, es = p.mmioRegions.map E820Entry.window := ⟨_, rfl⟩
  have hall : e820Entries p memorySize = ram ++ reserved ++ windows := by
    rw [hram, hreserved, hwindows]
    rfl
  have hlen : ∀ es : List E820Entry, (es.flatMap E820Entry.bytes).length = 20 * es.length :=
    length_flatMap_const E820Entry.length_bytes
  rw [hall, List.length_append, List.length_append] at hfew
  have w1 := writeEntries_eq ram p7 0x2d0 (by omega)
  have w2 := writeEntries_after ram reserved p7 0x2d0 (by rw [List.length_append]; omega)
  have w3 := writeEntries_after (ram ++ reserved) windows p7 0x2d0 (by simp only [List.length_append]; omega)
  have s3 : (splice p7 0x2d0 ((ram ++ reserved ++ windows).flatMap E820Entry.bytes)).length = 4096 := by
    rw [length_splice (by rw [hlen, List.length_append, List.length_append]; omega), l7]
  obtain ⟨p9, e9, l9⟩ := exists_putSlice _ 0x1e8
    [BitVec.ofNat 8 (p.memory.regions.length + reserved.length + p.mmioRegions.length)] s3 (by simp)
  refine ⟨p9, l9, ?_, ?_, fun m => ?_⟩
  · have hbytes := hlen (ram ++ reserved ++ windows)
    obtain ⟨-, rfl⟩ := putSlice_eq_some.mp e9
    rw [hall, slice_splice_sep (by rw [s3]; simp) (.inr (by simp)), ← hbytes]
    exact slice_splice_self (by rw [hbytes, List.length_append, List.length_append]; omega)
  · obtain ⟨-, rfl⟩ := putSlice_eq_some.mp e9
    have hcount : p.memory.regions.length + reserved.length + p.mmioRegions.length =
        (e820Entries p memorySize).length := by
      rw [hall, hram, hwindows]
      simp only [List.length_append, List.length_map]
    rw [hcount]
    exact slice_splice_self (by rw [s3]; simp)
  · obtain ⟨m₁, hw₁, hg₁⟩ : ∃ m', p.memory.writeGuestMemory ck cmdLine CMDLINE_START m =
        some (.ok (), m') ∧ p.memory.guest m' = (p.memory.guest m).write CMDLINE_START.toNat cmdLine := by
      rw [hmm]
      exact MemoryManager.write_low m (by rw [hc]; omega)
    obtain ⟨m₂, hw₂, hg₂⟩ : ∃ m', p.memory.writeGuestMemory ck p9 ZERO_PAGE_START m₁ =
        some (.ok (), m') ∧ p.memory.guest m' = (p.memory.guest m₁).write ZERO_PAGE_START.toNat p9 := by
      rw [hmm]
      exact MemoryManager.write_low m₁ (by rw [hz, l9]; omega)
    refine ⟨m₂, ?_, by rw [hg₂, hg₁, hz, hc]⟩
    unfold fillBootParams
    simp only [Option.bind_eq_bind, e1, e2, e3, e4, e5, e6, e7, hflags, hw₁, Option.bind_some]
    rw [← hram, w1, Option.bind_some, hsize, Option.bind_some]
    simp only [← hreserved, ← hwindows, w2, Option.bind_some, w3, e9, hw₂]
    cases createAcpiTables Sdt Rsdp ck dm cm p.memory m₂ <;> rfl

end

/-! ## Machines with whole gibibytes of RAM -/

namespace Partition

/-- `n` GiB. -/
def gib (n : Nat) : BitVec 64 := BitVec.ofNat 64 (n * 2 ^ 30)

variable {n : Nat}

theorem toNat_gib (hn : n < 2 ^ 33) : (gib n).toNat = n * 2 ^ 30 := by
  rw [gib, BitVec.toNat_ofNat, Nat.mod_eq_of_lt (by omega)]

theorem gib_pos (h1 : 1 ≤ n) (hn : n < 2 ^ 33) : 0 < (gib n).toNat := by
  rw [toNat_gib hn]
  omega

theorem gib_fits (hn : n < 2 ^ 33) : 0x40000000 + (gib n).toNat ≤ 2 ^ 64 := by
  rw [toNat_gib hn]
  omega

/-- A machine with `n` GiB of RAM, and no windows yet. -/
def machine (n source : Nat) (h1 : 1 ≤ n) (hn : n < 2 ^ 33) : Partition :=
  ⟨allocateMemoryWithSize (gib n) source (gib_pos h1 hn) (gib_fits hn), []⟩

/-- The RAM leaves the last gibibyte below 4 GiB to the devices. -/
theorem machine_regions (source : Nat) (h1 : 1 ≤ n) (hn : n < 2 ^ 33) :
    ∀ r ∈ (machine n source h1 hn).memory.regions, r.span.stop < 2 ^ 64 ∧
      (r.span.stop ≤ 0xc0000000 ∨ 0x100000000 ≤ r.span.lo) := by
  have hg := toNat_gib hn
  have hres : MEM_32BIT_RESERVED_START.toNat = 0xfec00000 := by decide
  intro r hr
  unfold machine at hr
  by_cases hs : gib n ≤ MEM_32BIT_RESERVED_START
  · rw [MemoryManager.regions_small hs] at hr
    obtain rfl := List.mem_singleton.mp hr
    rw [BitVec.le_def, hres] at hs
    have hlow : 0 + (gib n).toNat ≤ 0xc0000000 := by omega
    exact ⟨hlow.trans_lt (by decide), .inl hlow⟩
  · obtain ⟨lowPos, lowFits, highPos, highFits, hsub, -, e⟩ :=
      MemoryManager.regions_large source (gib_pos h1 hn) (gib_fits hn) hs
    rw [e] at hr
    simp only [List.mem_cons, List.not_mem_nil, or_false] at hr
    rcases hr with rfl | rfl
    · have hlow : 0 + 0xc0000000 ≤ 0xc0000000 := by decide
      exact ⟨hlow.trans_lt (by decide), .inl hlow⟩
    · have hstop : 0x100000000 + (gib n - MEM_32BIT_DEVICES_START).toNat < 2 ^ 64 := by omega
      exact ⟨hstop, .inr (show 0x100000000 ≤ 0x100000000 from le_rfl)⟩

/-- The windows of the devices are in the gibibyte that the RAM leaves out. -/
theorem deviceWindows_range : ∀ q ∈ deviceWindows,
    0xc0000000 ≤ q.gpa.toNat ∧ q.gpa.toNat + q.size.toNat ≤ 0x100000000 := by decide

theorem deviceWindows_apart : deviceWindows.Pairwise fun q q' => q'.span.Apart q.span := by decide

/-- The machine with the windows of its devices. -/
def started (n source : Nat) (h1 : 1 ≤ n) (hn : n < 2 ^ 33) : Partition :=
  { machine n source h1 hn with mmioRegions := deviceWindows.map Request.region }

/-- All devices get their windows. -/
theorem registerDevices_machine (ck : Bool) (source : Nat) (h1 : 1 ≤ n) (hn : n < 2 ^ 33) :
    registerDevices ck (machine n source h1 hn) = some (.ok (), started n source h1 hn) := by
  have hs : (machine n source h1 hn).Separated := ⟨nofun, .nil, nofun⟩
  refine (registerAll_eq hs (fun q hq => ?_) (fun q hq r hr => ?_) (fun _ _ _ hw => nomatch hw) ?_).1
  · have := deviceWindows_range q hq
    omega
  · have hq := deviceWindows_range q hq
    refine Span.Apart.not_meets ?_
    rcases (machine_regions source h1 hn r hr).2 with h | h
    · exact .inr (h.trans hq.1)
    · exact .inl (hq.2.trans h)
  · exact deviceWindows_apart.imp fun h => h.not_meets

/-- The end of the RAM is after the start of the reserved area exactly if the RAM goes on
after it. -/
theorem getMemorySize_started (ck : Bool) (source : Nat) (h1 : 1 ≤ n) (hn : n < 2 ^ 33) :
    ∃ size, getMemorySize ck (started n source h1 hn).memory = some size ∧
      (MEM_32BIT_RESERVED_START < size ↔ ∃ r ∈ (started n source h1 hn).memory.regions,
        E820Entry.reserved.span.stop < r.span.stop) := by
  have hres : MEM_32BIT_RESERVED_START.toNat = 0xfec00000 := by decide
  have hstop : E820Entry.reserved.span.stop = 0x100000000 := by decide
  have hregions := machine_regions source h1 hn
  obtain ⟨size, hsize, hlt⟩ := getMemorySize_spec ck fun r hr => (hregions r hr).1
  refine ⟨size, hsize, (hlt _).trans ?_⟩
  rw [hres, hstop]
  refine exists_congr fun r => and_congr_right fun hr => ?_
  have hpos : r.span.lo < r.span.stop := Nat.lt_add_of_pos_right r.size_pos
  have := (hregions r hr).2
  omega

/-- An entry is a region of RAM, or is reserved and in the gibibyte below 4 GiB. -/
theorem e820Entries_started (source : Nat) (h1 : 1 ≤ n) (hn : n < 2 ^ 33) (size : BitVec 64) :
    ∀ e ∈ e820Entries (started n source h1 hn) size,
      (e.type = 1 ∧ (e.span.stop ≤ 0xc0000000 ∨ 0x100000000 ≤ e.span.lo)) ∨
      (e.type = 2 ∧ 0xc0000000 ≤ e.span.lo ∧ e.span.stop ≤ 0x100000000) := by
  intro e he
  rw [e820Entries, List.mem_append, List.mem_append] at he
  rcases he with (he | he) | he
  · obtain ⟨r, hr, rfl⟩ := List.mem_map.mp he
    exact .inl ⟨rfl, (machine_regions source h1 hn r hr).2⟩
  · split at he
    · obtain rfl := List.mem_singleton.mp he
      exact .inr (by decide)
    · cases he
  · obtain ⟨w, hw, rfl⟩ := List.mem_map.mp he
    obtain ⟨q, hq, rfl⟩ := List.mem_map.mp hw
    exact .inr ⟨rfl, deviceWindows_range q hq⟩

/-- The entries of RAM are those of the regions. -/
theorem filter_e820Entries (p : Partition) (size : BitVec 64) :
    ((e820Entries p size).filter fun e => e.type = 1) = p.memory.regions.map E820Entry.ram := by
  have hram : (p.memory.regions.map E820Entry.ram).filter (fun e => e.type = 1) =
      p.memory.regions.map E820Entry.ram :=
    List.filter_eq_self.mpr (List.forall_mem_map.mpr fun _ _ => rfl)
  have hreserved : (if MEM_32BIT_RESERVED_START < size then [E820Entry.reserved] else []).filter
      (fun e => e.type = 1) = [] := by
    split <;> rfl
  have hwindows : (p.mmioRegions.map E820Entry.window).filter (fun e => e.type = 1) = [] :=
    List.filter_eq_nil_iff.mpr (List.forall_mem_map.mpr fun _ _ => nofun)
  rw [e820Entries, List.filter_append, List.filter_append, hram, hreserved, hwindows,
    List.append_nil, List.append_nil]

theorem length_e820Entries (source : Nat) (h1 : 1 ≤ n) (hn : n < 2 ^ 33) (size : BitVec 64) :
    (e820Entries (started n source h1 hn) size).length ≤ 160 := by
  have hregions : (machine n source h1 hn).memory.regions.length ≤ 2 := by
    unfold machine
    by_cases hs : gib n ≤ MEM_32BIT_RESERVED_START
    · rw [MemoryManager.regions_small hs]
      exact Nat.le_succ 1
    · obtain ⟨lowPos, lowFits, highPos, highFits, -, -, e⟩ :=
        MemoryManager.regions_large source (gib_pos h1 hn) (gib_fits hn) hs
      rw [e]
      exact le_rfl
  have hwindows : (started n source h1 hn).mmioRegions.length = 6 := rfl
  have hreserved : (if MEM_32BIT_RESERVED_START < size then [E820Entry.reserved] else []).length ≤ 1 := by
    split <;> decide
  rw [e820Entries, List.length_append, List.length_append, List.length_map, List.length_map, hwindows]
  have : (started n source h1 hn).memory.regions.length ≤ 2 := hregions
  omega

/-- A memory that holds a page with the entries describes the machine. -/
theorem zeroPageExact_of_decode {source : Nat} {h1 : 1 ≤ n} {hn : n < 2 ^ 33}
    {size : BitVec 64} (hsize : MEM_32BIT_RESERVED_START < size ↔
      ∃ r ∈ (started n source h1 hn).memory.regions, E820Entry.reserved.span.stop < r.span.stop)
    {mem : Mem} (hmem : decodeE820 mem ZERO_PAGE_START.toNat = e820Entries (started n source h1 hn) size) :
    ZeroPageExact mem (started n source h1 hn) (n * 2 ^ 30) := by
  refine ⟨?_, ?_, ?_, ?_⟩
  · rw [hmem, e820Entries]
    simp only [hsize]
  · rw [hmem, filter_e820Entries]
    exact List.pairwise_map.mpr (@MemoryManager.disjoint_allocated _ source (gib_pos h1 hn) (gib_fits hn))
  · rw [hmem, filter_e820Entries, List.map_map, ← toNat_gib hn]
    exact @MemoryManager.sum_allocated _ source (gib_pos h1 hn) (gib_fits hn)
  · rw [hmem]
    intro e he e' he' ht ht'
    have hapart : e.span.Apart e'.span := by
      rcases e820Entries_started source h1 hn size e he with ⟨-, h⟩ | ⟨h, -⟩
      · rcases e820Entries_started source h1 hn size e' he' with ⟨h', -⟩ | ⟨-, h'⟩
        · rw [ht'] at h'
          exact absurd h' (by decide)
        · exact h.imp (fun h => h.trans h'.1) fun h => h'.2.trans h
      · rw [ht] at h
        exact absurd h (by decide)
    exact hapart.not_meets

end Partition

section
variable {Sdt Rsdp : Type} [SdtOps Sdt] [LawfulSdt Sdt] [RsdpOps Rsdp] [LawfulRsdp Rsdp]
  [Aml DeviceManager] [Aml CpuManager] [AsBytes PciRangeEntry] {ck : Bool} {dm : DeviceManager}
  {cm : CpuManager} {n source : Nat} {h1 : 1 ≤ n} {hn : n < 2 ^ 33}

/-- A page that is filled is in the guest's memory afterwards, below the tables of the
firmware. -/
theorem fillBootParams_exact {page : List Byte} (hpage : page.length = 4096)
    (code32Start : BitVec 64) (m : Mem) :
    (∀ r m', fillBootParams Sdt Rsdp ck (Partition.started n source h1 hn) dm cm page ZERO_PAGE_START
        code32Start m = some (r, m') →
      (∃ page', r = .ok page') ∧
      ZeroPageExact ((Partition.started n source h1 hn).memory.guest m') (Partition.started n source h1 hn)
        (n * 2 ^ 30)) ∧
    ((tables Sdt (dsdtAddr Rsdp) dm cm).bytes.length < 2 ^ 63 →
      ∃ page' m', fillBootParams Sdt Rsdp ck (Partition.started n source h1 hn) dm cm page
        ZERO_PAGE_START code32Start m = some (.ok page', m')) := by
  have hgib := Partition.toNat_gib hn
  obtain ⟨size, hsize, hiff⟩ := Partition.getMemorySize_started ck source h1 hn
  have hfew := Partition.length_e820Entries source h1 hn size
  obtain ⟨page', hlen, hentries, hcount, hrun⟩ := @fillBootParams_eq Sdt Rsdp _ _ _ _ _ ck
    (Partition.started n source h1 hn) dm cm _ source (Partition.gib_pos h1 hn) (Partition.gib_fits hn)
    rfl (by omega) size hsize hfew page hpage code32Start
  obtain ⟨m₁, hfill, hguest⟩ := hrun m
  refine ⟨fun r m' hr => ?_, fun htables => ?_⟩
  · obtain ⟨⟨a, m₂⟩, hacpi, he⟩ := Option.map_eq_some_iff.mp (hfill.symm.trans hr)
    obtain ⟨rfl, rfl⟩ := Prod.mk.inj he
    refine ⟨⟨page', rfl⟩, Partition.zeroPageExact_of_decode hiff ?_⟩
    have hz : ZERO_PAGE_START.toNat = 0x7000 := by decide
    have hbelow := @createAcpiTables_below Sdt Rsdp _ _ _ _ _ _ _ _ source (Partition.gib_pos h1 hn)
      (Partition.gib_fits hn) dm cm ck m₁ m₂ a hacpi
    refine decodeE820_eq hlen ?_ hfew hentries hcount
    have hread : ((Partition.started n source h1 hn).memory.guest m₂).read 0x7000 4096 =
        ((Partition.started n source h1 hn).memory.guest m₁).read 0x7000 4096 :=
      Mem.read_congr fun i hi => hbelow _ (by omega)
    rw [hz, hread, hguest, ← hlen]
    exact Mem.read_write_self _ _ _
  · obtain ⟨m₂, hacpi⟩ := @exists_createAcpiTables Sdt Rsdp _ _ _ _ _ _ _ _
      source (Partition.gib_pos h1 hn) (Partition.gib_fits hn) dm cm ck m₁ htables
    exact ⟨page', m₂, by rw [hfill]; exact congrArg (Option.map _) hacpi⟩

omit [LawfulSdt Sdt] [LawfulRsdp Rsdp] in
/-- The page for an ELF kernel is filled in if the size of the kernel can be rounded. -/
theorem setupElfBootParams_eq {p : Partition} (code32Start kernelSize : BitVec 64) :
    ∃ page initSize, page.length = 4096 ∧
      ∀ m, setupElfBootParams Sdt Rsdp ck p dm cm code32Start kernelSize m =
        (plainAdd ck kernelSize 0xfff).bind fun _ =>
          (fillBootParams Sdt Rsdp ck p dm cm page ZERO_PAGE_START code32Start m).map
            fun (r, m) => (r.map fun _ => initSize, m) := by
  have h0 : (List.replicate 4096 (0 : Byte)).length = 4096 := List.length_replicate
  have hhdrs : (ascii "HdrS").length = 4 := by decide
  obtain ⟨p1, e1, l1⟩ := exists_putSlice (List.replicate 4096 (0 : Byte)) 0x1f1 [0] h0 (by decide)
  obtain ⟨p2, e2, l2⟩ := exists_putSlice p1 0x202 (ascii "HdrS") l1 (by rw [hhdrs]; decide)
  obtain ⟨p3, e3, l3⟩ := exists_putSlice p2 0x206 (AsBytes.bytes (0x020f : BitVec 16)) l2
    (by rw [length_bytes_bitVec]; decide)
  cases hadd : plainAdd ck kernelSize 0xfff with
  | none =>
    refine ⟨p3, 0, l3, fun m => ?_⟩
    unfold setupElfBootParams
    simp only [Option.bind_eq_bind, e1, e2, e3, hadd, Option.bind_some, Option.bind_none]
  | some rounded =>
    obtain ⟨p4, e4, l4⟩ := exists_putSlice p3 0x260
      (AsBytes.bytes ((rounded &&& ~~~0xfff).setWidth 32 : BitVec 32)) l3
      (by rw [length_bytes_bitVec]; decide)
    refine ⟨p4, (rounded &&& ~~~0xfff).setWidth 32, l4, fun m => ?_⟩
    unfold setupElfBootParams
    simp only [Option.bind_eq_bind, e1, e2, e3, hadd, e4, Option.bind_some]
    cases fillBootParams Sdt Rsdp ck p dm cm p4 ZERO_PAGE_START code32Start m <;> rfl

omit [LawfulSdt Sdt] [LawfulRsdp Rsdp] in
/-- The page for a bzImage is filled in if the file has the header. -/
theorem setupBzimageBootParams_eq {p : Partition} {file : List Byte} (code32Start : BitVec 64) (m : Mem) :
    if 0x202 + (file.getD 0x201 0).toNat ≤ file.length then
      ∃ page, page.length = 4096 ∧
        setupBzimageBootParams Sdt Rsdp ck p dm cm file code32Start m =
          (fillBootParams Sdt Rsdp ck p dm cm page ZERO_PAGE_START code32Start m).map
            fun (r, m) => (r.map fun bootParams => BitVec.ofNat 32 (ofLE (slice bootParams 0x260 4)), m)
    else setupBzimageBootParams Sdt Rsdp ck p dm cm file code32Start m = some (.error .io, m) := by
  have h0 : (List.replicate 4096 (0 : Byte)).length = 4096 := List.length_replicate
  have hbyte := (file.getD 0x201 0).isLt
  unfold setupBzimageBootParams readExactAt
  by_cases hlen : 0x201 + 1 ≤ file.length
  · have hget : (slice file 0x201 1).getD 0 0 = file.getD 0x201 0 := by
      rw [List.getD_eq_getElem?_getD, List.getD_eq_getElem?_getD, getElem?_slice, if_pos (by decide)]
    rw [if_pos hlen]
    dsimp only
    rw [hget]
    by_cases hend : 0x202 + (file.getD 0x201 0).toNat ≤ file.length
    · rw [if_pos hend, if_pos (by omega)]
      have hheader : (slice file 0x1f1 (0x202 + (file.getD 0x201 0).toNat - 0x1f1)).length =
          0x202 + (file.getD 0x201 0).toNat - 0x1f1 := length_slice (by omega)
      obtain ⟨p1, e1, l1⟩ := exists_putSlice (List.replicate 4096 (0 : Byte)) 0x1f1 _ h0
        (by rw [hheader]; omega)
      refine ⟨p1, l1, ?_⟩
      simp only [Option.bind_eq_bind, e1, Option.bind_some]
      cases fillBootParams Sdt Rsdp ck p dm cm p1 ZERO_PAGE_START code32Start m <;> rfl
    · rw [if_neg hend, if_neg (by omega)]
  · rw [if_neg hlen, if_neg (by omega)]

/-- Nothing but the size of the kernel can be out of range. -/
theorem exists_setupElfBootParams (htables : (tables Sdt (dsdtAddr Rsdp) dm cm).bytes.length < 2 ^ 63)
    (code32Start kernelSize : BitVec 64) (m : Mem) : ∃ initSize m',
      setupElfBootParams Sdt Rsdp ck (Partition.started n source h1 hn) dm cm code32Start kernelSize m =
        (plainAdd ck kernelSize 0xfff).map fun _ => (.ok initSize, m') := by
  obtain ⟨page, initSize, hpage, e⟩ := @setupElfBootParams_eq Sdt Rsdp _ _ _ _ _ ck dm cm
    (Partition.started n source h1 hn) code32Start kernelSize
  obtain ⟨page', m', hfill⟩ := (fillBootParams_exact hpage code32Start m).2 htables
  refine ⟨initSize, m', ?_⟩
  rw [e, hfill]
  cases plainAdd ck kernelSize 0xfff <;> rfl

/-- A file without the header is an error. -/
theorem exists_setupBzimageBootParams (htables : (tables Sdt (dsdtAddr Rsdp) dm cm).bytes.length < 2 ^ 63)
    (file : List Byte) (code32Start : BitVec 64) (m : Mem) : ∃ r m',
      setupBzimageBootParams Sdt Rsdp ck (Partition.started n source h1 hn) dm cm file code32Start m =
        some (r, m') ∧
      (0x202 + (file.getD 0x201 0).toNat ≤ file.length → ∃ initSize, r = .ok initSize) := by
  have e := @setupBzimageBootParams_eq Sdt Rsdp _ _ _ _ _ ck dm cm (Partition.started n source h1 hn)
    file code32Start m
  split at e
  · obtain ⟨page, hpage, e⟩ := e
    obtain ⟨page', m', hfill⟩ := (fillBootParams_exact hpage code32Start m).2 htables
    exact ⟨_, m', by rw [e, hfill]; rfl, fun _ => ⟨_, rfl⟩⟩
  · rename_i hshort
    exact ⟨_, m, e, fun h => absurd h hshort⟩

end

/-- For each number of GiB and both kinds of kernel, the map that the kernel finds in a
guest that is set up is that of the machine; and a guest is set up if the tables of the
firmware fit in a vector and the size of the kernel is in range, or the file has the
header. -/
theorem zero_page_exact (Sdt Rsdp : Type) [SdtOps Sdt] [LawfulSdt Sdt] [RsdpOps Rsdp] [LawfulRsdp Rsdp]
    [Aml DeviceManager] [Aml CpuManager] [AsBytes PciRangeEntry] (ck : Bool) (dm : DeviceManager)
    (cm : CpuManager) (n source : Nat) (h1 : 1 ≤ n) (hn : n < 2 ^ 33) :
    ∃ p, Partition.registerDevices ck (Partition.machine n source h1 hn) = some (.ok (), p) ∧
      (∀ code32Start kernelSize m initSize m',
        setupElfBootParams Sdt Rsdp ck p dm cm code32Start kernelSize m = some (.ok initSize, m') →
          ZeroPageExact (p.memory.guest m') p (n * 2 ^ 30)) ∧
      (∀ file code32Start m initSize m',
        setupBzimageBootParams Sdt Rsdp ck p dm cm file code32Start m = some (.ok initSize, m') →
          ZeroPageExact (p.memory.guest m') p (n * 2 ^ 30)) ∧
      ((tables Sdt (dsdtAddr Rsdp) dm cm).bytes.length < 2 ^ 63 →
        (∀ code32Start kernelSize m, kernelSize.toNat + 0xfff < 2 ^ 64 → ∃ initSize m',
          setupElfBootParams Sdt Rsdp ck p dm cm code32Start kernelSize m = some (.ok initSize, m')) ∧
        ∀ file code32Start m, 0x202 + (file.getD 0x201 0).toNat ≤ file.length → ∃ initSize m',
          setupBzimageBootParams Sdt Rsdp ck p dm cm file code32Start m = some (.ok initSize, m')) := by
  refine ⟨Partition.started n source h1 hn, Partition.registerDevices_machine ck source h1 hn, ?_, ?_, ?_⟩
  · intro code32Start kernelSize m initSize m' h
    obtain ⟨page, _, hpage, e⟩ := @setupElfBootParams_eq Sdt Rsdp _ _ _ _ _ ck dm cm
      (Partition.started n source h1 hn) code32Start kernelSize
    obtain ⟨_, -, h⟩ := Option.bind_eq_some_iff.mp ((e m).symm.trans h)
    obtain ⟨⟨r, m₁⟩, hfill, he⟩ := Option.map_eq_some_iff.mp h
    obtain ⟨-, rfl⟩ := Prod.mk.inj he
    exact ((fillBootParams_exact hpage code32Start m).1 r m₁ hfill).2
  · intro file code32Start m initSize m' h
    have e := @setupBzimageBootParams_eq Sdt Rsdp _ _ _ _ _ ck dm cm (Partition.started n source h1 hn)
      file code32Start m
    split at e
    · obtain ⟨page, hpage, e⟩ := e
      obtain ⟨⟨r, m₁⟩, hfill, he⟩ := Option.map_eq_some_iff.mp (e.symm.trans h)
      obtain ⟨-, rfl⟩ := Prod.mk.inj he
      exact ((fillBootParams_exact hpage code32Start m).1 r m₁ hfill).2
    · cases e.symm.trans h
  · intro htables
    constructor
    · intro code32Start kernelSize m hk
      obtain ⟨initSize, m', e⟩ := exists_setupElfBootParams htables code32Start kernelSize m
      exact ⟨initSize, m', by rw [e, plainAdd_of_lt ck hk]; rfl⟩
    · intro file code32Start m hfile
      obtain ⟨r, m', e, hr⟩ := exists_setupBzimageBootParams htables file code32Start m
      obtain ⟨initSize, rfl⟩ := hr hfile
      exact ⟨initSize, m', e⟩

/-- The RAM of a machine with 4 GiB goes on after the reserved area. -/
theorem zero_page_exact_split :
    ∃ initSize m, (@setupElfBootParams ByteSdt ByteRsdp _ _ plainDevices plainCpus declaredOrder true
        (Partition.started 4 0 (by decide) (by decide)) plainMachine ⟨0⟩ 0x100000 0x200000 fun _ => 0) =
          some (.ok initSize, m) ∧
      ZeroPageExact ((Partition.started 4 0 (by decide) (by decide)).memory.guest m)
        (Partition.started 4 0 (by decide) (by decide)) 0x100000000 := by
  obtain ⟨p, hp, helf, -, hruns⟩ := @zero_page_exact ByteSdt ByteRsdp _ _ _ _ plainDevices plainCpus
    declaredOrder true plainMachine ⟨0⟩ 4 0 (by decide) (by decide)
  have hstarted := Partition.registerDevices_machine true 0 (show 1 ≤ 4 by decide) (by decide)
  obtain ⟨-, rfl⟩ := Prod.mk.inj (Option.some.inj (hp.symm.trans hstarted))
  have htables : (@tables ByteSdt _ plainDevices plainCpus declaredOrder (dsdtAddr ByteRsdp) plainMachine
      ⟨0⟩).bytes.length < 2 ^ 63 := length_plainTables.trans_lt (by decide)
  obtain ⟨initSize, m, hm⟩ := (hruns htables).1 0x100000 0x200000 (fun _ => 0) (by decide)
  exact ⟨initSize, m, hm, helf _ _ _ _ _ hm⟩

end Whypa
