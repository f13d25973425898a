import Whypa.Acpi.Madt
import Whypa.Framework.Span
import Whypa.Memory.Flat

/-!
# The tables of the firmware

How the tables of the guest are built and where they are put. Their addresses are
added up beside the bytes (`createAcpiTablesInternal`): each is the address at which
the table's bytes start (`createAcpiTablesInternal_eq_some`), so that in the guest's
memory the pointers from the RSDP over the XSDT to the other tables, and from the
FACP to the DSDT, are right (`acpi_chain`).
-/

namespace Whypa

open Framework SdtOps

def FACP_DSDT_OFFSET : Nat := 140

/-- Where the guest looks for the RSDP. -/
def RSDP_POINTER : GuestAddress := 0xe0000

/-- An address of the `acpi_tables` library: a record of twelve bytes. -/
structure GenericAddress where
  bytes : List Byte
  length_bytes : bytes.length = 12

instance : AsBytes GenericAddress := ⟨GenericAddress.bytes⟩

structure AcpiPlatformAddresses where
  pmTimerAddress : Option GenericAddress
  resetRegAddress : Option GenericAddress
  sleepControlRegAddress : Option GenericAddress
  sleepStatusRegAddress : Option GenericAddress

structure PciSegment where
  id : BitVec 16
  mmioConfigAddress : BitVec 64
  startOfMem32Area : BitVec 64
  endOfMem32Area : BitVec 64
  startOfMem64Area : BitVec 64
  endOfMem64Area : BitVec 64
deriving DecidableEq, Repr

structure SerialDevice where
  name : String
  uid : Byte
  irq : BitVec 32
  port : BitVec 16
deriving DecidableEq, Repr

structure VirtioMmioDevice where
  name : String
  uid : Byte
  baseAddress : BitVec 64
  size : BitVec 64
  irq : BitVec 32
deriving DecidableEq, Repr

/-- The devices that the tables describe. -/
structure DeviceManager where
  pciSegments : List PciSegment
  serialDevices : List SerialDevice
  virtioMmioDevices : List VirtioMmioDevice
  acpiPlatformAddresses : AcpiPlatformAddresses

/-- An entry of the MCFG. The order of its fields in memory is left to the compiler. -/
structure PciRangeEntry where
  baseAddress : BitVec 64
  segment : BitVec 16
  start : Byte
  «end» : Byte
  reserved : BitVec 32
deriving DecidableEq, Repr

/-- The bytes of what describes itself in the DSDT. -/
class Aml (D : Type) where
  toAmlBytes : D → List Byte

/-- The RSDP of the `acpi_tables` library. -/
class RsdpOps (Rsdp : Type) where
  len : Nat
  new (oemId : List Byte) (xsdtAddr : BitVec 64) : Rsdp
  asBytes : Rsdp → List Byte

/-- What the code relies on of it: its size, and where it keeps the address of the XSDT. -/
class LawfulRsdp (Rsdp : Type) [RsdpOps Rsdp] : Prop where
  len_eq : RsdpOps.len Rsdp = 36
  length_asBytes (oemId : List Byte) (xsdtAddr : BitVec 64) (hoem : oemId.length = 6) :
    (RsdpOps.asBytes (RsdpOps.new oemId xsdtAddr : Rsdp)).length = 36
  slice_asBytes (oemId : List Byte) (xsdtAddr : BitVec 64) (hoem : oemId.length = 6) :
    slice (RsdpOps.asBytes (RsdpOps.new oemId xsdtAddr : Rsdp)) 24 8 = AsBytes.bytes xsdtAddr

/-! ## The tables -/

section
variable {Sdt : Type} [SdtOps Sdt] [Aml DeviceManager] [Aml CpuManager] [AsBytes PciRangeEntry]

def createDsdtTable (dm : DeviceManager) (cm : CpuManager) : Sdt :=
  let dsdt : Sdt := new (ascii "DSDT") 36 6 (ascii "CLOUDH") (ascii "CHDSDT  ") 1
  appendSlice dsdt (Aml.toAmlBytes dm ++ Aml.toAmlBytes cm)

/-- The writes of `create_facp_table`, in order, each an offset and the bytes: RESET_REG and
RESET_VALUE, SLEEP_CONTROL_REG, SLEEP_STATUS_REG, X_PM_TMR_BLK and PM_TMR_BLK; then PM_TMR_LEN, the
flags, the minor version, X_DSDT and the vendor. -/
def facpWrites (dsdtOffset : GuestAddress) (dm : DeviceManager) : List (Nat × List Byte) :=
  let addresses := dm.acpiPlatformAddresses
  (addresses.resetRegAddress.toList.flatMap fun address =>
    [(116, AsBytes.bytes address), (128, AsBytes.bytes (1 : BitVec 8))]) ++
  (addresses.sleepControlRegAddress.toList.map fun address => (244, AsBytes.bytes address)) ++
  (addresses.sleepStatusRegAddress.toList.map fun address => (256, AsBytes.bytes address)) ++
  (addresses.pmTimerAddress.toList.flatMap fun address =>
    [(208, AsBytes.bytes address), (76, AsBytes.bytes (0x608 : BitVec 32))]) ++
  [(91, AsBytes.bytes (4 : BitVec 8)),
    (112, AsBytes.bytes ((1 : BitVec 32) <<< 20 ||| (1 : BitVec 32) <<< 10 ||| (1 : BitVec 32) <<< 8)),
    (131, AsBytes.bytes (3 : BitVec 8)),
    (FACP_DSDT_OFFSET, AsBytes.bytes dsdtOffset),
    (268, ascii "CLOUDHYP")]

def createFacpTable (dsdtOffset : GuestAddress) (dm : DeviceManager) : Sdt :=
  let facp : Sdt := new (ascii "FACP") 276 6 (ascii "CLOUDH") (ascii "CHFACP  ") 1
  let facp := (facpWrites dsdtOffset dm).foldl (fun facp w => writeBytes facp w.1 w.2) facp
  updateChecksum facp

def createMcfgTable (segments : List PciSegment) : Sdt :=
  let mcfg : Sdt := new (ascii "MCFG") 36 1 (ascii "CLOUDH") (ascii "CHMCFG  ") 1
  let mcfg := append mcfg (0 : BitVec 64)
  let mcfg := segments.foldl (fun mcfg segment =>
    append mcfg (⟨segment.mmioConfigAddress, segment.id, 0, 255, 0⟩ : PciRangeEntry)) mcfg
  updateChecksum mcfg

/-- The table of the pointers. -/
def createXsdtTable (pointers : List (BitVec 64)) : Sdt :=
  let xsdt : Sdt := new (ascii "XSDT") 36 1 (ascii "CLOUDH") (ascii "CHXSDT  ") 1
  let xsdt := pointers.foldl append xsdt
  updateChecksum xsdt

end

/-- `extend_from_slice`: no vector has more than `isize::MAX` bytes. -/
def extendFromSlice (v bytes : List Byte) : Option (List Byte) :=
  if v.length + bytes.length < 2 ^ 63 then some (v ++ bytes) else none

section
variable (Sdt Rsdp : Type) [SdtOps Sdt] [RsdpOps Rsdp] [Aml DeviceManager] [Aml CpuManager]
  [AsBytes PciRangeEntry]

/-- The RSDP, the bytes of the tables and the pointers of the XSDT, if no sum
overflows. -/
def createAcpiTablesInternal (dsdtAddr : GuestAddress) (dm : DeviceManager) (cm : CpuManager) :
    Option (Rsdp × List Byte × List (BitVec 64)) := do
  let dsdt : Sdt := createDsdtTable dm cm
  let tablesBytes ← extendFromSlice [] (asSlice dsdt)
  let facp : Sdt := createFacpTable dsdtAddr dm
  let facpAddr ← checkedAdd dsdtAddr (BitVec.ofNat 64 (len dsdt))
  let tablesBytes ← extendFromSlice tablesBytes (asSlice facp)
  let madt : Sdt := cm.createMadt
  let madtAddr ← checkedAdd facpAddr (BitVec.ofNat 64 (len facp))
  let tablesBytes ← extendFromSlice tablesBytes (asSlice madt)
  let mcfg : Sdt := createMcfgTable dm.pciSegments
  let mcfgAddr ← checkedAdd madtAddr (BitVec.ofNat 64 (len madt))
  let tablesBytes ← extendFromSlice tablesBytes (asSlice mcfg)
  let xsdt : Sdt := createXsdtTable [facpAddr, madtAddr, mcfgAddr]
  let xsdtAddr ← checkedAdd mcfgAddr (BitVec.ofNat 64 (len mcfg))
  let tablesBytes ← extendFromSlice tablesBytes (asSlice xsdt)
  pure (RsdpOps.new (ascii "CLOUDH") xsdtAddr, tablesBytes, [facpAddr, madtAddr, mcfgAddr])

/-- Where the RSDP ends and the DSDT starts. -/
def dsdtAddr : GuestAddress := RSDP_POINTER + BitVec.ofNat 64 (RsdpOps.len Rsdp)

/-- Writes the RSDP and the tables right after it. That a write fails is not noticed. -/
def createAcpiTables (ck : Bool) (dm : DeviceManager) (cm : CpuManager) (mm : MemoryManager)
    (m : Mem) : Option (GuestAddress × Mem) := do
  let dsdtAddr ← checkedAdd RSDP_POINTER (BitVec.ofNat 64 (RsdpOps.len Rsdp))
  let (rsdp, tablesBytes, _) ← createAcpiTablesInternal Sdt Rsdp dsdtAddr dm cm
  let (_, m) ← mm.writeGuestMemory ck (RsdpOps.asBytes rsdp) RSDP_POINTER m
  let (_, m) ← mm.writeGuestMemory ck tablesBytes dsdtAddr m
  pure (RSDP_POINTER, m)

end

/-! ## Lengths and pointers -/

theorem extendFromSlice_eq_some {v bytes w : List Byte} :
    extendFromSlice v bytes = some w ↔ v.length + bytes.length < 2 ^ 63 ∧ w = v ++ bytes := by
  rw [extendFromSlice, Option.ite_none_right_eq_some, Option.some.injEq, eq_comm (a := w)]

section
variable {Sdt : Type} [SdtOps Sdt] [LawfulSdt Sdt]

open LawfulSdt

/-- The writes are inside the FACP. -/
theorem facpWrites_fit (dsdtOffset : GuestAddress) (dm : DeviceManager) :
    ∀ w ∈ facpWrites dsdtOffset dm, 10 ≤ w.1 ∧ w.1 + w.2.length ≤ 276 := by
  have hlen : ∀ address : GenericAddress, (AsBytes.bytes address).length = 12 :=
    GenericAddress.length_bytes
  have hvendor : (ascii "CLOUDHYP").length = 8 := by decide
  intro w hw
  simp only [facpWrites, FACP_DSDT_OFFSET, List.mem_append, List.mem_flatMap, List.mem_map,
    List.mem_cons, List.not_mem_nil, or_false] at hw
  rcases hw with (((⟨_, -, rfl | rfl⟩ | ⟨_, -, rfl⟩) | ⟨_, -, rfl⟩) | ⟨_, -, rfl | rfl⟩) |
      rfl | rfl | rfl | rfl | rfl <;>
    simp only [hlen, hvendor, length_bytes_bitVec] <;> omega

theorem length_newFacp : (asSlice (new (ascii "FACP") 276 6 (ascii "CLOUDH") (ascii "CHFACP  ") 1 :
    Sdt)).length = 276 :=
  length_new _ _ _ _ _ _ (by decide) (by decide) (by decide) (by decide)

/-- X_DSDT is the address given. -/
theorem createFacpTable_dsdt (dsdtOffset : GuestAddress) (dm : DeviceManager) :
    (asSlice (createFacpTable dsdtOffset dm : Sdt)).length = 276 ∧
      slice (asSlice (createFacpTable dsdtOffset dm : Sdt)) FACP_DSDT_OFFSET 8 =
        AsBytes.bytes dsdtOffset := by
  have hfit := facpWrites_fit dsdtOffset dm
  have hnew := @length_newFacp Sdt _ _
  have hvendor : (ascii "CLOUDHYP").length = 8 := by decide
  unfold createFacpTable
  obtain ⟨before, hbefore⟩ : ∃ before, facpWrites dsdtOffset dm =
      before ++ [(FACP_DSDT_OFFSET, AsBytes.bytes dsdtOffset), (268, ascii "CLOUDHYP")] :=
    ⟨_ ++ [_, _, _], by rw [List.append_assoc]; rfl⟩
  have hlen := length_foldl_writeBytes (facpWrites dsdtOffset dm) (by rwa [hnew])
  have hlen' := length_foldl_writeBytes before (t := (new (ascii "FACP") 276 6 (ascii "CLOUDH")
    (ascii "CHFACP  ") 1 : Sdt)) fun w hw => by
      rw [hnew]
      exact hfit w (hbefore ▸ List.mem_append_left _ hw)
  rw [hnew] at hlen hlen'
  refine ⟨by rw [length_updateChecksum _ (by rw [hlen]; decide), hlen], ?_⟩
  rw [slice_updateChecksum (by rw [hlen]; decide) (by decide), hbefore, List.foldl_append]
  generalize before.foldl _ _ = t at hlen'
  have h140 : FACP_DSDT_OFFSET + (AsBytes.bytes dsdtOffset).length ≤ (asSlice t).length := by
    rw [hlen', length_bytes_bitVec]
    decide
  have hl := length_writeBytes t FACP_DSDT_OFFSET (AsBytes.bytes dsdtOffset) (by decide) h140
  refine (slice_writeBytes_sep (by decide) ?_ (by decide) (.inl (by decide))).trans
    (slice_writeBytes_self (by decide : 10 ≤ FACP_DSDT_OFFSET) h140)
  rw [hl, hlen', hvendor]

theorem hasBody_createXsdtTable (pointers : List (BitVec 64)) :
    HasBody (createXsdtTable pointers : Sdt) 36 (pointers.flatMap AsBytes.bytes) := by
  have hnew : (asSlice (new (ascii "XSDT") 36 1 (ascii "CLOUDH") (ascii "CHXSDT  ") 1 : Sdt)).length =
      36 := length_new _ _ _ _ _ _ (by decide) (by decide) (by decide) (by decide)
  exact ((HasBody.of_length le_rfl hnew).foldl_append id pointers).updateChecksum

end

/-- The bytes of the five tables, in their order in memory. -/
structure Tables where
  dsdt : List Byte
  facp : List Byte
  madt : List Byte
  mcfg : List Byte
  xsdt : List Byte

namespace Tables

variable (t : Tables) (dsdtAddr : Nat)

def bytes : List Byte := t.dsdt ++ t.facp ++ t.madt ++ t.mcfg ++ t.xsdt

/-! The address of each table, if the first is at `dsdtAddr`. -/

def facpAddr : Nat := dsdtAddr + t.dsdt.length
def madtAddr : Nat := t.facpAddr dsdtAddr + t.facp.length
def mcfgAddr : Nat := t.madtAddr dsdtAddr + t.madt.length
def xsdtAddr : Nat := t.mcfgAddr dsdtAddr + t.mcfg.length

/-- The ranges of the RSDP and of the tables. -/
def spans (rsdpAddr : Nat) (rsdp : List Byte) : List Span :=
  [⟨rsdpAddr, rsdp.length⟩, ⟨dsdtAddr, t.dsdt.length⟩, ⟨t.facpAddr dsdtAddr, t.facp.length⟩,
    ⟨t.madtAddr dsdtAddr, t.madt.length⟩, ⟨t.mcfgAddr dsdtAddr, t.mcfg.length⟩,
    ⟨t.xsdtAddr dsdtAddr, t.xsdt.length⟩]

variable {t dsdtAddr}

theorem xsdtAddr_add : t.xsdtAddr dsdtAddr + t.xsdt.length = dsdtAddr + t.bytes.length := by
  simp only [xsdtAddr, mcfgAddr, madtAddr, facpAddr, bytes, List.length_append]
  omega

end Tables

section
variable (Sdt Rsdp : Type) [SdtOps Sdt] [RsdpOps Rsdp] [Aml DeviceManager] [Aml CpuManager]
  [AsBytes PciRangeEntry]

/-- The tables whose pointers are the addresses at which they are put. -/
def tables (dsdtAddr : GuestAddress) (dm : DeviceManager) (cm : CpuManager) : Tables :=
  let t : Tables :=
    { dsdt := asSlice (createDsdtTable dm cm : Sdt)
      facp := asSlice (createFacpTable dsdtAddr dm : Sdt)
      madt := asSlice (cm.createMadt : Sdt)
      mcfg := asSlice (createMcfgTable dm.pciSegments : Sdt)
      xsdt := [] }
  { t with
    xsdt := asSlice (createXsdtTable [BitVec.ofNat 64 (t.facpAddr dsdtAddr.toNat),
      BitVec.ofNat 64 (t.madtAddr dsdtAddr.toNat), BitVec.ofNat 64 (t.mcfgAddr dsdtAddr.toNat)] : Sdt) }

variable {Sdt Rsdp} [LawfulSdt Sdt] {dsdtAddr : GuestAddress} {dm : DeviceManager} {cm : CpuManager}

/-- What is returned: the addresses of the tables are those at which their bytes are. It
is returned if the tables fit in a vector, and the last one starts at an address. -/
theorem createAcpiTablesInternal_eq_some {out : Rsdp × List Byte × List (BitVec 64)} :
    createAcpiTablesInternal Sdt Rsdp dsdtAddr dm cm = some out ↔
      (tables Sdt dsdtAddr dm cm).bytes.length < 2 ^ 63 ∧
      (tables Sdt dsdtAddr dm cm).xsdtAddr dsdtAddr.toNat < 2 ^ 64 ∧
      out = (RsdpOps.new (ascii "CLOUDH")
          (BitVec.ofNat 64 ((tables Sdt dsdtAddr dm cm).xsdtAddr dsdtAddr.toNat)),
        (tables Sdt dsdtAddr dm cm).bytes,
        [BitVec.ofNat 64 ((tables Sdt dsdtAddr dm cm).facpAddr dsdtAddr.toNat),
          BitVec.ofNat 64 ((tables Sdt dsdtAddr dm cm).madtAddr dsdtAddr.toNat),
          BitVec.ofNat 64 ((tables Sdt dsdtAddr dm cm).mcfgAddr dsdtAddr.toNat)]) := by
  generalize htdef : tables Sdt dsdtAddr dm cm = t
  unfold tables Tables.mcfgAddr Tables.madtAddr Tables.facpAddr at htdef
  unfold createAcpiTablesInternal Tables.xsdtAddr Tables.mcfgAddr Tables.madtAddr Tables.facpAddr
    Tables.bytes
  simp only [LawfulSdt.len_eq]
  generalize (createDsdtTable dm cm : Sdt) = dsdt at htdef ⊢
  generalize (createFacpTable dsdtAddr dm : Sdt) = facp at htdef ⊢
  generalize (cm.createMadt : Sdt) = madt at htdef ⊢
  generalize (createMcfgTable dm.pciSegments : Sdt) = mcfg at htdef ⊢
  subst htdef
  obtain ⟨x, hx, rfl⟩ : ∃ x < 2 ^ 64, dsdtAddr = BitVec.ofNat 64 x :=
    ⟨dsdtAddr.toNat, dsdtAddr.isLt, by rw [BitVec.ofNat_toNat, BitVec.setWidth_eq]⟩
  simp only [Option.bind_eq_bind, Option.bind_eq_some_iff, extendFromSlice_eq_some,
    BitVec.toNat_ofNat, Nat.mod_eq_of_lt hx, List.length_append]
  constructor
  · rintro ⟨_, ⟨h1, rfl⟩, a, ha, _, ⟨h2, rfl⟩, b, hb, _, ⟨h3, rfl⟩, c, hc, _, ⟨h4, rfl⟩, d, hd, _,
      ⟨h5, rfl⟩, hout⟩
    simp only [List.nil_append, List.length_append] at h2 h3 h4 h5 hout
    obtain ⟨hfacp, rfl⟩ := (checkedAdd_ofNat hx (by omega)).mp ha
    obtain ⟨hmadt, rfl⟩ := (checkedAdd_ofNat hfacp (by omega)).mp hb
    obtain ⟨hmcfg, rfl⟩ := (checkedAdd_ofNat hmadt (by omega)).mp hc
    obtain ⟨hxsdt, rfl⟩ := (checkedAdd_ofNat hmcfg (by omega)).mp hd
    exact ⟨h5, hxsdt, (Option.some.inj hout).symm⟩
  · rintro ⟨hlen, hend, rfl⟩
    refine ⟨_, ⟨?_, rfl⟩, _, (checkedAdd_ofNat hx ?_).mpr ⟨?_, rfl⟩, _, ⟨?_, rfl⟩, _,
      (checkedAdd_ofNat ?_ ?_).mpr ⟨?_, rfl⟩, _, ⟨?_, rfl⟩, _,
      (checkedAdd_ofNat ?_ ?_).mpr ⟨?_, rfl⟩, _, ⟨?_, rfl⟩, _,
      (checkedAdd_ofNat ?_ ?_).mpr ⟨?_, rfl⟩, _, ⟨?_, rfl⟩, rfl⟩ <;>
    (try simp only [List.nil_append, List.length_append, List.length_nil]) <;> omega

end

/-! ## In the guest's memory -/

/-- In the memory `mem` the RSDP and the tables are where `rsdpAddr` and `dsdtAddr` say,
one right after the other, and the pointers are the addresses of the tables. -/
structure Chained (mem : Mem) (rsdpAddr : Nat) (rsdp : List Byte) (dsdtAddr : Nat) (t : Tables) :
    Prop where
  rsdp_at : mem.read rsdpAddr rsdp.length = rsdp
  dsdt_at : mem.read dsdtAddr t.dsdt.length = t.dsdt
  facp_at : mem.read (t.facpAddr dsdtAddr) t.facp.length = t.facp
  madt_at : mem.read (t.madtAddr dsdtAddr) t.madt.length = t.madt
  mcfg_at : mem.read (t.mcfgAddr dsdtAddr) t.mcfg.length = t.mcfg
  xsdt_at : mem.read (t.xsdtAddr dsdtAddr) t.xsdt.length = t.xsdt
  contiguous : Span.Contiguous (t.spans dsdtAddr rsdpAddr rsdp)
  separate : Span.Separate id (t.spans dsdtAddr rsdpAddr rsdp)
  /-- The address of the XSDT in the RSDP. -/
  xsdt_pointer : (mem.word (rsdpAddr + 24) 64).toNat = t.xsdtAddr dsdtAddr
  /-- The XSDT has three entries. -/
  xsdt_length : t.xsdt.length = 36 + 8 * 3
  facp_pointer : (mem.word (t.xsdtAddr dsdtAddr + 36) 64).toNat = t.facpAddr dsdtAddr
  madt_pointer : (mem.word (t.xsdtAddr dsdtAddr + 44) 64).toNat = t.madtAddr dsdtAddr
  mcfg_pointer : (mem.word (t.xsdtAddr dsdtAddr + 52) 64).toNat = t.mcfgAddr dsdtAddr
  /-- X_DSDT in the FACP. -/
  dsdt_pointer : (mem.word (t.facpAddr dsdtAddr + FACP_DSDT_OFFSET) 64).toNat = dsdtAddr

namespace Tables

variable {t : Tables} {m : Mem} {a : Nat}

/-- Each table is in the bytes of all. -/
theorem read_write_bytes :
    (m.write a t.bytes).read a t.dsdt.length = t.dsdt ∧
    (m.write a t.bytes).read (t.facpAddr a) t.facp.length = t.facp ∧
    (m.write a t.bytes).read (t.madtAddr a) t.madt.length = t.madt ∧
    (m.write a t.bytes).read (t.mcfgAddr a) t.mcfg.length = t.mcfg ∧
    (m.write a t.bytes).read (t.xsdtAddr a) t.xsdt.length = t.xsdt := by
  have hpart : ∀ before part after : List Byte, t.bytes = before ++ part ++ after →
      (m.write a t.bytes).read (a + before.length) part.length = part := by
    intro before part after h
    rw [read_write_slice m (by rw [h]; simp only [List.length_append]; omega), h, slice,
      List.append_assoc, List.drop_left, List.take_left]
  simp only [facpAddr, madtAddr, mcfgAddr, xsdtAddr, Nat.add_assoc]
  refine ⟨?_, ?_, ?_, ?_, ?_⟩
  · exact hpart [] t.dsdt (t.facp ++ t.madt ++ t.mcfg ++ t.xsdt) (by simp [bytes])
  · exact hpart t.dsdt t.facp (t.madt ++ t.mcfg ++ t.xsdt) (by simp [bytes])
  · have := hpart (t.dsdt ++ t.facp) t.madt (t.mcfg ++ t.xsdt) (by simp [bytes])
    rwa [List.length_append] at this
  · have := hpart (t.dsdt ++ t.facp ++ t.madt) t.mcfg t.xsdt (by simp [bytes])
    rwa [List.length_append, List.length_append, Nat.add_assoc] at this
  · have := hpart (t.dsdt ++ t.facp ++ t.madt ++ t.mcfg) t.xsdt [] (by simp [bytes])
    rwa [List.length_append, List.length_append, List.length_append, Nat.add_assoc,
      Nat.add_assoc] at this

end Tables

/-- A pointer among the bytes of a table. -/
theorem toNat_pointer {mem : Mem} {a off x : Nat} {bs : List Byte} (hr : mem.read a bs.length = bs)
    (hoff : off + 8 ≤ bs.length) (hs : slice bs off 8 = AsBytes.bytes (BitVec.ofNat 64 x))
    (hx : x < 2 ^ 64) : (mem.word (a + off) 64).toNat = x := by
  have h := word_of_read (n := 8) (v := BitVec.ofNat 64 x) hr hoff hs
  rw [show (64 : Nat) = 8 * 8 from rfl, h, BitVec.toNat_ofNat, Nat.mod_eq_of_lt hx]

theorem checkedAdd_rsdp {Rsdp : Type} [RsdpOps Rsdp] [LawfulRsdp Rsdp] :
    checkedAdd RSDP_POINTER (BitVec.ofNat 64 (RsdpOps.len Rsdp)) = some (dsdtAddr Rsdp) := by
  rw [dsdtAddr, LawfulRsdp.len_eq]
  rfl

theorem toNat_dsdtAddr (Rsdp : Type) [RsdpOps Rsdp] [LawfulRsdp Rsdp] :
    (dsdtAddr Rsdp).toNat = 0xe0000 + 36 := by
  rw [dsdtAddr, LawfulRsdp.len_eq]
  rfl

section
variable (Sdt Rsdp : Type) [SdtOps Sdt] [RsdpOps Rsdp] [LawfulSdt Sdt] [LawfulRsdp Rsdp]
  [Aml DeviceManager] [Aml CpuManager] [AsBytes PciRangeEntry]

/-- The tables written right after the RSDP. -/
theorem chained_write (mem : Mem) {dsdtAddr : GuestAddress} {dm : DeviceManager} {cm : CpuManager}
    {t : Tables} (ht : t = tables Sdt dsdtAddr dm cm) (hend : t.xsdtAddr dsdtAddr.toNat < 2 ^ 64)
    {rsdpAddr : Nat} {rsdp : List Byte} (hd : dsdtAddr.toNat = rsdpAddr + rsdp.length)
    (hrsdp : rsdp = RsdpOps.asBytes (RsdpOps.new (ascii "CLOUDH")
      (BitVec.ofNat 64 (t.xsdtAddr dsdtAddr.toNat)) : Rsdp)) :
    Chained ((mem.write rsdpAddr rsdp).write dsdtAddr.toNat t.bytes) rsdpAddr rsdp dsdtAddr.toNat t := by
  obtain ⟨hdsdt, hfacp, hmadt, hmcfg, hxsdt⟩ :=
    @Tables.read_write_bytes t (mem.write rsdpAddr rsdp) dsdtAddr.toNat
  have hr : ((mem.write rsdpAddr rsdp).write dsdtAddr.toNat t.bytes).read rsdpAddr rsdp.length =
      rsdp := by
    rw [Mem.read_congr (Mem.sameOn_write (.inl hd.ge)), Mem.read_write_self]
  have hcontig : Span.Contiguous (t.spans dsdtAddr.toNat rsdpAddr rsdp) := by
    simp only [Span.Contiguous, Tables.spans, List.isChain_cons_cons]
    exact ⟨hd.symm, rfl, rfl, rfl, rfl, .singleton _⟩
  have hrlen : rsdp.length = 36 := by
    rw [hrsdp]
    exact LawfulRsdp.length_asBytes _ _ (by decide)
  obtain ⟨hflen, hfdsdt⟩ : t.facp.length = 276 ∧
      slice t.facp FACP_DSDT_OFFSET 8 = AsBytes.bytes dsdtAddr := ht ▸ createFacpTable_dsdt dsdtAddr dm
  have hle : t.facpAddr dsdtAddr.toNat < 2 ^ 64 ∧ t.madtAddr dsdtAddr.toNat < 2 ^ 64 ∧
      t.mcfgAddr dsdtAddr.toNat < 2 ^ 64 := by
    unfold Tables.xsdtAddr Tables.mcfgAddr Tables.madtAddr at *
    omega
  let pointers := [BitVec.ofNat 64 (t.facpAddr dsdtAddr.toNat),
    BitVec.ofNat 64 (t.madtAddr dsdtAddr.toNat), BitVec.ofNat 64 (t.mcfgAddr dsdtAddr.toNat)]
  have hx : t.xsdt = asSlice (createXsdtTable pointers : Sdt) := by
    subst ht
    rfl
  have hbody : HasBody (createXsdtTable pointers : Sdt) 36 _ := hasBody_createXsdtTable _
  have hbytes : ∀ v : BitVec 64, (AsBytes.bytes v).length = 8 := fun v => length_bytes_bitVec v
  have hxlen : t.xsdt.length = 36 + 8 * 3 := by
    rw [hx, hbody.length, length_flatMap_const hbytes]
    rfl
  have hentry : ∀ (i : Nat) (x : Nat), pointers[i]? = some (BitVec.ofNat 64 x) →
      slice t.xsdt (36 + 8 * i) 8 = AsBytes.bytes (BitVec.ofNat 64 x) := fun i x hi => by
    rw [hx, hbody.slice_eq, slice_flatMap hbytes hi]
  exact {
    rsdp_at := hr
    dsdt_at := hdsdt
    facp_at := hfacp
    madt_at := hmadt
    mcfg_at := hmcfg
    xsdt_at := hxsdt
    contiguous := hcontig
    separate := hcontig.separate
    xsdt_pointer := toNat_pointer hr (by rw [hrlen]; decide)
      (by rw [hrsdp]; exact LawfulRsdp.slice_asBytes _ _ (by decide)) hend
    xsdt_length := hxlen
    facp_pointer := toNat_pointer hxsdt (by rw [hxlen]; decide) (hentry 0 _ rfl) hle.1
    madt_pointer := toNat_pointer hxsdt (by rw [hxlen]; decide) (hentry 1 _ rfl) hle.2.1
    mcfg_pointer := toNat_pointer hxsdt hxlen.ge (hentry 2 _ rfl) hle.2.2
    dsdt_pointer := toNat_pointer hfacp (by rw [hflen]; decide)
      (by rw [hfdsdt, BitVec.ofNat_toNat, BitVec.setWidth_eq]) dsdtAddr.isLt }

variable {Sdt Rsdp} {total : BitVec 64} {source : Nat} {hpos : 0 < total.toNat}
  {hfits : 0x40000000 + total.toNat ≤ 2 ^ 64} {dm : DeviceManager} {cm : CpuManager} {ck : Bool}

/-- If the writes of the RSDP and of the tables are let through, then in the guest's
memory each pointer is the address of the table it is for, and the tables are one right
after the other. -/
theorem acpi_chain {rsdp : Rsdp} {tablesBytes : List Byte} {pointers : List (BitVec 64)} {m m₁ m₂ : Mem}
    (h : createAcpiTablesInternal Sdt Rsdp (dsdtAddr Rsdp) dm cm = some (rsdp, tablesBytes, pointers))
    (hr : (allocateMemoryWithSize total source hpos hfits).writeGuestMemory ck
      (RsdpOps.asBytes rsdp) RSDP_POINTER m = some (.ok (), m₁))
    (ht : (allocateMemoryWithSize total source hpos hfits).writeGuestMemory ck tablesBytes
      (dsdtAddr Rsdp) m₁ = some (.ok (), m₂)) :
    createAcpiTables Sdt Rsdp ck dm cm (allocateMemoryWithSize total source hpos hfits) m =
        some (RSDP_POINTER, m₂) ∧
      tablesBytes = (tables Sdt (dsdtAddr Rsdp) dm cm).bytes ∧
      Chained ((allocateMemoryWithSize total source hpos hfits).guest m₂) RSDP_POINTER.toNat
        (RsdpOps.asBytes rsdp) (dsdtAddr Rsdp).toNat (tables Sdt (dsdtAddr Rsdp) dm cm) := by
  obtain ⟨hlen, hend, hout⟩ := createAcpiTablesInternal_eq_some.mp h
  obtain ⟨hrsdp, hbytes, -⟩ : rsdp = _ ∧ tablesBytes = _ ∧ pointers = _ := by simpa using hout
  have hrlen : (RsdpOps.asBytes rsdp).length = 36 := by
    rw [hrsdp]
    exact LawfulRsdp.length_asBytes _ _ (by decide)
  have hd := toNat_dsdtAddr Rsdp
  have hp : RSDP_POINTER.toNat = 0xe0000 := by decide
  have hg₁ := MemoryManager.guest_write MemoryManager.disjoint_allocated
    MemoryManager.distinct_allocated (by omega) (fun _ => by omega) hr
  have hg₂ := MemoryManager.guest_write MemoryManager.disjoint_allocated
    MemoryManager.distinct_allocated (by rw [hbytes]; omega) (fun _ => by rw [hbytes]; omega) ht
  refine ⟨?_, hbytes, ?_⟩
  · have hadd : checkedAdd RSDP_POINTER (BitVec.ofNat 64 (RsdpOps.len Rsdp)) = some (dsdtAddr Rsdp) := by
      rw [LawfulRsdp.len_eq, dsdtAddr, LawfulRsdp.len_eq]
      rfl
    unfold createAcpiTables
    rw [hadd, Option.bind_eq_bind, Option.bind_some, h, Option.bind_eq_bind, Option.bind_some]
    simp only [hr, Option.bind_eq_bind, Option.bind_some, ht]
    rfl
  · rw [hg₂, hg₁, hbytes]
    exact chained_write Sdt Rsdp _ rfl hend (by rw [hd, hp, hrlen]) (by rw [hrsdp])

/-- What is below the RSDP stays as it is, also if a write fails. -/
theorem createAcpiTables_below {m m' : Mem} {a : GuestAddress}
    (h : createAcpiTables Sdt Rsdp ck dm cm (allocateMemoryWithSize total source hpos hfits) m =
      some (a, m')) :
    ∀ x < 0xe0000, (allocateMemoryWithSize total source hpos hfits).guest m' x =
      (allocateMemoryWithSize total source hpos hfits).guest m x := by
  have hwrite : ∀ {bs : List Byte} {gpa : GuestAddress} {m m' : Mem} {r : Except MemoryError Unit},
      0xe0000 ≤ gpa.toNat → gpa.toNat + bs.length < 2 ^ 64 →
      (allocateMemoryWithSize total source hpos hfits).writeGuestMemory ck bs gpa m = some (r, m') →
      ∀ x < 0xe0000, (allocateMemoryWithSize total source hpos hfits).guest m' x =
        (allocateMemoryWithSize total source hpos hfits).guest m x := by
    intro bs gpa m m' r hgpa hlt hw x hx
    cases r with
    | error e => rw [Ram.write_error hw]
    | ok u =>
      rw [MemoryManager.guest_write MemoryManager.disjoint_allocated
        MemoryManager.distinct_allocated (by omega) (fun _ => hlt) hw]
      exact Mem.write_of_lt (by omega)
  have hd := toNat_dsdtAddr Rsdp
  have hp : RSDP_POINTER.toNat = 0xe0000 := by decide
  unfold createAcpiTables at h
  rw [checkedAdd_rsdp] at h
  simp only [Option.bind_eq_bind, Option.bind_some, Option.bind_eq_some_iff] at h
  obtain ⟨⟨rsdp, tablesBytes, pointers⟩, hi, ⟨r₁, m₁⟩, h₁, ⟨r₂, m₂⟩, h₂, hout⟩ := h
  obtain ⟨hlen, -, hi⟩ := createAcpiTablesInternal_eq_some.mp hi
  obtain ⟨hrsdp, hbytes, -⟩ : rsdp = _ ∧ tablesBytes = _ ∧ pointers = _ := by simpa using hi
  have hrlen : (RsdpOps.asBytes rsdp).length = 36 := by
    rw [hrsdp]
    exact LawfulRsdp.length_asBytes _ _ (by decide)
  obtain ⟨-, rfl⟩ := Prod.mk.inj (Option.some.inj hout)
  dsimp only at h₁ h₂ ⊢
  intro x hx
  rw [hwrite (by omega) (by rw [hd, hbytes]; omega) h₂ x hx,
    hwrite (by omega) (by rw [hp, hrlen]; omega) h₁ x hx]

/-- They are created if their bytes fit in a vector and the last table starts at an
address. -/
theorem exists_createAcpiTables (m : Mem)
    (hlen : (tables Sdt (dsdtAddr Rsdp) dm cm).bytes.length < 2 ^ 63) :
    ∃ m', createAcpiTables Sdt Rsdp ck dm cm (allocateMemoryWithSize total source hpos hfits) m =
      some (RSDP_POINTER, m') := by
  have hd := toNat_dsdtAddr Rsdp
  have hp : RSDP_POINTER.toNat = 0xe0000 := by decide
  have hend := @Tables.xsdtAddr_add (tables Sdt (dsdtAddr Rsdp) dm cm) (dsdtAddr Rsdp).toNat
  have hi : createAcpiTablesInternal Sdt Rsdp (dsdtAddr Rsdp) dm cm = some _ :=
    createAcpiTablesInternal_eq_some.mpr ⟨hlen, by omega, rfl⟩
  have hrlen := @LawfulRsdp.length_asBytes Rsdp _ _ (ascii "CLOUDH")
    (BitVec.ofNat 64 ((tables Sdt (dsdtAddr Rsdp) dm cm).xsdtAddr (dsdtAddr Rsdp).toNat)) (by decide)
  obtain ⟨r₁, m₁, h₁⟩ := @MemoryManager.exists_writeGuestMemory
    (allocateMemoryWithSize total source hpos hfits) RSDP_POINTER ck _ m (by rw [hp, hrlen]; decide)
  obtain ⟨r₂, m₂, h₂⟩ := @MemoryManager.exists_writeGuestMemory
    (allocateMemoryWithSize total source hpos hfits) (dsdtAddr Rsdp) ck
    (tables Sdt (dsdtAddr Rsdp) dm cm).bytes m₁ (by omega)
  refine ⟨m₂, ?_⟩
  unfold createAcpiTables
  rw [checkedAdd_rsdp, Option.bind_eq_bind, Option.bind_some, hi, Option.bind_eq_bind,
    Option.bind_some]
  dsimp only
  rw [h₁, Option.bind_eq_bind, Option.bind_some, h₂]
  rfl

end

/-! ## A guest without devices -/

/-- An RSDP as its bytes. -/
structure ByteRsdp where
  data : List Byte

namespace ByteRsdp

/-- The RSDP without its checksums. -/
def fields (oemId : List Byte) (xsdtAddr : BitVec 64) : List Byte :=
  ascii "RSD PTR " ++ [0] ++ oemId ++ [2] ++ AsBytes.bytes (0 : BitVec 32) ++
    AsBytes.bytes (36 : BitVec 32) ++ AsBytes.bytes xsdtAddr ++ [0, 0, 0, 0]

/-- The first checksum is over 20 bytes, the second over all. -/
def setChecksums (data : List Byte) : List Byte :=
  let data := data.set 8 (ByteSdt.generateChecksum (data.take 20))
  data.set 32 (ByteSdt.generateChecksum data)

instance : RsdpOps ByteRsdp where
  len := 36
  new oemId xsdtAddr := ⟨setChecksums (fields oemId xsdtAddr)⟩
  asBytes r := r.data

theorem length_fields {oemId : List Byte} {xsdtAddr : BitVec 64} (hoem : oemId.length = 6) :
    (fields oemId xsdtAddr).length = 36 := by
  have hsig : (ascii "RSD PTR ").length = 8 := by decide
  simp only [fields, List.length_append, length_bytes_bitVec, List.length_cons, List.length_nil, hoem,
    hsig]

instance : LawfulRsdp ByteRsdp where
  len_eq := rfl
  length_asBytes oemId xsdtAddr hoem := by
    simp only [RsdpOps.asBytes, RsdpOps.new, setChecksums, List.length_set, length_fields hoem]
  slice_asBytes oemId xsdtAddr hoem := by
    have hsig : (ascii "RSD PTR ").length = 8 := by decide
    have hbefore : (ascii "RSD PTR " ++ [0] ++ oemId ++ [2] ++ AsBytes.bytes (0 : BitVec 32) ++
        AsBytes.bytes (36 : BitVec 32)).length = 24 := by
      simp only [List.length_append, length_bytes_bitVec, List.length_cons, List.length_nil, hoem, hsig]
    refine List.ext_getElem? fun i => ?_
    rw [getElem?_slice]
    split
    · rename_i hi
      simp only [RsdpOps.asBytes, RsdpOps.new, setChecksums]
      rw [List.getElem?_set_ne (by omega), List.getElem?_set_ne (by omega), fields,
        List.getElem?_append_left, List.getElem?_append_right (by omega), hbefore,
        Nat.add_sub_cancel_left]
      rw [List.length_append, hbefore, length_bytes_bitVec]
      omega
    · rename_i hi
      exact (List.getElem?_eq_none (by rw [length_bytes_bitVec]; omega)).symm

end ByteRsdp

/-- The object `_S5_`, which is all there is of a machine without devices. -/
abbrev plainDevices : Aml DeviceManager :=
  ⟨fun _ => [0x08] ++ ascii "_S5_" ++ [0x12, 0x04, 0x01, 0x0a, 0x05]⟩

/-- The scope `_SB_`, without a processor. -/
abbrev plainCpus : Aml CpuManager := ⟨fun _ => [0x10, 0x06] ++ ascii "\\_SB_"⟩

/-- The fields in the order of their declaration. -/
abbrev declaredOrder : AsBytes PciRangeEntry where
  bytes e := AsBytes.bytes e.baseAddress ++ AsBytes.bytes e.segment ++ [e.start, e.end] ++
    AsBytes.bytes e.reserved

def plainMachine : DeviceManager := ⟨[], [], [], ⟨none, none, none, none⟩⟩

/-- Its tables. -/
def plainTables : Tables :=
  @tables ByteSdt _ plainDevices plainCpus declaredOrder 0xe0024 plainMachine ⟨0⟩

def plainRsdp : ByteRsdp := RsdpOps.new (ascii "CLOUDH") 0xe01db

def plainRam : MemoryManager := allocateMemoryWithSize 0x200000 0 (by decide) (by decide)

theorem length_plainTables : plainTables.bytes.length = 499 := by decide +kernel

theorem xsdtAddr_plainTables : plainTables.xsdtAddr 0xe0024 = 0xe01db := by decide +kernel

theorem plainTables_created : @createAcpiTablesInternal ByteSdt ByteRsdp _ _ plainDevices plainCpus
    declaredOrder 0xe0024 plainMachine ⟨0⟩ = some (plainRsdp, plainTables.bytes,
      [BitVec.ofNat 64 (plainTables.facpAddr 0xe0024), BitVec.ofNat 64 (plainTables.madtAddr 0xe0024),
        BitVec.ofNat 64 (plainTables.mcfgAddr 0xe0024)]) := by
  refine (@createAcpiTablesInternal_eq_some ByteSdt ByteRsdp _ _ plainDevices plainCpus declaredOrder
    _ 0xe0024 plainMachine ⟨0⟩ _).mpr ⟨?_, ?_, ?_⟩
  · exact length_plainTables.trans_lt (by decide)
  · exact xsdtAddr_plainTables.trans_lt (by decide)
  · have h := congrArg (fun x => (RsdpOps.new (ascii "CLOUDH") (BitVec.ofNat 64 x) : ByteRsdp))
      xsdtAddr_plainTables
    exact congrArg (fun rsdp => (rsdp, plainTables.bytes, _)) h.symm

theorem acpi_chain_plain : ∃ m, Chained (plainRam.guest m) 0xe0000 (RsdpOps.asBytes plainRsdp) 0xe0024
    plainTables := by
  have hp : RSDP_POINTER.toNat = 0xe0000 := by decide
  have hd : (0xe0024 : GuestAddress).toNat = 0xe0024 := by decide
  have hrlen : (RsdpOps.asBytes plainRsdp).length = 36 := LawfulRsdp.length_asBytes _ _ (by decide)
  obtain ⟨m₁, hr, -⟩ : ∃ m', plainRam.writeGuestMemory true (RsdpOps.asBytes plainRsdp) RSDP_POINTER
      (fun _ => 0) = some (.ok (), m') ∧ _ :=
    MemoryManager.write_low _ (by rw [hp, hrlen]; decide)
  obtain ⟨m₂, ht, -⟩ : ∃ m', plainRam.writeGuestMemory true plainTables.bytes 0xe0024 m₁ =
      some (.ok (), m') ∧ _ :=
    MemoryManager.write_low _ (by rw [hd, length_plainTables]; decide)
  have h := @acpi_chain ByteSdt ByteRsdp _ _ _ _ plainDevices plainCpus declaredOrder _ _ _ _ _ _ _ _ _
    _ _ _ _ plainTables_created hr ht
  exact ⟨m₂, h.2.2⟩

end Whypa
