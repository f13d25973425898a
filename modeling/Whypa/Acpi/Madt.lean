import Whypa.Acpi.Sdt

/-!
# The table of interrupt controllers

`createMadt` lists the processors, the I/O APIC and an override of the timer's
interrupt; `walk` reads the entries of such a table back as the ACPI specification
lays them out. What is read back (`walk_createMadt`) is not what is meant: the
entry of a processor has its fields in another order than the specification, so
that the APIC ID read is the flag and the flags read have the processor's number in
their top byte. Hence the table is right only for no processor at all
(`madt_correct_iff`).
-/

namespace Whypa

open Framework SdtOps

def APIC_START : BitVec 64 := 0xfee00000
def IOAPIC_START : BitVec 64 := 0xfec00000

def ACPI_APIC_PROCESSOR : Byte := 0
def ACPI_APIC_IO : Byte := 1
def ACPI_APIC_XRUPT_OVERRIDE : Byte := 2

/-- The entry of a processor, in the order of its bytes. -/
structure LocalApic where
  type : Byte
  length : Byte
  apicId : Byte
  flags : BitVec 32
  processorId : Byte
deriving DecidableEq, Repr

instance : AsBytes LocalApic where
  bytes x := [x.type, x.length, x.apicId] ++ AsBytes.bytes x.flags ++ [x.processorId]

structure Ioapic where
  type : Byte
  length : Byte
  ioapicId : Byte
  reserved : Byte
  apicAddress : BitVec 32
  gsiBase : BitVec 32
deriving DecidableEq, Repr

instance : AsBytes Ioapic where
  bytes x := [x.type, x.length, x.ioapicId, x.reserved] ++ AsBytes.bytes x.apicAddress ++
    AsBytes.bytes x.gsiBase

structure InterruptSourceOverride where
  type : Byte
  length : Byte
  bus : Byte
  source : Byte
  gsi : BitVec 32
  flags : BitVec 16
deriving DecidableEq, Repr

instance : AsBytes InterruptSourceOverride where
  bytes x := [x.type, x.length, x.bus, x.source] ++ AsBytes.bytes x.gsi ++ AsBytes.bytes x.flags

structure CpuManager where
  cpus : BitVec 32

namespace CpuManager

def setCpuCount (_ : CpuManager) (count : BitVec 32) : CpuManager := ⟨count⟩

def getCpuCount (m : CpuManager) : BitVec 32 := m.cpus

variable {Sdt : Type} [SdtOps Sdt]

/-- The entry of the processor `cpu`. -/
def lapic (cpu : Nat) : LocalApic where
  type := ACPI_APIC_PROCESSOR
  length := 8
  processorId := BitVec.ofNat 8 cpu
  apicId := BitVec.ofNat 8 cpu
  flags := 1

def ioapic : Ioapic where
  type := ACPI_APIC_IO
  length := 12
  ioapicId := 0
  reserved := 0
  apicAddress := IOAPIC_START.setWidth 32
  gsiBase := 0

/-- The override of the interrupt 0 of the ISA bus. -/
def timerOverride : InterruptSourceOverride where
  type := ACPI_APIC_XRUPT_OVERRIDE
  length := 10
  bus := 0
  source := 0
  gsi := 2
  flags := 0

/-- The table before its first entry. -/
def emptyMadt : Sdt :=
  let madt : Sdt := new (ascii "APIC") 44 5 (ascii "CLOUDH") (ascii "CHMADT  ") 1
  let madt := write madt 36 APIC_START
  write madt 32 (0 : BitVec 32)

def createMadt (m : CpuManager) : Sdt :=
  let madt : Sdt := (List.range m.cpus.toNat).foldl (fun madt cpu => append madt (lapic cpu)) emptyMadt
  let madt := append madt ioapic
  let madt := append madt timerOverride
  updateChecksum madt

end CpuManager

/-! ## Reading a table -/

/-- An entry as the specification lays it out. -/
inductive MadtEntry
  | localApic (uid apicId : Byte) (flags : BitVec 32)
  | ioApic (id : Byte) (address gsiBase : BitVec 32)
  | sourceOverride (bus source : Byte) (gsi : BitVec 32) (flags : BitVec 16)
deriving DecidableEq, Repr

namespace MadtEntry

/-- The little-endian word of width `8 * n` at the offset. -/
def field (entry : List Byte) (offset n : Nat) : BitVec (8 * n) :=
  BitVec.ofNat _ (ofLE (slice entry offset n))

/-- The entry of the given bytes, by its type and its length. -/
def parse (entry : List Byte) : Option MadtEntry :=
  match (entry.getD 0 0).toNat, entry.length with
  | 0, 8 => some (.localApic (field entry 2 1) (field entry 3 1) (field entry 4 4))
  | 1, 12 => some (.ioApic (field entry 2 1) (field entry 4 4) (field entry 8 4))
  | 2, 10 => some (.sourceOverride (field entry 2 1) (field entry 3 1) (field entry 4 4) (field entry 8 2))
  | _, _ => none

/-- The entries one after the other, each as long as its second byte says; `none` if
they do not end where the table does. -/
def walk : List Byte → Option (List MadtEntry)
  | [] => some []
  | [_] => none
  | type :: length :: rest =>
    if 2 ≤ length.toNat ∧ length.toNat ≤ rest.length + 2 then do
      let entry ← parse ((type :: length :: rest).take length.toNat)
      let entries ← walk ((type :: length :: rest).drop length.toNat)
      pure (entry :: entries)
    else none
termination_by table => table.length
decreasing_by simp only [List.length_drop, List.length_cons]; omega

/-- The flag of a processor that is enabled. -/
def Enabled (flags : BitVec 32) : Prop := flags.getLsbD 0 = true

instance (flags : BitVec 32) : Decidable (Enabled flags) := inferInstanceAs (Decidable (_ = true))

variable {bytes rest : List Byte} {entry : MadtEntry} {entries : List MadtEntry}

/-- An entry that is as long as it says is read. -/
theorem walk_append (hp : parse bytes = some entry)
    (hlen : (bytes.getD 1 0).toNat = bytes.length) (h2 : 2 ≤ bytes.length) :
    walk (bytes ++ rest) = (walk rest).map (entry :: ·) := by
  obtain ⟨type, length, tail, rfl⟩ : ∃ type length tail, bytes = type :: length :: tail := by
    match bytes, h2 with
    | type :: length :: tail, _ => exact ⟨type, length, tail, rfl⟩
  have hlen : length.toNat = (type :: length :: tail).length := hlen
  have ht : (type :: length :: (tail ++ rest)).take length.toNat = type :: length :: tail := by
    rw [hlen]
    exact (List.take_left : List.take _ ((type :: length :: tail) ++ rest) = _)
  have hd : (type :: length :: (tail ++ rest)).drop length.toNat = rest := by
    rw [hlen]
    exact (List.drop_left : List.drop _ ((type :: length :: tail) ++ rest) = _)
  rw [List.cons_append, List.cons_append, walk, ht, hd, hp, if_pos]
  · cases walk rest <;> rfl
  · rw [hlen]
    simp only [List.length_cons, List.length_append]
    omega

/-- What is read for the processor `cpu`: its number is where the specification has the
top byte of the flags, and the flags of the source are where it has the APIC ID. -/
def readLapic (cpu : Nat) : MadtEntry :=
  .localApic (BitVec.ofNat 8 cpu) 1 (BitVec.ofNat 32 (ofLE [0, 0, 0, BitVec.ofNat 8 cpu]))

theorem field_byte (b : Byte) : BitVec.ofNat (8 * 1) (ofLE [b]) = b := by
  simp [ofLE]

theorem bytes_lapic (cpu : Nat) : AsBytes.bytes (CpuManager.lapic cpu) =
    [0, 8, BitVec.ofNat 8 cpu, 1, 0, 0, 0, BitVec.ofNat 8 cpu] := by
  have hf : AsBytes.bytes (1 : BitVec 32) = [1, 0, 0, 0] := by decide
  exact congrArg (fun flags => [0, 8, BitVec.ofNat 8 cpu] ++ flags ++ [BitVec.ofNat 8 cpu]) hf

theorem parse_lapic (cpu : Nat) :
    parse (AsBytes.bytes (CpuManager.lapic cpu)) = some (readLapic cpu) := by
  have h2 : field [0, 8, BitVec.ofNat 8 cpu, 1, 0, 0, 0, BitVec.ofNat 8 cpu] 2 1 =
      BitVec.ofNat 8 cpu := field_byte _
  rw [bytes_lapic]
  exact congrArg (fun uid => some (MadtEntry.localApic uid 1 _)) h2

theorem walk_lapics (cpus : List Nat) (rest : List Byte) :
    walk (cpus.flatMap (fun cpu => AsBytes.bytes (CpuManager.lapic cpu)) ++ rest) =
      (walk rest).map (cpus.map readLapic ++ ·) := by
  induction cpus with
  | nil => exact (congrFun Option.map_id _).symm
  | cons cpu cpus ih =>
    have hlen : ((AsBytes.bytes (CpuManager.lapic cpu)).getD 1 0).toNat =
        (AsBytes.bytes (CpuManager.lapic cpu)).length := by rw [bytes_lapic]; rfl
    rw [List.flatMap_cons, List.append_assoc, walk_append (parse_lapic cpu) hlen, ih, Option.map_map]
    · rfl
    · rw [bytes_lapic]
      exact (by omega : 2 ≤ 8)

end MadtEntry

open MadtEntry LawfulSdt

variable {Sdt : Type} [SdtOps Sdt] [LawfulSdt Sdt]

theorem length_emptyMadt : (asSlice (CpuManager.emptyMadt : Sdt)).length = 44 := by
  unfold CpuManager.emptyMadt write
  have hnew : (asSlice (new (ascii "APIC") 44 5 (ascii "CLOUDH") (ascii "CHMADT  ") 1 : Sdt)).length =
      44 := length_new _ _ _ _ _ _ (by decide) (by decide) (by decide) (by decide)
  rw [length_writeBytes, length_writeBytes, hnew]
  · decide
  · rw [hnew]
    decide
  · decide
  · rw [length_writeBytes, hnew]
    · decide
    · decide
    · rw [hnew]
      decide

/-- The bytes of the entries. -/
def madtEntries (cpus : Nat) : List Byte :=
  (List.range cpus).flatMap (fun cpu => AsBytes.bytes (CpuManager.lapic cpu)) ++
    AsBytes.bytes CpuManager.ioapic ++ AsBytes.bytes CpuManager.timerOverride

theorem hasBody_createMadt (m : CpuManager) :
    HasBody (m.createMadt : Sdt) 44 (madtEntries m.cpus.toNat) := by
  have h : HasBody (CpuManager.emptyMadt : Sdt) 44 [] := .of_length (by decide) length_emptyMadt
  exact (((h.foldl_append CpuManager.lapic _).append CpuManager.ioapic).append
    CpuManager.timerOverride).updateChecksum

/-- What is read from the table. -/
theorem walk_createMadt (m : CpuManager) :
    walk ((asSlice (m.createMadt : Sdt)).drop 44) = some ((List.range m.cpus.toNat).map readLapic ++
      [.ioApic 0 (IOAPIC_START.setWidth 32) 0, .sourceOverride 0 0 2 0]) := by
  have hio : parse (AsBytes.bytes CpuManager.ioapic) =
    some (.ioApic 0 (IOAPIC_START.setWidth 32) 0) := by decide
  have hover : parse (AsBytes.bytes CpuManager.timerOverride) = some (.sourceOverride 0 0 2 0) := by
    decide
  have hend := @walk_append _ [] _ hover (by decide) (by decide)
  rw [List.append_nil, walk] at hend
  rw [(hasBody_createMadt m).drop, madtEntries, List.append_assoc, walk_lapics,
    walk_append hio (by decide) (by decide), hend]
  rfl

/-- The table has an entry for each processor, with its number as the UID and as the
APIC ID, and enabled; then the I/O APIC and the override of the timer's interrupt. -/
def MadtCorrect (table : List Byte) (cpus : Nat) : Prop :=
  ∃ processors id flags, walk (table.drop 44) = some (processors ++
      [.ioApic id (IOAPIC_START.setWidth 32) 0, .sourceOverride 0 0 2 flags]) ∧
    processors.length = cpus ∧ ∀ i < cpus, ∃ flags, Enabled flags ∧
      processors[i]? = some (.localApic (BitVec.ofNat 8 i) (BitVec.ofNat 8 i) flags)

/-- The table is correct if and only if there is no processor. -/
theorem madt_correct_iff (m : CpuManager) :
    MadtCorrect (asSlice (m.createMadt : Sdt)) m.cpus.toNat ↔ m.cpus = 0 := by
  constructor
  · rintro ⟨processors, id, flags, hw, hlen, hp⟩
    by_contra hne
    have hpos : 0 < m.cpus.toNat := Nat.pos_of_ne_zero fun h0 => hne (BitVec.eq_of_toNat_eq h0)
    rw [walk_createMadt] at hw
    obtain ⟨rfl, -⟩ := List.append_inj' (Option.some.inj hw) rfl
    obtain ⟨flags, -, hfirst⟩ := hp 0 hpos
    rw [List.getElem?_map, List.getElem?_range hpos] at hfirst
    have h := MadtEntry.localApic.inj (Option.some.inj hfirst)
    exact absurd h.2.1 (by decide)
  · intro h0
    refine ⟨[], 0, 0, ?_, by rw [h0]; rfl, ?_⟩
    · rw [walk_createMadt, h0]
      rfl
    · rw [h0]
      exact fun i hi => absurd hi (Nat.not_lt_zero i)

theorem madt_correct_iff_none :
    MadtCorrect (asSlice (CpuManager.createMadt ⟨0⟩ : ByteSdt)) 0 :=
  (madt_correct_iff ⟨0⟩).mpr rfl

/-- With one processor, its entry is read with the APIC ID 1 and not enabled. -/
theorem madt_one : walk ((asSlice (CpuManager.createMadt ⟨1⟩ : ByteSdt)).drop 44) =
      some [.localApic 0 1 0, .ioApic 0 0xfec00000 0, .sourceOverride 0 0 2 0] ∧
    ¬ Enabled 0 ∧ ¬ MadtCorrect (asSlice (CpuManager.createMadt ⟨1⟩ : ByteSdt)) 1 := by
  refine ⟨(walk_createMadt ⟨1⟩).trans (by decide), by decide, fun h => ?_⟩
  obtain ⟨processors, id, flags, hw, hlen, hp⟩ := h
  rw [walk_createMadt] at hw
  obtain ⟨rfl, -⟩ := List.append_inj' (Option.some.inj hw) rfl
  obtain ⟨flags, hen, hfirst⟩ := hp 0 (by decide)
  obtain ⟨-, -, rfl⟩ := MadtEntry.localApic.inj (Option.some.inj hfirst)
  exact absurd hen (by decide)

end Whypa
