import Whypa.Framework.Bits
import Whypa.Framework.Bytes

/-!
# The I/O APIC

The software IOAPIC of `ioapic.rs`: an interrupt request register with a bit
for each pin, a redirection table, and the scan (`IoApic.service`) that injects
what is requested and not masked. A level-triggered pin keeps its request bit
and is not injected again before the guest's end of interrupt.
-/

namespace Whypa

open Framework

abbrev IOAPIC_NUM_PINS : Nat := 24

def IO_REG_SEL : BitVec 64 := 0x00
def IO_WIN : BitVec 64 := 0x10
def IO_EOI : BitVec 64 := 0x40

def IO_APIC_ID : BitVec 8 := 0x00
def IO_APIC_VER : BitVec 8 := 0x01
def IO_APIC_ARB : BitVec 8 := 0x02

def IOAPIC_LVT_DELIV_MODE_SHIFT : Nat := 8
def IOAPIC_LVT_DEST_MODE_SHIFT : Nat := 11
def IOAPIC_LVT_DELIV_STATUS_SHIFT : Nat := 12
def IOAPIC_LVT_REMOTE_IRR_SHIFT : Nat := 14
def IOAPIC_LVT_TRIGGER_MODE_SHIFT : Nat := 15
def IOAPIC_LVT_MASKED_SHIFT : Nat := 16
def IOAPIC_LVT_DEST_IDX_SHIFT : Nat := 56
def IOAPIC_ID_SHIFT : Nat := 24

def IOAPIC_LVT_REMOTE_IRR : BitVec 64 := 1#64 <<< IOAPIC_LVT_REMOTE_IRR_SHIFT
def IOAPIC_LVT_TRIGGER_MODE : BitVec 64 := 1#64 <<< IOAPIC_LVT_TRIGGER_MODE_SHIFT
def IOAPIC_LVT_DELIV_STATUS : BitVec 64 := 1#64 <<< IOAPIC_LVT_DELIV_STATUS_SHIFT
def IOAPIC_RO_BITS : BitVec 64 := IOAPIC_LVT_REMOTE_IRR ||| IOAPIC_LVT_DELIV_STATUS
def IOAPIC_RW_BITS : BitVec 64 := ~~~IOAPIC_RO_BITS

def IOAPIC_DM_MASK : BitVec 64 := 0x7
def IOAPIC_ID_MASK : BitVec 32 := 0xf
def IOAPIC_VECTOR_MASK : BitVec 64 := 0xff
def IOAPIC_REG_REDTBL_BASE : BitVec 64 := 0x10

/-- A redirection table entry, taken apart. -/
structure IoApicEntryInfo where
  masked : Bool
  /-- 0 for edge, 1 for level. -/
  trigMode : BitVec 8
  destIdx : BitVec 8
  destMode : BitVec 8
  deliveryMode : BitVec 8
  vector : BitVec 8
deriving DecidableEq, Repr

/-- What is asked of the hypervisor to inject an interrupt. -/
structure InterruptControl where
  bitfield : BitVec 64
  destination : BitVec 32
  vector : BitVec 32
deriving DecidableEq, Repr

/-- A pin and the interrupt injected for it. -/
structure Injection where
  pin : Fin IOAPIC_NUM_PINS
  control : InterruptControl
deriving DecidableEq, Repr

structure IoApic where
  id : BitVec 8
  ioregsel : BitVec 8
  irr : BitVec 32
  ioredtbl : Vector (BitVec 64) IOAPIC_NUM_PINS
  /-- The interrupts injected so far, oldest first. -/
  injected : List Injection

namespace IoApic

/-- All entries start masked. -/
def new : IoApic :=
  { id := 0, ioregsel := 0, irr := 0,
    ioredtbl := Vector.replicate IOAPIC_NUM_PINS (1#64 <<< IOAPIC_LVT_MASKED_SHIFT), injected := [] }

def parseEntry (entry : BitVec 64) : IoApicEntryInfo :=
  { vector := (entry &&& IOAPIC_VECTOR_MASK).setWidth 8
    deliveryMode := ((entry >>> IOAPIC_LVT_DELIV_MODE_SHIFT) &&& IOAPIC_DM_MASK).setWidth 8
    destMode := ((entry >>> IOAPIC_LVT_DEST_MODE_SHIFT) &&& 1#64).setWidth 8
    trigMode := ((entry >>> IOAPIC_LVT_TRIGGER_MODE_SHIFT) &&& 1#64).setWidth 8
    masked := (entry >>> IOAPIC_LVT_MASKED_SHIFT) &&& 1#64 ≠ 0#64
    destIdx := ((entry >>> IOAPIC_LVT_DEST_IDX_SHIFT) &&& 0xff).setWidth 8 }

/-- The request `inject_interrupt` makes of the hypervisor; interrupt types are
numbered as delivery modes are, and unknown modes and ExtINT become fixed. -/
def injectInterrupt (info : IoApicEntryInfo) : InterruptControl :=
  let interruptType : BitVec 64 :=
    if info.deliveryMode = 1 ∨ info.deliveryMode = 4 ∨ info.deliveryMode = 5 then
      info.deliveryMode.setWidth 64
    else 0
  { bitfield := interruptType ||| info.destMode.setWidth 64 <<< 8 ||| info.trigMode.setWidth 64 <<< 12
    destination := info.destIdx.setWidth 32
    vector := info.vector.setWidth 32 }

/-- The entry of the pin in the redirection table. -/
def entry (s : IoApic) (i : Fin IOAPIC_NUM_PINS) : BitVec 64 := s.ioredtbl[i]

def setEntry (s : IoApic) (i : Fin IOAPIC_NUM_PINS) (e : BitVec 64) : IoApic :=
  { s with ioredtbl := s.ioredtbl.set i e }

/-- If the entry is edge-triggered, clear its Remote IRR bit. -/
def fixEdgeRemoteIrr (s : IoApic) (i : Fin IOAPIC_NUM_PINS) : IoApic :=
  if s.entry i &&& IOAPIC_LVT_TRIGGER_MODE = 0 then
    s.setEntry i (s.entry i &&& ~~~IOAPIC_LVT_REMOTE_IRR)
  else s

/-- The body of the loop of `service`. -/
def servicePin (s : IoApic) (i : Fin IOAPIC_NUM_PINS) : IoApic :=
  let mask := 1#32 <<< i.val
  if s.irr &&& mask ≠ 0#32 then
    let entry := s.entry i
    let info := parseEntry entry
    if info.masked then s
    else if info.trigMode = 0 then
      { s with irr := s.irr &&& ~~~mask, injected := s.injected ++ [⟨i, injectInterrupt info⟩] }
    else
      let s' := s.setEntry i (entry ||| IOAPIC_LVT_REMOTE_IRR)
      -- an interrupt the guest has not ended yet is not delivered again
      if entry &&& IOAPIC_LVT_REMOTE_IRR ≠ 0#64 then s'
      else { s' with injected := s.injected ++ [⟨i, injectInterrupt info⟩] }
  else s

/-- Scan the request register and deliver what is not masked. -/
def service (s : IoApic) : IoApic := (List.finRange IOAPIC_NUM_PINS).foldl servicePin s

def setIrq (s : IoApic) (irqLine : Option (BitVec 32)) : IoApic :=
  match irqLine with
  | none => s
  | some irq =>
    if irq.toNat < IOAPIC_NUM_PINS then { s with irr := s.irr ||| 1#32 <<< irq.toNat }.service else s

def clearIrq (s : IoApic) (irqLine : Option (BitVec 32)) : IoApic :=
  match irqLine with
  | none => s
  | some irq =>
    if irq.toNat < IOAPIC_NUM_PINS then { s with irr := s.irr &&& ~~~(1#32 <<< irq.toNat) } else s

/-- The body of the loop that handles an end of interrupt. -/
def eoiPin (vector : BitVec 8) (s : IoApic) (i : Fin IOAPIC_NUM_PINS) : IoApic :=
  let entry := s.entry i
  if (entry &&& IOAPIC_VECTOR_MASK).setWidth 8 = vector ∧ entry &&& IOAPIC_LVT_REMOTE_IRR ≠ 0#64 then
    let s' := s.setEntry i (entry &&& ~~~IOAPIC_LVT_REMOTE_IRR)
    if s'.irr &&& 1#32 <<< i.val ≠ 0#32 then s'.service else s'
  else s

/-- A write to the end-of-interrupt register. -/
def eoi (s : IoApic) (vector : BitVec 8) : IoApic :=
  (List.finRange IOAPIC_NUM_PINS).foldl (eoiPin vector) s

/-- The entry `old` with the half that `ioregsel` selects replaced by `val`,
and the read-only bits as they were. -/
def writeHalf (old : BitVec 64) (upper : Bool) (val : BitVec 32) : BitVec 64 :=
  let written :=
    if upper then (old &&& 0xffffffff) ||| val.setWidth 64 <<< 32
    else (old &&& ~~~0xffffffff) ||| val.setWidth 64
  (written &&& IOAPIC_RW_BITS) ||| (old &&& IOAPIC_RO_BITS)

/-- A write to the redirection table through the window. -/
def writeRedtbl (s : IoApic) (i : Fin IOAPIC_NUM_PINS) (val : BitVec 32) : IoApic :=
  let upper := decide (0 < s.ioregsel &&& 1)
  ((s.setEntry i (writeHalf (s.entry i) upper val)).fixEdgeRemoteIrr i).service

def write (s : IoApic) (offset : BitVec 64) (data : List Byte) : IoApic :=
  if data.length ≠ 4 then s
  else
    let val := BitVec.ofNat 32 (ofLE data)
    if offset = IO_REG_SEL then { s with ioregsel := val.setWidth 8 }
    else if offset = IO_WIN then
      if s.ioregsel = IO_APIC_ID then
        { s with id := ((val >>> IOAPIC_ID_SHIFT) &&& IOAPIC_ID_MASK).setWidth 8 }
      else if s.ioregsel = IO_APIC_VER ∨ s.ioregsel = IO_APIC_ARB then s
      else if s.ioregsel < IO_WIN.setWidth 8 then s
      else
        let index := (s.ioregsel.setWidth 64 - IOAPIC_REG_REDTBL_BASE) >>> 1
        if h : index.toNat < IOAPIC_NUM_PINS then s.writeRedtbl ⟨index.toNat, h⟩ val else s
    else if offset = IO_EOI then s.eoi (val.setWidth 8)
    else s

/-! ## Pins and entries -/

@[simp] theorem entry_setEntry_self (s : IoApic) (i : Fin IOAPIC_NUM_PINS) (e : BitVec 64) :
    (s.setEntry i e).entry i = e := by
  simp [entry, setEntry]

@[simp] theorem entry_setEntry_ne (s : IoApic) {i j : Fin IOAPIC_NUM_PINS} (h : i ≠ j)
    (e : BitVec 64) : (s.setEntry i e).entry j = s.entry j := by
  have hne : i.val ≠ j.val := fun h' => h (Fin.ext h')
  simp [entry, setEntry, hne]

/-- The pin's request bit. -/
def requested (s : IoApic) (i : Fin IOAPIC_NUM_PINS) : Bool := s.irr.getLsbD i

/-- The entry is level-triggered. -/
def level (entry : BitVec 64) : Bool := entry.getLsbD IOAPIC_LVT_TRIGGER_MODE_SHIFT

def masked (entry : BitVec 64) : Bool := entry.getLsbD IOAPIC_LVT_MASKED_SHIFT

def remoteIrr (entry : BitVec 64) : Bool := entry.getLsbD IOAPIC_LVT_REMOTE_IRR_SHIFT

def vector (entry : BitVec 64) : BitVec 8 := (entry &&& IOAPIC_VECTOR_MASK).setWidth 8

theorem parseEntry_trigMode (entry : BitVec 64) :
    (parseEntry entry).trigMode = 0 ↔ level entry = false := by
  simp only [parseEntry, shift_and_one, level]
  cases entry.getLsbD IOAPIC_LVT_TRIGGER_MODE_SHIFT <;> decide

theorem parseEntry_masked (entry : BitVec 64) : (parseEntry entry).masked = masked entry := by
  simp only [parseEntry, shift_and_one, masked]
  cases entry.getLsbD IOAPIC_LVT_MASKED_SHIFT <;> decide

theorem and_remoteIrr {entry : BitVec 64} :
    entry &&& IOAPIC_LVT_REMOTE_IRR ≠ 0#64 ↔ remoteIrr entry = true :=
  and_bit_ne_zero (by decide)

theorem and_mask {s : IoApic} {i : Fin IOAPIC_NUM_PINS} :
    s.irr &&& 1#32 <<< i.val ≠ 0#32 ↔ s.requested i = true :=
  and_bit_ne_zero (lt_trans i.isLt (by decide))

/-- The two entries differ at most in their Remote IRR bit. -/
def SameRouting (e e' : BitVec 64) : Prop :=
  ∀ j ≠ IOAPIC_LVT_REMOTE_IRR_SHIFT, e'.getLsbD j = e.getLsbD j

namespace SameRouting

theorem refl (e : BitVec 64) : SameRouting e e := fun _ _ => rfl

theorem trans {e e' e'' : BitVec 64} (h : SameRouting e e') (h' : SameRouting e' e'') :
    SameRouting e e'' := fun j hj => (h' j hj).trans (h j hj)

theorem set (e : BitVec 64) : SameRouting e (e ||| IOAPIC_LVT_REMOTE_IRR) := fun j hj => by
  rw [IOAPIC_LVT_REMOTE_IRR, getLsbD_or_bit]
  simp [hj.symm]

theorem clear (e : BitVec 64) : SameRouting e (e &&& ~~~IOAPIC_LVT_REMOTE_IRR) := fun j hj => by
  rw [IOAPIC_LVT_REMOTE_IRR, getLsbD_and_not_bit]
  simp [hj.symm]

theorem level {e e' : BitVec 64} (h : SameRouting e e') : IoApic.level e' = IoApic.level e :=
  h _ (by decide)

theorem masked {e e' : BitVec 64} (h : SameRouting e e') : IoApic.masked e' = IoApic.masked e :=
  h _ (by decide)

theorem vector {e e' : BitVec 64} (h : SameRouting e e') : IoApic.vector e' = IoApic.vector e := by
  have hm : ∀ j, (IOAPIC_VECTOR_MASK.getLsbD j) = decide (j < 8) := fun j => by
    rw [show IOAPIC_VECTOR_MASK = (255#64) from rfl, BitVec.getLsbD_ofNat,
      show 255 = 2 ^ 8 - 1 from rfl, Nat.testBit_two_pow_sub_one]
    by_cases hj : j < 8
    · simp [hj, show j < 64 by omega]
    · simp [hj]
  refine BitVec.eq_of_getLsbD_eq fun j hj => ?_
  simp only [IoApic.vector, BitVec.getLsbD_setWidth, BitVec.getLsbD_and, hm, hj]
  rw [h j (by rw [show IOAPIC_LVT_REMOTE_IRR_SHIFT = 14 from rfl]; omega)]

end SameRouting

end IoApic

end Whypa
