import Whypa.Framework.Arith
import Whypa.Irq.Registers

/-!
# Faults of the IOAPIC

The operations of the IOAPIC once more, with every subtraction, shift and table
index that can panic (`Checked`): `none` is a panic. A build with overflow
checks (`ck`) panics only when the guest reads the window while a register
below the redirection table is selected (`apply_eq`); all else is as in
`IoApic`.
-/

namespace Whypa

open Framework

namespace IoApic

/-- An operation of a device or of the guest. -/
inductive Access
  | op (o : Op)
  | read (offset : BitVec 64) (data : List Byte)

/-- The IOAPIC after the operation, if it does not panic. -/
def after (s : IoApic) : Access → IoApic
  | .op o => s.apply o
  | .read _ _ => s

namespace Checked

/-- An index into a table with an entry for each pin. -/
def index (i : Nat) : Option (Fin IOAPIC_NUM_PINS) :=
  if h : i < IOAPIC_NUM_PINS then some ⟨i, h⟩ else none

variable (ck : Bool)

def parseEntry (entry : BitVec 64) : Option IoApicEntryInfo := do
  let deliveryMode ← plainShr ck entry IOAPIC_LVT_DELIV_MODE_SHIFT
  let destMode ← plainShr ck entry IOAPIC_LVT_DEST_MODE_SHIFT
  let trigMode ← plainShr ck entry IOAPIC_LVT_TRIGGER_MODE_SHIFT
  let masked ← plainShr ck entry IOAPIC_LVT_MASKED_SHIFT
  let destIdx ← plainShr ck entry IOAPIC_LVT_DEST_IDX_SHIFT
  some { vector := (entry &&& IOAPIC_VECTOR_MASK).setWidth 8
         deliveryMode := (deliveryMode &&& IOAPIC_DM_MASK).setWidth 8
         destMode := (destMode &&& 1#64).setWidth 8
         trigMode := (trigMode &&& 1#64).setWidth 8
         masked := masked &&& 1#64 ≠ 0#64
         destIdx := (destIdx &&& 0xff).setWidth 8 }

def injectInterrupt (info : IoApicEntryInfo) : Option InterruptControl := do
  let interruptType : BitVec 64 :=
    if info.deliveryMode = 1 ∨ info.deliveryMode = 4 ∨ info.deliveryMode = 5 then
      info.deliveryMode.setWidth 64
    else 0
  let type ← plainShl ck interruptType 0
  let destMode ← plainShl ck (info.destMode.setWidth 64) 8
  let trigMode ← plainShl ck (info.trigMode.setWidth 64) 12
  some { bitfield := type ||| destMode ||| trigMode
         destination := info.destIdx.setWidth 32
         vector := info.vector.setWidth 32 }

def servicePin (s : IoApic) (i : Nat) : Option IoApic := do
  let mask ← plainShl ck 1#32 i
  if s.irr &&& mask ≠ 0#32 then do
    let pin ← index i
    let entry := s.entry pin
    let info ← parseEntry ck entry
    if info.masked then some s
    else if info.trigMode = 0 then do
      let control ← injectInterrupt ck info
      some { s with irr := s.irr &&& ~~~mask, injected := s.injected ++ [⟨pin, control⟩] }
    else
      let s' := s.setEntry pin (entry ||| IOAPIC_LVT_REMOTE_IRR)
      if entry &&& IOAPIC_LVT_REMOTE_IRR ≠ 0#64 then some s'
      else do
        let control ← injectInterrupt ck info
        some { s' with injected := s.injected ++ [⟨pin, control⟩] }
  else some s

def service (s : IoApic) : Option IoApic := (List.range IOAPIC_NUM_PINS).foldlM (servicePin ck) s

def setIrq (s : IoApic) (irqLine : Option (BitVec 32)) : Option IoApic :=
  match irqLine with
  | none => some s
  | some irq =>
    if irq.toNat < IOAPIC_NUM_PINS then do
      let mask ← plainShl ck 1#32 irq.toNat
      service ck { s with irr := s.irr ||| mask }
    else some s

def clearIrq (s : IoApic) (irqLine : Option (BitVec 32)) : Option IoApic :=
  match irqLine with
  | none => some s
  | some irq =>
    if irq.toNat < IOAPIC_NUM_PINS then do
      let mask ← plainShl ck 1#32 irq.toNat
      some { s with irr := s.irr &&& ~~~mask }
    else some s

def eoiPin (vector : BitVec 8) (s : IoApic) (i : Nat) : Option IoApic := do
  let pin ← index i
  let entry := s.entry pin
  if (entry &&& IOAPIC_VECTOR_MASK).setWidth 8 = vector ∧ entry &&& IOAPIC_LVT_REMOTE_IRR ≠ 0#64 then do
    let s' := s.setEntry pin (entry &&& ~~~IOAPIC_LVT_REMOTE_IRR)
    let mask ← plainShl ck 1#32 i
    if s'.irr &&& mask ≠ 0#32 then service ck s' else some s'
  else some s

def eoi (s : IoApic) (vector : BitVec 8) : Option IoApic :=
  (List.range IOAPIC_NUM_PINS).foldlM (eoiPin ck vector) s

/-- The register of the redirection table that is selected. -/
def redtblIndex (s : IoApic) : Option (BitVec 64) := do
  let off ← plainSub ck (s.ioregsel.setWidth 64) IOAPIC_REG_REDTBL_BASE
  plainShr ck off 1

def writeHalf (old : BitVec 64) (upper : Bool) (val : BitVec 32) : Option (BitVec 64) := do
  let written ←
    if upper then (plainShl ck (val.setWidth 64) 32).map ((old &&& 0xffffffff#64) ||| ·)
    else some ((old &&& ~~~0xffffffff#64) ||| val.setWidth 64)
  some ((written &&& IOAPIC_RW_BITS) ||| (old &&& IOAPIC_RO_BITS))

def writeRedtbl (s : IoApic) (val : BitVec 32) : Option IoApic := do
  let i ← redtblIndex ck s
  if IOAPIC_NUM_PINS ≤ i.toNat then some s
  else do
    let pin ← index i.toNat
    let e ← writeHalf ck (s.entry pin) (decide (0 < s.ioregsel &&& 1)) val
    service ck ((s.setEntry pin e).fixEdgeRemoteIrr pin)

def write (s : IoApic) (offset : BitVec 64) (data : List Byte) : Option IoApic :=
  if data.length ≠ 4 then some s
  else do
    let arr := [← data[0]?, ← data[1]?, ← data[2]?, ← data[3]?]
    let val := BitVec.ofNat 32 (ofLE arr)
    if offset = IO_REG_SEL then some { s with ioregsel := val.setWidth 8 }
    else if offset = IO_WIN then
      if s.ioregsel = IO_APIC_ID then do
        let id ← plainShr ck val IOAPIC_ID_SHIFT
        some { s with id := (id &&& IOAPIC_ID_MASK).setWidth 8 }
      else if s.ioregsel = IO_APIC_VER ∨ s.ioregsel = IO_APIC_ARB then some s
      else if s.ioregsel < IO_WIN.setWidth 8 then some s
      else writeRedtbl ck s val
    else if offset = IO_EOI then eoi ck s (val.setWidth 8)
    else some s

def half (entry : BitVec 64) (upper : Bool) : Option (BitVec 32) :=
  if upper then (plainShr ck entry 32).map (·.setWidth 32)
  else some ((entry &&& 0xffffffff#64).setWidth 32)

def readWindow (s : IoApic) : Option (BitVec 32) :=
  if s.ioregsel = IO_APIC_ID ∨ s.ioregsel = IO_APIC_ARB then
    (plainShl ck (s.id.setWidth 64) IOAPIC_ID_SHIFT).map (·.setWidth 32)
  else if s.ioregsel = IO_APIC_VER then do
    let last ← plainSub ck (BitVec.ofNat 32 IOAPIC_NUM_PINS) 1
    let entries ← plainShl ck last IOAPIC_VER_ENTRIES_SHIFT
    some (VERSION.setWidth 32 ||| entries)
  else do
    let i ← redtblIndex ck s
    if i.toNat < IOAPIC_NUM_PINS then do
      let pin ← index i.toNat
      half ck (s.entry pin) (decide (0 < s.ioregsel &&& 1))
    else some 0

/-- The loop over the buffer. -/
def store (val : BitVec 32) (data : List Byte) : Option (List Byte) :=
  (List.range (min data.length 4)).foldlM
    (fun d i => do
      let b ← (leBytes 4 val.toNat)[i]?
      if i < d.length then some (d.set i b) else none) data

def read (s : IoApic) (offset : BitVec 64) (data : List Byte) : Option (List Byte) :=
  if offset = IO_REG_SEL then store (s.ioregsel.setWidth 32) data
  else if offset = IO_WIN then
    if data.length ≠ 4 then some data
    else do
      let val ← readWindow ck s
      store val data
  else store 0 data

/-- The state after the operation. -/
def apply (s : IoApic) : Access → Option IoApic
  | .op (.setIrq irqLine) => setIrq ck s irqLine
  | .op (.clearIrq irqLine) => clearIrq ck s irqLine
  | .op (.write offset data) => write ck s offset data
  | .read offset data => (read ck s offset data).map fun _ => s

/-! ## What does not panic -/

section
variable (ck : Bool)

theorem index_val (i : Fin IOAPIC_NUM_PINS) : index i.val = some i := dif_pos i.isLt

theorem parseEntry_eq (entry : BitVec 64) :
    parseEntry ck entry = some (IoApic.parseEntry entry) := by
  simp only [parseEntry, plainShr_of_lt ck entry (by decide : IOAPIC_LVT_DELIV_MODE_SHIFT < 64),
    plainShr_of_lt ck entry (by decide : IOAPIC_LVT_DEST_MODE_SHIFT < 64),
    plainShr_of_lt ck entry (by decide : IOAPIC_LVT_TRIGGER_MODE_SHIFT < 64),
    plainShr_of_lt ck entry (by decide : IOAPIC_LVT_MASKED_SHIFT < 64),
    plainShr_of_lt ck entry (by decide : IOAPIC_LVT_DEST_IDX_SHIFT < 64)]
  rfl

theorem injectInterrupt_eq (info : IoApicEntryInfo) :
    injectInterrupt ck info = some (IoApic.injectInterrupt info) := by
  simp only [injectInterrupt, plainShl_of_lt ck _ (by decide : 0 < 64),
    plainShl_of_lt ck _ (by decide : 8 < 64), plainShl_of_lt ck _ (by decide : 12 < 64),
    BitVec.shiftLeft_zero]
  rfl

theorem mask_eq (i : Fin IOAPIC_NUM_PINS) : plainShl ck 1#32 i.val = some (1#32 <<< i.val) :=
  plainShl_of_lt ck _ (lt_trans i.isLt (by decide))

theorem servicePin_eq (s : IoApic) (i : Fin IOAPIC_NUM_PINS) :
    servicePin ck s i.val = some (s.servicePin i) := by
  unfold servicePin IoApic.servicePin
  simp only [mask_eq, index_val, parseEntry_eq, injectInterrupt_eq, Option.bind_eq_bind,
    Option.bind_some]
  repeat' split
  all_goals rfl

/-- A loop over the pins. -/
theorem foldlM_pins {f : IoApic → Nat → Option IoApic} {g : IoApic → Fin IOAPIC_NUM_PINS → IoApic}
    (h : ∀ s i, f s i.val = some (g s i)) (s : IoApic) :
    (List.range IOAPIC_NUM_PINS).foldlM f s =
      some ((List.finRange IOAPIC_NUM_PINS).foldl g s) := by
  rw [← List.map_coe_finRange_eq_range, List.foldlM_map]
  exact foldlM_eq_some (fun s i _ => h s i) s

theorem service_eq (s : IoApic) : service ck s = some s.service :=
  foldlM_pins (servicePin_eq ck) s

theorem setIrq_eq (s : IoApic) (irqLine : Option (BitVec 32)) :
    setIrq ck s irqLine = some (s.setIrq irqLine) := by
  cases irqLine with
  | none => rfl
  | some irq =>
    by_cases h : irq.toNat < IOAPIC_NUM_PINS
    · have hm : plainShl ck 1#32 irq.toNat = some (1#32 <<< irq.toNat) := mask_eq ck ⟨irq.toNat, h⟩
      simp only [setIrq, IoApic.setIrq, if_pos h, hm, service_eq, Option.bind_eq_bind,
        Option.bind_some]
    · simp only [setIrq, IoApic.setIrq, if_neg h]

theorem clearIrq_eq (s : IoApic) (irqLine : Option (BitVec 32)) :
    clearIrq ck s irqLine = some (s.clearIrq irqLine) := by
  cases irqLine with
  | none => rfl
  | some irq =>
    by_cases h : irq.toNat < IOAPIC_NUM_PINS
    · have hm : plainShl ck 1#32 irq.toNat = some (1#32 <<< irq.toNat) := mask_eq ck ⟨irq.toNat, h⟩
      simp only [clearIrq, IoApic.clearIrq, if_pos h, hm, Option.bind_eq_bind, Option.bind_some]
    · simp only [clearIrq, IoApic.clearIrq, if_neg h]

theorem eoi_eq (s : IoApic) (vector : BitVec 8) : eoi ck s vector = some (s.eoi vector) := by
  refine foldlM_pins (fun s i => ?_) s
  unfold eoiPin IoApic.eoiPin
  simp only [mask_eq, index_val, service_eq, Option.bind_eq_bind, Option.bind_some]
  repeat' split
  all_goals rfl

/-- Above the registers of the chip the table's index does not underflow. -/
theorem redtblIndex_eq {s : IoApic} (h : ¬s.ioregsel < IO_WIN.setWidth 8) :
    redtblIndex ck s = some ((s.ioregsel.setWidth 64 - IOAPIC_REG_REDTBL_BASE) >>> 1) := by
  have hle : IOAPIC_REG_REDTBL_BASE.toNat ≤ (s.ioregsel.setWidth 64).toNat := by
    rw [BitVec.toNat_setWidth_of_le (by decide)]
    exact Nat.not_lt.mp h
  rw [redtblIndex, plainSub_of_le ck hle]
  exact plainShr_of_lt ck _ (by decide : 1 < 64)

theorem writeHalf_eq (old : BitVec 64) (upper : Bool) (val : BitVec 32) :
    writeHalf ck old upper val = some (IoApic.writeHalf old upper val) := by
  cases upper with
  | true =>
    have hs : plainShl ck (val.setWidth 64) 32 = some (val.setWidth 64 <<< 32) :=
      plainShl_of_lt ck _ (by decide)
    rw [writeHalf, if_pos rfl, hs]
    rfl
  | false => rfl

theorem writeRedtbl_eq {s : IoApic} (h : ¬s.ioregsel < IO_WIN.setWidth 8) (val : BitVec 32) :
    writeRedtbl ck s val = some (
      if h : ((s.ioregsel.setWidth 64 - IOAPIC_REG_REDTBL_BASE) >>> 1).toNat < IOAPIC_NUM_PINS then
        s.writeRedtbl ⟨_, h⟩ val
      else s) := by
  unfold writeRedtbl
  simp only [redtblIndex_eq ck h, Option.bind_eq_bind, Option.bind_some]
  split
  · rename_i hge
    rw [dif_neg (Nat.not_lt.mpr hge)]
  · rename_i hlt
    rw [dif_pos (Nat.not_le.mp hlt), index_val ⟨_, Nat.not_le.mp hlt⟩]
    simp only [Option.bind_some, writeHalf_eq, service_eq]
    rfl

theorem write_eq (s : IoApic) (offset : BitVec 64) (data : List Byte) :
    write ck s offset data = some (s.write offset data) := by
  unfold write IoApic.write
  by_cases hlen : data.length ≠ 4
  · rw [if_pos hlen, if_pos hlen]
  rw [if_neg hlen, if_neg hlen]
  match data, not_not.mp hlen with
  | [b0, b1, b2, b3], _ =>
    simp only [List.getElem?_cons_zero, List.getElem?_cons_succ, Option.bind_eq_bind,
      Option.bind_some, eoi_eq, plainShr_of_lt ck _ (by decide : IOAPIC_ID_SHIFT < 32)]
    split
    · rfl
    split
    · split
      · rfl
      split
      · rfl
      split
      · rfl
      · rename_i hsel
        exact writeRedtbl_eq ck hsel _
    split <;> rfl

/-! ## What panics -/

/-- The guest reads, through the window, a register below the redirection table
that is none of the chip's. -/
def Underflows (s : IoApic) : Access → Prop
  | .read offset data =>
    offset = IO_WIN ∧ data.length = 4 ∧ IO_APIC_ARB < s.ioregsel ∧ s.ioregsel < IO_WIN.setWidth 8
  | .op _ => False

instance (s : IoApic) (a : Access) : Decidable (Underflows s a) :=
  match a with
  | .read offset data => inferInstanceAs (Decidable
    (offset = IO_WIN ∧ data.length = 4 ∧ IO_APIC_ARB < s.ioregsel ∧ s.ioregsel < IO_WIN.setWidth 8))
  | .op _ => inferInstanceAs (Decidable False)

theorem store_loop {out data : List Byte} {n : Nat} (ho : n ≤ out.length) (hd : n ≤ data.length) :
    (List.range n).foldlM
        (fun d i => do
          let b ← out[i]?
          if i < d.length then some (d.set i b) else none) data =
      some (out.take n ++ data.drop n) := by
  induction n with
  | zero => rfl
  | succ n ih =>
    have hlen : (out.take n ++ data.drop n).length = data.length := by
      rw [List.length_append, List.length_take, List.length_drop]
      omega
    have hset : (out.take n ++ data.drop n).set n out[n] =
        out.take (n + 1) ++ data.drop (n + 1) := by
      have htake : (out.take n).length = n := List.length_take_of_le (by omega)
      rw [List.set_append_right _ _ (by omega), htake, Nat.sub_self,
        List.drop_eq_getElem_cons (by omega : n < data.length), List.set_cons_zero,
        List.take_succ_eq_append_getElem ho, List.append_assoc]
      rfl
    rw [List.range_succ, List.foldlM_append, ih (by omega) (by omega)]
    simp only [List.foldlM_cons, List.foldlM_nil, Option.bind_eq_bind, Option.bind_some,
      List.getElem?_eq_getElem ho, hlen, if_pos (show n < data.length by omega), hset,
      Option.pure_def]

theorem store_eq (val : BitVec 32) (data : List Byte) :
    store val data = some (IoApic.store val data) := by
  have hlen : (leBytes 4 val.toNat).length = 4 := length_leBytes 4 _
  rw [store, store_loop (by omega) (by omega), IoApic.store]
  rcases Nat.le_total data.length 4 with h | h
  · rw [Nat.min_eq_left h, List.drop_length, List.drop_of_length_le h]
  · rw [Nat.min_eq_right h, List.take_of_length_le (hlen.trans_le h),
      List.take_of_length_le hlen.le]

theorem half_eq (e : BitVec 64) (upper : Bool) : half ck e upper = some (IoApic.half e upper) := by
  cases upper with
  | true =>
    have hs : plainShr ck e 32 = some (e >>> 32) := plainShr_of_lt ck _ (by decide)
    rw [half, if_pos rfl, hs]
    rfl
  | false => rfl

/-- A register that is none of the chip's own. -/
theorem arb_lt {r : BitVec 8} (h : ¬(r = IO_APIC_ID ∨ r = IO_APIC_ARB)) (hv : r ≠ IO_APIC_VER) :
    IO_APIC_ARB < r := by
  have h0 : r.toNat ≠ 0 := fun e => h (.inl (BitVec.eq_of_toNat_eq e))
  have h2 : r.toNat ≠ 2 := fun e => h (.inr (BitVec.eq_of_toNat_eq e))
  have h1 : r.toNat ≠ 1 := fun e => hv (BitVec.eq_of_toNat_eq e)
  show (2 : Nat) < r.toNat
  omega

theorem readWindow_eq {s : IoApic}
    (h : ¬(IO_APIC_ARB < s.ioregsel ∧ s.ioregsel < IO_WIN.setWidth 8)) :
    readWindow ck s = some s.readWindow := by
  unfold readWindow IoApic.readWindow
  split
  · have hs : plainShl ck (s.id.setWidth 64) IOAPIC_ID_SHIFT =
      some (s.id.setWidth 64 <<< IOAPIC_ID_SHIFT) := plainShl_of_lt ck _ (by decide)
    rw [hs]
    rfl
  split
  · have hsub : plainSub ck (BitVec.ofNat 32 IOAPIC_NUM_PINS) 1 =
      some (BitVec.ofNat 32 IOAPIC_NUM_PINS - 1) := plainSub_of_le ck (by decide)
    rw [hsub]
    simp only [Option.bind_eq_bind, Option.bind_some,
      plainShl_of_lt ck _ (by decide : IOAPIC_VER_ENTRIES_SHIFT < 32)]
  · rename_i hid hver
    have hsel : ¬s.ioregsel < IO_WIN.setWidth 8 := fun hlt => h ⟨arb_lt hid hver, hlt⟩
    simp only [redtblIndex_eq ck hsel, Option.bind_eq_bind, Option.bind_some]
    split
    · rename_i hlt
      rw [index_val ⟨_, hlt⟩]
      exact half_eq ck _ _
    · rfl

theorem ne_of_arb_lt {r : BitVec 8} (h : IO_APIC_ARB < r) :
    ¬(r = IO_APIC_ID ∨ r = IO_APIC_ARB) ∧ r ≠ IO_APIC_VER := by
  have hlt : 2 < r.toNat := h
  refine ⟨?_, ?_⟩
  · rintro (rfl | rfl) <;> exact absurd hlt (by decide)
  · rintro rfl
    exact absurd hlt (by decide)

/-- A register outside the table; below it the index wraps. -/
theorem not_redtbl {r : BitVec 8} (h : r < IO_WIN.setWidth 8 ∨ 0x40 ≤ r) :
    ¬((r.setWidth 64 - IOAPIC_REG_REDTBL_BASE) >>> 1).toNat < IOAPIC_NUM_PINS := by
  have hr : r.toNat < 16 ∨ 64 ≤ r.toNat := h
  have hlt : r.toNat < 256 := r.isLt
  have hw : (r.setWidth 64).toNat = r.toNat := BitVec.toNat_setWidth_of_le (by decide)
  have hb : IOAPIC_REG_REDTBL_BASE.toNat = 16 := rfl
  have hp : IOAPIC_NUM_PINS = 24 := rfl
  rw [hp, BitVec.toNat_ushiftRight, BitVec.toNat_sub, hw, hb, Nat.shiftRight_eq_div_pow]
  omega

/-- The window of a register that the IOAPIC does not have. -/
theorem readWindow_none {s : IoApic} (harb : IO_APIC_ARB < s.ioregsel)
    (hout : s.ioregsel < IO_WIN.setWidth 8 ∨ 0x40 ≤ s.ioregsel) : s.readWindow = 0 := by
  obtain ⟨hid, hver⟩ := ne_of_arb_lt harb
  rw [IoApic.readWindow, if_neg hid, if_neg hver]
  simp only [dif_neg (not_redtbl hout)]

theorem readWindow_underflow {s : IoApic}
    (h : IO_APIC_ARB < s.ioregsel ∧ s.ioregsel < IO_WIN.setWidth 8) :
    readWindow ck s = if ck then none else some 0 := by
  obtain ⟨hid, hver⟩ := ne_of_arb_lt h.1
  have hw : (s.ioregsel.setWidth 64).toNat = s.ioregsel.toNat :=
    BitVec.toNat_setWidth_of_le (by decide)
  have hsub := plainSub_of_gt ck (a := s.ioregsel.setWidth 64) (b := IOAPIC_REG_REDTBL_BASE)
    (by rw [hw]; exact h.2)
  rw [readWindow, if_neg hid, if_neg hver, redtblIndex, hsub]
  cases ck with
  | true => rfl
  | false =>
    simp only [Bool.false_eq_true, if_false, Option.bind_eq_bind, Option.bind_some,
      plainShr_of_lt false _ (by decide : 1 < 64), if_neg (not_redtbl (.inl h.2))]

theorem read_eq (s : IoApic) (offset : BitVec 64) (data : List Byte) :
    read ck s offset data =
      if ck = true ∧ Underflows s (.read offset data) then none else some (s.read offset data) := by
  by_cases hu : Underflows s (.read offset data)
  · have hw : offset = IO_WIN := hu.1
    have hlen : data.length = 4 := hu.2.1
    have hc := readWindow_underflow ck hu.2.2
    have hs := readWindow_none hu.2.2.1 (.inl hu.2.2.2)
    have hoff : ¬offset = IO_REG_SEL := by rw [hw]; decide
    have hread : read ck s offset data = (readWindow ck s).bind fun val => store val data := by
      rw [read, if_neg hoff, if_pos hw, if_neg fun h => h hlen]
      rfl
    cases ck with
    | true =>
      rw [hread, show readWindow true s = none from hc, if_pos ⟨rfl, hu⟩]
      rfl
    | false =>
      rw [hread, show readWindow false s = some 0 from hc,
        if_neg fun h : false = true ∧ _ => Bool.noConfusion h.1, IoApic.read, if_neg hoff, if_pos hw,
        if_neg fun h => h hlen, hs]
      exact store_eq 0 data
  · rw [if_neg fun h => hu h.2]
    unfold read IoApic.read
    split
    · exact store_eq _ data
    split
    · split
      · rfl
      · rename_i hw hlen
        have hsel : ¬(IO_APIC_ARB < s.ioregsel ∧ s.ioregsel < IO_WIN.setWidth 8) :=
          fun h => hu ⟨hw, not_not.mp hlen, h⟩
        rw [readWindow_eq ck hsel]
        exact store_eq _ data
    · exact store_eq 0 data

/-- An operation panics when it underflows in a build that checks; it does what
`IoApic` does otherwise. -/
theorem apply_op (s : IoApic) (o : Op) : apply ck s (.op o) = some (s.apply o) := by
  cases o with
  | setIrq irqLine => exact setIrq_eq ck s irqLine
  | clearIrq irqLine => exact clearIrq_eq ck s irqLine
  | write offset data => exact write_eq ck s offset data

theorem apply_eq (s : IoApic) (a : Access) :
    apply ck s a = if ck = true ∧ Underflows s a then none else some (after s a) := by
  cases a with
  | op o =>
    rw [apply_op, if_neg fun h => h.2]
    rfl
  | read offset data =>
    rw [apply, read_eq]
    split <;> rfl

end

/-! ## Runs -/

/-- All operations on a new IOAPIC, in a build that checks; `none` once one has panicked. -/
def run (as : List Access) : Option IoApic := as.foldlM (apply true) .new

theorem foldlM_isSome_iff (s : IoApic) (as : List Access) :
    (∃ s', as.foldlM (apply true) s = some s') ↔
      ∀ pre a, pre ++ [a] <+: as → ¬Underflows (pre.foldl after s) a := by
  induction as generalizing s with
  | nil =>
    refine ⟨fun _ pre a h => ?_, fun _ => ⟨s, rfl⟩⟩
    exact absurd (List.prefix_nil.mp h) (by simp)
  | cons b as ih =>
    rw [List.foldlM_cons, apply_eq]
    by_cases hb : Underflows s b
    · rw [if_pos ⟨rfl, hb⟩]
      refine ⟨fun h => ?_, fun h => absurd hb (h [] b ⟨as, rfl⟩)⟩
      obtain ⟨s', h⟩ := h
      cases h
    · rw [if_neg fun h => hb h.2]
      refine (ih (after s b)).trans ⟨fun h pre a hp => ?_, fun h pre a hp => ?_⟩
      · cases pre with
        | nil =>
          obtain rfl := (List.cons_prefix_cons.mp hp).1
          exact hb
        | cons c pre =>
          obtain ⟨rfl, hp'⟩ := List.cons_prefix_cons.mp hp
          exact h pre a hp'
      · exact h (b :: pre) a (List.cons_prefix_cons.mpr ⟨rfl, hp⟩)

end Checked

/-- The access is to no register: the window shows none, or the offset has none. -/
def Unimplemented (s : IoApic) (offset : BitVec 64) : Prop :=
  offset = IO_WIN ∧ IO_APIC_ARB < s.ioregsel ∧ (s.ioregsel < 0x10 ∨ 0x40 ≤ s.ioregsel) ∨
    offset ≠ IO_REG_SEL ∧ offset ≠ IO_WIN ∧ offset ≠ IO_EOI

/-- Nothing can be read there: there is no register, or it can only be written. -/
def Unreadable (s : IoApic) (offset : BitVec 64) : Prop := Unimplemented s offset ∨ offset = IO_EOI

instance (s : IoApic) (offset : BitVec 64) : Decidable (Unreadable s offset) :=
  inferInstanceAs (Decidable ((offset = IO_WIN ∧ _ ∧ _ ∨ _) ∨ _))

/-- An access to no register reads zeros, however large the buffer is and whatever it held, and
changes nothing. -/
def Inert (s : IoApic) : Access → Prop
  | .op (.write offset data) => Unimplemented s offset → s.write offset data = s
  | .op _ => True
  | .read offset data => Unreadable s offset →
    Checked.read true s offset data = some (List.replicate data.length 0)

/-- What a read leaves of the guest's buffer: what lies beyond a word, and all of a buffer of another
size than a word if the window is read. -/
def untouched (offset : BitVec 64) (data : List Byte) : List Byte :=
  if offset = IO_WIN ∧ data.length ≠ 4 then data else data.drop 4

/-- A read of no register leaves something in the buffer that is not zero. -/
def Leaves (s : IoApic) : Access → Prop
  | .read offset data => Unreadable s offset ∧ ∃ b ∈ untouched offset data, b ≠ 0
  | .op _ => False

instance (s : IoApic) (a : Access) : Decidable (Leaves s a) :=
  match a with
  | .read offset data =>
    inferInstanceAs (Decidable (Unreadable s offset ∧ ∃ b ∈ untouched offset data, b ≠ 0))
  | .op _ => inferInstanceAs (Decidable False)

theorem write_unimplemented {s : IoApic} {offset : BitVec 64} (h : Unimplemented s offset)
    (data : List Byte) : s.write offset data = s := by
  unfold write
  split
  · rfl
  rcases h with ⟨rfl, harb, hout⟩ | ⟨hsel, hwin, heoi⟩
  · obtain ⟨hid, hver⟩ := Checked.ne_of_arb_lt harb
    rw [if_neg (by decide), if_pos rfl, if_neg fun h => hid (.inl h),
      if_neg fun h : _ ∨ _ => h.elim hver fun h => hid (.inr h)]
    split
    · rfl
    · simp only [dif_neg (Checked.not_redtbl hout)]
  · rw [if_neg hsel, if_neg hwin, if_neg heoi]

/-- A read of no register writes zeros over the part of the buffer that it touches. -/
theorem read_unreadable {s : IoApic} {offset : BitVec 64} (h : Unreadable s offset) (data : List Byte) :
    s.read offset data =
      List.replicate (data.length - (untouched offset data).length) 0 ++ untouched offset data := by
  have hzero : store 0 data = List.replicate (data.length - (data.drop 4).length) 0 ++ data.drop 4 := by
    have hlen : data.length - (data.drop 4).length = min data.length 4 := by
      rw [List.length_drop]
      omega
    rw [hlen]
    exact congrArg (· ++ data.drop 4) (List.take_replicate (i := data.length) (n := 4))
  unfold read untouched
  rcases h with (⟨rfl, harb, hout⟩ | ⟨hsel, hwin, -⟩) | rfl
  · rw [if_neg (by decide), if_pos rfl]
    by_cases hd : data.length = 4
    · rw [if_neg (not_not.mpr hd), if_neg fun h => h.2 hd, Checked.readWindow_none harb hout, hzero]
    · rw [if_pos hd, if_pos ⟨rfl, hd⟩, Nat.sub_self]
      rfl
  · rw [if_neg hsel, if_neg hwin, if_neg fun h => hwin h.1, hzero]
  · rw [if_neg (by decide), if_neg (by decide), if_neg fun h => absurd h.1 (by decide), hzero]

/-- It reads zeros exactly if it leaves nothing else. -/
theorem read_zero_iff {s : IoApic} {offset : BitVec 64} (h : Unreadable s offset) {data : List Byte} :
    s.read offset data = List.replicate data.length 0 ↔ ∀ b ∈ untouched offset data, b = 0 := by
  have hle : (untouched offset data).length ≤ data.length := by
    unfold untouched
    split
    · exact le_rfl
    · rw [List.length_drop]
      omega
  rw [read_unreadable h, List.eq_replicate_iff, List.length_append, List.length_replicate,
    Nat.sub_add_cancel hle]
  refine ⟨fun hall b hb => hall.2 b (List.mem_append_right _ hb), fun hall => ⟨rfl, fun b hb => ?_⟩⟩
  rcases List.mem_append.mp hb with hb | hb
  · exact List.eq_of_mem_replicate hb
  · exact hall b hb

/-- Whatever is done to a new IOAPIC, nothing underflows or overflows, is shifted
too far or looked up outside a table, and accesses to no register are inert, if
and only if the guest never reads through the window a register between those of
the chip and those of the redirection table, and no read of no register finds
something other than zeros in the part of its buffer that it does not touch. -/
theorem faultless_iff (as : List Access) :
    ((∃ s, Checked.run as = some s) ∧
        ∀ pre a, pre ++ [a] <+: as → Inert (pre.foldl after .new) a) ↔
      ∀ pre a, pre ++ [a] <+: as →
        ¬Checked.Underflows (pre.foldl after .new) a ∧ ¬Leaves (pre.foldl after .new) a := by
  have hread : ∀ s offset data, ¬Checked.Underflows s (.read offset data) →
      (Inert s (.read offset data) ↔ ¬Leaves s (.read offset data)) := by
    intro s offset data hn
    have hr : Checked.read true s offset data = some (s.read offset data) := by
      rw [Checked.read_eq, if_neg fun hc => hn hc.2]
    refine ⟨fun hi ⟨hu, b, hb, hne⟩ => hne ?_, fun hl hu => ?_⟩
    · exact (read_zero_iff hu).mp (Option.some.inj (hr.symm.trans (hi hu))) b hb
    · rw [hr, (read_zero_iff hu).mpr fun b hb => by_contra fun hne => hl ⟨hu, b, hb, hne⟩]
  refine ⟨fun h pre a hp => ?_, fun h => ⟨(Checked.foldlM_isSome_iff .new as).mpr fun pre a hp =>
    (h pre a hp).1, fun pre a hp => ?_⟩⟩
  · have hn := (Checked.foldlM_isSome_iff .new as).mp h.1 pre a hp
    refine ⟨hn, ?_⟩
    cases a with
    | op o => exact not_false
    | read offset data => exact (hread _ offset data hn).mp (h.2 pre _ hp)
  · match a, h pre a hp with
    | .op (.write offset data), _ => exact fun hu => write_unimplemented hu data
    | .op (.setIrq _), _ => trivial
    | .op (.clearIrq _), _ => trivial
    | .read offset data, hn => exact (hread _ offset data hn.1).mpr hn.2

/-- The second word of the buffer is not touched. -/
example : Leaves .new (.read 0x20 (List.replicate 8 1)) ∧
    Checked.read true .new 0x20 (List.replicate 8 1) = some [0, 0, 0, 0, 1, 1, 1, 1] := by decide

/-- The guest selects register 3 and reads the window. -/
theorem read_underflow :
    Checked.run [.op (.write IO_REG_SEL [3, 0, 0, 0]), .read IO_WIN [0, 0, 0, 0]] = none := by
  decide

end IoApic

end Whypa
