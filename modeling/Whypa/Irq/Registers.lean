import Whypa.Irq.Delivery

/-!
# The redirection registers

What the guest reads from the IOAPIC (`IoApic.read`), and what it reads after a
write: the window onto an entry's half gives back the word that was written, but
for the read-only bits (`redirection_registers`).
-/

namespace Whypa

open Framework

namespace IoApic

def IOAPIC_VER_ENTRIES_SHIFT : Nat := 16

/-- No register writes the version. -/
def VERSION : BitVec 8 := 0x20

/-- The half of an entry that a redirection register shows. -/
def half (entry : BitVec 64) (upper : Bool) : BitVec 32 :=
  if upper then (entry >>> 32).setWidth 32 else (entry &&& 0xffffffff).setWidth 32

/-- The register selected for the window. -/
def readWindow (s : IoApic) : BitVec 32 :=
  if s.ioregsel = IO_APIC_ID ∨ s.ioregsel = IO_APIC_ARB then
    (s.id.setWidth 64 <<< IOAPIC_ID_SHIFT).setWidth 32
  else if s.ioregsel = IO_APIC_VER then
    VERSION.setWidth 32 ||| (BitVec.ofNat 32 IOAPIC_NUM_PINS - 1) <<< IOAPIC_VER_ENTRIES_SHIFT
  else
    let index := (s.ioregsel.setWidth 64 - IOAPIC_REG_REDTBL_BASE) >>> 1
    if h : index.toNat < IOAPIC_NUM_PINS then
      half (s.entry ⟨index.toNat, h⟩) (decide (0 < s.ioregsel &&& 1))
    else 0

/-- A guest's read into the buffer `data`: the first bytes of the buffer after it. -/
def store (val : BitVec 32) (data : List Byte) : List Byte :=
  (leBytes 4 val.toNat).take data.length ++ data.drop 4

/-- A guest's read: the buffer after it. -/
def read (s : IoApic) (offset : BitVec 64) (data : List Byte) : List Byte :=
  if offset = IO_REG_SEL then store (s.ioregsel.setWidth 32) data
  else if offset = IO_WIN then
    if data.length ≠ 4 then data else store s.readWindow data
  else store 0 data

/-! ## Halves of an entry -/

section
variable (e e' : BitVec 64) (u : Bool) (v : BitVec 32)

/-- The read-only bits of a redirection register. -/
def roHalf (upper : Bool) : BitVec 32 := half IOAPIC_RO_BITS upper

theorem half_eq : half e u = e.extractLsb' (if u then 32 else 0) 32 := by
  cases u with
  | true => exact ushiftRight_high e
  | false => exact and_low e

theorem half_and : half (e &&& e') u = half e u &&& half e' u := by
  simp only [half_eq]
  refine BitVec.eq_of_getLsbD_eq fun j hj => ?_
  simp only [BitVec.getLsbD_extractLsb', BitVec.getLsbD_and, hj, decide_true, Bool.true_and]

theorem half_or : half (e ||| e') u = half e u ||| half e' u := by
  simp only [half_eq]
  refine BitVec.eq_of_getLsbD_eq fun j hj => ?_
  simp only [BitVec.getLsbD_extractLsb', BitVec.getLsbD_or, hj, decide_true, Bool.true_and]

theorem half_rwBits : half IOAPIC_RW_BITS u = ~~~roHalf u := by
  cases u <;> decide

/-- The half that is written takes the word, but for its read-only bits. -/
theorem half_writeHalf_self :
    half (writeHalf e u v) u = (v &&& ~~~roHalf u) ||| (half e u &&& roHalf u) := by
  rw [writeHalf, half_or, half_and, half_and, half_rwBits]
  refine congrArg (fun x => x &&& ~~~roHalf u ||| half e u &&& roHalf u) ?_
  rw [half_eq]
  cases u with
  | true => exact (congrArg _ (low_or_shiftLeft e v)).trans (extract_high_append v _)
  | false => exact (congrArg _ (high_or e v)).trans (extract_low_append _ v)

theorem half_writeHalf_other : half (writeHalf e u v) (!u) = half e (!u) := by
  have hw : half (if u then (e &&& 0xffffffff) ||| v.setWidth 64 <<< 32
      else (e &&& ~~~0xffffffff) ||| v.setWidth 64) (!u) = half e (!u) := by
    rw [half_eq, half_eq]
    cases u with
    | true => exact (congrArg _ (low_or_shiftLeft e v)).trans (extract_low_append v _)
    | false => exact (congrArg _ (high_or e v)).trans (extract_high_append _ v)
  rw [writeHalf, half_or, half_and, half_and, half_rwBits]
  simp only [hw]
  exact and_not_or_and _ _

end

/-- Entries that route the same differ at most in a read-only bit. -/
theorem SameRouting.half {e e' : BitVec 64} (h : SameRouting e e') (u : Bool) :
    IoApic.half e' u &&& ~~~roHalf u = IoApic.half e u &&& ~~~roHalf u := by
  have hro : IOAPIC_RO_BITS.getLsbD IOAPIC_LVT_REMOTE_IRR_SHIFT = true := by decide
  refine BitVec.eq_of_getLsbD_eq fun j hj => ?_
  simp only [roHalf, half_eq, BitVec.getLsbD_and, BitVec.getLsbD_not, BitVec.getLsbD_extractLsb', hj,
    decide_true, Bool.true_and]
  by_cases hj' : (if u then 32 else 0) + j = IOAPIC_LVT_REMOTE_IRR_SHIFT
  · rw [hj', hro, Bool.not_true, Bool.and_false, Bool.and_false]
  · rw [h _ hj']

end IoApic

/-! ## One pin -/

namespace Pin

open IoApic

variable {p : Pin}

def delivStatus (e : BitVec 64) : Bool := e.getLsbD IOAPIC_LVT_DELIV_STATUS_SHIFT

theorem fixEdge_routing (e : BitVec 64) : SameRouting e (fixEdge e) := by
  unfold fixEdge
  split
  · exact .refl e
  · exact .clear e

theorem delivStatus_writeHalf (e : BitVec 64) (upper : Bool) (val : BitVec 32) :
    delivStatus (writeHalf e upper val) = delivStatus e := by
  have hw : IOAPIC_RW_BITS.getLsbD IOAPIC_LVT_DELIV_STATUS_SHIFT = false := by decide
  have hr : IOAPIC_RO_BITS.getLsbD IOAPIC_LVT_DELIV_STATUS_SHIFT = true := by decide
  rw [delivStatus, delivStatus, writeHalf, BitVec.getLsbD_or, BitVec.getLsbD_and,
    BitVec.getLsbD_and, hw, hr, Bool.and_false, Bool.false_or, Bool.and_true]

theorem delivStatus_of_routing {e e' : BitVec 64} (h : SameRouting e e') :
    Pin.delivStatus e' = Pin.delivStatus e := h _ (by decide)

/-- Nothing sets the delivery status. -/
theorem delivStatus_step (p : Pin) (a : Action) :
    delivStatus (p.step a).entry = delivStatus p.entry := by
  cases a with
  | none => rfl
  | assert => exact delivStatus_of_routing (serve_routing { p with requested := true })
  | withdraw => rfl
  | route upper val =>
    have hf := fixEdge_routing (writeHalf p.entry upper val)
    have hs := serve_routing { p with entry := fixEdge (writeHalf p.entry upper val) }
    exact (delivStatus_of_routing (hf.trans hs)).trans (delivStatus_writeHalf ..)
  | eoi v => exact delivStatus_of_routing (eoi_routing v p)

theorem remoteIrr_serve_eq (p : Pin) : remoteIrr p.serve.entry =
    (remoteIrr p.entry || (p.requested && !masked p.entry && level p.entry)) := by
  cases hr : p.requested with
  | false => rw [serve_idle (by rw [hr]; rfl)]; simp
  | true =>
    cases hm : masked p.entry with
    | true => rw [serve_of_masked hm]; simp
    | false =>
      cases hl : level p.entry with
      | true => rw [remoteIrr_serve hr hm hl]; simp
      | false => rw [serve_edge hr hm hl]; simp

/-- The entry after a write to one of its halves. -/
theorem route_half (p : Pin) (upper : Bool) (val : BitVec 32) :
    half (p.step (.route upper val)).entry upper &&& ~~~roHalf upper = val &&& ~~~roHalf upper ∧
      half (p.step (.route upper val)).entry (!upper) &&& ~~~roHalf (!upper) =
        half p.entry (!upper) &&& ~~~roHalf (!upper) := by
  have hf := fixEdge_routing (writeHalf p.entry upper val)
  have hs := hf.trans (serve_routing { p with entry := fixEdge (writeHalf p.entry upper val) })
  refine ⟨(hs.half upper).trans ?_, (hs.half (!upper)).trans ?_⟩
  · rw [half_writeHalf_self]
    refine BitVec.eq_of_getLsbD_eq fun j hj => ?_
    simp only [BitVec.getLsbD_and, BitVec.getLsbD_or, BitVec.getLsbD_not, hj, decide_true,
      Bool.true_and]
    cases (roHalf upper).getLsbD j <;> simp
  · rw [half_writeHalf_other]

/-- Remote IRR after a write to the entry: kept or raised for a level-triggered pin. -/
theorem route_remoteIrr (p : Pin) (upper : Bool) (val : BitVec 32) :
    remoteIrr (p.step (.route upper val)).entry =
      (level (p.step (.route upper val)).entry &&
        (remoteIrr p.entry || (p.requested && !masked (p.step (.route upper val)).entry))) := by
  have hs := serve_routing { p with entry := fixEdge (writeHalf p.entry upper val) }
  have hstep : (p.step (.route upper val)) =
      { p with entry := fixEdge (writeHalf p.entry upper val) }.serve := rfl
  rw [hstep, hs.level, hs.masked, remoteIrr_serve_eq, remoteIrr_fixEdge, remoteIrr_writeHalf,
    ← level_fixEdge]
  simp only
  cases level (fixEdge (writeHalf p.entry upper val)) <;> simp

end Pin

/-! ## The request register -/

namespace IoApic

variable {s s' : IoApic}

/-- `s'` has no request that `s` does not have. -/
def NoNewRequest (s s' : IoApic) : Prop := ∀ b, s'.irr.getLsbD b = true → s.irr.getLsbD b = true

theorem NoNewRequest.refl (s : IoApic) : NoNewRequest s s := fun _ h => h

theorem NoNewRequest.trans {s'' : IoApic} (h : NoNewRequest s s') (h' : NoNewRequest s' s'') :
    NoNewRequest s s'' := fun b hb => h b (h' b hb)

theorem servicePin_noNewRequest (s : IoApic) (i : Fin IOAPIC_NUM_PINS) :
    NoNewRequest s (s.servicePin i) := by
  unfold servicePin
  simp only
  split
  · split
    · exact .refl s
    split
    · intro b hb
      rw [getLsbD_and_not_bit, Bool.and_eq_true] at hb
      exact hb.1
    split <;> exact fun _ h => h
  · exact .refl s

theorem foldl_noNewRequest {f : IoApic → Fin IOAPIC_NUM_PINS → IoApic}
    (hf : ∀ s i, NoNewRequest s (f s i)) (l : List (Fin IOAPIC_NUM_PINS)) (s : IoApic) :
    NoNewRequest s (l.foldl f s) := by
  induction l generalizing s with
  | nil => exact .refl s
  | cons i l ih => exact (hf s i).trans (ih (f s i))

theorem service_noNewRequest (s : IoApic) : NoNewRequest s s.service :=
  foldl_noNewRequest servicePin_noNewRequest _ s

theorem eoi_noNewRequest (s : IoApic) (v : BitVec 8) : NoNewRequest s (s.eoi v) := by
  refine foldl_noNewRequest (fun s i => ?_) _ s
  have hset : ∀ e, NoNewRequest s (s.setEntry i e) := fun _ _ h => h
  unfold eoiPin
  simp only
  split
  · split
    · exact (hset _).trans (service_noNewRequest _)
    · exact hset _
  · exact .refl s

theorem write_noNewRequest (s : IoApic) (offset : BitVec 64) (data : List Byte) :
    NoNewRequest s (s.write offset data) := by
  rcases write_cases s offset data with ⟨id, sel, h⟩ | ⟨j, val, h⟩ | ⟨v, h⟩
  · rw [h]
    exact fun _ h => h
  · rw [h]
    refine NoNewRequest.trans (fun b hb => ?_) (service_noNewRequest _)
    unfold fixEdgeRemoteIrr at hb
    split at hb <;> exact hb
  · rw [h]
    exact eoi_noNewRequest s v

/-- Only pins are requested. -/
def OnlyPins (s : IoApic) : Prop := ∀ b, IOAPIC_NUM_PINS ≤ b → s.irr.getLsbD b = false

theorem OnlyPins.mono (h : s.OnlyPins) (hn : NoNewRequest s s') : s'.OnlyPins := fun b hb =>
  Bool.eq_false_iff.mpr fun hs => Bool.eq_false_iff.mp (h b hb) (hn b hs)

theorem OnlyPins.apply (h : s.OnlyPins) (o : Op) : (s.apply o).OnlyPins := by
  cases o with
  | setIrq irqLine =>
    rcases line_cases irqLine with ⟨i, rfl⟩ | ⟨hs, -, -⟩
    · show (s.setIrq (line i)).OnlyPins
      rw [setIrq_line]
      have hor : OnlyPins { s with irr := s.irr ||| 1#32 <<< i.val } := fun b hb => by
        have hne : i.val ≠ b := by
          have := i.isLt
          omega
        show (s.irr ||| 1#32 <<< i.val).getLsbD b = false
        rw [getLsbD_or_bit, h b hb]
        simp [hne]
      exact hor.mono (service_noNewRequest _)
    · show (s.setIrq irqLine).OnlyPins
      rw [hs]
      exact h
  | clearIrq irqLine =>
    refine h.mono ?_
    show NoNewRequest s (s.clearIrq irqLine)
    rcases line_cases irqLine with ⟨i, rfl⟩ | ⟨-, hs, -⟩
    · rw [clearIrq_line]
      intro b hb
      rw [getLsbD_and_not_bit, Bool.and_eq_true] at hb
      exact hb.1
    · rw [hs]
      exact .refl s
  | write offset data => exact h.mono (write_noNewRequest s offset data)

/-- What holds of every reachable IOAPIC: no delivery is in progress, an edge-triggered
entry waits for no end of interrupt, and only pins are requested. -/
structure Regular (s : IoApic) : Prop where
  settled : s.Settled
  idle : ∀ i, Pin.delivStatus (s.entry i) = false
  pins : s.OnlyPins

theorem regular_of_reachable (h : system.Reachable s) : s.Regular := by
  refine h.invariant (I := Regular) ?_ ?_
  · rintro s rfl
    refine ⟨settled_new, fun i => ?_, fun b _ => BitVec.getLsbD_zero⟩
    have he : entry .new i = 1#64 <<< IOAPIC_LVT_MASKED_SHIFT := Vector.getElem_replicate ..
    rw [he]
    decide
  · intro s o s' hs he
    obtain rfl := Option.some.inj he
    refine ⟨hs.settled.apply o, fun i => ?_, hs.pins.apply o⟩
    rw [← pin_entry, apply_pin hs.settled, Pin.delivStatus_step]
    exact hs.idle i

/-! ## Writing and reading back -/

/-- The number of the register that shows a half of the pin's entry. -/
def redtblReg (i : Fin IOAPIC_NUM_PINS) (upper : Bool) : BitVec 8 :=
  BitVec.ofNat 8 (0x10 + 2 * i.val + if upper then 1 else 0)

/-- The guest selects the register and writes `v` to the window. -/
def writeReg (s : IoApic) (r : BitVec 8) (v : BitVec 32) : IoApic :=
  (s.write IO_REG_SEL (leBytes 4 r.toNat)).write IO_WIN (leBytes 4 v.toNat)

theorem redtblReg_spec : ∀ (i : Fin IOAPIC_NUM_PINS) (upper : Bool),
    redtblReg i upper ≠ IO_APIC_ID ∧ redtblReg i upper ≠ IO_APIC_VER ∧
      redtblReg i upper ≠ IO_APIC_ARB ∧ ¬redtblReg i upper < IO_WIN.setWidth 8 ∧
      (((redtblReg i upper).setWidth 64 - IOAPIC_REG_REDTBL_BASE) >>> 1).toNat = i.val ∧
      decide (0 < redtblReg i upper &&& 1) = upper := by
  decide

theorem readWindow_redtbl {i : Fin IOAPIC_NUM_PINS} {upper : Bool}
    (hr : s.ioregsel = redtblReg i upper) : s.readWindow = half (s.entry i) upper := by
  obtain ⟨hid, hver, harb, -, hidx, hup⟩ := redtblReg_spec i upper
  rw [← hr] at hid hver harb hidx hup
  unfold readWindow
  rw [if_neg (not_or.mpr ⟨hid, harb⟩), if_neg hver]
  simp only [hidx, hup, i.isLt, dif_pos]

theorem writeReg_eq (s : IoApic) (i : Fin IOAPIC_NUM_PINS) (upper : Bool) (v : BitVec 32) :
    s.writeReg (redtblReg i upper) v = { s with ioregsel := redtblReg i upper }.writeRedtbl i v := by
  obtain ⟨hid, hver, harb, hlt, hidx, -⟩ := redtblReg_spec i upper
  have hval : ∀ r : BitVec 8,
      (BitVec.ofNat 32 (ofLE (leBytes 4 r.toNat))).setWidth 8 = r := fun r => by
    have hr := ofNat_ofLE_leBytes 4 (r.setWidth 32)
    rw [BitVec.toNat_setWidth_of_le (by decide)] at hr
    rw [hr, BitVec.setWidth_setWidth_of_le _ (by decide), BitVec.setWidth_eq]
  have hsel : s.write IO_REG_SEL (leBytes 4 (redtblReg i upper).toNat) =
      { s with ioregsel := redtblReg i upper } := by
    unfold write
    simp only [length_leBytes, hval, ne_eq, not_true_eq_false, if_false, if_true]
  have hlen : ¬ (leBytes 4 v.toNat).length ≠ 4 := fun h => h (length_leBytes 4 _)
  have hv : BitVec.ofNat 32 (ofLE (leBytes 4 v.toNat)) = v := ofNat_ofLE_leBytes 4 v
  rw [writeReg, hsel, write, if_neg hlen, if_neg (by decide), if_pos rfl, if_neg hid,
    if_neg (not_or.mpr ⟨hver, harb⟩), if_neg hlt]
  simp only [hidx, hv, i.isLt, dif_pos]

theorem service_ioregsel (s : IoApic) : s.service.ioregsel = s.ioregsel := by
  have hpin : ∀ (s : IoApic) (i : Fin IOAPIC_NUM_PINS),
      (s.servicePin i).ioregsel = s.ioregsel := fun s i => by
    unfold servicePin
    simp only
    split
    · split
      · rfl
      split
      · rfl
      split <;> rfl
    · rfl
  unfold service
  generalize List.finRange IOAPIC_NUM_PINS = l
  induction l generalizing s with
  | nil => rfl
  | cons i l ih => exact (ih (s.servicePin i)).trans (hpin s i)

theorem writeReg_ioregsel (s : IoApic) (i : Fin IOAPIC_NUM_PINS) (upper : Bool) (v : BitVec 32) :
    (s.writeReg (redtblReg i upper) v).ioregsel = redtblReg i upper := by
  rw [writeReg_eq, writeRedtbl, service_ioregsel, fixEdgeRemoteIrr]
  split <;> rfl

theorem read_window (s : IoApic) {data : List Byte} (hd : data.length = 4) :
    s.read IO_WIN data = leBytes 4 s.readWindow.toNat := by
  have htake : (leBytes 4 s.readWindow.toNat).take data.length = leBytes 4 s.readWindow.toNat := by
    rw [hd]
    exact List.take_of_length_le (length_leBytes 4 _).le
  have hdrop : data.drop 4 = [] := List.drop_of_length_le hd.le
  rw [read, if_neg (by decide), if_pos rfl, if_neg fun h => h hd, store, htake, hdrop,
    List.append_nil]

/-- What the guest finds in a redirection register after writing it, in a
reachable IOAPIC: the word it wrote, but for the read-only bits. Those are the
chip's: no delivery is ever in progress, and Remote IRR stays, or is raised, of
a level-triggered pin. The other half keeps its writable bits, and the other
pins their entries. -/
theorem redirection_registers (h : system.Reachable s) :
    (∀ (i : Fin IOAPIC_NUM_PINS) (upper : Bool) (v : BitVec 32) (data : List Byte),
      data.length = 4 →
      (s.writeReg (redtblReg i upper) v).read IO_WIN data =
        leBytes 4 ((v &&& ~~~roHalf upper) |||
          (half ((s.writeReg (redtblReg i upper) v).entry i) upper &&& roHalf upper)).toNat ∧
      remoteIrr ((s.writeReg (redtblReg i upper) v).entry i) =
        (level ((s.writeReg (redtblReg i upper) v).entry i) && (remoteIrr (s.entry i) ||
          (s.requested i && !masked ((s.writeReg (redtblReg i upper) v).entry i)))) ∧
      half ((s.writeReg (redtblReg i upper) v).entry i) (!upper) &&& ~~~roHalf (!upper) =
        half (s.entry i) (!upper) &&& ~~~roHalf (!upper) ∧
      ∀ j, j ≠ i → (s.writeReg (redtblReg i upper) v).entry j = s.entry j) ∧
    (∀ i, Pin.delivStatus (s.entry i) = false) ∧
    (∀ i, level (s.entry i) = false → remoteIrr (s.entry i) = false) ∧
    ∀ b, IOAPIC_NUM_PINS ≤ b → s.irr.getLsbD b = false := by
  have hreg := regular_of_reachable h
  refine ⟨fun i upper v data hd => ?_, hreg.idle, fun i => (hreg.settled i).edge, hreg.pins⟩
  have hpin : ∀ j, (s.writeReg (redtblReg i upper) v).pin j =
      (s.pin j).step (if i = j then .route upper v else .none) := fun j => by
    have hsel : Settled { s with ioregsel := redtblReg i upper } := hreg.settled
    rw [writeReg_eq, pin_writeRedtbl hsel, (redtblReg_spec i upper).2.2.2.2.2]
    rfl
  have hentry : (s.writeReg (redtblReg i upper) v).entry i =
      ((s.pin i).step (.route upper v)).entry := by
    rw [← pin_entry, hpin, if_pos rfl]
  obtain ⟨hself, hother⟩ := Pin.route_half (s.pin i) upper v
  refine ⟨?_, ?_, ?_, fun j hj => ?_⟩
  · rw [← hself, ← hentry, and_not_or_and, ← readWindow_redtbl (writeReg_ioregsel s i upper v)]
    exact read_window _ hd
  · rw [hentry]
    exact Pin.route_remoteIrr (s.pin i) upper v
  · rw [hentry]
    exact hother
  · rw [← pin_entry, hpin, if_neg (Ne.symm hj)]
    rfl

/-- A level-triggered pin that waits for the end of its interrupt: the guest
reads Remote IRR where it wrote a zero. -/
theorem redirection_registers_waiting : ∃ s, system.Reachable s ∧
    (s.writeReg (redtblReg 4 false) 0x8031).read IO_WIN [0, 0, 0, 0] = leBytes 4 0xc031 := by
  have h := reachable_run (.init rfl) (routePin 4 0x8030 ++ [.setIrq (line 4)])
  refine ⟨_, h, ((redirection_registers h).1 4 false 0x8031 [0, 0, 0, 0] rfl).1.trans ?_⟩
  decide +kernel

end IoApic

end Whypa
