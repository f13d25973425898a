import Mathlib.Data.List.FinRange
import Whypa.Framework.Pointwise
import Whypa.Framework.Reach
import Whypa.Irq.Service

/-!
# The pins of the IOAPIC

The scan of the IOAPIC goes over all its pins, and so does the loop that ends
an interrupt, which scans them all again in the middle. `Pin` is what is seen
of one pin, and `apply_pin` says that every operation on the IOAPIC does to each
pin what `Pin.step` does, with no regard to the others: a scan leaves the pins
alone that are settled (`Pin.serve_of_settled`), and every operation leaves all
pins settled (`settled_of_reachable`).
-/

namespace Whypa

open Framework

/-- A pin: its request bit, its entry, and how many interrupts were injected for
it. -/
@[ext]
structure Pin where
  requested : Bool
  entry : BitVec 64
  sent : Nat

namespace Pin

open IoApic

/-- What a scan does to a pin. -/
def serve (p : Pin) : Pin :=
  if p.requested && !masked p.entry then
    if level p.entry then
      { p with
        entry := p.entry ||| IOAPIC_LVT_REMOTE_IRR
        sent := p.sent + if remoteIrr p.entry then 0 else 1 }
    else { p with requested := false, sent := p.sent + 1 }
  else p

/-- The end of the interrupt `v`. -/
def eoi (v : BitVec 8) (p : Pin) : Pin :=
  if vector p.entry = v ∧ remoteIrr p.entry = true then
    let p' := { p with entry := p.entry &&& ~~~IOAPIC_LVT_REMOTE_IRR }
    if p.requested then p'.serve else p'
  else p

/-- An edge-triggered entry has no Remote IRR. -/
def fixEdge (e : BitVec 64) : BitVec 64 :=
  if level e then e else e &&& ~~~IOAPIC_LVT_REMOTE_IRR

/-- What an operation on the IOAPIC does to one of its pins. -/
inductive Action
  | none
  | assert
  | withdraw
  | route (upper : Bool) (val : BitVec 32)
  | eoi (v : BitVec 8)
deriving DecidableEq, Repr

def step (p : Pin) : Action → Pin
  | .none => p
  | .assert => { p with requested := true }.serve
  | .withdraw => { p with requested := false }
  | .route upper val => { p with entry := fixEdge (writeHalf p.entry upper val) }.serve
  | .eoi v => p.eoi v

/-- A pin that is requested and not masked is level-triggered and waits for the
end of its interrupt, and only a level-triggered pin waits. -/
structure Settled (p : Pin) : Prop where
  awaits : p.requested = true → masked p.entry = false →
    level p.entry = true ∧ remoteIrr p.entry = true
  edge : level p.entry = false → remoteIrr p.entry = false

theorem remoteIrr_set (e : BitVec 64) : remoteIrr (e ||| IOAPIC_LVT_REMOTE_IRR) = true := by
  rw [remoteIrr, IOAPIC_LVT_REMOTE_IRR, getLsbD_or_bit]
  simp [IOAPIC_LVT_REMOTE_IRR_SHIFT]

theorem remoteIrr_clear (e : BitVec 64) : remoteIrr (e &&& ~~~IOAPIC_LVT_REMOTE_IRR) = false := by
  rw [remoteIrr, IOAPIC_LVT_REMOTE_IRR, getLsbD_and_not_bit]
  simp

theorem or_of_remoteIrr {e : BitVec 64} (h : remoteIrr e = true) :
    e ||| IOAPIC_LVT_REMOTE_IRR = e := by
  refine BitVec.eq_of_getLsbD_eq fun j _ => ?_
  rw [IOAPIC_LVT_REMOTE_IRR, getLsbD_or_bit]
  by_cases hj : IOAPIC_LVT_REMOTE_IRR_SHIFT = j
  · rw [← hj, show e.getLsbD IOAPIC_LVT_REMOTE_IRR_SHIFT = true from h, Bool.true_or]
  · simp [hj]

variable {p : Pin}

theorem serve_idle (h : (p.requested && !masked p.entry) = false) : p.serve = p := by
  unfold serve
  rw [h]
  rfl

theorem serve_level (hr : p.requested = true) (hm : masked p.entry = false)
    (hl : level p.entry = true) :
    p.serve = { p with
      entry := p.entry ||| IOAPIC_LVT_REMOTE_IRR
      sent := p.sent + if remoteIrr p.entry then 0 else 1 } := by
  simp only [serve, hr, hm, hl, Bool.not_false, Bool.and_true, if_true]

theorem serve_edge (hr : p.requested = true) (hm : masked p.entry = false)
    (hl : level p.entry = false) :
    p.serve = { p with requested := false, sent := p.sent + 1 } := by
  simp [serve, hr, hm, hl]

/-- A scan does nothing to a settled pin. -/
theorem serve_of_settled (h : p.Settled) : p.serve = p := by
  cases hr : p.requested with
  | false => exact serve_idle (by rw [hr]; rfl)
  | true =>
    cases hm : masked p.entry with
    | true => exact serve_idle (by rw [hm, hr]; rfl)
    | false =>
      obtain ⟨hl, hi⟩ := h.awaits hr hm
      rw [serve_level hr hm hl, or_of_remoteIrr hi, if_pos hi]
      rfl

theorem serve_settled (h : level p.entry = false → remoteIrr p.entry = false) : p.serve.Settled := by
  cases hr : p.requested with
  | false =>
    rw [serve_idle (by rw [hr]; rfl)]
    exact ⟨fun h => absurd h (by rw [hr]; decide), h⟩
  | true =>
    cases hm : masked p.entry with
    | true =>
      rw [serve_idle (by rw [hm, hr]; rfl)]
      exact ⟨fun _ h => absurd h (by rw [hm]; decide), h⟩
    | false =>
      cases hl : level p.entry with
      | true =>
        rw [serve_level hr hm hl]
        have hl' : level (p.entry ||| IOAPIC_LVT_REMOTE_IRR) = true :=
          (SameRouting.set p.entry).level.trans hl
        exact ⟨fun _ _ => ⟨hl', remoteIrr_set _⟩, fun h => absurd hl' (by rw [h]; decide)⟩
      | false =>
        rw [serve_edge hr hm hl]
        exact ⟨fun h => (by cases h), h⟩

theorem eoi_settled {v : BitVec 8} (h : p.Settled) : (p.eoi v).Settled := by
  unfold eoi
  split
  · simp only
    split
    · exact serve_settled fun _ => remoteIrr_clear _
    · rename_i hr
      exact ⟨fun h => absurd h hr, fun _ => remoteIrr_clear _⟩
  · exact h

theorem fixEdge_edge (e : BitVec 64) (h : level (fixEdge e) = false) :
    remoteIrr (fixEdge e) = false := by
  unfold fixEdge at h ⊢
  split
  · rename_i hl
    rw [if_pos hl, hl] at h
    cases h
  · exact remoteIrr_clear e

theorem step_settled (h : p.Settled) (a : Action) : (p.step a).Settled := by
  cases a with
  | none => exact h
  | assert => exact serve_settled h.edge
  | withdraw => exact ⟨fun h => (by cases h), h.edge⟩
  | route upper val => exact serve_settled (fixEdge_edge _)
  | eoi v => exact eoi_settled h

end Pin

namespace IoApic

variable {s : IoApic} {i j : Fin IOAPIC_NUM_PINS}

/-- How many interrupts were injected for the pin. -/
def sent (s : IoApic) (i : Fin IOAPIC_NUM_PINS) : Nat := s.injected.countP fun n => n.pin = i

/-- What is seen of the pin. -/
def pin (s : IoApic) (i : Fin IOAPIC_NUM_PINS) : Pin := ⟨s.requested i, s.entry i, s.sent i⟩

theorem pin_requested (s : IoApic) (i : Fin IOAPIC_NUM_PINS) :
    (s.pin i).requested = s.requested i := rfl

theorem pin_entry (s : IoApic) (i : Fin IOAPIC_NUM_PINS) : (s.pin i).entry = s.entry i := rfl

theorem pin_sent (s : IoApic) (i : Fin IOAPIC_NUM_PINS) : (s.pin i).sent = s.sent i := rfl

theorem pin_servicePin_self (s : IoApic) (i : Fin IOAPIC_NUM_PINS) :
    (s.servicePin i).pin i = (s.pin i).serve := by
  cases hr : s.requested i with
  | false => rw [servicePin_of_not_requested hr, Pin.serve_idle (by simp [pin, hr])]
  | true =>
    cases hm : masked (s.entry i) with
    | true => rw [servicePin_of_masked hm, Pin.serve_idle (by simp [pin, hm])]
    | false =>
      cases hl : level (s.entry i) with
      | true =>
        rw [servicePin_level hr hm hl, Pin.serve_level (p := s.pin i) hr hm hl]
        have he : (s.setEntry i (s.entry i ||| IOAPIC_LVT_REMOTE_IRR)).entry i =
            s.entry i ||| IOAPIC_LVT_REMOTE_IRR := entry_setEntry_self ..
        refine Pin.ext rfl he ?_
        show List.countP _ (s.injected ++ _) = List.countP _ s.injected + _
        rw [List.countP_append, show (s.pin i).entry = s.entry i from rfl]
        cases remoteIrr (s.entry i) <;> simp
      | false =>
        rw [servicePin_edge hr hm hl, Pin.serve_edge (p := s.pin i) hr hm hl]
        refine Pin.ext ?_ rfl ?_
        · exact (requested_and_not s i i).trans (by simp)
        · simp [pin, sent, List.countP_append]

theorem pin_servicePin_ne (s : IoApic) (h : i ≠ j) : (s.servicePin i).pin j = s.pin j := by
  cases hr : s.requested i with
  | false => rw [servicePin_of_not_requested hr]
  | true =>
    cases hm : masked (s.entry i) with
    | true => rw [servicePin_of_masked hm]
    | false =>
      cases hl : level (s.entry i) with
      | true =>
        rw [servicePin_level hr hm hl]
        have he : (s.setEntry i (s.entry i ||| IOAPIC_LVT_REMOTE_IRR)).entry j = s.entry j :=
          entry_setEntry_ne s h _
        refine Pin.ext rfl he ?_
        show List.countP _ (s.injected ++ _) = List.countP _ s.injected
        rw [List.countP_append]
        cases remoteIrr (s.entry i) <;> simp [h]
      | false =>
        rw [servicePin_edge hr hm hl]
        refine Pin.ext ?_ rfl ?_
        · exact (requested_and_not s i j).trans (by simp [h, pin])
        · simp [pin, sent, List.countP_append, h]

theorem servicePin_local :
    Local (fun _ => True) IoApic.pin servicePin Pin.serve :=
  ⟨fun _ _ _ => trivial, fun s i _ => pin_servicePin_self s i,
    fun s _ _ _ h => pin_servicePin_ne s h⟩

/-- A scan serves each pin. -/
theorem pin_service (s : IoApic) (i : Fin IOAPIC_NUM_PINS) : s.service.pin i = (s.pin i).serve :=
  servicePin_local.foldl_of_mem (List.nodup_finRange _) trivial (List.mem_finRange i)

theorem pin_setEntry_self (s : IoApic) (i : Fin IOAPIC_NUM_PINS) (e : BitVec 64) :
    (s.setEntry i e).pin i = { s.pin i with entry := e } :=
  Pin.ext rfl (entry_setEntry_self s i e) rfl

theorem pin_setEntry_ne (s : IoApic) (h : i ≠ j) (e : BitVec 64) :
    (s.setEntry i e).pin j = s.pin j :=
  Pin.ext rfl (entry_setEntry_ne s h e) rfl

/-- All pins are settled. -/
def Settled (s : IoApic) : Prop := ∀ i, (s.pin i).Settled

/-! ## The operations -/

theorem pin_irr_or (s : IoApic) (i j : Fin IOAPIC_NUM_PINS) :
    { s with irr := s.irr ||| 1#32 <<< i.val }.pin j =
      { s.pin j with requested := s.requested j || decide (i = j) } :=
  Pin.ext (requested_or s i j) rfl rfl

theorem pin_irr_and_not (s : IoApic) (i j : Fin IOAPIC_NUM_PINS) :
    { s with irr := s.irr &&& ~~~(1#32 <<< i.val) }.pin j =
      { s.pin j with requested := s.requested j && !decide (i = j) } :=
  Pin.ext (requested_and_not s i j) rfl rfl

/-- A line is that of a pin, or none. -/
theorem line_cases (irqLine : Option (BitVec 32)) :
    (∃ i, irqLine = line i) ∨ (∀ s, setIrq s irqLine = s) ∧ (∀ s, clearIrq s irqLine = s) ∧
      ∀ j, irqLine ≠ line j := by
  cases irqLine with
  | none => exact .inr ⟨fun _ => rfl, fun _ => rfl, fun j h => by cases h⟩
  | some irq =>
    by_cases h : irq.toNat < IOAPIC_NUM_PINS
    · exact .inl ⟨⟨irq.toNat, h⟩, congrArg some (BitVec.eq_of_toNat_eq (line_toNat ⟨_, h⟩).symm)⟩
    · refine .inr ⟨fun _ => if_neg h, fun _ => if_neg h, fun j e => h ?_⟩
      rw [Option.some.inj e, line_toNat]
      exact j.isLt

theorem line_inj (h : line i = line j) : i = j := by
  refine Fin.ext ?_
  rw [← line_toNat i, ← line_toNat j, Option.some.inj h]

theorem pin_setIrq (hs : s.Settled) (irqLine : Option (BitVec 32)) (j : Fin IOAPIC_NUM_PINS) :
    (s.setIrq irqLine).pin j = (s.pin j).step (if irqLine = line j then .assert else .none) := by
  rcases line_cases irqLine with ⟨i, rfl⟩ | ⟨h, -, hne⟩
  · rw [setIrq_line, pin_service, pin_irr_or]
    by_cases hij : i = j
    · subst hij
      simp [Pin.step]
    · rw [if_neg fun h => hij (line_inj h)]
      simp only [hij, decide_false, Bool.or_false]
      exact Pin.serve_of_settled (hs j)
  · rw [h, if_neg (hne j)]
    rfl

theorem pin_clearIrq (s : IoApic) (irqLine : Option (BitVec 32)) (j : Fin IOAPIC_NUM_PINS) :
    (s.clearIrq irqLine).pin j =
      (s.pin j).step (if irqLine = line j then .withdraw else .none) := by
  rcases line_cases irqLine with ⟨i, rfl⟩ | ⟨-, h, hne⟩
  · rw [clearIrq_line, pin_irr_and_not]
    by_cases hij : i = j
    · subst hij
      simp [Pin.step]
    · rw [if_neg fun h => hij (line_inj h)]
      simp only [hij, decide_false, Bool.not_false, Bool.and_true]
      rfl
  · rw [h, if_neg (hne j)]
    rfl

theorem level_iff {e : BitVec 64} : e &&& IOAPIC_LVT_TRIGGER_MODE = 0 ↔ level e = false := by
  have h : e &&& IOAPIC_LVT_TRIGGER_MODE ≠ 0#64 ↔ level e = true := and_bit_ne_zero (by decide)
  rw [← Bool.not_eq_true, ← h, not_not]
  rfl

theorem pin_fixEdge_self (s : IoApic) (i : Fin IOAPIC_NUM_PINS) :
    (s.fixEdgeRemoteIrr i).pin i = { s.pin i with entry := Pin.fixEdge (s.entry i) } := by
  unfold fixEdgeRemoteIrr Pin.fixEdge
  cases hl : level (s.entry i) with
  | false =>
    rw [if_pos (level_iff.mpr hl), pin_setEntry_self]
    rfl
  | true =>
    rw [if_neg fun h => by rw [level_iff.mp h] at hl; cases hl]
    rfl

theorem pin_fixEdge_ne (s : IoApic) (h : i ≠ j) : (s.fixEdgeRemoteIrr i).pin j = s.pin j := by
  unfold fixEdgeRemoteIrr
  split
  · exact pin_setEntry_ne s h _
  · rfl

theorem pin_writeRedtbl (hs : s.Settled) (i j : Fin IOAPIC_NUM_PINS) (val : BitVec 32) :
    (s.writeRedtbl i val).pin j =
      (s.pin j).step (if i = j then .route (decide (0 < s.ioregsel &&& 1)) val else .none) := by
  unfold writeRedtbl
  rw [pin_service]
  by_cases hij : i = j
  · subst hij
    rw [pin_fixEdge_self, pin_setEntry_self, entry_setEntry_self, if_pos rfl]
    rfl
  · rw [pin_fixEdge_ne _ hij, pin_setEntry_ne _ hij, if_neg hij]
    exact Pin.serve_of_settled (hs j)

/-- The pin's part of the loop that ends an interrupt. -/
theorem pin_eoiPin_self (v : BitVec 8) (s : IoApic) (i : Fin IOAPIC_NUM_PINS) :
    (eoiPin v s i).pin i = (s.pin i).eoi v := by
  have hreq := pin_requested s i
  have hentry := pin_entry s i
  unfold eoiPin Pin.eoi
  simp only [hreq, hentry]
  by_cases h : vector (s.entry i) = v ∧ remoteIrr (s.entry i) = true
  · rw [if_pos ⟨h.1, and_remoteIrr.mpr h.2⟩, if_pos h]
    cases hr : s.requested i with
    | false =>
      have hn : ¬ (s.irr &&& 1#32 <<< i.val ≠ 0#32) := fun e => by
        rw [and_mask.mp e] at hr
        cases hr
      rw [show (s.setEntry i _).irr = s.irr from rfl, if_neg hn, if_neg (by decide),
        pin_setEntry_self]
      exact Pin.ext hr rfl rfl
    | true =>
      have hy : s.irr &&& 1#32 <<< i.val ≠ 0#32 := and_mask.mpr hr
      rw [show (s.setEntry i _).irr = s.irr from rfl, if_pos hy, if_pos rfl, pin_service,
        pin_setEntry_self]
      exact congrArg Pin.serve (Pin.ext hr rfl rfl)
  · rw [if_neg fun e => h ⟨e.1, and_remoteIrr.mp e.2⟩, if_neg h]

/-- The scan in the middle of the loop leaves the other pins alone. -/
theorem pin_eoiPin_ne (v : BitVec 8) (hs : s.Settled) (h : i ≠ j) :
    (eoiPin v s i).pin j = s.pin j := by
  unfold eoiPin
  simp only
  split
  · split
    · rw [pin_service, pin_setEntry_ne _ h]
      exact Pin.serve_of_settled (hs j)
    · exact pin_setEntry_ne s h _
  · rfl

theorem eoiPin_local (v : BitVec 8) : Local Settled IoApic.pin (eoiPin v) (Pin.eoi v) := by
  refine ⟨fun s i hs j => ?_, fun s i _ => pin_eoiPin_self v s i,
    fun s i j hs h => pin_eoiPin_ne v hs h⟩
  by_cases hij : i = j
  · subst hij
    rw [pin_eoiPin_self]
    exact Pin.eoi_settled (hs i)
  · rw [pin_eoiPin_ne v hs hij]
    exact hs j

theorem pin_eoi (hs : s.Settled) (v : BitVec 8) (i : Fin IOAPIC_NUM_PINS) :
    (s.eoi v).pin i = (s.pin i).eoi v :=
  (eoiPin_local v).foldl_of_mem (List.nodup_finRange _) hs (List.mem_finRange i)

/-! ## Runs -/

/-- A device raises or lowers a line, or the guest writes. -/
inductive Op
  | setIrq (irqLine : Option (BitVec 32))
  | clearIrq (irqLine : Option (BitVec 32))
  | write (offset : BitVec 64) (data : List Byte)

def apply (s : IoApic) : Op → IoApic
  | .setIrq irqLine => s.setIrq irqLine
  | .clearIrq irqLine => s.clearIrq irqLine
  | .write offset data => s.write offset data

/-- What the operation does to the pin. -/
def action (s : IoApic) (i : Fin IOAPIC_NUM_PINS) : Op → Pin.Action
  | .setIrq irqLine => if irqLine = line i then .assert else .none
  | .clearIrq irqLine => if irqLine = line i then .withdraw else .none
  | .write offset data =>
    if data.length ≠ 4 then .none
    else
      let val := BitVec.ofNat 32 (ofLE data)
      if offset = IO_WIN then
        if ¬ s.ioregsel < IO_WIN.setWidth 8 ∧
            ((s.ioregsel.setWidth 64 - IOAPIC_REG_REDTBL_BASE) >>> 1).toNat = i.val then
          .route (decide (0 < s.ioregsel &&& 1)) val
        else .none
      else if offset = IO_EOI then .eoi (val.setWidth 8)
      else .none

theorem pin_write (hs : s.Settled) (offset : BitVec 64) (data : List Byte)
    (i : Fin IOAPIC_NUM_PINS) :
    (s.write offset data).pin i = (s.pin i).step (s.action i (.write offset data)) := by
  unfold write action
  simp only
  split
  · rfl
  split
  · rename_i h
    rw [if_neg (by rw [h]; decide), if_neg (by rw [h]; decide)]
    rfl
  split
  · by_cases hlt : s.ioregsel < IO_WIN.setWidth 8
    · have hn : ¬ (¬ s.ioregsel < IO_WIN.setWidth 8 ∧
          ((s.ioregsel.setWidth 64 - IOAPIC_REG_REDTBL_BASE) >>> 1).toNat = i.val) := fun h => h.1 hlt
      rw [if_neg hn]
      split
      · rfl
      split
      · rfl
      · rfl
    · have hne : ∀ r : BitVec 8, r < IO_WIN.setWidth 8 → s.ioregsel ≠ r := fun r hr h =>
        hlt (h ▸ hr)
      rw [if_neg (hne _ (by decide)),
        if_neg (not_or.mpr ⟨hne _ (by decide), hne _ (by decide)⟩), if_neg hlt]
      split
      · rename_i hidx
        rw [pin_writeRedtbl hs]
        refine congrArg (s.pin i).step (if_congr ?_ rfl rfl)
        exact ⟨fun h => ⟨hlt, congrArg Fin.val h⟩, fun h => Fin.ext h.2⟩
      · rename_i hidx
        have hn : ¬ (¬ s.ioregsel < IO_WIN.setWidth 8 ∧
            ((s.ioregsel.setWidth 64 - IOAPIC_REG_REDTBL_BASE) >>> 1).toNat = i.val) :=
          fun h => hidx (h.2 ▸ i.isLt)
        rw [if_neg hn]
        rfl
  split
  · exact pin_eoi hs _ i
  · rfl

/-- Every operation treats each pin on its own. -/
theorem apply_pin (hs : s.Settled) (o : Op) (i : Fin IOAPIC_NUM_PINS) :
    (s.apply o).pin i = (s.pin i).step (s.action i o) := by
  cases o with
  | setIrq irqLine => exact pin_setIrq hs irqLine i
  | clearIrq irqLine => exact pin_clearIrq s irqLine i
  | write offset data => exact pin_write hs offset data i

/-- Any sequence of operations on a new IOAPIC. -/
def system : System IoApic Op := .ofStep (fun s => s = .new) fun s o => some (s.apply o)

theorem Settled.apply (hs : s.Settled) (o : Op) : (s.apply o).Settled := by
  intro i
  rw [apply_pin hs]
  exact Pin.step_settled (hs i) _

theorem settled_new : Settled .new := by
  intro i
  have he : entry .new i = 1#64 <<< IOAPIC_LVT_MASKED_SHIFT := Vector.getElem_replicate ..
  have hp : pin .new i = ⟨false, 1#64 <<< IOAPIC_LVT_MASKED_SHIFT, 0⟩ :=
    Pin.ext BitVec.getLsbD_zero he rfl
  rw [hp]
  exact ⟨fun h => (by cases h), fun _ => by decide⟩

theorem settled_of_reachable (h : system.Reachable s) : s.Settled := by
  refine h.invariant (I := Settled) ?_ ?_
  · rintro s rfl
    exact settled_new
  · intro s o s' hs he
    exact Option.some.inj he ▸ hs.apply o

theorem Settled.run (hs : s.Settled) (os : List Op) : (os.foldl IoApic.apply s).Settled := by
  induction os generalizing s with
  | nil => exact hs
  | cons o os ih => exact ih (hs.apply o)

end IoApic

end Whypa
