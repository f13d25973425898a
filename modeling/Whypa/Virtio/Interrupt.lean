import Whypa.Framework.Reach
import Whypa.Irq.Service

/-!
# The transport's interrupt line

The interrupt status of a transport and its line into the IOAPIC. A worker
signals in two steps (`try_signal`: set bits of the status, then raise the
line), the guest acknowledges in two steps (clear bits of the status, then
lower the line if none is left), and nothing orders the two against each other.
`irq_kept` is the point of this file: as long as the line is lowered only while
the status is clear or a signal is under way, a non-zero status keeps the
request of its pin, and the guest's end of interrupt delivers it again;
`irq_lost` is a run in which it is not.
-/

namespace Whypa

open Framework

def VIRTIO_MMIO_INT_VRING : BitVec 32 := 0x01

/-- The interrupt status of a transport, and its line if it has one. -/
structure InterruptTransport where
  status : BitVec 64
  irqLine : Option (BitVec 32)
deriving DecidableEq, Repr

namespace InterruptTransport

/-- The first step of `try_signal`. -/
def fetchOr (t : InterruptTransport) (status : BitVec 32) : InterruptTransport :=
  { t with status := t.status ||| status.setWidth 64 }

/-- The first step of a write to `InterruptAck`. -/
def fetchAnd (t : InterruptTransport) (v : BitVec 32) : InterruptTransport :=
  { t with status := t.status &&& ~~~(v.setWidth 64) }

end InterruptTransport

namespace Interrupt

structure State where
  interrupt : InterruptTransport
  ioapic : IoApic
  /-- Calls of `try_signal` that have yet to raise the line. -/
  signals : Nat
  /-- Acknowledgements that have yet to lower the line. -/
  clears : Nat

inductive Label
  | fetchOr (status : BitVec 32)
  | setIrq
  | fetchAnd (v : BitVec 32)
  | clearIrq
  /-- The guest ends an interrupt or reprograms the IOAPIC, but not this pin's mask and trigger
  mode. -/
  | write (offset : BitVec 64) (data : List Byte)
  | raiseOther (j : Fin IOAPIC_NUM_PINS)
  | lowerOther (j : Fin IOAPIC_NUM_PINS)

variable (i : Fin IOAPIC_NUM_PINS)

/-- The pin's entry is level-triggered and not masked. -/
def Routed (s : IoApic) : Prop :=
  IoApic.level (s.entry i) = true ∧ IoApic.masked (s.entry i) = false

instance (s : IoApic) : Decidable (Routed i s) :=
  inferInstanceAs (Decidable (IoApic.level (s.entry i) = true ∧ IoApic.masked (s.entry i) = false))

/-- One step of a worker, of the guest, or of another device. -/
def step (s : State) : Label → Option State
  | .fetchOr status =>
    some { s with interrupt := s.interrupt.fetchOr status, signals := s.signals + 1 }
  | .setIrq =>
    if 0 < s.signals then
      some { s with ioapic := s.ioapic.setIrq s.interrupt.irqLine, signals := s.signals - 1 }
    else none
  | .fetchAnd v =>
    some { s with
      interrupt := s.interrupt.fetchAnd v
      clears := if (s.interrupt.fetchAnd v).status = 0 then s.clears + 1 else s.clears }
  | .clearIrq =>
    if 0 < s.clears then
      some { s with ioapic := s.ioapic.clearIrq s.interrupt.irqLine, clears := s.clears - 1 }
    else none
  | .write offset data =>
    if Routed i (s.ioapic.write offset data) then
      some { s with ioapic := s.ioapic.write offset data }
    else none
  | .raiseOther j =>
    if j ≠ i then some { s with ioapic := s.ioapic.setIrq (IoApic.line j) } else none
  | .lowerOther j =>
    if j ≠ i then some { s with ioapic := s.ioapic.clearIrq (IoApic.line j) } else none

/-- From a clear status, with the transport on the line of pin `i`. -/
def system : System State Label :=
  .ofStep (fun s => s.interrupt.status = 0 ∧ s.interrupt.irqLine = IoApic.line i ∧
    Routed i s.ioapic ∧ s.signals = 0 ∧ s.clears = 0) (step i)

/-- The line is lowered only while the status is clear or a signal is under way. -/
def Lowers (s : State) (l : Label) : Prop :=
  l = .clearIrq → s.interrupt.status = 0 ∨ 0 < s.signals

instance (s : State) (l : Label) : Decidable (Lowers s l) :=
  match l with
  | .clearIrq => decidable_of_iff (s.interrupt.status = 0 ∨ 0 < s.signals) ⟨fun h _ => h, fun h => h rfl⟩
  | .fetchOr _ => isTrue fun h => by cases h
  | .setIrq => isTrue fun h => by cases h
  | .fetchAnd _ => isTrue fun h => by cases h
  | .write .. => isTrue fun h => by cases h
  | .raiseOther _ => isTrue fun h => by cases h
  | .lowerOther _ => isTrue fun h => by cases h

variable {i} {s s' : State} {l : Label}

/-- The invariant: what the status reports is requested, or about to be. -/
structure Inv (i : Fin IOAPIC_NUM_PINS) (s : State) : Prop where
  line : s.interrupt.irqLine = IoApic.line i
  routed : Routed i s.ioapic
  kept : s.interrupt.status ≠ 0 → s.ioapic.requested i = true ∨ 0 < s.signals

theorem Routed.serviced {a b : IoApic} (h : Routed i a) (hs : IoApic.Serviced a b) : Routed i b :=
  ⟨(hs.routing i).level.trans h.1, (hs.routing i).masked.trans h.2⟩

/-- Raising a line keeps the requests and the routing of a level-triggered pin. -/
theorem setIrq_kept {a : IoApic} (h : Routed i a) (j : Fin IOAPIC_NUM_PINS) :
    Routed i (a.setIrq (IoApic.line j)) ∧
      (a.setIrq (IoApic.line j)).requested i = (a.requested i || decide (j = i)) := by
  rw [IoApic.setIrq_line]
  have hr : Routed i { a with irr := a.irr ||| 1#32 <<< j.val } := h
  have hs := IoApic.service_serviced { a with irr := a.irr ||| 1#32 <<< j.val }
  exact ⟨hr.serviced hs, (hs.requested i h.1).trans (IoApic.requested_or a j i)⟩

theorem inv_step (hi : Inv i s) (hc : Lowers s l) (hs : step i s l = some s') : Inv i s' := by
  cases l with
  | fetchOr status =>
    obtain rfl := Option.some.inj hs
    exact ⟨hi.line, hi.routed, fun _ => .inr (Nat.succ_pos _)⟩
  | setIrq =>
    obtain ⟨-, e⟩ := Option.ite_none_right_eq_some.mp hs
    obtain rfl := Option.some.inj e
    rw [hi.line]
    obtain ⟨hr, hreq⟩ := setIrq_kept hi.routed i
    exact ⟨hi.line, hr, fun _ => .inl (by rw [hreq, decide_eq_true rfl, Bool.or_true])⟩
  | fetchAnd v =>
    obtain rfl := Option.some.inj hs
    refine ⟨hi.line, hi.routed, fun h => hi.kept fun h0 => h ?_⟩
    show s.interrupt.status &&& _ = 0
    rw [h0]
    exact BitVec.zero_and
  | clearIrq =>
    obtain ⟨-, e⟩ := Option.ite_none_right_eq_some.mp hs
    obtain rfl := Option.some.inj e
    rw [hi.line, IoApic.clearIrq_line]
    refine ⟨hi.line, hi.routed, fun h => ?_⟩
    exact .inr ((hc rfl).resolve_left h)
  | write offset data =>
    obtain ⟨hr, e⟩ := Option.ite_none_right_eq_some.mp hs
    obtain rfl := Option.some.inj e
    refine ⟨hi.line, hr, fun h => (hi.kept h).imp_left fun hk => ?_⟩
    exact (IoApic.write_requested hi.routed.1 hr.1).trans hk
  | raiseOther j =>
    obtain ⟨-, e⟩ := Option.ite_none_right_eq_some.mp hs
    obtain rfl := Option.some.inj e
    obtain ⟨hr, hreq⟩ := setIrq_kept hi.routed j
    exact ⟨hi.line, hr, fun h => (hi.kept h).imp_left fun hk => by rw [hreq, hk, Bool.true_or]⟩
  | lowerOther j =>
    obtain ⟨hne, e⟩ := Option.ite_none_right_eq_some.mp hs
    obtain rfl := Option.some.inj e
    rw [IoApic.clearIrq_line]
    refine ⟨hi.line, hi.routed, fun h => (hi.kept h).imp_left fun hk => ?_⟩
    exact (IoApic.requested_and_not s.ioapic j i).trans (by rw [hk, decide_eq_false hne]; rfl)

/-- In every run that lowers the line only while the status is clear or a
signal is under way, in every state reached with no signal in progress (whether
or not an acknowledgement is): a non-zero status has its pin requested, and if
the pin's last interrupt has not ended yet, its end delivers it again. -/
theorem irq_kept (h : ((system i).under Lowers).Reachable s) (hsig : s.signals = 0)
    (hst : s.interrupt.status ≠ 0) :
    s.ioapic.requested i = true ∧
      (IoApic.remoteIrr (s.ioapic.entry i) = true →
        IoApic.Delivered s.ioapic (s.ioapic.eoi (IoApic.vector (s.ioapic.entry i))) i) := by
  have hi : Inv i s := by
    refine h.invariant (I := Inv i) ?_ ?_
    · rintro s ⟨h0, hl, hr, -, -⟩
      exact ⟨hl, hr, fun h => absurd h0 h⟩
    · rintro s l s' hi ⟨hc, hs⟩
      exact inv_step hi hc hs
  have hreq : s.ioapic.requested i = true :=
    (hi.kept hst).resolve_right (by rw [hsig]; exact lt_irrefl 0)
  exact ⟨hreq, fun hr => IoApic.eoi_delivers ⟨hreq, hi.routed.1, hi.routed.2⟩ hr⟩

/-- Pin 20 unmasked, level-triggered, with vector 0x30; the status clear. -/
def start : State :=
  { interrupt := ⟨0, IoApic.line 20⟩
    ioapic := { IoApic.new with ioredtbl := IoApic.new.ioredtbl.set 20 0x8030 }
    signals := 0
    clears := 0 }

theorem start_init : (system 20).init start :=
  ⟨rfl, rfl, by decide +kernel, rfl, rfl⟩

theorem irq_kept_one : ∃ s, ((system 20).under Lowers).Reachable s ∧ s.interrupt.status = 1 ∧
    s.ioapic.requested 20 = true := by
  have hr : ([Label.fetchOr VIRTIO_MMIO_INT_VRING, .setIrq].foldlM
      (fun s l => if Lowers s l then step 20 s l else none) start).map
      (fun s => (s.signals, s.clears, s.interrupt.status)) = some (0, 0, 1) := by decide +kernel
  obtain ⟨s, hs, he⟩ := Option.map_eq_some_iff.mp hr
  simp only [Prod.mk.injEq] at he
  have h0 : ((system 20).under Lowers).Reachable start := .init start_init
  have h := h0.foldlM_under _ hs
  exact ⟨s, h, he.2.2, (irq_kept h he.1 (by rw [he.2.2]; decide)).1⟩

/-- A signal between the two steps of an acknowledgement is lost. -/
theorem irq_lost : ∃ s, (system 20).Reachable s ∧ s.signals = 0 ∧ s.clears = 0 ∧
    s.interrupt.status ≠ 0 ∧ s.ioapic.requested 20 = false := by
  have hr : ([Label.fetchOr VIRTIO_MMIO_INT_VRING, .setIrq, .fetchAnd VIRTIO_MMIO_INT_VRING,
      .fetchOr VIRTIO_MMIO_INT_VRING, .setIrq, .clearIrq].foldlM (step 20) start).map
      (fun s => (s.signals, s.clears, s.interrupt.status, s.ioapic.requested 20)) =
      some (0, 0, 1, false) := by decide +kernel
  obtain ⟨s, hs, he⟩ := Option.map_eq_some_iff.mp hr
  simp only [Prod.mk.injEq] at he
  have h0 : (system 20).Reachable start := .init start_init
  exact ⟨s, h0.foldlM _ hs, he.1, he.2.1, by rw [he.2.2.1]; decide, he.2.2.2⟩

end Interrupt

end Whypa
