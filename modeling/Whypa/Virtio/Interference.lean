import Whypa.Virtio.Config
import Whypa.Virtio.Transport

/-!
# The interrupt and the worker apart

What a transport does on a write does not depend on the interrupt controller,
which it shares with the other devices of the machine, nor on its own interrupt
status, its events and where the thread of its worker is. Transports that differ
in these only (`Alike`) stay so on the same write, which does no more to the
controller than lower the line of the device (`Alike.wiring_write`), and they
answer the same (`Alike.read`). What the worker does leaves a transport alike
(`alike_workerStep`).
-/

namespace Whypa

open Framework DeviceStatus

/-- What others than the driver change in a transport. -/
structure Outside where
  interrupt : InterruptTransport
  intc : IoApic
  queueEvts : List Bool
  thread : WorkerThread
  stopEvent : Bool
  hostEvent : Bool

namespace MmioTransport

def outside (t : MmioTransport) : Outside :=
  ⟨t.interrupt, t.intc, t.queueEvts, t.device.thread, t.device.stopEvent, t.device.hostEvent⟩

def withOutside (t : MmioTransport) (o : Outside) : MmioTransport :=
  { t with
    interrupt := o.interrupt
    intc := o.intc
    queueEvts := o.queueEvts
    device := { t.device with
      thread := o.thread, stopEvent := o.stopEvent, hostEvent := o.hostEvent } }

/-- `o` is wired as `t` is, and it is what `t` has but for the interrupt controller if that is to be
kept. -/
structure Fits (keep : Prop) (t : MmioTransport) (o : Outside) : Prop where
  irqLine : o.interrupt.irqLine = t.interrupt.irqLine
  queueEvts : o.queueEvts.length = t.queueEvts.length
  kept : keep → o = { t.outside with intc := o.intc }

/-- The transports differ in the interrupt controller only, or also in the rest of what is outside
the driver unless that is to be kept. -/
def Alike (keep : Prop) (t u : MmioTransport) : Prop := ∃ o, Fits keep t o ∧ u = t.withOutside o

section
variable {keep : Prop} {t u v : MmioTransport}

theorem fits_outside (keep : Prop) (t : MmioTransport) : Fits keep t t.outside := ⟨rfl, rfl, fun _ => rfl⟩

theorem Alike.refl (t : MmioTransport) : Alike keep t t := ⟨t.outside, fits_outside keep t, rfl⟩

theorem Alike.symm (h : Alike keep t u) : Alike keep u t := by
  obtain ⟨o, ho, rfl⟩ := h
  refine ⟨t.outside, ⟨ho.irqLine.symm, ho.queueEvts.symm, fun hk => ?_⟩, rfl⟩
  show t.outside = { o with intc := t.intc }
  rw [ho.kept hk]
  rfl

theorem Alike.trans (h : Alike keep t u) (h' : Alike keep u v) : Alike keep t v := by
  obtain ⟨o, ho, rfl⟩ := h
  obtain ⟨o', ho', rfl⟩ := h'
  refine ⟨o', ⟨ho'.irqLine.trans ho.irqLine, ho'.queueEvts.trans ho.queueEvts, fun hk => ?_⟩, rfl⟩
  refine (ho'.kept hk).trans ?_
  show { o with intc := o'.intc } = { t.outside with intc := o'.intc }
  rw [ho.kept hk]

theorem alike_equivalence : Equivalence (Alike keep) := ⟨.refl, .symm, .trans⟩

/-- What the outside has no part in is the same. -/
theorem Alike.same {β : Type} (h : Alike keep t u) (f : MmioTransport → β)
    (hf : ∀ o, f (t.withOutside o) = f t) : f u = f t := by
  obtain ⟨o, -, rfl⟩ := h
  exact hf o

/-- Transports that differ in the interrupt controller only. -/
theorem alike_intc (t : MmioTransport) (c : IoApic) : Alike keep t { t with intc := c } :=
  ⟨{ t.outside with intc := c }, ⟨rfl, rfl, fun _ => rfl⟩, rfl⟩

theorem Alike.eq_of_kept (h : Alike True t u) : u = { t with intc := u.intc } := by
  obtain ⟨o, ho, rfl⟩ := h
  rw [ho.kept trivial]
  rfl

end

/-! ## Writes -/

/-- What two alike transports `t` and `u` may come to by the same write: `t'` and `u'`, alike
again, with no more than the device's line lowered. -/
structure Wiring (keep : Prop) (t t' u' : MmioTransport) : Prop where
  alike : Alike keep t' u'
  irqLine : t'.interrupt.irqLine = t.interrupt.irqLine
  intc : t'.intc = t.intc ∨ t'.intc = t.intc.clearIrq t.interrupt.irqLine

section
variable {keep : Prop} {t t' u' : MmioTransport} {o : Outside}

theorem Wiring.ite {p : Prop} [Decidable p] {a b a' b' : MmioTransport} (ha : Wiring keep t a a')
    (hb : Wiring keep t b b') : Wiring keep t (if p then a else b) (if p then a' else b') := by
  split
  · exact ha
  · exact hb

theorem activate_none {backend : Bool} (hq : t.queues = none) : t.activate backend = t := by
  rw [activate, hq]

/-- Queues handed to the device leave the transport, whether the device takes them or not. -/
theorem activate_some {backend : Bool} {queues : List Queue} (hq : t.queues = some queues) :
    t.activate backend =
      match t.device.activate backend (t.deviceQueues queues) with
      | some (.ok d) => { t with
          queues := none
          activations := t.activations ++ [(t.deviceStatus, t.deviceQueues queues)]
          device := d }
      | some (.error _) | none => { t with
          queues := none
          activations := t.activations ++ [(t.deviceStatus, t.deviceQueues queues)]
          panicked := true } := by
  rw [activate, hq]
  rfl

/-- Whether a device takes the queues does not depend on what is outside. -/
theorem activate_outside (t : MmioTransport) (o : Outside) (backend : Bool) (queues : List Queue) :
    (t.withOutside o).device.activate backend queues =
      (t.device.activate backend queues).map (Except.map fun d =>
        { d with stopEvent := o.stopEvent, hostEvent := o.hostEvent }) := by
  have ho : (t.withOutside o).device.opens backend = t.device.opens backend := rfl
  unfold VirtioDevice.activate
  rw [ho]
  show (if t.device.worker.isSome then _ else
    if queues.length ≠ t.device.kind.queueConfig.length ∨ !t.device.opens backend then _ else _) = _
  split
  · rfl
  split
  · rfl
  · rfl

/-- A device that takes the queues has a worker that waits. -/
theorem activate_ok {backend : Bool} {queues : List Queue} {d : VirtioDevice}
    (h : t.device.activate backend queues = some (.ok d)) : d = { t.device with
      worker := some queues, thread := .waiting, activated := true, disk := false } := by
  unfold VirtioDevice.activate at h
  split at h
  · cases h
  split at h
  · cases Option.some.inj h
  · exact (Except.ok.inj (Option.some.inj h)).symm

section
variable (hf : Fits keep t o)
include hf

/-- A change that leaves the outside alone. -/
theorem Fits.wiring (ht : t'.outside = t.outside) (hu : u' = t'.withOutside o) : Wiring keep t t' u' := by
  have hi : t'.interrupt = t.interrupt := congrArg Outside.interrupt ht
  refine ⟨⟨o, ⟨?_, ?_, fun hk => ?_⟩, hu⟩, by rw [hi], .inl (congrArg Outside.intc ht)⟩
  · rw [hi, hf.irqLine]
  · rw [show t'.queueEvts = t.queueEvts from congrArg Outside.queueEvts ht, hf.queueEvts]
  · rw [ht]
    exact hf.kept hk

theorem Fits.wiring_activate (backend : Bool) :
    Wiring keep t (t.activate backend) ((t.withOutside o).activate backend) := by
  rcases Option.eq_none_or_eq_some t.queues with hq | ⟨queues, hq⟩
  · rw [activate_none hq, activate_none (t := t.withOutside o) hq]
    exact hf.wiring rfl rfl
  have hd : deviceQueues (t.withOutside o) queues = t.deviceQueues queues := by
    show List.map _ (queues.take o.queueEvts.length) = _
    rw [hf.queueEvts]
    rfl
  rw [activate_some hq, activate_some (t := t.withOutside o) hq, hd, activate_outside]
  cases h : t.device.activate backend (t.deviceQueues queues) with
  | none => exact hf.wiring rfl rfl
  | some r =>
    cases r with
    | error e => exact hf.wiring rfl rfl
    | ok d =>
      obtain rfl := activate_ok h
      refine ⟨⟨{ o with thread := .waiting }, ⟨hf.irqLine, hf.queueEvts, fun hk => ?_⟩, rfl⟩, rfl, .inl rfl⟩
      exact congrArg (fun p : Outside => { p with thread := .waiting }) (hf.kept hk)

theorem Fits.wiring_reset : Wiring keep t t.reset (t.withOutside o).reset := by
  refine ⟨⟨{ o with interrupt := { o.interrupt with status := 0 } },
    ⟨hf.irqLine, hf.queueEvts, fun hk => ?_⟩, rfl⟩, rfl, .inl rfl⟩
  exact congrArg (fun p : Outside => { p with interrupt := { p.interrupt with status := 0 } })
    (hf.kept hk)

/-- A worker is joined wherever its thread is. -/
theorem Fits.stopped {r : MmioTransport} (hr : r = { t with device := t.device.reset.2 }) :
    ∃ p, Fits keep r p ∧ { t.withOutside o with device := (t.withOutside o).device.reset.2 } =
      r.withOutside p := by
  subst hr
  refine ⟨{ o with
      thread := .waiting
      stopEvent := if t.device.worker.isSome then decide (o.thread = WorkerThread.ended) else o.stopEvent
      hostEvent := o.hostEvent && decide (t.device.kind ≠ DeviceKind.net) },
    ⟨hf.irqLine, hf.queueEvts, fun hk => ?_⟩, rfl⟩
  exact congrArg (fun p : Outside => { p with
    thread := .waiting
    stopEvent := if t.device.worker.isSome then decide (p.thread = WorkerThread.ended) else p.stopEvent
    hostEvent := p.hostEvent && decide (t.device.kind ≠ DeviceKind.net) }) (hf.kept hk)

theorem Fits.wiring_notify (i : Nat) : Wiring keep t
    { t with queueEvts := t.queueEvts.modify i fun _ => true }
    { t.withOutside o with queueEvts := o.queueEvts.modify i fun _ => true } := by
  refine ⟨⟨{ o with queueEvts := o.queueEvts.modify i fun _ => true },
    ⟨hf.irqLine, ?_, fun hk => ?_⟩, rfl⟩, rfl, .inl rfl⟩
  · show (o.queueEvts.modify i _).length = (t.queueEvts.modify i _).length
    rw [List.length_modify, List.length_modify, hf.queueEvts]
  · exact congrArg (fun p : Outside => { p with queueEvts := p.queueEvts.modify i fun _ => true })
      (hf.kept hk)

/-- An acknowledgement lowers the line if it leaves no status in `t`. -/
theorem Fits.wiring_acknowledge (v : BitVec 32) :
    Wiring keep t
      (if (t.interrupt.fetchAnd v).status = 0 then
        { t with
          interrupt := t.interrupt.fetchAnd v, intc := t.intc.clearIrq t.interrupt.irqLine }
      else { t with interrupt := t.interrupt.fetchAnd v })
      (if (o.interrupt.fetchAnd v).status = 0 then
        { t.withOutside o with
          interrupt := o.interrupt.fetchAnd v, intc := o.intc.clearIrq o.interrupt.irqLine }
      else { t.withOutside o with interrupt := o.interrupt.fetchAnd v }) := by
  have h : ∀ c c' : IoApic,
      Alike keep { t with interrupt := t.interrupt.fetchAnd v, intc := c }
        { t.withOutside o with interrupt := o.interrupt.fetchAnd v, intc := c' } := by
    refine fun c c' => ⟨{ o with interrupt := o.interrupt.fetchAnd v, intc := c' },
      ⟨hf.irqLine, hf.queueEvts, fun hk => ?_⟩, rfl⟩
    exact congrArg (fun p : Outside => { p with interrupt := p.interrupt.fetchAnd v, intc := c' })
      (hf.kept hk)
  split <;> split
  · exact ⟨h _ _, rfl, .inr rfl⟩
  · exact ⟨h _ _, rfl, .inr rfl⟩
  · exact ⟨h _ _, rfl, .inl rfl⟩
  · exact ⟨h _ _, rfl, .inl rfl⟩

theorem Fits.wiring_updateQueueField (f : Queue → Queue) :
    Wiring keep t (t.updateQueueField f) ((t.withOutside o).updateQueueField f) :=
  .ite (hf.wiring rfl rfl) (hf.wiring rfl rfl)

theorem Fits.wiring_setDeviceStatus (s : BitVec 32) (backend : Bool) :
    Wiring keep t (t.setDeviceStatus s backend) ((t.withOutside o).setDeviceStatus s backend) := by
  have hw : ∀ d, Wiring keep t { t with deviceStatus := d }
      { t.withOutside o with deviceStatus := d } := fun d => hf.wiring rfl rfl
  have hsame : Wiring keep t t (t.withOutside o) := hf.wiring rfl rfl
  refine .ite (hw s) (.ite (hw s) (.ite (hw s) (.ite ?_ (.ite (hw _) (.ite ?_ hsame)))))
  · have hf' : Fits keep { t with deviceStatus := s } o := ⟨hf.irqLine, hf.queueEvts, hf.kept⟩
    have h := hf'.wiring_activate backend
    exact .ite ⟨h.alike, h.irqLine, h.intc⟩ (hw s)
  · by_cases ha : t.device.activated = true
    · obtain ⟨p, hp, he⟩ := hf.stopped rfl
      have h := hp.wiring_reset
      simp only [ha, if_true, show (t.withOutside o).device.activated = true from ha, he]
      exact .ite ⟨h.alike, h.irqLine, h.intc⟩ ⟨⟨p, hp, rfl⟩, rfl, .inl rfl⟩
    · simp only [ha, show ¬ (t.withOutside o).device.activated = true from ha]
      exact .ite hf.wiring_reset hsame

/-- Every register, in the order of the source. -/
theorem Fits.wiring_write (offset : BitVec 64) (data : List Byte) (backend : Bool) :
    Wiring keep t (t.write offset data backend) ((t.withOutside o).write offset data backend) := by
  have hsame : Wiring keep t t (t.withOutside o) := hf.wiring rfl rfl
  have hq := hf.wiring_updateQueueField
  refine .ite ?_ hsame
  refine .ite (hf.wiring rfl rfl) (.ite (.ite (hf.wiring rfl rfl) hsame) ?_)
  refine .ite (hf.wiring rfl rfl) (.ite (hf.wiring rfl rfl) ?_)
  refine .ite (hq _) (.ite (hq _) (.ite (hf.wiring_notify _) (.ite (.ite ?_ hsame) ?_)))
  · exact hf.wiring_acknowledge _
  refine .ite (hf.wiring_setDeviceStatus _ backend) (.ite (hq _) (.ite (hq _) ?_))
  refine .ite (hq _) (.ite (hq _) (.ite (hq _) (.ite (hq _) ?_)))
  exact .ite (hf.wiring rfl rfl) hsame

end

end

section
variable {keep : Prop} {t t' u : MmioTransport}

theorem Alike.write (h : Alike keep t u) (offset : BitVec 64) (data : List Byte) (backend : Bool) :
    Alike keep (t.write offset data backend) (u.write offset data backend) := by
  obtain ⟨o, ho, rfl⟩ := h
  exact (ho.wiring_write offset data backend).alike

theorem write_irqLine (offset : BitVec 64) (data : List Byte) (backend : Bool) :
    (t.write offset data backend).interrupt.irqLine = t.interrupt.irqLine :=
  ((fits_outside True t).wiring_write offset data backend).irqLine

theorem write_intc (offset : BitVec 64) (data : List Byte) (backend : Bool) :
    (t.write offset data backend).intc = t.intc ∨
      (t.write offset data backend).intc = t.intc.clearIrq t.interrupt.irqLine :=
  ((fits_outside True t).wiring_write offset data backend).intc

/-- Only the question for the interrupt status is answered by it. -/
theorem Alike.read (h : Alike keep t u) (config : DeviceConfig) {offset : BitVec 64}
    (ho : offset = 0x60 → keep) (data : List Byte) :
    u.read config offset data = t.read config offset data := by
  obtain ⟨o, hf, rfl⟩ := h
  have hr : (t.withOutside o).readRegister offset = t.readRegister offset := by
    by_cases h60 : offset = 0x60
    · have hi : o.interrupt = t.interrupt := congrArg Outside.interrupt (hf.kept (ho h60))
      simp only [readRegister, withOutside, hi]
      rfl
    · simp only [readRegister, h60, if_false]
      rfl
  rw [MmioTransport.read, MmioTransport.read, hr]

/-! ## The worker -/

/-- What the worker does is outside the driver. -/
theorem alike_workerStep {w : WorkerStep} (hs : t.workerStep w = some t') : Alike False t t' := by
  refine ⟨t'.outside, ?_⟩
  cases w with
  | wakes =>
    obtain ⟨-, hs⟩ := Option.ite_none_right_eq_some.mp hs
    split at hs
    · obtain rfl := Option.some.inj hs
      exact ⟨⟨rfl, List.length_modify .., False.elim⟩, rfl⟩
    · obtain ⟨-, hs⟩ := Option.ite_none_right_eq_some.mp hs
      obtain rfl := Option.some.inj hs
      exact ⟨⟨rfl, rfl, False.elim⟩, rfl⟩
  | _ =>
    obtain ⟨-, hs⟩ := Option.ite_none_right_eq_some.mp hs
    obtain rfl := Option.some.inj hs
    exact ⟨⟨rfl, rfl, False.elim⟩, rfl⟩

/-- The interrupt controller after a step of the worker: a signal raises the line of the device. -/
def workerIntc (w : WorkerStep) (irqLine : Option (BitVec 32)) (c : IoApic) : IoApic :=
  match w with
  | .signal _ => c.setIrq irqLine
  | _ => c

/-- What the worker does is the same with any interrupt controller. -/
theorem workerStep_intc (t : MmioTransport) (c : IoApic) (w : WorkerStep) :
    workerStep { t with intc := c } w = (t.workerStep w).map fun t' =>
      { t' with intc := workerIntc w t.interrupt.irqLine c } := by
  have hif : ∀ (p : Prop) [Decidable p] {a b a' b' : Option MmioTransport},
      a' = a.map (fun t' => { t' with intc := workerIntc w t.interrupt.irqLine c }) →
      b' = b.map (fun t' => { t' with intc := workerIntc w t.interrupt.irqLine c }) →
      (if p then a' else b') = (if p then a else b).map fun t' =>
        { t' with intc := workerIntc w t.interrupt.irqLine c } := fun p _ a b a' b' ha hb => by
    rw [apply_ite (Option.map _), ha, hb]
  cases w with
  | wakes => exact hif _ (hif _ rfl (hif _ rfl rfl)) rfl
  | _ => exact hif _ rfl rfl

theorem workerStep_outside {w : WorkerStep} (hs : t.workerStep w = some t') :
    t'.interrupt.irqLine = t.interrupt.irqLine ∧
      t'.intc = workerIntc w t.interrupt.irqLine t.intc := by
  refine ⟨(Mmio.workerStep_quiet hs).irqLine, ?_⟩
  have h := workerStep_intc t t.intc w
  rw [hs] at h
  exact congrArg intc (Option.some.inj h)

theorem Alike.workerStep (h : Alike True t u) {w : WorkerStep} {u' : MmioTransport}
    (hs : u.workerStep w = some u') : ∃ t', t.workerStep w = some t' ∧ Alike True t' u' := by
  rw [h.eq_of_kept, workerStep_intc] at hs
  obtain ⟨t', ht, rfl⟩ := Option.map_eq_some_iff.mp hs
  exact ⟨t', ht, alike_intc t' _⟩

end

end MmioTransport

end Whypa
