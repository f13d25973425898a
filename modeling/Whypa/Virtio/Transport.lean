import Whypa.Virtio.Mmio

/-!
# What a write to the transport does

One inversion lemma for each layer of `MmioTransport.write`: a write to a
register (`write_effect`), to the status register (`setDeviceStatus_effect`),
the activation of the device and its reset, and one for the steps of a run
(`Mmio.step_effect`). The facts about runs
(`Negotiation`, `Activation`) are derived from these, and never look at the
registers again.
-/

namespace Whypa

open Framework DeviceStatus

namespace MmioTransport

variable {t t' : MmioTransport} {v : BitVec 32} {backend : Bool}

/-! ## Registers -/

/-- `t'` differs from `t` at most in selectors, events, interrupts and the worker's thread. -/
structure Quiet (t t' : MmioTransport) : Prop where
  device : t'.device = { t.device with
    thread := t'.device.thread, stopEvent := t'.device.stopEvent, hostEvent := t'.device.hostEvent }
  thread : t.device.worker = none → t'.device.thread = t.device.thread
  hostEvent : t'.device.hostEvent = true → t.device.hostEvent = true ∨ t.device.listens = true
  deviceStatus : t'.deviceStatus = t.deviceStatus
  queues : t'.queues = t.queues
  queueEvts : t'.queueEvts.length = t.queueEvts.length
  queueConfig : t'.queueConfig = t.queueConfig
  irqLine : t'.interrupt.irqLine = t.interrupt.irqLine
  activations : t'.activations = t.activations
  panicked : t'.panicked = t.panicked

theorem Quiet.refl (t : MmioTransport) : Quiet t t :=
  ⟨rfl, fun _ => rfl, .inl, rfl, rfl, rfl, rfl, rfl, rfl, rfl⟩

/-- What a write to the register at `offset` can do. -/
inductive Effect (t : MmioTransport) (offset : BitVec 64) (data : List Byte) (backend : Bool) :
    MmioTransport → Prop
  | quiet {t' : MmioTransport} (h : Quiet t t') : Effect t offset data backend t'
  /-- It changes the size, the state or an address of the selected queue. -/
  | queue (f : Queue → Queue) (hf : ∀ q, (f q).maxSize = q.maxSize) :
      Effect t offset data backend (t.withQueueMut f)
  /-- It acknowledges features, while they are negotiated. -/
  | ack (hg : t.checkDeviceStatus DRIVER (FEATURES_OK ||| FAILED) = true) (page value : BitVec 32) :
      Effect t offset data backend { t with device := t.device.ackFeaturesByPage page value }
  | status (ho : offset = 0x70) (hd : data.length = 4) :
      Effect t offset data backend (t.setDeviceStatus (BitVec.ofNat 32 (ofLE data)) backend)

section
variable {offset : BitVec 64} {data : List Byte}

theorem Effect.ite {c : Prop} [Decidable c] {a b : MmioTransport}
    (ha : c → Effect t offset data backend a) (hb : Effect t offset data backend b) :
    Effect t offset data backend (if c then a else b) := by
  by_cases h : c
  · rw [if_pos h]; exact ha h
  · rw [if_neg h]; exact hb

theorem Effect.same : Effect t offset data backend t := .quiet (.refl t)

theorem updateQueueField_effect {f : Queue → Queue} (hf : ∀ q, (f q).maxSize = q.maxSize) :
    Effect t offset data backend (t.updateQueueField f) :=
  .ite (fun _ => .queue f hf) .same

/-- Every register, in the order of the source. -/
theorem write_effect (t : MmioTransport) (offset : BitVec 64) (data : List Byte) (backend : Bool) :
    Effect t offset data backend (t.write offset data backend) := by
  have hq : ∀ {t' : MmioTransport}, Quiet t t' → Effect t offset data backend t' := .quiet
  refine .ite (fun h => ?_) .same
  refine .ite (fun _ => hq ⟨rfl, fun _ => rfl, .inl, rfl, rfl, rfl, rfl, rfl, rfl, rfl⟩) ?_
  refine .ite (fun _ => .ite (fun hg => .ack hg _ _) .same) ?_
  refine .ite (fun _ => hq ⟨rfl, fun _ => rfl, .inl, rfl, rfl, rfl, rfl, rfl, rfl, rfl⟩) ?_
  refine .ite (fun _ => hq ⟨rfl, fun _ => rfl, .inl, rfl, rfl, rfl, rfl, rfl, rfl, rfl⟩) ?_
  refine .ite (fun _ => updateQueueField_effect fun _ => rfl) ?_
  refine .ite (fun _ => updateQueueField_effect fun _ => rfl) ?_
  refine .ite (fun _ => hq ⟨rfl, fun _ => rfl, .inl, rfl, rfl, List.length_modify .., rfl, rfl, rfl, rfl⟩) ?_
  refine .ite (fun _ => .ite (fun _ => .ite
    (fun _ => hq ⟨rfl, fun _ => rfl, .inl, rfl, rfl, rfl, rfl, rfl, rfl, rfl⟩)
    (hq ⟨rfl, fun _ => rfl, .inl, rfl, rfl, rfl, rfl, rfl, rfl, rfl⟩)) .same) ?_
  refine .ite (fun ho => .status ho h.2) ?_
  refine .ite (fun _ => updateQueueField_effect fun _ => rfl) ?_
  refine .ite (fun _ => updateQueueField_effect fun _ => rfl) ?_
  refine .ite (fun _ => updateQueueField_effect fun _ => rfl) ?_
  refine .ite (fun _ => updateQueueField_effect fun _ => rfl) ?_
  refine .ite (fun _ => updateQueueField_effect fun _ => rfl) ?_
  refine .ite (fun _ => updateQueueField_effect fun _ => rfl) ?_
  exact .ite (fun _ => hq ⟨rfl, fun _ => rfl, .inl, rfl, rfl, rfl, rfl, rfl, rfl, rfl⟩) .same

end

/-! ## The status register -/

/-- `v` sets the next bit of the handshake, and no other bit that is not set. -/
abbrev Advances (t : MmioTransport) (v : BitVec 32) : Prop :=
  ~~~t.deviceStatus &&& v = ACKNOWLEDGE ∧ t.deviceStatus = INIT ∨
  ~~~t.deviceStatus &&& v = DRIVER ∧ t.deviceStatus = ACKNOWLEDGE ∨
  ~~~t.deviceStatus &&& v = FEATURES_OK ∧ t.deviceStatus = ACKNOWLEDGE ||| DRIVER ∨
  ~~~t.deviceStatus &&& v = DRIVER_OK ∧ t.deviceStatus = ACKNOWLEDGE ||| DRIVER ||| FEATURES_OK

/-- `v` is the last step of the handshake, and the device is not active. -/
abbrev Activates (t : MmioTransport) (v : BitVec 32) : Prop :=
  ~~~t.deviceStatus &&& v = DRIVER_OK ∧
    t.deviceStatus = ACKNOWLEDGE ||| DRIVER ||| FEATURES_OK ∧ t.device.activated = false

theorem Activates.advances (h : t.Activates v) : t.Advances v := .inr (.inr (.inr ⟨h.1, h.2.1⟩))

/-- The transport after the device behind it is stopped. -/
def stopped (t : MmioTransport) : MmioTransport :=
  if t.device.activated then { t with device := t.device.reset.2 } else t

/-- What a write of `v` to the status register does. -/
inductive StatusEffect (t : MmioTransport) (v : BitVec 32) (backend : Bool) : MmioTransport → Prop
  | advance (h : t.Advances v) (hn : ¬ t.Activates v) :
      StatusEffect t v backend { t with deviceStatus := v }
  | activate (h : t.Activates v) :
      StatusEffect t v backend ({ t with deviceStatus := v }.activate backend)
  | failed (hn : ¬ t.Advances v) (h : v &&& FAILED ≠ 0) :
      StatusEffect t v backend { t with deviceStatus := t.deviceStatus ||| FAILED }
  | reset (h : v = 0) :
      StatusEffect t v backend
        (if t.deviceStatus &&& FAILED = 0 then t.stopped.reset else t.stopped)
  | invalid (hn : ¬ t.Advances v) (h : v &&& FAILED = 0) (h0 : v ≠ 0) : StatusEffect t v backend t

theorem setDeviceStatus_zero (t : MmioTransport) (backend : Bool) :
    t.setDeviceStatus 0 backend =
      if t.deviceStatus &&& FAILED = 0 then t.stopped.reset else t.stopped := by
  have h0 : ~~~t.deviceStatus &&& (0 : BitVec 32) = 0 := BitVec.and_zero
  have hf : ¬ ((0 : BitVec 32) &&& FAILED ≠ 0) := by decide
  have hs : t.stopped.deviceStatus = t.deviceStatus := by unfold stopped; split <;> rfl
  simp only [setDeviceStatus, h0]
  rw [if_neg (fun h => absurd h.1 (by decide)), if_neg (fun h => absurd h.1 (by decide)),
    if_neg (fun h => absurd h.1 (by decide)), if_neg (fun h => absurd h.1 (by decide)), if_neg hf,
    if_pos trivial]
  show (if t.stopped.deviceStatus &&& FAILED = 0 then t.stopped.reset else t.stopped) = _
  rw [hs]

theorem setDeviceStatus_effect (t : MmioTransport) (v : BitVec 32) (backend : Bool) :
    StatusEffect t v backend (t.setDeviceStatus v backend) := by
  by_cases hz : v = 0
  · subst hz
    rw [setDeviceStatus_zero]
    exact .reset rfl
  have hlast : ∀ {b : BitVec 32}, ~~~t.deviceStatus &&& v = b → b ≠ DRIVER_OK → ¬ t.Activates v :=
    fun h hb ha => hb (h.symm.trans ha.1)
  unfold setDeviceStatus
  simp only
  split
  · rename_i h
    exact .advance (.inl h) (hlast h.1 (by decide))
  rename_i h₁
  split
  · rename_i h
    exact .advance (.inr (.inl h)) (hlast h.1 (by decide))
  rename_i h₂
  split
  · rename_i h
    exact .advance (.inr (.inr (.inl h))) (hlast h.1 (by decide))
  rename_i h₃
  split
  · rename_i h
    split
    · rename_i ha
      exact .activate ⟨h.1, h.2, by simpa using ha⟩
    · rename_i ha
      refine .advance (.inr (.inr (.inr h))) fun h' => ha ?_
      rw [h'.2.2]
      rfl
  rename_i h₄
  have hn : ¬ t.Advances v := by
    rintro (h | h | h | h)
    · exact h₁ h
    · exact h₂ h
    · exact h₃ h
    · exact h₄ h
  split
  · rename_i hf
    exact .failed hn hf
  rename_i hf
  exact .invalid hn (not_not.mp hf) hz

/-! ## Activation -/

/-- The queues as they are handed to the device. -/
def deviceQueues (t : MmioTransport) (queues : List Queue) : List Queue :=
  (queues.take t.queueEvts.length).map fun q => q.setEventIdx
    (t.device.ackedFeatures &&& 1#64 <<< DeviceKind.VIRTIO_RING_F_EVENT_IDX ≠ 0#64)

/-- What the activation does: nothing without queues, or it hands them over. -/
theorem activate_cases (t : MmioTransport) (backend : Bool) :
    (t.queues = none ∧ t.activate backend = t) ∨
      ∃ queues device panicked, t.queues = some queues ∧
        t.activate backend = { t with
          queues := none
          activations := t.activations ++ [(t.deviceStatus, t.deviceQueues queues)]
          device := device
          panicked := panicked } ∧
        (device = t.device ∨ device = { t.device with
          worker := some (t.deviceQueues queues), thread := .waiting, activated := true,
          disk := false }) := by
  unfold activate
  split
  · rename_i h
    exact .inl ⟨h, rfl⟩
  · rename_i queues h
    refine .inr ⟨queues, ?_⟩
    simp only
    split
    · rename_i d hd
      refine ⟨d, t.panicked, h, rfl, .inr ?_⟩
      unfold VirtioDevice.activate at hd
      split at hd
      · cases hd
      split at hd
      · cases Option.some.inj hd
      · exact (Except.ok.inj (Option.some.inj hd)).symm
    · exact ⟨t.device, true, h, rfl, .inl rfl⟩
    · exact ⟨t.device, true, h, rfl, .inl rfl⟩

theorem activate_deviceStatus (t : MmioTransport) (backend : Bool) :
    (t.activate backend).deviceStatus = t.deviceStatus := by
  rcases activate_cases t backend with ⟨-, h⟩ | ⟨qs, d, p, -, h, -⟩
  · rw [h]
  · rw [h]

end MmioTransport

/-! ## Steps -/

namespace Mmio

open MmioTransport

variable {t t' : MmioTransport} {l : Label}

/-- What a step of the transport can do: `MmioTransport.Effect` of a write, and
nothing that counts here of what the worker does and the writes to the IOAPIC. -/
inductive StepEffect (t : MmioTransport) (l : Label) : MmioTransport → Prop
  | quiet {t' : MmioTransport} (h : Quiet t t') : StepEffect t l t'
  | queue (f : Queue → Queue) (hf : ∀ q, (f q).maxSize = q.maxSize) :
      StepEffect t l (t.withQueueMut f)
  | ack (hg : t.checkDeviceStatus DRIVER (FEATURES_OK ||| FAILED) = true) (page value : BitVec 32) :
      StepEffect t l { t with device := t.device.ackFeaturesByPage page value }
  | status (data : List Byte) (backend : Bool) (hl : l = .write 0x70 data backend)
      (hd : data.length = 4) :
      StepEffect t l (t.setDeviceStatus (BitVec.ofNat 32 (ofLE data)) backend)

theorem workerStep_quiet {w : WorkerStep} (hs : t.workerStep w = some t') : Quiet t t' := by
  cases w with
  | hostSignals =>
    obtain ⟨hl, hs⟩ := Option.ite_none_right_eq_some.mp hs
    obtain rfl := Option.some.inj hs
    exact ⟨rfl, fun _ => rfl, fun _ => .inr hl, rfl, rfl, rfl, rfl, rfl, rfl, rfl⟩
  | signal =>
    obtain ⟨-, hs⟩ := Option.ite_none_right_eq_some.mp hs
    obtain rfl := Option.some.inj hs
    exact ⟨rfl, fun _ => rfl, .inl, rfl, rfl, rfl, rfl, rfl, rfl, rfl⟩
  | wakes =>
    obtain ⟨hw, hs⟩ := Option.ite_none_right_eq_some.mp hs
    have hno : t.device.worker ≠ none := Option.isSome_iff_ne_none.mp hw.1
    split at hs
    · obtain rfl := Option.some.inj hs
      exact ⟨rfl, fun h => absurd h hno, .inl, rfl, rfl, List.length_modify .., rfl, rfl, rfl, rfl⟩
    · obtain ⟨-, hs⟩ := Option.ite_none_right_eq_some.mp hs
      obtain rfl := Option.some.inj hs
      exact ⟨rfl, fun h => absurd h hno, nofun, rfl, rfl, rfl, rfl, rfl, rfl, rfl⟩
  | rests | stops | ends =>
    obtain ⟨hw, hs⟩ := Option.ite_none_right_eq_some.mp hs
    obtain rfl := Option.some.inj hs
    exact ⟨rfl, fun h => absurd h (Option.isSome_iff_ne_none.mp hw.1), .inl, rfl, rfl, rfl, rfl, rfl, rfl,
      rfl⟩

theorem step_effect (hs : step t l = some t') : StepEffect t l t' := by
  cases l with
  | write offset data backend =>
    simp only [step] at hs
    split at hs
    · cases hs
    have he : Effect t offset data backend t' :=
      Option.some.inj hs ▸ write_effect t offset data backend
    cases he with
    | quiet h => exact .quiet h
    | queue f hf => exact .queue f hf
    | ack hg page value => exact .ack hg page value
    | status ho hd => exact .status data backend (ho ▸ rfl) hd
  | worker w => exact .quiet (workerStep_quiet hs)
  | ioapic offset data =>
    obtain rfl := Option.some.inj hs
    exact .quiet ⟨rfl, fun _ => rfl, .inl, rfl, rfl, rfl, rfl, rfl, rfl, rfl⟩

end Mmio

end Whypa
