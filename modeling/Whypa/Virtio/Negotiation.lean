import Whypa.Virtio.Transport

/-!
# The device status over a run

`status_bits_kept` says when the bits of the device status are never cleared
but by a reset: the four steps of the handshake store the whole value written,
so a driver that sets the next bit and leaves out the earlier ones clears them.
`reset_fresh_iff` says from which states a write of zero restores the
negotiation state of a new transport.
-/

namespace Whypa

open Framework DeviceStatus

namespace Mmio

open MmioTransport

variable {t t' : MmioTransport} {v : BitVec 32} {backend : Bool} {l : Label}

/-! ## The status bits -/

/-- A value that sets the next bit of the handshake repeats the bits already set. -/
abbrev Repeats (t : MmioTransport) (v : BitVec 32) : Prop :=
  t.Advances v → t.deviceStatus &&& v = t.deviceStatus

/-- The guest's writes to the status register repeat the bits already set. -/
def Polite (t : MmioTransport) : Label → Prop
  | .write offset data _ =>
    offset = 0x70 → data.length = 4 → Repeats t (BitVec.ofNat 32 (ofLE data))
  | _ => True

instance (t : MmioTransport) (l : Label) : Decidable (Polite t l) :=
  match l with
  | .write offset data _ => inferInstanceAs (Decidable (offset = 0x70 → data.length = 4 → _))
  | .worker _ => isTrue trivial
  | .ioapic .. => isTrue trivial

/-- The values of the handshake, each with or without `FAILED`. -/
def handshake : List (BitVec 32) :=
  [INIT, ACKNOWLEDGE, ACKNOWLEDGE ||| DRIVER, ACKNOWLEDGE ||| DRIVER ||| FEATURES_OK,
    ACKNOWLEDGE ||| DRIVER ||| FEATURES_OK ||| DRIVER_OK].flatMap fun s => [s, s ||| FAILED]

/-- All four bits of the handshake. -/
def HANDSHAKE : BitVec 32 := ACKNOWLEDGE ||| DRIVER ||| FEATURES_OK ||| DRIVER_OK

/-- A step of the handshake that repeats the bits set adds the next one. -/
theorem advance_eq (h : t.deviceStatus &&& v = t.deviceStatus) :
    v = t.deviceStatus ||| (~~~t.deviceStatus &&& v) := by
  calc v = (t.deviceStatus &&& v) ||| (~~~t.deviceStatus &&& v) := (and_or_not_and _ v).symm
    _ = t.deviceStatus ||| (~~~t.deviceStatus &&& v) := by rw [h]

/-- It leads to the next value of the handshake. -/
theorem advance_mem (ha : t.Advances v) (h : t.deviceStatus &&& v = t.deviceStatus) :
    v ∈ handshake := by
  rw [advance_eq h]
  rcases ha with ⟨hc, hs⟩ | ⟨hc, hs⟩ | ⟨hc, hs⟩ | ⟨hc, hs⟩
  · rw [hc, hs]; decide
  · rw [hc, hs]; decide
  · rw [hc, hs]; decide
  · rw [hc, hs]; decide

theorem failed_mem {s : BitVec 32} (h : s ∈ handshake) : s ||| FAILED ∈ handshake := by
  have hall : handshake.all (fun s => handshake.contains (s ||| FAILED)) = true := by decide
  exact List.contains_iff_mem.mp (List.all_eq_true.mp hall s h)

/-- A write of a non-zero value keeps the bits set exactly if it repeats them
when it sets the next one. -/
theorem setDeviceStatus_keeps_iff (h0 : v ≠ 0) :
    t.deviceStatus &&& (t.setDeviceStatus v backend).deviceStatus = t.deviceStatus ↔
      Repeats t v := by
  have he := setDeviceStatus_effect t v backend
  generalize t.setDeviceStatus v backend = t' at he ⊢
  cases he with
  | advance h hn => exact ⟨fun hk _ => hk, fun hr => hr h⟩
  | activate h =>
    rw [activate_deviceStatus]
    exact ⟨fun hk _ => hk, fun hr => hr h.advances⟩
  | failed hn hf => exact ⟨fun _ ha => absurd ha hn, fun _ => and_or_self _ _⟩
  | reset h => exact absurd h h0
  | invalid hn hf h0 => exact ⟨fun _ ha => absurd ha hn, fun _ => BitVec.and_self⟩

structure StatusInv (t : MmioTransport) : Prop where
  status : t.deviceStatus ∈ handshake
  activations : ∀ a ∈ t.activations, a.1 &&& HANDSHAKE = HANDSHAKE

theorem StatusInv.setDeviceStatus (hi : StatusInv t) (hr : Repeats t v) :
    StatusInv (t.setDeviceStatus v backend) := by
  have he := setDeviceStatus_effect t v backend
  generalize t.setDeviceStatus v backend = t' at he ⊢
  cases he with
  | advance h hn => exact ⟨advance_mem h (hr h), hi.activations⟩
  | activate h =>
    refine ⟨?_, fun a ha => ?_⟩
    · rw [activate_deviceStatus]
      exact advance_mem h.advances (hr h.advances)
    · rcases activate_cases { t with deviceStatus := v } backend with
        ⟨-, e⟩ | ⟨queues, device, panicked, -, e, -⟩
      · rw [e] at ha
        exact hi.activations a ha
      · rw [e] at ha
        rcases List.mem_append.mp ha with ha | ha
        · exact hi.activations a ha
        · obtain rfl := List.mem_singleton.mp ha
          show v &&& HANDSHAKE = HANDSHAKE
          rw [advance_eq (hr h.advances), h.1, h.2.1]
          decide
  | failed hn hf => exact ⟨failed_mem hi.status, hi.activations⟩
  | reset h =>
    have hs : t.stopped.deviceStatus = t.deviceStatus ∧ t.stopped.activations = t.activations := by
      unfold stopped
      split <;> exact ⟨rfl, rfl⟩
    split
    · exact ⟨(by decide : INIT ∈ handshake), fun a ha => hi.activations a (hs.2 ▸ ha)⟩
    · exact ⟨hs.1 ▸ hi.status, fun a ha => hi.activations a (hs.2 ▸ ha)⟩
  | invalid hn hf h0 => exact hi

theorem StatusInv.step (hi : StatusInv t) (hp : Polite t l) (hs : Mmio.step t l = some t') :
    StatusInv t' := by
  cases step_effect hs with
  | quiet h => exact ⟨h.deviceStatus ▸ hi.status, h.activations ▸ hi.activations⟩
  | queue f hf => exact ⟨hi.status, hi.activations⟩
  | ack hg page value => exact ⟨hi.status, hi.activations⟩
  | status data backend hl hd =>
    subst hl
    exact hi.setDeviceStatus (hp rfl hd)

/-- In every run whose status writes repeat the bits already set when they set
the next one, in every state reached: a write of a non-zero value keeps the
bits set exactly if it repeats them too, the status is a value of the
handshake, and the device was activated only with all four bits set. -/
theorem status_bits_kept (h : (system.under Polite).Reachable t) :
    (∀ v backend, v ≠ 0 →
      (t.deviceStatus &&& (t.setDeviceStatus v backend).deviceStatus = t.deviceStatus ↔
        Repeats t v)) ∧
      t.deviceStatus ∈ handshake ∧ ∀ a ∈ t.activations, a.1 &&& HANDSHAKE = HANDSHAKE := by
  have hi : StatusInv t := by
    refine h.invariant (I := StatusInv) ?_ ?_
    · rintro t ⟨kind, irqLine, intc, rfl⟩
      exact ⟨(by decide : INIT ∈ handshake), fun a ha => by cases ha⟩
    · rintro t l t' hi ⟨hp, hs⟩
      exact hi.step hp hs
  exact ⟨fun v backend h0 => setDeviceStatus_keeps_iff h0, hi.status, hi.activations⟩

/-- A guest's write of `v` to the register at `offset`. -/
def writeReg (offset : BitVec 64) (v : Nat) : Label := .write offset (leBytes 4 v) true

theorem status_bits_kept_handshake : ∃ t, (system.under Polite).Reachable t ∧
    t.deviceStatus = HANDSHAKE ∧ t.activations.length = 1 ∧
    ∀ a ∈ t.activations, a.1 &&& HANDSHAKE = HANDSHAKE := by
  have hr : (([1, 3, 11, 15].map (writeReg 0x70)).foldlM
      (fun t l => if Polite t l then step t l else none) (.new (.new .rng) (some 21) .new)).map
      (fun t => (t.deviceStatus, t.activations.length)) = some (HANDSHAKE, 1) := by decide +kernel
  obtain ⟨t, ht, he⟩ := Option.map_eq_some_iff.mp hr
  simp only [Prod.mk.injEq] at he
  have h0 : (system.under Polite).Reachable (.new (.new .rng) (some 21) .new) :=
    .init ⟨.rng, some 21, .new, rfl⟩
  have h := h0.foldlM_under _ ht
  exact ⟨t, h, he.1, he.2, (status_bits_kept h).2.2⟩

/-- A driver that acknowledges the device and then writes `DRIVER` alone. -/
theorem status_bit_cleared : ∃ t v, system.Reachable t ∧ v ≠ 0 ∧
    t.deviceStatus &&& (t.setDeviceStatus v true).deviceStatus ≠ t.deviceStatus ∧
    (t.setDeviceStatus v true).deviceStatus ∉ handshake := by
  have hr : ([writeReg 0x70 1].foldlM step (.new (.new .rng) (some 21) .new)).map
      (fun t => (t.deviceStatus, (t.setDeviceStatus DRIVER true).deviceStatus)) =
      some (ACKNOWLEDGE, DRIVER) := by decide +kernel
  obtain ⟨t, ht, he⟩ := Option.map_eq_some_iff.mp hr
  simp only [Prod.mk.injEq] at he
  have h0 : system.Reachable (.new (.new .rng) (some 21) .new) := .init ⟨.rng, some 21, .new, rfl⟩
  refine ⟨t, DRIVER, h0.foldlM _ ht, by decide, ?_, ?_⟩
  · rw [he.1, he.2]; decide
  · rw [he.2]; decide

/-! ## Reset -/

/-- A transport just created for a device just created, but for the generation of
the configuration and the events of the queues. -/
def fresh (t : MmioTransport) : MmioTransport :=
  { MmioTransport.new (.new t.device.kind) t.interrupt.irqLine t.intc with
    configGeneration := t.configGeneration
    queueEvts := t.queueEvts
    activations := t.activations }

/-- `t` is in the state of a transport just created, and its line is not raised. -/
def Fresh (t : MmioTransport) : Prop := t = fresh t ∧ t.asserted = false

structure DeviceInv (t : MmioTransport) : Prop where
  queueConfig : t.queueConfig = t.device.kind.queueConfig
  worker : t.device.activated = false → t.device.worker = none
  thread : t.device.worker = none → t.device.thread = .waiting
  hostEvent : t.device.hostEvent = true → t.device.listens = true

theorem deviceInv_new (kind : DeviceKind) (irqLine : Option (BitVec 32)) (intc : IoApic) :
    DeviceInv (.new (.new kind) irqLine intc) := ⟨rfl, fun _ => rfl, fun _ => rfl, nofun⟩

/-- A device without a worker whose event is signaled is the console. -/
theorem kind_of_listens {d : VirtioDevice} (h : d.listens = true) :
    d.kind = .console ∨ d.kind = .net ∧ d.worker.isSome = true := by
  cases hk : d.kind <;> simp_all [VirtioDevice.listens, DeviceKind.hasHostEvent]

theorem DeviceInv.stopped (hi : DeviceInv t) :
    DeviceInv t.stopped ∧ t.stopped.device.activated = false := by
  unfold MmioTransport.stopped
  split
  · refine ⟨⟨hi.queueConfig, fun _ => rfl, fun _ => rfl, fun hh => ?_⟩, rfl⟩
    obtain ⟨hh, hk⟩ := Bool.and_eq_true_iff.mp hh
    rcases kind_of_listens (hi.hostEvent hh) with hk' | ⟨hk', -⟩
    · rw [VirtioDevice.reset, VirtioDevice.listens, hk']
      rfl
    · exact absurd hk' (of_decide_eq_true hk)
  · rename_i h
    exact ⟨hi, by simpa using h⟩

theorem DeviceInv.setDeviceStatus (hi : DeviceInv t) : DeviceInv (t.setDeviceStatus v backend) := by
  have he := setDeviceStatus_effect t v backend
  generalize t.setDeviceStatus v backend = t' at he ⊢
  cases he with
  | advance h hn => exact ⟨hi.queueConfig, hi.worker, hi.thread, hi.hostEvent⟩
  | activate h =>
    rcases activate_cases { t with deviceStatus := v } backend with
      ⟨-, e⟩ | ⟨queues, device, panicked, -, e, rfl | rfl⟩
    · rw [e]
      exact ⟨hi.queueConfig, hi.worker, hi.thread, hi.hostEvent⟩
    · rw [e]
      exact ⟨hi.queueConfig, hi.worker, hi.thread, hi.hostEvent⟩
    · rw [e]
      refine ⟨hi.queueConfig, fun h => (by cases h), fun _ => rfl, fun hh => ?_⟩
      rcases kind_of_listens (hi.hostEvent hh) with hk | ⟨hk, -⟩
      · rw [VirtioDevice.listens, hk]
        rfl
      · rw [VirtioDevice.listens, hk]
        rfl
  | failed hn hf => exact ⟨hi.queueConfig, hi.worker, hi.thread, hi.hostEvent⟩
  | reset h =>
    split
    · exact ⟨hi.stopped.1.queueConfig, hi.stopped.1.worker, hi.stopped.1.thread, hi.stopped.1.hostEvent⟩
    · exact hi.stopped.1
  | invalid hn hf h0 => exact hi

theorem DeviceInv.step (hi : DeviceInv t) (hs : Mmio.step t l = some t') : DeviceInv t' := by
  cases step_effect hs with
  | quiet h =>
    refine ⟨?_, ?_, fun hw => ?_, fun hh => ?_⟩
    · rw [h.queueConfig, h.device]
      exact hi.queueConfig
    · rw [h.device]
      exact hi.worker
    · rw [h.device] at hw
      rw [h.thread hw]
      exact hi.thread hw
    · rw [h.device]
      exact (h.hostEvent hh).elim hi.hostEvent id
  | queue f hf => exact ⟨hi.queueConfig, hi.worker, hi.thread, hi.hostEvent⟩
  | ack hg page value => exact ⟨hi.queueConfig, hi.worker, hi.thread, hi.hostEvent⟩
  | status data backend hl hd => exact hi.setDeviceStatus

theorem deviceInv_of_reachable (h : system.Reachable t) : DeviceInv t := by
  refine h.invariant (I := DeviceInv) ?_ fun t l t' hi hs => hi.step hs
  rintro t ⟨kind, irqLine, intc, rfl⟩
  exact deviceInv_new kind irqLine intc

/-- `reset` forgets all of the negotiation but the features acknowledged and the
selector of the shared memory region, and nothing of a device that is stopped. -/
theorem reset_eq_fresh_iff (hi : DeviceInv t) (ha : t.device.activated = false)
    (hp : t.panicked = false) :
    t.reset = fresh t.reset ↔ t.shmRegionSelect = 0 ∧ t.device.ackedFeatures = 0 ∧
      t.device.disk = t.device.kind.isBlock ∧ t.device.hostEvent = false ∧
      t.device.stopEvent = false := by
  have hw : t.device.worker = none := hi.worker ha
  have hth : t.device.thread = .waiting := hi.thread hw
  have hq : t.queueConfig = t.device.kind.queueConfig := hi.queueConfig
  rcases t with ⟨⟨kind, acked, activated, worker, thread, stop, host, disk⟩, fs, afs, qs, status, gen,
    queues, evts, config, shm, ⟨pending, line⟩, intc, activations, panicked⟩
  dsimp only at ha hth hp hw hq
  subst ha hth hp hw hq
  simp only [MmioTransport.reset, fresh, MmioTransport.new, VirtioDevice.new,
    MmioTransport.mk.injEq, VirtioDevice.mk.injEq, and_true, true_and]
  exact ⟨fun ⟨⟨h₁, h₂, h₃, h₄⟩, h₅⟩ => ⟨h₅, h₁, h₄, h₃, h₂⟩,
    fun ⟨h₅, h₁, h₄, h₃, h₂⟩ => ⟨⟨h₁, h₂, h₃, h₄⟩, h₅⟩⟩

theorem write_status_zero (t : MmioTransport) (backend : Bool) :
    t.write 0x70 (leBytes 4 0) backend = t.setDeviceStatus 0 backend := rfl

/-- A stop event is signaled after the device is stopped if the worker had ended, or if one of
an earlier worker was and there is no worker to take it. -/
theorem stopEvent_stopped (hi : DeviceInv t) : t.stopped.device.stopEvent = false ↔
    if t.device.worker.isSome then t.device.thread ≠ .ended else t.device.stopEvent = false := by
  unfold MmioTransport.stopped
  split
  · simp only [VirtioDevice.reset]
    split
    · exact decide_eq_false_iff_not
    · exact Iff.rfl
  · rename_i ha
    have hw : t.device.worker = none := hi.worker (by simpa using ha)
    simp [hw]

/-- The event of the host is signaled after the device is stopped if it is the console's. -/
theorem hostEvent_stopped (hi : DeviceInv t) : t.stopped.device.hostEvent = false ↔
    (t.device.kind = .console → t.device.hostEvent = false) := by
  cases hh : t.device.hostEvent with
  | false => simp [MmioTransport.stopped, VirtioDevice.reset, hh, apply_ite]
  | true =>
    have hno : t.device.activated = false → t.device.kind = .console := fun ha =>
      (kind_of_listens (hi.hostEvent hh)).resolve_right fun h => by
        rw [hi.worker ha] at h
        cases h.2
    unfold MmioTransport.stopped
    split
    · rcases kind_of_listens (hi.hostEvent hh) with hk | ⟨hk, -⟩ <;>
      simp [VirtioDevice.reset, hh, hk]
    · rename_i ha
      simp [hh, hno (by simpa using ha)]

/-- After a driver's write of zero to the status register, from any state
reached, the transport and its device are as just created exactly if the driver
had not set `FAILED`, had not selected a shared memory region, had acknowledged
no feature, the line was not raised, the device was not a disk that had been
active nor a console with input to announce, and no stop event is left for the
next worker: that of the device was alive, or it had none and no earlier reset
had left one. -/
theorem reset_fresh_iff (h : system.Reachable t)
    (hs : step t (.write 0x70 (leBytes 4 0) backend) = some t') :
    Fresh t' ↔ t.deviceStatus &&& FAILED = 0 ∧ t.shmRegionSelect = 0 ∧
      t.device.ackedFeatures = 0 ∧ t.asserted = false ∧
      t.device.disk = t.device.kind.isBlock ∧
      (t.device.kind = .console → t.device.hostEvent = false) ∧
      if t.device.worker.isSome then t.device.thread ≠ .ended else t.device.stopEvent = false := by
  have hi := deviceInv_of_reachable h
  simp only [Mmio.step] at hs
  split at hs
  · cases hs
  rename_i hp
  obtain rfl := Option.some.inj hs
  rw [write_status_zero, setDeviceStatus_zero, ← stopEvent_stopped hi, ← hostEvent_stopped hi]
  have hst : t.stopped.shmRegionSelect = t.shmRegionSelect ∧
      t.stopped.device.ackedFeatures = t.device.ackedFeatures ∧
      t.stopped.panicked = t.panicked ∧ t.stopped.deviceStatus = t.deviceStatus ∧
      t.stopped.reset.asserted = t.asserted ∧ t.stopped.device.disk = t.device.disk ∧
      t.stopped.device.kind = t.device.kind := by
    unfold MmioTransport.stopped
    split <;> exact ⟨rfl, rfl, rfl, rfl, rfl, rfl, rfl⟩
  obtain ⟨hshm, hacked, hpan, hstatus, hline, hdisk, hkind⟩ := hst
  by_cases hf : t.deviceStatus &&& FAILED = 0
  · rw [if_pos hf]
    have hr := reset_eq_fresh_iff hi.stopped.1 hi.stopped.2
      (by rw [hpan]; exact Bool.eq_false_iff.mpr fun h => hp (.inl h))
    unfold Fresh
    rw [hr, hshm, hacked, hline, hdisk, hkind]
    constructor
    · rintro ⟨⟨h₁, h₂, h₃⟩, h₄⟩
      exact ⟨hf, h₁, h₂, h₄, h₃⟩
    · rintro ⟨-, h₁, h₂, h₄, h₃⟩
      exact ⟨⟨h₁, h₂, h₃⟩, h₄⟩
  · rw [if_neg hf]
    refine ⟨fun h => absurd ?_ hf, fun h => absurd h.1 hf⟩
    have h0 : t.stopped.deviceStatus = INIT := congrArg MmioTransport.deviceStatus h.1
    rw [← hstatus, h0]
    decide

/-- A driver that starts a source of randomness and resets it once its worker waits again. -/
theorem reset_fresh_iff_driver : ∃ t t', system.Reachable t ∧ t.device.worker.isSome = true ∧
    step t (.write 0x70 (leBytes 4 0) true) = some t' ∧ Fresh t' := by
  have hr : (([1, 3, 11, 15].map (writeReg 0x70) ++
      [writeReg 0x50 0, .worker .wakes, .worker .rests]).foldlM step
      (.new (.new .rng) (some 21) .new)).map
      (fun t => ((step t (.write 0x70 (leBytes 4 0) true)).isSome,
        decide (t.device.worker.isSome = true ∧ t.deviceStatus &&& FAILED = 0 ∧ t.shmRegionSelect = 0 ∧
          t.device.ackedFeatures = 0 ∧ t.asserted = false ∧
          t.device.disk = t.device.kind.isBlock ∧ t.device.kind ≠ .console ∧
          t.device.thread ≠ .ended))) =
      some (true, true) := by decide +kernel
  obtain ⟨t, ht, he⟩ := Option.map_eq_some_iff.mp hr
  obtain ⟨hs, he⟩ := Prod.mk.inj he
  obtain ⟨t', hs⟩ := Option.isSome_iff_exists.mp hs
  obtain ⟨hw, hf, hshm, hacked, hline, hdisk, hk, hth⟩ := of_decide_eq_true he
  have h0 : system.Reachable (.new (.new .rng) (some 21) .new) := .init ⟨.rng, some 21, .new, rfl⟩
  have h := h0.foldlM _ ht
  refine ⟨t, t', h, hw, hs, (reset_fresh_iff h hs).mpr
    ⟨hf, hshm, hacked, hline, hdisk, fun h => absurd h hk, ?_⟩⟩
  rw [if_pos hw]
  exact hth

/-- The worker of a source of randomness dies on its queue: the reset leaves the stop event
signaled, and the worker of the next driver ends at its first wait. -/
example :
    let handshake := [1, 3, 11, 15].map (writeReg 0x70)
    let dies := [writeReg 0x50 0, .worker .wakes, .worker .ends, writeReg 0x70 0]
    ((handshake ++ dies ++ handshake ++ [Label.worker .stops]).foldlM step
      (.new (.new .rng) (some 21) .new)).map (fun t : MmioTransport =>
        (t.device.activated, t.device.thread)) = some (true, .ended) := by decide +kernel

/-- A driver that acknowledges `VIRTIO_RING_F_EVENT_IDX` of a disk and resets it:
the feature is still acknowledged. -/
theorem reset_keeps_feature : ∃ t t', system.Reachable t ∧
    step t (.write 0x70 (leBytes 4 0) true) = some t' ∧ t'.device.ackedFeatures ≠ 0 ∧
    ¬ Fresh t' := by
  have hr : ([writeReg 0x70 1, writeReg 0x70 3, writeReg 0x20 (2 ^ 29)].foldlM step
      (.new (.new (.block false false)) (some 21) .new)).map
      (fun t => (step t (.write 0x70 (leBytes 4 0) true)).map (·.device.ackedFeatures)) =
      some (some 0x20000000#64) := by decide +kernel
  obtain ⟨t, ht, he⟩ := Option.map_eq_some_iff.mp hr
  obtain ⟨t', hs, he⟩ := Option.map_eq_some_iff.mp he
  have h0 : system.Reachable (.new (.new (.block false false)) (some 21) .new) :=
    .init ⟨.block false false, some 21, .new, rfl⟩
  have ha : t'.device.ackedFeatures ≠ 0 := by
    rw [he]
    decide
  refine ⟨t, t', h0.foldlM _ ht, hs, ha, fun hf => ha ?_⟩
  exact congrArg (fun t => t.device.ackedFeatures) hf.1

end Mmio

end Whypa
