import Whypa.Virtio.Activation

/-!
# One activation for each reset

`activation_once`: between two resets the device behind the transport is
activated at most once, with the queues the transport was created with, and no
activation of a disk, a console or a source of randomness panics. The device
then has the queues and the transport has none, so it stays away from the steps
of the handshake until the reset (`CycleInv.away`).

`features_frozen`: the features acknowledged do not change from the activation
to the next reset, as long as the write that activates the device does not
clear `FEATURES_OK` and leave `DRIVER` set.
-/

namespace Whypa

open Framework DeviceStatus

namespace MmioTransport

variable {t : MmioTransport} {v : BitVec 32}

/-- A queue and the number of its event, as a device gets them. -/
structure DeviceQueue where
  queue : Queue
  event : Nat
deriving DecidableEq, Repr

/-- The queues zipped with the events of the transport, as `activate` hands them
to the device. -/
def zipEvents (t : MmioTransport) (queues : List Queue) : List DeviceQueue :=
  (queues.zip (List.range t.queueEvts.length)).map fun p => ⟨p.1.setEventIdx
    (t.device.ackedFeatures &&& 1#64 <<< DeviceKind.VIRTIO_RING_F_EVENT_IDX ≠ 0#64), p.2⟩

theorem deviceQueues_eq (t : MmioTransport) (queues : List Queue) :
    t.deviceQueues queues = (t.zipEvents queues).map DeviceQueue.queue := by
  have hz : queues.take t.queueEvts.length =
      (queues.zip (List.range t.queueEvts.length)).map Prod.fst := by
    rw [List.zip_eq_zip_take_min, List.map_fst_zip (by simp), List.length_range,
      List.take_eq_take_min, Nat.min_comm]
  rw [deviceQueues, zipEvents, hz, List.map_map, List.map_map]
  rfl

/-- With a queue for each event they are paired in order. -/
theorem zipEvents_event {queues : List Queue} (h : queues.length = t.queueEvts.length) :
    (t.zipEvents queues).map DeviceQueue.event = List.range queues.length := by
  have hz : (queues.zip (List.range t.queueEvts.length)).map Prod.snd = List.range queues.length := by
    rw [List.map_snd_zip (by rw [List.length_range, h]), h]
  rw [← hz, zipEvents, List.map_map]
  rfl

theorem Activates.and_driverOk (h : t.Activates v) : v &&& DRIVER_OK = DRIVER_OK := by
  rw [← h.1, ← BitVec.and_assoc, BitVec.and_comm v, BitVec.and_assoc, BitVec.and_self]

end MmioTransport

namespace Mmio

open MmioTransport

variable {t t' : MmioTransport} {v : BitVec 32} {backend : Bool} {l : Label}

/-! ## Between two resets -/

/-- The step is a reset of the transport. -/
def Resets (t : MmioTransport) : Label → Prop
  | .write offset data _ =>
    offset = 0x70 ∧ data.length = 4 ∧ BitVec.ofNat 32 (ofLE data) = 0 ∧ t.deviceStatus &&& FAILED = 0
  | _ => False

instance (t : MmioTransport) (l : Label) : Decidable (Resets t l) :=
  match l with
  | .write offset data _ => inferInstanceAs (Decidable (offset = 0x70 ∧ data.length = 4 ∧ _))
  | .worker _ => isFalse not_false
  | .ioapic .. => isFalse not_false

/-- A step that is no reset. -/
def stepOn (t : MmioTransport) (l : Label) : Option MmioTransport :=
  if Resets t l then none else step t l

/-- How often the device was activated, and can still be before the next reset. -/
def calls (t : MmioTransport) : Nat := t.activations.length + if t.queues.isSome then 1 else 0

theorem calls_setDeviceStatus (hn : ¬ (v = 0 ∧ t.deviceStatus &&& FAILED = 0)) :
    calls (t.setDeviceStatus v backend) ≤ calls t := by
  have he := setDeviceStatus_effect t v backend
  generalize t.setDeviceStatus v backend = t' at he ⊢
  cases he with
  | advance h hn => exact le_rfl
  | activate h =>
    rcases activate_cases { t with deviceStatus := v } backend with
      ⟨-, e⟩ | ⟨queues, device, panicked, hq, e, -⟩
    · rw [e]
      exact le_rfl
    · rw [e]
      unfold calls
      rw [show t.queues = some queues from hq, List.length_append]
      exact le_rfl
  | failed hn hf => exact le_rfl
  | reset h =>
    rw [if_neg (fun hf => hn ⟨h, hf⟩)]
    unfold MmioTransport.stopped
    split <;> exact le_rfl
  | invalid hn hf h0 => exact le_rfl

theorem calls_stepOn (hs : stepOn t l = some t') : calls t' ≤ calls t := by
  obtain ⟨hn, hs⟩ := Option.ite_none_left_eq_some.mp hs
  cases step_effect hs with
  | quiet h =>
    unfold calls
    rw [h.activations, h.queues]
  | queue f hf =>
    unfold calls
    rw [show (t.withQueueMut f).queues.isSome = t.queues.isSome from Option.isSome_map]
    exact le_rfl
  | ack hg page value => exact le_rfl
  | status data backend hl hd =>
    subst hl
    exact calls_setDeviceStatus fun h => hn ⟨rfl, hd, h⟩

/-- In any part of a run without a reset there is at most one activation. -/
theorem calls_run {ls : List Label} (hr : ls.foldlM stepOn t = some t') : calls t' ≤ calls t := by
  induction ls generalizing t with
  | nil => exact Option.some.inj hr ▸ le_rfl
  | cons l ls ih =>
    rw [List.foldlM_cons, Option.bind_eq_bind, Option.bind_eq_some_iff] at hr
    obtain ⟨u, hu, hr⟩ := hr
    exact (ih hr).trans (calls_stepOn hu)

/-! ## The device and its queues -/

/-- The values of the status from which the handshake goes on. -/
def ladder : List (BitVec 32) :=
  [INIT, ACKNOWLEDGE, ACKNOWLEDGE ||| DRIVER, ACKNOWLEDGE ||| DRIVER ||| FEATURES_OK]

theorem mem_ladder_of_advances (h : t.Advances v) : t.deviceStatus ∈ ladder := by
  rcases h with ⟨-, h⟩ | ⟨-, h⟩ | ⟨-, h⟩ | ⟨-, h⟩ <;> rw [h] <;> decide

theorem ladder_and {s : BitVec 32} (h : s ∈ ladder) : s &&& (DRIVER_OK ||| FAILED) = 0 := by
  have hall : ladder.all (fun s => s &&& (DRIVER_OK ||| FAILED) = 0) = true := by decide
  exact of_decide_eq_true (List.all_eq_true.mp hall s h)

structure CycleInv (t : MmioTransport) : Prop where
  device : DeviceInv t
  queue : QueueInv t
  /-- An active device has the queues. -/
  taken : t.device.activated = true → t.queues = none
  /-- A transport without queues is not on its way to another activation. -/
  away : t.queues = none → t.deviceStatus ∉ ladder
  panicked : t.device.kind ≠ .net → t.panicked = false

/-- The last step of the handshake hands all queues to a device that has none. -/
theorem CycleInv.activate (hi : CycleInv t) (h : t.Activates v) (backend : Bool) :
    ∃ queues, t.queues = some queues ∧ queues.length = t.queueEvts.length ∧
      queues.length = t.device.kind.queueConfig.length ∧ t.device.worker = none ∧
      (t.device.kind ≠ .net → { t with deviceStatus := v }.activate backend = { t with
        deviceStatus := v
        queues := none
        activations := t.activations ++ [(v, t.deviceQueues queues)]
        device := { t.device with
          worker := some (t.deviceQueues queues), thread := .waiting, activated := true,
          disk := false } }) := by
  have hw : t.device.worker = none := hi.device.worker h.2.2
  obtain ⟨queues, hq⟩ : ∃ queues, t.queues = some queues :=
    Option.ne_none_iff_exists'.mp fun hq => hi.away hq (mem_ladder_of_advances h.advances)
  have hlen : queues.length = t.queueConfig.length := by
    rw [← hi.queue.queues queues hq, List.length_map]
  have hevts : queues.length = t.queueEvts.length := hlen.trans hi.queue.events.symm
  have hkind : queues.length = t.device.kind.queueConfig.length := by
    rw [hlen, hi.device.queueConfig]
  refine ⟨queues, hq, hevts, hkind, hw, fun hk => ?_⟩
  have hopens : t.device.opens backend = true := by
    unfold VirtioDevice.opens
    split
    · rename_i h
      exact absurd h hk
    all_goals rfl
  have hn : (t.deviceQueues queues).length = t.device.kind.queueConfig.length := by
    rw [deviceQueues, List.length_map, List.take_of_length_le hevts.le, hkind]
  have hact : t.device.activate backend (t.deviceQueues queues) = some (.ok { t.device with
      worker := some (t.deviceQueues queues), thread := .waiting, activated := true,
      disk := false }) := by
    unfold VirtioDevice.activate
    rw [hw, hn, hopens]
    simp
  unfold MmioTransport.activate
  simp only [hq]
  have hact' := hact
  unfold deviceQueues at hact'
  simp only [hact', deviceQueues]

theorem not_mem_ladder {s : BitVec 32} {b : BitVec 32} (hb : b = DRIVER_OK ∨ b = FAILED)
    (h : s &&& b = b) : s ∉ ladder := by
  intro hm
  have h0 : b &&& (DRIVER_OK ||| FAILED) = 0 := by
    calc b &&& (DRIVER_OK ||| FAILED) = b &&& (s &&& (DRIVER_OK ||| FAILED)) := by
          rw [← BitVec.and_assoc, BitVec.and_comm b s, h]
      _ = 0 := by rw [ladder_and hm]; exact BitVec.and_zero
  rcases hb with rfl | rfl <;> exact absurd h0 (by decide)

theorem CycleInv.stopped (hi : CycleInv t) : CycleInv t.stopped := by
  refine ⟨hi.device.stopped.1, hi.queue.stopped, fun h => ?_, ?_, ?_⟩
  · rw [hi.device.stopped.2] at h
    cases h
  all_goals unfold MmioTransport.stopped; split
  · exact hi.away
  · exact hi.away
  · exact hi.panicked
  · exact hi.panicked

theorem CycleInv.setDeviceStatus (hi : CycleInv t) : CycleInv (t.setDeviceStatus v backend) := by
  have hd : DeviceInv (t.setDeviceStatus v backend) := hi.device.setDeviceStatus
  have hq : QueueInv (t.setDeviceStatus v backend) := hi.queue.setDeviceStatus
  have he := setDeviceStatus_effect t v backend
  generalize t.setDeviceStatus v backend = t' at he hd hq ⊢
  cases he with
  | advance h hn =>
    exact ⟨hd, hq, hi.taken, fun hq => absurd (mem_ladder_of_advances h) (hi.away hq), hi.panicked⟩
  | activate h =>
    obtain ⟨queues, hqs, -, -, -, hok⟩ := hi.activate h backend
    have haway : v ∉ ladder := not_mem_ladder (.inl rfl) h.and_driverOk
    rcases activate_cases { t with deviceStatus := v } backend with
      ⟨hnone, -⟩ | ⟨queues, device, panicked, -, e, hdev⟩
    · rw [show t.queues = none from hnone] at hqs
      cases hqs
    · have hkind : device.kind = t.device.kind := by rcases hdev with rfl | rfl <;> rfl
      refine ⟨hd, hq, fun _ => by rw [e], fun _ => by rw [e]; exact haway, fun hk => ?_⟩
      rw [e] at hk
      rw [hok (hkind ▸ hk)]
      exact hi.panicked (hkind ▸ hk)
  | failed hn hf =>
    refine ⟨hd, hq, hi.taken, fun _ => not_mem_ladder (.inr rfl) ?_, hi.panicked⟩
    rw [BitVec.and_comm]
    exact BitVec.or_comm t.deviceStatus FAILED ▸ and_or_self FAILED t.deviceStatus
  | reset h =>
    by_cases hf : t.deviceStatus &&& FAILED = 0
    · rw [if_pos hf] at hd hq ⊢
      refine ⟨hd, hq, fun ha => ?_, fun hnone => (by cases hnone), hi.stopped.panicked⟩
      rw [show t.stopped.reset.device.activated = false from hi.device.stopped.2] at ha
      cases ha
    · rw [if_neg hf]
      exact hi.stopped
  | invalid hn hf h0 => exact hi

theorem CycleInv.step (hi : CycleInv t) (hs : Mmio.step t l = some t') : CycleInv t' := by
  have hd := hi.device.step hs
  have hq := hi.queue.step hs
  cases step_effect hs with
  | quiet h =>
    refine ⟨hd, hq, ?_, ?_, ?_⟩
    · rw [h.device, h.queues]
      exact hi.taken
    · rw [h.queues, h.deviceStatus]
      exact hi.away
    · rw [h.device, h.panicked]
      exact hi.panicked
  | queue f hf =>
    refine ⟨hd, hq, fun ha => ?_, fun hnone => hi.away ?_, hi.panicked⟩
    · show t.queues.map _ = none
      rw [hi.taken ha]
      rfl
    · exact Option.map_eq_none_iff.mp hnone
  | ack hg page value => exact ⟨hd, hq, hi.taken, hi.away, hi.panicked⟩
  | status data backend hl hd => exact hi.setDeviceStatus

theorem cycleInv_of_reachable (h : system.Reachable t) : CycleInv t := by
  refine h.invariant (I := CycleInv) ?_ ?_
  · rintro t ⟨kind, irqLine, intc, rfl⟩
    exact ⟨deviceInv_new kind irqLine intc, queueInv_new kind irqLine intc, fun h => (by cases h),
      fun h => (by cases h), fun _ => rfl⟩
  · exact fun t l t' hi hs => hi.step hs

/-- A step that activates the device. -/
theorem activation_step (hi : CycleInv t) (hk : t.device.kind ≠ .net)
    (hs : step t l = some t') (ha : t'.activations ≠ t.activations) :
    t.device.activated = false ∧ t.device.worker = none ∧
      ∃ queues, t.queues = some queues ∧
        (t.zipEvents queues).length = t.device.kind.queueConfig.length ∧
        (t.zipEvents queues).map DeviceQueue.event = List.range queues.length ∧
        t'.activations = t.activations ++
          [(t'.deviceStatus, (t.zipEvents queues).map DeviceQueue.queue)] ∧
        t'.device.worker = some ((t.zipEvents queues).map DeviceQueue.queue) := by
  cases step_effect hs with
  | quiet h => exact absurd h.activations ha
  | queue f hf => exact absurd rfl ha
  | ack hg page value => exact absurd rfl ha
  | status data backend hl hd =>
    have he := setDeviceStatus_effect t (BitVec.ofNat 32 (ofLE data)) backend
    generalize t.setDeviceStatus (BitVec.ofNat 32 (ofLE data)) backend = t' at he ha ⊢
    cases he with
    | advance h hn => exact absurd rfl ha
    | activate h =>
      obtain ⟨queues, hq, hevts, hlen, hw, hok⟩ := hi.activate h backend
      refine ⟨h.2.2, hw, queues, hq, ?_, zipEvents_event hevts, ?_, ?_⟩
      · rw [← hlen, zipEvents, List.length_map, List.length_zip, List.length_range, hevts, min_self]
      · rw [hok hk, deviceQueues_eq]
      · rw [hok hk, deviceQueues_eq]
    | failed hn hf => exact absurd rfl ha
    | reset h =>
      refine absurd ?_ ha
      split <;> exact activations_stopped t
    | invalid hn hf h0 => exact absurd rfl ha

/-- A step from a state with an active device stops it or leaves it its queues. -/
theorem worker_step (hi : CycleInv t) (ha : t.device.activated = true)
    (hs : step t l = some t') :
    t'.device.worker = t.device.worker ∧ t'.device.activated = true ∧ t'.queues = none ∨
      t'.device.worker = none ∧ t'.device.activated = false := by
  have hnone := hi.taken ha
  cases step_effect hs with
  | quiet h =>
    rw [h.device, h.queues]
    exact .inl ⟨rfl, ha, hnone⟩
  | queue f hf => exact .inl ⟨rfl, ha, by rw [withQueueMut, hnone]; rfl⟩
  | ack hg page value => exact .inl ⟨rfl, ha, hnone⟩
  | status data backend hl hd =>
    have he := setDeviceStatus_effect t (BitVec.ofNat 32 (ofLE data)) backend
    generalize t.setDeviceStatus (BitVec.ofNat 32 (ofLE data)) backend = t' at he ⊢
    cases he with
    | advance h hn => exact .inl ⟨rfl, ha, hnone⟩
    | activate h => exact absurd ha (by rw [h.2.2]; decide)
    | failed hn hf => exact .inl ⟨rfl, ha, hnone⟩
    | reset h =>
      have hstop : t.stopped.device = t.device.reset.2 := by
        unfold MmioTransport.stopped
        rw [if_pos ha]
      refine .inr ?_
      split
      · exact ⟨congrArg (·.worker) hstop, congrArg (·.activated) hstop⟩
      · exact ⟨congrArg (·.worker) hstop, congrArg (·.activated) hstop⟩
    | invalid hn hf h0 => exact .inl ⟨rfl, ha, hnone⟩

/-- In every state reached, for a device other than the network: no write has
panicked, and an active device has the queues of the transport; from there on,
the device is activated at most once before the next reset; a step that
activates it finds it inactive and without a worker, and hands it as many queues
as it asks for, each with its event; and a step leaves an active device its
queues or stops it. -/
theorem activation_once (h : system.Reachable t) (hk : t.device.kind ≠ .net) :
    t.panicked = false ∧ (t.device.activated = true → t.queues = none) ∧
      (∀ (ls : List Label) (t' : MmioTransport), ls.foldlM stepOn t = some t' →
        t'.activations.length ≤ t.activations.length + 1) ∧
      (∀ l t', step t l = some t' → t'.activations ≠ t.activations →
        t.device.activated = false ∧ t.device.worker = none ∧
          ∃ queues, t.queues = some queues ∧
            (t.zipEvents queues).length = t.device.kind.queueConfig.length ∧
            (t.zipEvents queues).map DeviceQueue.event = List.range queues.length ∧
            t'.activations = t.activations ++
              [(t'.deviceStatus, (t.zipEvents queues).map DeviceQueue.queue)] ∧
            t'.device.worker = some ((t.zipEvents queues).map DeviceQueue.queue)) ∧
      ∀ l t', step t l = some t' → t.device.activated = true →
        t'.device.worker = t.device.worker ∧ t'.device.activated = true ∧ t'.queues = none ∨
          t'.device.worker = none ∧ t'.device.activated = false := by
  have hi := cycleInv_of_reachable h
  refine ⟨hi.panicked hk, hi.taken, fun ls t' hr => ?_, fun l t' hs ha => ?_, fun l t' hs ha => ?_⟩
  · have hc := calls_run hr
    unfold calls at hc
    split at hc <;> split at hc <;> omega
  · exact activation_step hi hk hs ha
  · exact worker_step hi ha hs

theorem activation_once_console : ∃ t t', system.Reachable t ∧ t.device.kind = .console ∧
    step t (writeReg 0x70 15) = some t' ∧ t'.activations.length = 1 ∧
    t.device.activated = false ∧ t.device.worker = none ∧ t.panicked = false := by
  have hr : (([1, 3, 11].map (writeReg 0x70)).foldlM step
      (.new (.new .console) (some 22) .new)).map (fun t => (t.device.kind,
        t.activations.length, (step t (writeReg 0x70 15)).map fun t => t.activations.length)) =
      some (.console, 0, some 1) := by decide +kernel
  obtain ⟨t, ht, he⟩ := Option.map_eq_some_iff.mp hr
  simp only [Prod.mk.injEq] at he
  obtain ⟨hkind, hlen, he⟩ := he
  obtain ⟨t', hs, he⟩ := Option.map_eq_some_iff.mp he
  have h0 : system.Reachable (.new (.new .console) (some 22) .new) :=
    .init ⟨.console, some 22, .new, rfl⟩
  have h := h0.foldlM _ ht
  have ha := activation_once h (by rw [hkind]; decide)
  have hact := ha.2.2.2.1 _ t' hs fun e => by rw [e, hlen] at he; cases he
  exact ⟨t, t', h, hkind, hs, he, hact.1, hact.2.1, ha.1⟩

/-! ## The features acknowledged -/

/-- The driver may acknowledge features. -/
abbrev Negotiating (t : MmioTransport) : Prop :=
  t.checkDeviceStatus DRIVER (FEATURES_OK ||| FAILED) = true

/-- A write that activates the device and keeps `DRIVER` keeps `FEATURES_OK` too. -/
def Settles (t : MmioTransport) : Label → Prop
  | .write offset data _ => offset = 0x70 → data.length = 4 →
    t.Activates (BitVec.ofNat 32 (ofLE data)) →
    BitVec.ofNat 32 (ofLE data) &&& DRIVER ≠ 0 → BitVec.ofNat 32 (ofLE data) &&& FEATURES_OK ≠ 0
  | _ => True

instance (t : MmioTransport) (l : Label) : Decidable (Settles t l) :=
  match l with
  | .write offset data _ => inferInstanceAs (Decidable (offset = 0x70 → data.length = 4 → _))
  | .worker _ => isTrue trivial
  | .ioapic .. => isTrue trivial

theorem negotiating_bits (h : Negotiating t) : t.deviceStatus &&& DRIVER = DRIVER ∧
    t.deviceStatus &&& FEATURES_OK = 0 ∧ t.deviceStatus &&& FAILED = 0 := by
  have hand : ∀ b, t.deviceStatus &&& ((DRIVER ||| (FEATURES_OK ||| FAILED)) &&& b) = DRIVER &&& b := by
    intro b
    rw [← BitVec.and_assoc, show _ &&& _ = DRIVER from of_decide_eq_true h]
  exact ⟨hand DRIVER, hand FEATURES_OK, hand FAILED⟩

theorem not_negotiating_of_failed (h : t.deviceStatus &&& FAILED ≠ 0) : ¬ Negotiating t :=
  fun hn => h (negotiating_bits hn).2.2

theorem setDeviceStatus_acked :
    (t.setDeviceStatus v backend).device.ackedFeatures = t.device.ackedFeatures ∧
      (t.setDeviceStatus v backend).device.kind = t.device.kind := by
  have hstop : t.stopped.device.ackedFeatures = t.device.ackedFeatures ∧
      t.stopped.device.kind = t.device.kind := by
    unfold MmioTransport.stopped
    split <;> exact ⟨rfl, rfl⟩
  have he := setDeviceStatus_effect t v backend
  generalize t.setDeviceStatus v backend = t' at he ⊢
  cases he with
  | advance h hn => exact ⟨rfl, rfl⟩
  | activate h =>
    rcases activate_cases { t with deviceStatus := v } backend with
      ⟨-, e⟩ | ⟨queues, device, panicked, -, e, rfl | rfl⟩ <;> rw [e] <;> exact ⟨rfl, rfl⟩
  | failed hn hf => exact ⟨rfl, rfl⟩
  | reset h => split <;> exact hstop
  | invalid hn hf h0 => exact ⟨rfl, rfl⟩

/-- A step changes the features acknowledged only while they are negotiated. -/
theorem step_acked (hs : step t l = some t') :
    t'.device.ackedFeatures = t.device.ackedFeatures ∧ t'.device.kind = t.device.kind ∨
      Negotiating t ∧ ∃ page value, t'.device = t.device.ackFeaturesByPage page value := by
  cases step_effect hs with
  | quiet h => exact .inl (by rw [h.device]; exact ⟨rfl, rfl⟩)
  | queue f hf => exact .inl ⟨rfl, rfl⟩
  | ack hg page value => exact .inr ⟨hg, page, value, rfl⟩
  | status data backend hl hd => exact .inl setDeviceStatus_acked

/-- Once the device has the queues, the negotiation is closed. -/
def Closed (t : MmioTransport) : Prop := t.queues = none → ¬ Negotiating t

theorem Closed.step (hc : Closed t) (hi : CycleInv t) (hp : Settles t l)
    (hs : Mmio.step t l = some t') : Closed t' := by
  cases step_effect hs with
  | quiet h =>
    unfold Closed Negotiating checkDeviceStatus
    rw [h.queues, h.deviceStatus]
    exact hc
  | queue f hf => exact fun hq => hc (Option.map_eq_none_iff.mp hq)
  | ack hg page value => exact hc
  | status data backend hl hd =>
    subst hl
    have he := setDeviceStatus_effect t (BitVec.ofNat 32 (ofLE data)) backend
    generalize t.setDeviceStatus (BitVec.ofNat 32 (ofLE data)) backend = t' at he ⊢
    cases he with
    | advance h hn => exact fun hq => absurd (mem_ladder_of_advances h) (hi.away hq)
    | activate h =>
      intro _ hn
      obtain ⟨hdriver, hok, -⟩ := negotiating_bits hn
      rw [activate_deviceStatus] at hdriver hok
      refine hp rfl hd h ?_ hok
      rw [show BitVec.ofNat 32 (ofLE data) &&& DRIVER = DRIVER from hdriver]
      decide
    | failed _ _ =>
      refine fun _ => not_negotiating_of_failed ?_
      show (t.deviceStatus ||| FAILED) &&& FAILED ≠ 0
      rw [BitVec.and_comm, BitVec.or_comm, and_or_self]
      decide
    | reset h =>
      by_cases hf : t.deviceStatus &&& FAILED = 0
      · rw [if_pos hf]
        exact fun hq => by cases hq
      · rw [if_neg hf]
        refine fun _ => not_negotiating_of_failed ?_
        unfold MmioTransport.stopped
        split <;> exact hf
    | invalid hn _ h0 => exact hc

theorem stepOn_queues (hi : CycleInv t) (hq : t.queues = none) (hs : stepOn t l = some t') :
    t'.queues = none := by
  obtain ⟨hn, hs⟩ := Option.ite_none_left_eq_some.mp hs
  cases step_effect hs with
  | quiet h => exact h.queues.trans hq
  | queue f hf => rw [withQueueMut, hq]; rfl
  | ack hg page value => exact hq
  | status data backend hl hd =>
    subst hl
    have he := setDeviceStatus_effect t (BitVec.ofNat 32 (ofLE data)) backend
    generalize t.setDeviceStatus (BitVec.ofNat 32 (ofLE data)) backend = t' at he ⊢
    cases he with
    | advance h hn => exact hq
    | activate h => exact absurd (mem_ladder_of_advances h.advances) (hi.away hq)
    | failed _ _ => exact hq
    | reset h =>
      rw [if_neg (fun h' => hn ⟨rfl, hd, h, h'⟩)]
      unfold MmioTransport.stopped
      split <;> exact hq
    | invalid hn _ h0 => exact hq

/-- A transport without queues activates nothing. -/
theorem settles_of_taken (hi : CycleInv t) (hq : t.queues = none) : Settles t l := by
  cases l with
  | write offset data backend =>
    exact fun _ _ h => absurd (mem_ladder_of_advances h.advances) (hi.away hq)
  | worker w => trivial
  | ioapic offset data => trivial

theorem acked_run {ls : List Label} (hc : Closed t) (hi : CycleInv t) (hq : t.queues = none)
    (hr : ls.foldlM stepOn t = some t') : t'.device.ackedFeatures = t.device.ackedFeatures := by
  induction ls generalizing t with
  | nil => exact Option.some.inj hr ▸ rfl
  | cons l ls ih =>
    rw [List.foldlM_cons, Option.bind_eq_bind, Option.bind_eq_some_iff] at hr
    obtain ⟨u, hu, hr⟩ := hr
    have hs := (Option.ite_none_left_eq_some.mp hu).2
    have hc' := hc.step hi (settles_of_taken hi hq) hs
    rcases step_acked hs with ⟨ha, -⟩ | ⟨hn, -⟩
    · exact (ih hc' (hi.step hs) (stepOn_queues hi hq hu) hr).trans ha
    · exact absurd hn (hc hq)

/-- Only features that the device offers are acknowledged. -/
def Offered (t : MmioTransport) : Prop :=
  t.device.ackedFeatures &&& t.device.availFeatures = t.device.ackedFeatures

theorem Offered.step (ho : Offered t) (hs : Mmio.step t l = some t') : Offered t' := by
  unfold Offered at ho ⊢
  rcases step_acked hs with ⟨ha, hk⟩ | ⟨-, page, value, e⟩
  · rw [VirtioDevice.availFeatures, hk, ha]
    exact ho
  · rw [e]
    refine BitVec.eq_of_getLsbD_eq fun j hj => ?_
    have hb := congrArg (·.getLsbD j) ho
    simp only [VirtioDevice.ackFeaturesByPage, VirtioDevice.availFeatures, BitVec.getLsbD_and,
      BitVec.getLsbD_or, BitVec.getLsbD_not, hj, decide_true, Bool.true_and] at hb ⊢
    generalize BitVec.getLsbD _ j = a at hb ⊢
    generalize BitVec.getLsbD _ j = b at hb ⊢
    generalize BitVec.getLsbD _ j = c at hb ⊢
    revert a b c
    decide

/-- In every run in which the write that activates the device keeps `FEATURES_OK`
if it keeps `DRIVER`, in every state reached: the features acknowledged are
features the device offers, and once the device is active they do not change
before the next reset. -/
theorem features_frozen (h : (system.under Settles).Reachable t) :
    t.device.ackedFeatures &&& t.device.availFeatures = t.device.ackedFeatures ∧
      (t.device.activated = true → ∀ (ls : List Label) (t' : MmioTransport),
        ls.foldlM stepOn t = some t' → t'.device.ackedFeatures = t.device.ackedFeatures) := by
  have hi : CycleInv t ∧ Closed t ∧ Offered t := by
    refine h.invariant (I := fun t => CycleInv t ∧ Closed t ∧ Offered t) ?_ ?_
    · rintro t ⟨kind, irqLine, intc, rfl⟩
      exact ⟨cycleInv_of_reachable (.init ⟨kind, irqLine, intc, rfl⟩), fun h => (by cases h),
        BitVec.zero_and⟩
    · rintro t l t' ⟨hi, hc, ho⟩ ⟨hp, hs⟩
      exact ⟨hi.step hs, hc.step hi hp hs, ho.step hs⟩
  exact ⟨hi.2.2, fun ha ls t' hr => acked_run hi.2.1 hi.1 (hi.1.taken ha) hr⟩

/-- A driver that acknowledges `VIRTIO_F_VERSION_1`, activates the device and
tries to acknowledge the other page again. -/
theorem features_frozen_rng : ∃ t t', (system.under Settles).Reachable t ∧
    t.device.activated = true ∧
    [writeReg 0x24 0, writeReg 0x20 1].foldlM stepOn t = some t' ∧
    t'.device.ackedFeatures = t.device.ackedFeatures := by
  have hr : (([writeReg 0x70 1, writeReg 0x70 3, writeReg 0x24 1, writeReg 0x20 1, writeReg 0x70 11,
      writeReg 0x70 15]).foldlM (fun t l => if Settles t l then step t l else none)
      (.new (.new .rng) (some 21) .new)).map (fun t => (t.device.activated,
        ([writeReg 0x24 0, writeReg 0x20 1].foldlM stepOn t).isSome)) = some (true, true) := by
    decide +kernel
  obtain ⟨t, ht, he⟩ := Option.map_eq_some_iff.mp hr
  simp only [Prod.mk.injEq, Option.isSome_iff_exists] at he
  obtain ⟨ha, t', hr'⟩ := he
  have h0 : (system.under Settles).Reachable (.new (.new .rng) (some 21) .new) :=
    .init ⟨.rng, some 21, .new, rfl⟩
  have h := h0.foldlM_under _ ht
  exact ⟨t, t', h, ha, hr', (features_frozen h).2 ha _ t' hr'⟩

/-- A driver whose last write to the status leaves `FEATURES_OK` out: the device
is active, and a feature is acknowledged after that. -/
theorem features_thawed : ∃ t t', system.Reachable t ∧ t.device.activated = true ∧
    [writeReg 0x24 1, writeReg 0x20 1].foldlM stepOn t = some t' ∧
    t'.device.ackedFeatures ≠ t.device.ackedFeatures := by
  have hr : (([1, 3, 11, 7].map (writeReg 0x70)).foldlM step
      (.new (.new .rng) (some 21) .new)).map (fun t => (t.device.activated, t.device.ackedFeatures,
        ([writeReg 0x24 1, writeReg 0x20 1].foldlM stepOn t).map fun t => t.device.ackedFeatures)) =
      some (true, 0, some 0x100000000) := by decide +kernel
  obtain ⟨t, ht, he⟩ := Option.map_eq_some_iff.mp hr
  simp only [Prod.mk.injEq] at he
  obtain ⟨ha, hk, he⟩ := he
  obtain ⟨t', hr', he⟩ := Option.map_eq_some_iff.mp he
  have h0 : system.Reachable (.new (.new .rng) (some 21) .new) := .init ⟨.rng, some 21, .new, rfl⟩
  refine ⟨t, t', h0.foldlM _ ht, ha, hr', ?_⟩
  rw [he, hk]
  decide

end Mmio

end Whypa
