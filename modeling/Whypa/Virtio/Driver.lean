import Mathlib.Data.List.Forall2
import Whypa.Framework.Related
import Whypa.Virtio.Interference
import Whypa.Virtio.Lifecycle
import Whypa.Virtio.Programming

/-!
# A driver that initialises a device

A driver brings a device up through the registers of its transport, one word at
a time: it resets the device, acknowledges it, accepts features, describes the
queues and starts the device. The reset is answered when the worker of an
earlier driver has ended. Before that this worker may still serve its queues,
and all the time other processors may write to the IOAPIC; every other access is
answered as if they did not (`respects`), because all they change is outside the
driver.
-/

namespace Whypa

open Framework DeviceStatus Mmio

/-- A driver's access to a word of the registers. -/
inductive RegAccess
  | read (offset : BitVec 64)
  | write (offset : BitVec 64) (v : BitVec 32)

abbrev RegAccess.Answer : RegAccess → Type
  | .read _ => BitVec 32
  | .write .. => Unit

/-- All accesses but the question for the interrupt and the reset. -/
def RegAccess.Blind : RegAccess → Prop
  | .read offset => offset ≠ 0x60
  | .write offset v => offset ≠ 0x70 ∨ v ≠ 0

/-- What a driver does with the registers. -/
abbrev RProg := Prog RegAccess RegAccess.Answer

namespace Driver

def read (offset : BitVec 64) : RProg (BitVec 32) := .access (.read offset) .pure

def write (offset : BitVec 64) (v : BitVec 32) : RProg Unit := .access (.write offset v) .pure

/-- Set bits of the status. -/
def addStatus (bits : BitVec 32) : RProg Unit := do
  let status ← read 0x70
  write 0x70 (status ||| bits)

/-- The features the device offers. -/
def offered : RProg (BitVec 64) := do
  write 0x14 1
  let high ← read 0x10
  write 0x14 0
  let low ← read 0x10
  pure (high ++ low)

def acceptPage (page value : BitVec 32) : RProg Unit := do
  write 0x24 page
  write 0x20 value

def accept (features : BitVec 64) : RProg Unit := do
  acceptPage 1 (features.extractLsb' 32 32)
  acceptPage 0 (features.extractLsb' 0 32)

def program : List QueueWrite → RProg Unit
  | [] => pure ()
  | w :: ws => do
    write w.offset w.value
    program ws

end Driver

/-- What a driver makes of a queue. -/
structure QueueSetup where
  size : BitVec 16
  descTable : GuestAddress
  availRing : GuestAddress
  usedRing : GuestAddress
deriving DecidableEq, Repr

namespace QueueSetup

/-- The writes to the registers of the selected queue. -/
def writes (s : QueueSetup) : List QueueWrite :=
  [.reg .num (s.size.setWidth 32),
    .reg .descLow (s.descTable.extractLsb' 0 32), .reg .descHigh (s.descTable.extractLsb' 32 32),
    .reg .availLow (s.availRing.extractLsb' 0 32), .reg .availHigh (s.availRing.extractLsb' 32 32),
    .reg .usedLow (s.usedRing.extractLsb' 0 32), .reg .usedHigh (s.usedRing.extractLsb' 32 32),
    .reg .ready 1]

/-- The queue as the driver describes it. -/
def queue (s : QueueSetup) (q : Queue) : Queue :=
  { q with
    size := s.size, ready := true, descTable := s.descTable, availRing := s.availRing,
    usedRing := s.usedRing }

end QueueSetup

namespace Driver

/-- Set up queue `i`, if it is there and large enough. -/
def setupQueue (i : Nat) (s : QueueSetup) : RProg Bool := do
  write 0x30 (BitVec.ofNat 32 i)
  let ready ← read 0x44
  let max ← read 0x34
  if ready ≠ 0 ∨ max < s.size.setWidth 32 then pure false
  else do
    program s.writes
    pure true

/-- Set up the queues from `i` on. -/
def setupQueues : Nat → List QueueSetup → RProg Bool
  | _, [] => pure true
  | i, s :: ss => do
    if ← setupQueue i s then setupQueues (i + 1) ss else pure false

/-- The steps of a driver once the device is reset, but for the last. -/
def prepare (wanted : BitVec 64) (setups : List QueueSetup) : RProg Bool := do
  addStatus ACKNOWLEDGE
  addStatus DRIVER
  let features ← offered
  accept (wanted &&& features)
  addStatus FEATURES_OK
  let status ← read 0x70
  if status &&& FEATURES_OK = 0 then pure false else setupQueues 0 setups

/-- The device gets its queues. -/
def start : RProg Bool := do
  addStatus DRIVER_OK
  let status ← read 0x70
  pure (status = HANDSHAKE)

def afterReset (wanted : BitVec 64) (setups : List QueueSetup) : RProg Bool := do
  let status ← read 0x70
  if status ≠ 0 then pure false
  else if ← prepare wanted setups then start else pure false

def restart (wanted : BitVec 64) (setups : List QueueSetup) : RProg Bool := do
  write 0x70 0
  afterReset wanted setups

/-- Bring the device up: does it work? -/
def initialise (wanted : BitVec 64) (setups : List QueueSetup) : RProg Bool := do
  let magic ← read 0x00
  let version ← read 0x04
  if magic ≠ MMIO_MAGIC_VALUE ∨ version ≠ MMIO_VERSION then pure false
  else restart wanted setups

end Driver

namespace MmioTransport

/-- The transport behind the registers. A panic ends the run, and a reset that has to wait for the
worker is not answered. -/
def handler (config : DeviceConfig) (backend : Bool) :
    Handler RegAccess RegAccess.Answer MmioTransport
  | .read offset, t =>
    if t.panicked then none
    else some (BitVec.ofNat 32 (ofLE (t.read config offset [0, 0, 0, 0])), t)
  | .write offset v, t => (Mmio.step t (.write offset (leBytes 4 v.toNat) backend)).map ((), ·)

section
variable {t : MmioTransport} {config : DeviceConfig} {backend : Bool} {offset : BitVec 64}
  {v : BitVec 32}

/-- Only a reset waits. -/
theorem waits_blind (t : MmioTransport) (h : (RegAccess.write offset v).Blind) :
    t.waits offset (leBytes 4 v.toNat) = false := by
  rw [waits, ofNat_ofLE_leBytes 4 v]
  rcases h with h | h <;> simp only [decide_eq_false h, Bool.false_and, Bool.and_false]

theorem handler_write (h : t.waits offset (leBytes 4 v.toNat) = false) :
    handler config backend (.write offset v) t =
      if t.panicked then none else some ((), t.write offset (leBytes 4 v.toNat) backend) := by
  rw [handler, Mmio.step, h]
  cases t.panicked <;> rfl

/-- The answers do not depend on what is outside the driver. -/
theorem respects (config : DeviceConfig) (backend : Bool) {a : RegAccess} (ha : a.Blind) :
    (handler config backend).Respects (Alike False) a := by
  intro t u h
  have hp : u.panicked = t.panicked := h.same panicked fun _ => rfl
  cases a with
  | read offset =>
    simp only [handler, hp, h.read config (fun ho => ha ho)]
    split
    · exact .inl ⟨rfl, rfl⟩
    · exact .inr ⟨_, t, u, rfl, rfl, h⟩
  | write offset v =>
    rw [handler_write (t.waits_blind ha), handler_write (u.waits_blind ha), hp]
    split
    · exact .inl ⟨rfl, rfl⟩
    · exact .inr ⟨(), _, _, rfl, rfl, h.write offset _ backend⟩

end

end MmioTransport

/-! ## Undisturbed -/

namespace Driver

open MmioTransport

variable {t : MmioTransport} {config : DeviceConfig} {backend : Bool} {offset : BitVec 64}

theorem handler_read (hp : t.panicked = false) (ho : offset ≤ 0xff) {v : BitVec 32}
    (hr : t.readRegister offset = some v) :
    handler config backend (.read offset) t = some (v, t) := by
  have h : t.read config offset [0, 0, 0, 0] = leBytes 4 v.toNat := by
    rw [MmioTransport.read, if_pos ⟨ho, rfl⟩, hr]
  simp only [handler, hp, h, ofNat_ofLE_leBytes 4 v]
  rfl

theorem run_read (hp : t.panicked = false) (ho : offset ≤ 0xff) {v : BitVec 32}
    (hr : t.readRegister offset = some v) :
    Prog.run (handler config backend) (read offset) t = some (v, t) := by
  rw [read, Prog.run_access, handler_read hp ho hr]
  rfl

theorem run_write (hp : t.panicked = false) (ho : offset ≤ 0xff) {v : BitVec 32}
    (hw : t.waits offset (leBytes 4 v.toNat) = false) :
    Prog.run (handler config backend) (write offset v) t =
      some ((), t.writeRegister offset v backend) := by
  rw [write, Prog.run_access, handler_write hw, hp, write_word t ho]
  rfl

/-- A register other than the status. -/
theorem run_set (hp : t.panicked = false) (ho : offset ≤ 0xff ∧ offset ≠ 0x70) (v : BitVec 32) :
    Prog.run (handler config backend) (write offset v) t =
      some ((), t.writeRegister offset v backend) :=
  run_write hp ho.1 (t.waits_blind (.inl ho.2))

theorem or_ne_zero {s bits : BitVec 32} (h : bits ≠ 0) : s ||| bits ≠ 0 :=
  fun h0 => h (BitVec.or_eq_zero_iff.mp h0).2

theorem run_addStatus (hp : t.panicked = false) {bits : BitVec 32} (hb : bits ≠ 0) :
    Prog.run (handler config backend) (addStatus bits) t =
      some ((), t.setDeviceStatus (t.deviceStatus ||| bits) backend) := by
  rw [addStatus, Prog.run_bind_of (run_read hp (by decide) (by rfl)),
    run_write hp (by decide) (t.waits_blind (.inr (or_ne_zero hb)))]
  rfl

/-- Every device offers `VIRTIO_F_VERSION_1`, which the transport adds. -/
theorem offered_eq (d : VirtioDevice) :
    (d.availFeaturesByPage 1 ||| 1) ++ d.availFeaturesByPage 0 = d.availFeatures := by
  show ((d.kind.availFeatures >>> 32).setWidth 32 ||| 1#32) ++ d.kind.availFeatures.setWidth 32 =
    d.kind.availFeatures
  cases d.kind with
  | block flush readOnly => cases flush <;> cases readOnly <;> decide
  | rng => decide
  | console => decide
  | net => decide

theorem run_offered (hp : t.panicked = false) :
    Prog.run (handler config backend) offered t =
      some (t.device.availFeatures, { t with featuresSelect := 0 }) := by
  have h₁ : t.writeRegister 0x14 1 backend = { t with featuresSelect := 1 } := rfl
  have h₂ : { t with featuresSelect := 1 }.writeRegister 0x14 0 backend = { t with featuresSelect := 0 } :=
    rfl
  rw [offered, Prog.run_bind_of (run_set hp (by decide) 1), h₁,
    Prog.run_bind_of (@run_read { t with featuresSelect := 1 } _ _ _ hp (by decide) _ rfl),
    Prog.run_bind_of (@run_set { t with featuresSelect := 1 } _ _ _ hp (by decide) 0), h₂,
    Prog.run_bind_of (@run_read { t with featuresSelect := 0 } _ _ _ hp (by decide) _ rfl)]
  exact congrArg (fun v => some (v, { t with featuresSelect := 0 })) (offered_eq t.device)

theorem ackFeaturesByPage_eq (d : VirtioDevice) (page value : BitVec 32) :
    d.ackFeaturesByPage page value = { d with ackedFeatures := d.ackedFeatures |||
      ((if page = 0 then value.setWidth 64 else if page = 1 then value.setWidth 64 <<< 32 else 0) &&&
        d.availFeatures) } := by
  have h : ∀ v w : BitVec 64, v &&& ~~~(v &&& ~~~w) = v &&& w := fun v w => by
    refine BitVec.eq_of_getLsbD_eq fun i hi => ?_
    simp only [BitVec.getLsbD_and, BitVec.getLsbD_not, hi, decide_true, Bool.true_and]
    cases v.getLsbD i <;> simp
  simp only [VirtioDevice.ackFeaturesByPage, h]

/-- Features acknowledged by their halves. -/
theorem or_halves (a v w : BitVec 64) :
    a ||| ((v.extractLsb' 32 32).setWidth 64 <<< 32 &&& w) |||
      ((v.extractLsb' 0 32).setWidth 64 &&& w) = a ||| (v &&& w) := by
  refine BitVec.eq_of_getLsbD_eq fun i hi => ?_
  by_cases h : i < 32
  · simp [hi, h]
  · have h' : i - 32 < 32 := by omega
    have he : 32 + (i - 32) = i := by omega
    simp [hi, h, h', he]

theorem run_acceptPage (hp : t.panicked = false)
    (hs : t.checkDeviceStatus DRIVER (FEATURES_OK ||| FAILED) = true) (page value : BitVec 32) :
    Prog.run (handler config backend) (acceptPage page value) t = some ((), { t with
      ackedFeaturesSelect := page, device := t.device.ackFeaturesByPage page value }) := by
  rw [acceptPage, Prog.run_bind_of (run_set hp (by decide) page)]
  refine (@run_set { t with ackedFeaturesSelect := page } _ _ _ hp (by decide) value).trans ?_
  exact congrArg (fun u => some ((), u)) (if_pos hs)

theorem run_accept (hp : t.panicked = false)
    (hs : t.checkDeviceStatus DRIVER (FEATURES_OK ||| FAILED) = true) (features : BitVec 64) :
    Prog.run (handler config backend) (accept features) t = some ((), { t with
      ackedFeaturesSelect := 0
      device := { t.device with
        ackedFeatures := t.device.ackedFeatures ||| (features &&& t.device.availFeatures) } }) := by
  rw [accept, Prog.run_bind_of (run_acceptPage hp hs _ _)]
  refine (run_acceptPage (by exact hp) (by exact hs) _ _).trans ?_
  simp only [ackFeaturesByPage_eq, VirtioDevice.availFeatures]
  rw [if_neg (by decide), if_pos trivial, if_pos trivial, or_halves]

/-! ### Queues -/

theorem offset_queue (w : QueueWrite) : w.offset ≤ 0xff ∧ w.offset ≠ 0x70 := by
  cases w with
  | sel v => exact (by decide : (0x30 : BitVec 64) ≤ 0xff ∧ (0x30 : BitVec 64) ≠ 0x70)
  | reg r v =>
    show r.offset ≤ 0xff ∧ r.offset ≠ 0x70
    cases r <;> decide

theorem run_program (ht : t.Programmable) (hp : t.panicked = false) {qs : List Queue}
    (hq : t.queues = some qs) (ws : List QueueWrite) :
    Prog.run (handler config backend) (program ws) t = some ((), t.program ws backend) := by
  induction ws generalizing t qs with
  | nil => rfl
  | cons w ws ih =>
    have hw : t.writeRegister w.offset w.value backend = t.program [w] backend :=
      (write_word t (offset_queue w).1 w.value).symm
    have hu := @program_eq t backend _ ht hq [w]
    rw [program, Prog.run_bind_of (run_set hp (offset_queue w) w.value), hw]
    have ht' : (t.program [w] backend).Programmable := by
      rw [hu]
      exact ⟨ht.featuresOk, ht.working⟩
    have hp' : (t.program [w] backend).panicked = false := by
      rw [hu]
      exact hp
    exact ih ht' hp' (by rw [hu])

theorem halves_extract (a b : GuestAddress) :
    halves (some (a.extractLsb' 32 32)) (some (a.extractLsb' 0 32)) b = a :=
  @BitVec.extractLsb'_append_extractLsb' 32 32 a

theorem programmed_writes {i : Nat} (hi : i < 2 ^ 32) (s : QueueSetup) (k : Nat) (q : Queue) :
    q.programmed (fun r => lastWritten (BitVec.ofNat 32 i) k r s.writes) =
      if i = k then s.queue q else q := by
  have hs : (BitVec.ofNat 32 i).toNat = i := Nat.mod_eq_of_lt hi
  by_cases h : i = k
  · subst h
    rw [if_pos rfl]
    simp [Queue.programmed, QueueSetup.writes, lastWritten, hs, halves_extract, QueueSetup.queue]
  · have hn : (fun r => lastWritten (BitVec.ofNat 32 i) k r s.writes) = fun _ => none := by
      funext r
      simp [QueueSetup.writes, lastWritten, hs, h]
    rw [if_neg h, hn, q.programmed_none]

theorem withQueue_eq {U : Type} {qs : List Queue} {q : Queue} (hq : t.queues = some qs)
    (hs : qs[t.queueSelect.toNat]? = some q) (d : U) (f : Queue → U) : t.withQueue d f = f q := by
  simp only [withQueue, hq, hs]

theorem run_setupQueue (ht : t.Programmable) (hp : t.panicked = false) {qs : List Queue}
    (hq : t.queues = some qs) {i : Nat} (hi : i < 2 ^ 32) {q : Queue} (hqi : qs[i]? = some q)
    {s : QueueSetup} (hr : q.ready = false) (hs : s.size ≤ q.maxSize) :
    Prog.run (handler config backend) (setupQueue i s) t = some (true, { t with
      queueSelect := BitVec.ofNat 32 i, queues := some (qs.modify i s.queue) }) := by
  have hsel : (BitVec.ofNat 32 i).toNat = i := Nat.mod_eq_of_lt hi
  have hqs : qs[(BitVec.ofNat 32 i).toNat]? = some q := by rw [hsel, hqi]
  let u : MmioTransport := { t with queueSelect := BitVec.ofNat 32 i }
  have hready : u.readRegister 0x44 = some 0 := by
    refine congrArg some ((@withQueue_eq u _ _ _ hq hqs _ _).trans ?_)
    simp [hr]
  have hmax : u.readRegister 0x34 = some (q.maxSize.setWidth 32) :=
    congrArg some (@withQueue_eq u _ _ _ hq hqs _ _)
  have hfits : ¬ (q.maxSize.setWidth 32 < s.size.setWidth 32) := by
    rw [BitVec.lt_def, BitVec.toNat_setWidth, BitVec.toNat_setWidth]
    rw [BitVec.le_def] at hs
    omega
  rw [setupQueue, Prog.run_bind_of (run_set hp (by decide) _)]
  show Prog.run _ _ u = _
  rw [Prog.run_bind_of (@run_read u _ _ _ hp (by decide) _ hready),
    Prog.run_bind_of (@run_read u _ _ _ hp (by decide) _ hmax), if_neg (by simp [hfits]),
    Prog.run_bind_of (@run_program u _ _ ⟨ht.featuresOk, ht.working⟩ hp _ hq _),
    @program_eq u _ _ ⟨ht.featuresOk, ht.working⟩ hq]
  have hlist : (qs.mapIdx fun k q => q.programmed fun r =>
      lastWritten (BitVec.ofNat 32 i) k r s.writes) = qs.modify i s.queue := by
    refine List.ext_getElem? fun k => ?_
    rw [List.getElem?_mapIdx, List.getElem?_modify]
    simp only [programmed_writes hi]
    cases qs[k]? with
    | none => rfl
    | some q => by_cases h : i = k <;> simp [h]
  show some (true, _) = _
  rw [show u.queueSelect = BitVec.ofNat 32 i from rfl, hlist]
  rfl

/-- The queues that are not set up yet are as after a reset. -/
theorem run_setupQueues {ss : List QueueSetup} {ns : List (BitVec 16)} (ht : t.Programmable)
    (hp : t.panicked = false) {done : List Queue} (hq : t.queues = some (done ++ ns.map Queue.new))
    (hn : (done ++ ns.map Queue.new).length < 2 ^ 32)
    (hs : List.Forall₂ (fun s n => QueueSetup.size s ≤ n) ss ns) :
    ∃ sel, Prog.run (handler config backend) (setupQueues done.length ss) t = some (true, { t with
      queueSelect := sel
      queues := some (done ++ List.zipWith (fun s n => QueueSetup.queue s (Queue.new n)) ss ns) }) := by
  induction hs generalizing t done with
  | nil =>
    refine ⟨t.queueSelect, ?_⟩
    show some (true, t) = some (true, { t with queues := some (done ++ []) })
    rw [← show t.queues = some (done ++ []) from hq]
  | @cons s n ss ns hsize hs ih =>
    have hi : done.length < 2 ^ 32 := by
      rw [List.length_append, List.map_cons, List.length_cons] at hn
      omega
    have hqi : (done ++ (n :: ns).map Queue.new)[done.length]? = some (Queue.new n) := by simp
    have hmod : (done ++ (n :: ns).map Queue.new).modify done.length s.queue =
        (done ++ [s.queue (Queue.new n)]) ++ ns.map Queue.new := by
      rw [List.map_cons, List.append_assoc]
      exact List.modifyTailIdx_add _ 0 done (Queue.new n :: ns.map Queue.new)
    rw [setupQueues, Prog.run_bind_of (run_setupQueue ht hp hq hi hqi rfl hsize), hmod, if_pos rfl]
    obtain ⟨sel, h⟩ := @ih { t with
      queueSelect := BitVec.ofNat 32 done.length
      queues := some ((done ++ [s.queue (Queue.new n)]) ++ ns.map Queue.new) }
      ⟨ht.featuresOk, ht.working⟩ hp
      (done ++ [s.queue (Queue.new n)]) rfl (by simpa using hn)
    refine ⟨sel, ?_⟩
    rw [List.length_append, List.length_singleton] at h
    rw [h]
    simp

/-! ### The whole handshake -/

theorem setDeviceStatus_next {v : BitVec 32} (h : (t.deviceStatus, v) ∈
      [(INIT, ACKNOWLEDGE), (ACKNOWLEDGE, ACKNOWLEDGE ||| DRIVER),
        (ACKNOWLEDGE ||| DRIVER, ACKNOWLEDGE ||| DRIVER ||| FEATURES_OK)]) (backend : Bool) :
    t.setDeviceStatus v backend = { t with deviceStatus := v } := by
  simp only [List.mem_cons, Prod.mk.injEq, List.not_mem_nil, or_false] at h
  unfold setDeviceStatus
  rcases h with ⟨hs, rfl⟩ | ⟨hs, rfl⟩ | ⟨hs, rfl⟩ <;> simp only [hs]
  · exact if_pos (by decide)
  · rw [if_neg (by decide)]
    exact if_pos (by decide)
  · rw [if_neg (by decide), if_neg (by decide)]
    exact if_pos (by decide)

theorem run_addStatus_next (hp : t.panicked = false) {s bits : BitVec 32} (hs : t.deviceStatus = s)
    (hb : bits ≠ 0) (h : (s, s ||| bits) ∈ [(INIT, ACKNOWLEDGE), (ACKNOWLEDGE, ACKNOWLEDGE ||| DRIVER),
      (ACKNOWLEDGE ||| DRIVER, ACKNOWLEDGE ||| DRIVER ||| FEATURES_OK)]) :
    Prog.run (handler config backend) (addStatus bits) t =
      some ((), { t with deviceStatus := s ||| bits }) := by
  subst hs
  rw [run_addStatus hp hb, setDeviceStatus_next h]

theorem setDeviceStatus_driverOk (hs : t.deviceStatus = ACKNOWLEDGE ||| DRIVER ||| FEATURES_OK)
    (ha : t.device.activated = false) (backend : Bool) :
    t.setDeviceStatus HANDSHAKE backend = { t with deviceStatus := HANDSHAKE }.activate backend := by
  unfold setDeviceStatus
  simp only [hs, ha]
  rw [if_neg (by decide), if_neg (by decide), if_neg (by decide), if_pos (by decide)]
  rfl

/-- The queues as the driver describes them. -/
def described (setups : List QueueSetup) (ns : List (BitVec 16)) : List Queue :=
  List.zipWith (fun s n => QueueSetup.queue s (Queue.new n)) setups ns

/-- The features acknowledged so far, and those of `wanted` that are offered. -/
def acked (t : MmioTransport) (wanted : BitVec 64) : BitVec 64 :=
  t.device.ackedFeatures ||| (wanted &&& t.device.availFeatures)

/-- The queues the worker gets when the driver wants the features `wanted`. -/
def workerQueues (t : MmioTransport) (wanted : BitVec 64) (setups : List QueueSetup) : List Queue :=
  (described setups t.device.kind.queueConfig).map
    (Queue.setEventIdx · (acked t wanted &&& 1#64 <<< DeviceKind.VIRTIO_RING_F_EVENT_IDX ≠ 0#64))

/-- The transport `t`, reset before, when its device is about to get the queues. -/
def prepared (t : MmioTransport) (wanted : BitVec 64) (setups : List QueueSetup) (sel : BitVec 32) :
    MmioTransport :=
  { t with
    featuresSelect := 0
    ackedFeaturesSelect := 0
    queueSelect := sel
    deviceStatus := ACKNOWLEDGE ||| DRIVER ||| FEATURES_OK
    queues := some (described setups t.device.kind.queueConfig)
    device := { t.device with ackedFeatures := acked t wanted } }

/-- The transport `t`, reset before, when its device has got the queues. -/
def started (t : MmioTransport) (wanted : BitVec 64) (setups : List QueueSetup) (sel : BitVec 32) :
    MmioTransport :=
  { prepared t wanted setups sel with
    deviceStatus := HANDSHAKE
    queues := none
    activations := t.activations ++ [(HANDSHAKE, workerQueues t wanted setups)] }

def working (t : MmioTransport) (wanted : BitVec 64) (setups : List QueueSetup) (sel : BitVec 32) :
    MmioTransport :=
  { started t wanted setups sel with
    device := { t.device with
      ackedFeatures := acked t wanted, worker := some (workerQueues t wanted setups),
      thread := .waiting, activated := true, disk := false } }

theorem checkDeviceStatus_of {s set clr : BitVec 32} (hs : t.deviceStatus = s)
    (h : s &&& (set ||| clr) = set) : t.checkDeviceStatus set clr = true := by
  rw [checkDeviceStatus, hs]
  exact decide_eq_true h

theorem programmable_of_status (hs : t.deviceStatus = ACKNOWLEDGE ||| DRIVER ||| FEATURES_OK) :
    t.Programmable :=
  ⟨by rw [hs]; decide, by rw [hs]; decide⟩

/-- A transport after a reset. -/
structure ResetInv (t : MmioTransport) : Prop where
  status : t.deviceStatus = INIT
  panicked : t.panicked = false
  activated : t.device.activated = false
  worker : t.device.worker = none
  queues : t.queues = some (t.device.kind.queueConfig.map Queue.new)
  events : t.queueEvts.length = t.device.kind.queueConfig.length

section
variable {wanted : BitVec 64} {setups : List QueueSetup}
  (hsize : List.Forall₂ (fun s n => QueueSetup.size s ≤ n) setups t.device.kind.queueConfig)
include hsize

theorem length_described :
    (described setups t.device.kind.queueConfig).length = t.device.kind.queueConfig.length := by
  rw [described, List.length_zipWith, hsize.length_eq, min_self]

theorem run_prepare (config : DeviceConfig) (backend : Bool) (wanted : BitVec 64) (hi : ResetInv t) :
    ∃ sel, Prog.run (handler config backend) (prepare wanted setups) t =
      some (true, prepared t wanted setups sel) := by
  have hp := hi.panicked
  have hlen : t.device.kind.queueConfig.length < 2 ^ 32 := by
    unfold DeviceKind.queueConfig
    split <;> decide
  let t₁ : MmioTransport := { t with deviceStatus := ACKNOWLEDGE }
  let t₂ : MmioTransport := { t with deviceStatus := ACKNOWLEDGE ||| DRIVER }
  let t₃ : MmioTransport := { t₂ with
    featuresSelect := 0, ackedFeaturesSelect := 0
    device := { t.device with ackedFeatures := acked t wanted } }
  let t₄ : MmioTransport := { t₃ with deviceStatus := ACKNOWLEDGE ||| DRIVER ||| FEATURES_OK }
  have haccept : wanted &&& t.device.availFeatures &&& t.device.availFeatures =
      wanted &&& t.device.availFeatures := by
    rw [BitVec.and_assoc, BitVec.and_self]
  obtain ⟨sel, hsel⟩ := @run_setupQueues t₄ config backend setups _ (programmable_of_status rfl) hp []
    hi.queues (by simpa using hlen) hsize
  refine ⟨sel, ?_⟩
  refine (Prog.run_bind_of (run_addStatus_next hp hi.status (by decide) (by decide)) _).trans ?_
  refine (Prog.run_bind_of
    (@run_addStatus_next t₁ _ _ hp ACKNOWLEDGE DRIVER rfl (by decide) (by decide)) _).trans ?_
  refine (Prog.run_bind_of (run_offered (by exact hp)) _).trans ?_
  refine (Prog.run_bind_of (@run_accept { t₂ with featuresSelect := 0 } _ _ hp
    (checkDeviceStatus_of (s := ACKNOWLEDGE ||| DRIVER) rfl (by decide)) _) _).trans ?_
  rw [show t₂.device.availFeatures = t.device.availFeatures from rfl, haccept]
  refine (Prog.run_bind_of
    (@run_addStatus_next t₃ _ _ hp (ACKNOWLEDGE ||| DRIVER) FEATURES_OK rfl (by decide) (by decide))
    _).trans ?_
  refine (Prog.run_bind_of (@run_read t₄ _ _ _ hp (by decide)
    (ACKNOWLEDGE ||| DRIVER ||| FEATURES_OK) rfl) _).trans ?_
  rw [if_neg (by decide)]
  exact hsel

/-- The device takes the queues unless it cannot open what is outside the machine. -/
theorem run_activate (config : DeviceConfig) (backend : Bool) (wanted : BitVec 64) (hi : ResetInv t)
    (sel : BitVec 32) :
    Prog.run (handler config backend) (addStatus DRIVER_OK) (prepared t wanted setups sel) =
      some ((), if t.device.opens backend then working t wanted setups sel
        else { started t wanted setups sel with panicked := true }) := by
  let u := prepared t wanted setups sel
  have hd : deviceQueues { u with deviceStatus := HANDSHAKE } (described setups t.device.kind.queueConfig) =
      workerQueues t wanted setups :=
    congrArg (List.map _) (List.take_of_length_le (by rw [length_described hsize]; exact hi.events.ge))
  have ha : u.device.activate backend (workerQueues t wanted setups) =
      if t.device.opens backend then some (.ok { u.device with
        worker := some (workerQueues t wanted setups), thread := .waiting, activated := true,
        disk := false })
      else some (.error .badActivate) := by
    have hw : ¬ u.device.worker.isSome := by
      rw [show u.device.worker = none from hi.worker]
      exact Bool.false_ne_true
    have hn : (workerQueues t wanted setups).length = u.device.kind.queueConfig.length := by
      rw [workerQueues, List.length_map, length_described hsize]
      rfl
    have ho : u.device.opens backend = t.device.opens backend := rfl
    rw [VirtioDevice.activate, if_neg hw, ho]
    cases t.device.opens backend with
    | true => exact if_neg (by simp [hn])
    | false => exact if_pos (.inr rfl)
  rw [run_addStatus (by exact hi.panicked) (by decide)]
  refine congrArg (fun v => some ((), v)) ?_
  refine (@setDeviceStatus_driverOk u rfl hi.activated backend).trans ?_
  rw [@activate_some { u with deviceStatus := HANDSHAKE } backend _ rfl, hd, ha]
  cases t.device.opens backend <;> rfl

/-- What becomes of a transport that has been reset. -/
theorem run_afterReset (config : DeviceConfig) (backend : Bool) (wanted : BitVec 64) (hi : ResetInv t) :
    if t.device.opens backend then
      ∃ sel, Prog.run (handler config backend) (afterReset wanted setups) t =
        some (true, working t wanted setups sel)
    else Prog.run (handler config backend) (afterReset wanted setups) t = none ∧
      (Prog.lastState (handler config backend) (afterReset wanted setups) t).panicked = true := by
  obtain ⟨sel, hsel⟩ := run_prepare hsize config backend wanted hi
  have hread : Prog.run (handler config backend) (read 0x70) t = some (0, t) :=
    run_read hi.panicked (by decide) (congrArg some hi.status)
  have hact := run_activate hsize config backend wanted hi sel
  have hrun : Prog.run (handler config backend) (afterReset wanted setups) t =
      Prog.run (handler config backend) start (prepared t wanted setups sel) := by
    rw [afterReset, Prog.run_bind_of hread, if_neg (by decide), Prog.run_bind_of hsel]
    rfl
  have hlast : Prog.lastState (handler config backend) (afterReset wanted setups) t =
      Prog.lastState (handler config backend) start (prepared t wanted setups sel) := by
    rw [afterReset, Prog.lastState_bind_of hread, if_neg (by decide), Prog.lastState_bind_of hsel]
    rfl
  rw [hrun, hlast, start, Prog.run_bind_of hact, Prog.lastState_bind_of hact]
  split
  · refine ⟨sel, (@Prog.run_bind_of _ _ _ _ _ _ _ _ _ _
      (@run_read (working t wanted setups sel) config _ _ hi.panicked (by decide) HANDSHAKE rfl) _).trans ?_⟩
    rfl
  · exact ⟨rfl, rfl⟩

end
/-! ## Disturbed

While the driver goes about it, the worker of an earlier driver and the other
processors do their part. -/

/-- What others do in the meantime. -/
def Others (t u : MmioTransport) : Prop :=
  (∃ w, Mmio.step t (.worker w) = some u) ∨ ∃ offset data, Mmio.step t (.ioapic offset data) = some u

theorem Others.alike {u : MmioTransport} (h : Others t u) : Alike False t u := by
  rcases h with ⟨w, hs⟩ | ⟨offset, data, hs⟩
  · exact alike_workerStep hs
  · obtain rfl := Option.some.inj hs
    exact alike_intc t _

theorem alike_of_others {u : MmioTransport} (h : Relation.ReflTransGen Others t u) : Alike False t u := by
  induction h with
  | refl => exact .refl t
  | tail _ hn ih => exact ih.trans hn.alike

theorem reachable_of_others {u : MmioTransport} (hr : system.Reachable t)
    (h : Relation.ReflTransGen Others t u) : system.Reachable u := by
  induction h with
  | refl => exact hr
  | tail _ hn ih =>
    rcases hn with ⟨w, hs⟩ | ⟨offset, data, hs⟩
    · exact ih.step (l := .worker w) hs
    · exact ih.step (l := .ioapic offset data) hs

/-- A driver's program that asks neither for the interrupt nor for a reset. -/
abbrev Blinded {α : Type} (p : RProg α) : Prop := Prog.Partly RegAccess.Blind (fun _ => True) p

theorem blind_read (h : offset ≠ 0x60) : Blinded (read offset) := ⟨h, fun _ => trivial⟩

theorem blind_write (h : offset ≠ 0x70) (v : BitVec 32) : Blinded (write offset v) :=
  ⟨.inl h, fun _ => trivial⟩

theorem blind_addStatus {bits : BitVec 32} (hb : bits ≠ 0) : Blinded (addStatus bits) :=
  (blind_read (by decide)).bind fun _ _ => ⟨.inr (or_ne_zero hb), fun _ => trivial⟩

theorem blind_program (ws : List QueueWrite) : Blinded (program ws) := by
  induction ws with
  | nil => trivial
  | cons w ws ih => exact (blind_write (offset_queue w).2 _).bind fun _ _ => ih

theorem blind_setupQueue (i : Nat) (s : QueueSetup) : Blinded (setupQueue i s) := by
  refine (blind_write (by decide) _).bind fun _ _ => (blind_read (by decide)).bind fun _ _ =>
    (blind_read (by decide)).bind fun _ _ => ?_
  split
  · trivial
  · exact (blind_program _).bind fun _ _ => trivial

theorem blind_setupQueues (i : Nat) (ss : List QueueSetup) : Blinded (setupQueues i ss) := by
  induction ss generalizing i with
  | nil => trivial
  | cons s ss ih =>
    refine (blind_setupQueue i s).bind fun ok _ => ?_
    split
    · exact ih (i + 1)
    · trivial

theorem blind_prepare (wanted : BitVec 64) (setups : List QueueSetup) :
    Blinded (prepare wanted setups) := by
  refine (blind_addStatus (by decide)).bind fun _ _ => (blind_addStatus (by decide)).bind fun _ _ => ?_
  refine Prog.Partly.bind (Q := fun _ => True) ?_ fun features _ => ?_
  · exact (blind_write (by decide) _).bind fun _ _ => (blind_read (by decide)).bind fun _ _ =>
      (blind_write (by decide) _).bind fun _ _ => (blind_read (by decide)).bind fun _ _ => trivial
  have hpage : ∀ page value, Blinded (acceptPage page value) := fun page value =>
    (blind_write (by decide) _).bind fun _ _ => blind_write (by decide) _
  refine Prog.Partly.bind (Q := fun _ => True) ((hpage _ _).bind fun _ _ => hpage _ _) fun _ _ => ?_
  refine (blind_addStatus (by decide)).bind fun _ _ => (blind_read (by decide)).bind fun _ _ => ?_
  split
  · trivial
  · exact blind_setupQueues 0 setups

theorem blind_afterReset (wanted : BitVec 64) (setups : List QueueSetup) :
    Blinded (afterReset wanted setups) := by
  refine (blind_read (by decide)).bind fun _ _ => ?_
  split
  · trivial
  refine (blind_prepare wanted setups).bind fun ok _ => ?_
  split
  · exact (blind_addStatus (by decide)).bind fun _ _ => (blind_read (by decide)).bind fun _ _ => trivial
  · trivial

/-- Until the reset the driver only reads, and from then on its program is blind. -/
theorem reset_cases (hp : t.panicked = false) {wanted : BitVec 64} {setups : List QueueSetup}
    {p : RProg Bool} {u : MmioTransport}
    (hd : Prog.Disturbed (handler config backend) Others (initialise wanted setups) t p u) :
    (Relation.ReflTransGen Others t u ∧
      Prog.run (handler config backend) p u =
        Prog.run (handler config backend) (restart wanted setups) u ∧
      Prog.lastState (handler config backend) p u =
        Prog.lastState (handler config backend) (restart wanted setups) u) ∨
      ∃ s s', Relation.ReflTransGen Others t s ∧
        handler config backend (.write 0x70 0) s = some ((), s') ∧
        Prog.Disturbed (handler config backend) Others (afterReset wanted setups) s' p u := by
  let k : RProg Bool := do
    let version ← read 0x04
    if MMIO_MAGIC_VALUE ≠ MMIO_MAGIC_VALUE ∨ version ≠ MMIO_VERSION then pure false
    else restart wanted setups
  have hpan : ∀ {s}, Relation.ReflTransGen Others t s → s.panicked = false := fun h =>
    ((alike_of_others h).same panicked fun _ => rfl).trans hp
  have hmagic : ∀ {s}, Relation.ReflTransGen Others t s →
      handler config backend (.read 0x00) s = some (MMIO_MAGIC_VALUE, s) := fun h =>
    handler_read (hpan h) (by decide) rfl
  have hversion : ∀ {s}, Relation.ReflTransGen Others t s →
      handler config backend (.read 0x04) s = some (MMIO_VERSION, s) := fun h =>
    handler_read (hpan h) (by decide) rfl
  have hk : ∀ {s}, Relation.ReflTransGen Others t s →
      Prog.run (handler config backend) k s =
        Prog.run (handler config backend) (restart wanted setups) s ∧
      Prog.lastState (handler config backend) k s =
        Prog.lastState (handler config backend) (restart wanted setups) s := fun {s} h => by
    have hr : Prog.run (handler config backend) (read 0x04) s = some (MMIO_VERSION, s) := by
      rw [read, Prog.run_access, hversion h]
      rfl
    rw [show k = read 0x04 >>= _ from rfl, Prog.run_bind_of hr, Prog.lastState_bind_of hr,
      if_neg (by decide)]
    exact ⟨rfl, rfl⟩
  rcases hd.access_cases rfl with ⟨rfl, hu⟩ | ⟨s₁, magic, s₂, h₁, ha, hd⟩
  · have hr : Prog.run (handler config backend) (read 0x00) u = some (MMIO_MAGIC_VALUE, u) := by
      rw [read, Prog.run_access, hmagic hu]
      rfl
    rw [initialise, Prog.run_bind_of hr, Prog.lastState_bind_of hr]
    exact .inl ⟨hu, hk hu⟩
  rw [hmagic h₁] at ha
  obtain ⟨rfl, rfl⟩ := Prod.mk.inj (Option.some.inj ha)
  change Prog.Disturbed _ _ k s₁ p u at hd
  rcases hd.access_cases rfl with ⟨rfl, hu⟩ | ⟨s₂, version, s₃, h₂, ha, hd⟩
  · exact .inl ⟨h₁.trans hu, hk (h₁.trans hu)⟩
  rw [hversion (h₁.trans h₂)] at ha
  obtain ⟨rfl, rfl⟩ := Prod.mk.inj (Option.some.inj ha)
  change Prog.Disturbed _ _ (restart wanted setups) s₂ p u at hd
  rcases hd.access_cases rfl with ⟨rfl, hu⟩ | ⟨s₃, r, s₄, h₃, ha, hd⟩
  · exact .inl ⟨h₁.trans (h₂.trans hu), rfl, rfl⟩
  · exact .inr ⟨s₃, s₄, h₁.trans (h₂.trans h₃), ha, hd⟩

theorem handler_reset (config : DeviceConfig) (backend : Bool) (t : MmioTransport) :
    handler config backend (.write 0x70 0) t =
      if t.panicked ∨ t.waits 0x70 (leBytes 4 0) then none else some ((), t.setDeviceStatus 0 backend) := by
  have hw : t.write 0x70 (leBytes 4 0) backend = t.setDeviceStatus 0 backend :=
    write_word t (by decide) 0
  show (Mmio.step t (.write 0x70 (leBytes 4 0) backend)).map _ = _
  rw [Mmio.step, apply_ite (Option.map _), hw]
  rfl

/-- The device is stopped, and the transport is reset unless the device has failed. -/
theorem resetInv_of_reachable (hr : system.Reachable t) (hp : t.panicked = false) :
    ResetInv t.stopped.reset := by
  have hi := cycleInv_of_reachable hr
  have hc : t.stopped.queueConfig = t.stopped.device.kind.queueConfig := hi.device.stopped.1.queueConfig
  refine ⟨rfl, ?_, hi.device.stopped.2, hi.device.stopped.1.worker hi.device.stopped.2, ?_, ?_⟩
  · show t.stopped.panicked = false
    unfold stopped
    split <;> exact hp
  · show some (createQueues t.stopped.queueConfig) = _
    rw [hc]
    rfl
  · exact hi.queue.stopped.events.trans (congrArg List.length hc)

theorem run_reset (hr : system.Reachable t) {s : MmioTransport} (wanted : BitVec 64)
    {setups : List QueueSetup}
    (hsize : List.Forall₂ (fun s n => QueueSetup.size s ≤ n) setups t.device.kind.queueConfig)
    (hs : handler config backend (.write 0x70 0) t = some ((), s)) :
    if t.deviceStatus &&& FAILED ≠ 0 then
      ∃ u, Prog.run (handler config backend) (afterReset wanted setups) s = some (false, u) ∧
        u.panicked = false
    else if t.device.opens backend then
      ∃ u, Prog.run (handler config backend) (afterReset wanted setups) s = some (true, u) ∧
        u.panicked = false ∧ u.deviceStatus = HANDSHAKE ∧ u.device.activated = true ∧
        u.device.ackedFeatures = acked t wanted ∧
        u.device.worker = some (workerQueues t wanted setups) ∧
        u.activations = t.activations ++ [(HANDSHAKE, workerQueues t wanted setups)]
    else Prog.run (handler config backend) (afterReset wanted setups) s = none ∧
      (Prog.lastState (handler config backend) (afterReset wanted setups) s).panicked = true := by
  rw [handler_reset] at hs
  obtain ⟨hn, hs⟩ := Option.ite_none_left_eq_some.mp hs
  have hp : t.panicked = false := Bool.eq_false_iff.mpr fun h => hn (.inl h)
  have hu : s = if t.deviceStatus &&& FAILED = 0 then t.stopped.reset else t.stopped := by
    rw [← setDeviceStatus_zero t backend]
    exact (congrArg Prod.snd (Option.some.inj hs)).symm
  have hst : t.stopped.panicked = false ∧ t.stopped.deviceStatus = t.deviceStatus ∧
      t.stopped.device.kind = t.device.kind ∧ acked t.stopped wanted = acked t wanted ∧
      workerQueues t.stopped wanted setups = workerQueues t wanted setups ∧
      t.stopped.activations = t.activations := by
    unfold stopped
    split <;> exact ⟨hp, rfl, rfl, rfl, rfl, rfl⟩
  obtain ⟨hpan, hstatus, hkind, hacked, hworker, hact⟩ := hst
  split
  · rename_i hf
    rw [if_neg hf] at hu
    subst hu
    refine ⟨t.stopped, ?_, hpan⟩
    rw [afterReset, Prog.run_bind_of (run_read hpan (by decide) rfl), if_pos]
    · rfl
    · intro h0
      exact hf (by rw [← hstatus, h0]; decide)
  · rename_i hf
    rw [if_pos (not_not.mp hf)] at hu
    subst hu
    have hopens : t.stopped.reset.device.opens backend = t.device.opens backend := by
      show t.stopped.device.opens backend = _
      rw [VirtioDevice.opens, hkind]
      rfl
    rw [show t.device.kind = t.stopped.reset.device.kind from hkind.symm] at hsize
    have hrun := run_afterReset hsize config backend wanted (resetInv_of_reachable hr hp)
    rw [hopens] at hrun
    split
    · rename_i ho
      rw [if_pos ho] at hrun
      obtain ⟨sel, hrun⟩ := hrun
      refine ⟨_, hrun, hpan, rfl, rfl, hacked, congrArg some hworker, ?_⟩
      show t.stopped.activations ++ [(HANDSHAKE, workerQueues t.stopped wanted setups)] = _
      rw [hworker, hact]
    · rename_i ho
      rw [if_neg ho] at hrun
      exact hrun

/-- A driver waits with its reset, or the rest of its program does as after the reset. -/
theorem run_disturbed (hp : t.panicked = false) {wanted : BitVec 64} {setups : List QueueSetup}
    {p : RProg Bool} {u : MmioTransport}
    (hd : Prog.Disturbed (handler config backend) Others (initialise wanted setups) t p u) :
    (Relation.ReflTransGen Others t u ∧ u.waits 0x70 (leBytes 4 0) = true ∧
      Prog.run (handler config backend) p u = none ∧
      Prog.lastState (handler config backend) p u = u) ∨
    ∃ s s', Relation.ReflTransGen Others t s ∧
      handler config backend (.write 0x70 0) s = some ((), s') ∧
      ((Prog.run (handler config backend) p u = none ∧
          Prog.run (handler config backend) (afterReset wanted setups) s' = none) ∨
        ∃ x v w, Prog.run (handler config backend) p u = some (x, v) ∧
          Prog.run (handler config backend) (afterReset wanted setups) s' = some (x, w) ∧
          Alike False v w) ∧
      Alike False (Prog.lastState (handler config backend) p u)
        (Prog.lastState (handler config backend) (afterReset wanted setups) s') := by
  have hblind := blind_afterReset wanted setups
  have hrespects := fun a ha => @respects config backend a ha
  rcases reset_cases hp hd with ⟨hu, hrun, hlast⟩ | ⟨s, s', hs, ha, hd⟩
  · have hpan : u.panicked = false := ((alike_of_others hu).same panicked fun _ => rfl).trans hp
    have hreset := handler_reset config backend u
    by_cases hw : u.waits 0x70 (leBytes 4 0) = true
    · rw [if_pos (.inr hw)] at hreset
      refine .inl ⟨hu, hw, ?_, ?_⟩
      · rw [hrun, restart, write, Prog.access_bind, Prog.run_access, hreset, Option.bind_none]
      · rw [hlast, restart, write, Prog.access_bind, Prog.lastState_refused _ hreset]
    · rw [if_neg (not_or.mpr ⟨Bool.eq_false_iff.mp hpan, hw⟩)] at hreset
      have hwrite : Prog.run (handler config backend) (write 0x70 0) u =
          some ((), u.setDeviceStatus 0 backend) := by
        rw [write, Prog.run_access, hreset]
        rfl
      rw [hrun, hlast, restart, Prog.run_bind_of hwrite, Prog.lastState_bind_of hwrite]
      exact .inr ⟨u, _, hu, hreset, hblind.run_related hrespects (.refl _)⟩
  · exact .inr ⟨s, s', hs, ha,
      hd.run alike_equivalence (fun _ _ => Others.alike) hblind hrespects⟩

/-- A driver that initialises a device, whenever it starts and whatever the worker of an earlier
driver and the other processors do meanwhile, waits with its reset for that worker; from then on it
succeeds, with the queues as it describes them, unless the device has failed or cannot be opened. -/
theorem initialise_iff (hr : system.Reachable t) (hp : t.panicked = false) (wanted : BitVec 64)
    {setups : List QueueSetup}
    (hsize : List.Forall₂ (fun s n => QueueSetup.size s ≤ n) setups t.device.kind.queueConfig)
    {p : RProg Bool} {u : MmioTransport}
    (hd : Prog.Disturbed (handler config backend) Others (initialise wanted setups) t p u) :
    (Relation.ReflTransGen Others t u ∧ u.waits 0x70 (leBytes 4 0) = true ∧
      Prog.run (handler config backend) p u = none ∧
      Prog.lastState (handler config backend) p u = u) ∨
    if t.deviceStatus &&& FAILED ≠ 0 then
      ∃ u', Prog.run (handler config backend) p u = some (false, u') ∧ u'.panicked = false
    else if t.device.opens backend then
      ∃ u', Prog.run (handler config backend) p u = some (true, u') ∧
        u'.panicked = false ∧ u'.deviceStatus = HANDSHAKE ∧ u'.device.activated = true ∧
        u'.device.ackedFeatures = acked t wanted ∧
        u'.device.worker = some (workerQueues t wanted setups) ∧
        u'.activations = t.activations ++ [(HANDSHAKE, workerQueues t wanted setups)]
    else Prog.run (handler config backend) p u = none ∧
      (Prog.lastState (handler config backend) p u).panicked = true := by
  rcases run_disturbed hp hd with hw | ⟨s, s', hs, ha, hrun, hlast⟩
  · exact .inl hw
  right
  have hE := alike_of_others hs
  have hkind : s.device.kind = t.device.kind := hE.same (fun t => t.device.kind) fun _ => rfl
  rw [← hkind] at hsize
  have hdone := run_reset (reachable_of_others hr hs) wanted hsize ha
  rw [hE.same deviceStatus fun _ => rfl, hE.same (fun t => t.device.opens backend) fun _ => rfl,
    hE.same (fun t => acked t wanted) fun _ => rfl,
    hE.same (fun t => workerQueues t wanted setups) fun _ => rfl,
    hE.same activations fun _ => rfl] at hdone
  split
  · rename_i hf
    rw [if_pos hf] at hdone
    obtain ⟨w, hw, hpan⟩ := hdone
    rcases hrun with ⟨-, hnone⟩ | ⟨x, v, w', hv, hw', hvw⟩
    · rw [hnone] at hw
      cases hw
    · rw [hw'] at hw
      obtain ⟨rfl, rfl⟩ := Prod.mk.inj (Option.some.inj hw)
      exact ⟨v, hv, (hvw.symm.same panicked fun _ => rfl).trans hpan⟩
  rename_i hf
  rw [if_neg hf] at hdone
  split
  · rename_i ho
    rw [if_pos ho] at hdone
    obtain ⟨w, hw, hpan, hstatus, hactivated, hacked, hworker, hact⟩ := hdone
    rcases hrun with ⟨-, hnone⟩ | ⟨x, v, w', hv, hw', hvw⟩
    · rw [hnone] at hw
      cases hw
    · rw [hw'] at hw
      obtain ⟨rfl, rfl⟩ := Prod.mk.inj (Option.some.inj hw)
      have hvw := hvw.symm
      refine ⟨v, hv, (hvw.same panicked fun _ => rfl).trans hpan,
        (hvw.same deviceStatus fun _ => rfl).trans hstatus,
        (hvw.same (fun t => t.device.activated) fun _ => rfl).trans hactivated,
        (hvw.same (fun t => t.device.ackedFeatures) fun _ => rfl).trans hacked,
        (hvw.same (fun t => t.device.worker) fun _ => rfl).trans hworker,
        (hvw.same activations fun _ => rfl).trans hact⟩
  · rename_i ho
    rw [if_neg ho] at hdone
    refine ⟨?_, (hlast.symm.same panicked fun _ => rfl).trans hdone.2⟩
    rcases hrun with ⟨hnone, -⟩ | ⟨x, v, w, -, hw, -⟩
    · exact hnone
    · rw [hdone.1] at hw
      cases hw

theorem initialise_iff_console :
    let t : MmioTransport := .new (.new .console) (some 22) .new
    let setups : List QueueSetup := [⟨64, 0x1000, 0x2000, 0x3000⟩, ⟨256, 0x4000, 0x6000, 0x7000⟩]
    ∃ u', Prog.run (handler (.console (consoleConfig 80 25)) true) (initialise (1#64 <<< 32) setups)
        { t with intc := t.intc.write 0 [0x10, 0, 0, 0] } = some (true, u') ∧
      u'.device.worker = some [
        { Queue.new 256 with
          size := 64, ready := true, descTable := 0x1000, availRing := 0x2000, usedRing := 0x3000 },
        { Queue.new 256 with
          size := 256, ready := true, descTable := 0x4000, availRing := 0x6000,
          usedRing := 0x7000 }] := by
  intro t setups
  rcases @initialise_iff _ (.console (consoleConfig 80 25)) true (.init ⟨.console, some 22, .new, rfl⟩)
    rfl (1#64 <<< 32) setups (.cons (by decide) (.cons (by decide) .nil)) _ _
    (.other .start (.inr ⟨0, [0x10, 0, 0, 0], rfl⟩)) with ⟨-, hw, -⟩ | h
  · cases hw
  · rw [if_neg (by decide), if_pos (by rfl)] at h
    obtain ⟨u', hrun, -, -, -, -, hworker, -⟩ := h
    exact ⟨u', hrun, hworker.trans (by decide)⟩

end Driver

end Whypa
