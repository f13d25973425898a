import Whypa.Virtio.Interrupt
import Whypa.Virtio.Queue

/-!
# The MMIO transport

The registers of a virtio device (`mmio.rs`) and the device behind them, as far
as the transport sees it: features, activation and reset, and where the thread
of its worker is. A guest's write to any register is `MmioTransport.write`, but
a reset returns only when the worker's thread has ended (`MmioTransport.waits`);
a run of the transport (`Mmio.system`) interleaves such writes with what the
device's worker does and the guest's writes to the IOAPIC.
-/

namespace Whypa

open Framework

/-! ## Devices -/

/-- The devices of the machine; a disk may offer flushing and be read-only. -/
inductive DeviceKind
  | block (flush readOnly : Bool)
  | rng
  | console
  | net
deriving DecidableEq, Repr

namespace DeviceKind

def VIRTIO_BLK_F_SEG_MAX : Nat := 2
def VIRTIO_BLK_F_RO : Nat := 5
def VIRTIO_BLK_F_FLUSH : Nat := 9
def VIRTIO_BLK_F_DISCARD : Nat := 13
def VIRTIO_BLK_F_WRITE_ZEROES : Nat := 14
def VIRTIO_RING_F_EVENT_IDX : Nat := 29
def VIRTIO_F_VERSION_1 : Nat := 32
def VIRTIO_CONSOLE_F_SIZE : Nat := 0
def VIRTIO_NET_F_MAC : Nat := 5

/-- The word with the bits of `features` set. -/
def featureBits (features : List Nat) : BitVec 64 :=
  features.foldl (fun v f => v ||| 1#64 <<< f) 0

def availFeatures : DeviceKind → BitVec 64
  | block flush readOnly =>
    featureBits ([VIRTIO_F_VERSION_1, VIRTIO_BLK_F_SEG_MAX, VIRTIO_BLK_F_DISCARD,
      VIRTIO_BLK_F_WRITE_ZEROES, VIRTIO_RING_F_EVENT_IDX] ++
      (if flush then [VIRTIO_BLK_F_FLUSH] else []) ++ if readOnly then [VIRTIO_BLK_F_RO] else [])
  | rng => featureBits [VIRTIO_F_VERSION_1]
  | console => featureBits [VIRTIO_F_VERSION_1, VIRTIO_CONSOLE_F_SIZE]
  | net => featureBits [VIRTIO_F_VERSION_1, VIRTIO_NET_F_MAC]

/-- The maximum sizes of the device's queues. -/
def queueConfig : DeviceKind → List (BitVec 16)
  | block .. => [256]
  | rng => [256]
  | console => [256, 256]
  | net => [1024, 1024]

/-- The queue whose event the worker waits for. -/
def servedQueue : DeviceKind → Nat
  | block .. | rng => 0
  | console | net => 1

/-- The worker also waits for the console's input, or for the frames of the network's reader. -/
def hasHostEvent : DeviceKind → Bool
  | block .. | rng => false
  | console | net => true

def isBlock : DeviceKind → Bool
  | block .. => true
  | rng | console | net => false

end DeviceKind

inductive ActivateError
  | badActivate
deriving DecidableEq, Repr

/-- Where the thread of a worker is. -/
inductive WorkerThread
  /-- It waits for its events, the stop event among them. -/
  | waiting
  /-- It serves what it was woken for, and looks at no event. -/
  | serving
  /-- It has ended: by the stop event, a panic, or a wait that failed. -/
  | ended
deriving DecidableEq, Repr

/-- A device as the transport sees it. -/
structure VirtioDevice where
  kind : DeviceKind
  ackedFeatures : BitVec 64
  /-- `device_state` is `Activated`. -/
  activated : Bool
  /-- The queues of the worker, while the device has the handle of its thread. -/
  worker : Option (List Queue)
  thread : WorkerThread
  /-- The event that stops the worker is signaled. -/
  stopEvent : Bool
  /-- The event by which the host wakes the worker is signaled. -/
  hostEvent : Bool
  /-- The disk opened by `Block::new` has not been given to a worker yet. -/
  disk : Bool
deriving DecidableEq, Repr

namespace VirtioDevice

def new (kind : DeviceKind) : VirtioDevice :=
  { kind, ackedFeatures := 0, activated := false, worker := none, thread := .waiting,
    stopEvent := false, hostEvent := false, disk := kind.isBlock }

def availFeatures (d : VirtioDevice) : BitVec 64 := d.kind.availFeatures

/-- There is an event by which the host wakes the worker; the console's is there before any
worker. -/
def listens (d : VirtioDevice) : Bool :=
  d.kind.hasHostEvent && (d.worker.isSome || d.kind = .console)

/-- The features of a page that the device does not offer are not acknowledged. -/
def ackFeaturesByPage (d : VirtioDevice) (page value : BitVec 32) : VirtioDevice :=
  let v : BitVec 64 :=
    if page = 0 then value.setWidth 64 else if page = 1 then value.setWidth 64 <<< 32 else 0
  let unrequested := v &&& ~~~d.availFeatures
  { d with ackedFeatures := d.ackedFeatures ||| (v &&& ~~~unrequested) }

/-- Only the worker of the network needs what is outside the machine, its proxy;
`backend` says whether it starts. The properties of a disk whose image is open
are built again without fail. -/
def opens (d : VirtioDevice) (backend : Bool) : Bool :=
  match d.kind with
  | .net => backend
  | .block .. | .rng | .console => true

/-- Give the queues to a new worker; `none` is a panic. -/
def activate (d : VirtioDevice) (backend : Bool) (queues : List Queue) :
    Option (Except ActivateError VirtioDevice) :=
  if d.worker.isSome then none
  else if queues.length ≠ d.kind.queueConfig.length ∨ !d.opens backend then
    some (.error .badActivate)
  else some (.ok { d with
    worker := some queues, thread := .waiting, activated := true, disk := false })

/-- Signal the stop event and join the worker's thread. A worker that waits takes the event, which
resets it; one that has ended leaves it signaled. The network's own event is dropped with its
worker. Every device supports it. -/
def reset (d : VirtioDevice) : Bool × VirtioDevice :=
  (true, { d with
    worker := none
    thread := .waiting
    stopEvent := if d.worker.isSome then d.thread = .ended else d.stopEvent
    hostEvent := d.hostEvent && d.kind ≠ .net
    activated := false })

end VirtioDevice

/-! ## The transport -/

namespace DeviceStatus

def INIT : BitVec 32 := 0
def ACKNOWLEDGE : BitVec 32 := 1
def DRIVER : BitVec 32 := 2
def FAILED : BitVec 32 := 128
def FEATURES_OK : BitVec 32 := 8
def DRIVER_OK : BitVec 32 := 4

end DeviceStatus

open DeviceStatus

structure MmioTransport where
  device : VirtioDevice
  featuresSelect : BitVec 32
  ackedFeaturesSelect : BitVec 32
  queueSelect : BitVec 32
  deviceStatus : BitVec 32
  configGeneration : BitVec 32
  /-- The queues, until the device is activated. -/
  queues : Option (List Queue)
  /-- The events of the queues, signaled or not. -/
  queueEvts : List Bool
  queueConfig : List (BitVec 16)
  shmRegionSelect : BitVec 32
  interrupt : InterruptTransport
  /-- The machine's interrupt controller. -/
  intc : IoApic
  /-- What `VirtioDevice::activate` was called with so far, and the status then. -/
  activations : List (BitVec 32 × List Queue)
  /-- A write has panicked. -/
  panicked : Bool

namespace MmioTransport

def createQueues (queueConfig : List (BitVec 16)) : List Queue := queueConfig.map Queue.new

def new (device : VirtioDevice) (irqLine : Option (BitVec 32)) (intc : IoApic) : MmioTransport :=
  { device, featuresSelect := 0, ackedFeaturesSelect := 0, queueSelect := 0, deviceStatus := INIT,
    configGeneration := 0, queues := some (createQueues device.kind.queueConfig),
    queueEvts := device.kind.queueConfig.map fun _ => false,
    queueConfig := device.kind.queueConfig, shmRegionSelect := 0, interrupt := ⟨0, irqLine⟩, intc,
    activations := [], panicked := false }

def checkDeviceStatus (t : MmioTransport) (set clr : BitVec 32) : Bool :=
  t.deviceStatus &&& (set ||| clr) = set

/-- `f` on the selected queue, if the transport still has it. -/
def withQueueMut (t : MmioTransport) (f : Queue → Queue) : MmioTransport :=
  { t with queues := t.queues.map fun qs => qs.modify t.queueSelect.toNat f }

def updateQueueField (t : MmioTransport) (f : Queue → Queue) : MmioTransport :=
  if t.checkDeviceStatus FEATURES_OK FAILED then t.withQueueMut f else t

def reset (t : MmioTransport) : MmioTransport :=
  { t with
    featuresSelect := 0
    ackedFeaturesSelect := 0
    queueSelect := 0
    interrupt := { t.interrupt with status := 0 }
    deviceStatus := INIT
    queues := some (createQueues t.queueConfig) }

/-- Hand the queues to the device, each with its event. -/
def activate (t : MmioTransport) (backend : Bool) : MmioTransport :=
  match t.queues with
  | none => t
  | some queues =>
    let eventIdx := t.device.ackedFeatures &&& 1#64 <<< DeviceKind.VIRTIO_RING_F_EVENT_IDX ≠ 0#64
    let deviceQueues := (queues.take t.queueEvts.length).map fun q => q.setEventIdx eventIdx
    let t' := { t with
      queues := none, activations := t.activations ++ [(t.deviceStatus, deviceQueues)] }
    match t.device.activate backend deviceQueues with
    | some (.ok d) => { t' with device := d }
    | some (.error _) | none => { t' with panicked := true }

def setDeviceStatus (t : MmioTransport) (status : BitVec 32) (backend : Bool) : MmioTransport :=
  let changed := ~~~t.deviceStatus &&& status
  if changed = ACKNOWLEDGE ∧ t.deviceStatus = INIT then { t with deviceStatus := status }
  else if changed = DRIVER ∧ t.deviceStatus = ACKNOWLEDGE then { t with deviceStatus := status }
  else if changed = FEATURES_OK ∧ t.deviceStatus = ACKNOWLEDGE ||| DRIVER then
    { t with deviceStatus := status }
  else if changed = DRIVER_OK ∧ t.deviceStatus = ACKNOWLEDGE ||| DRIVER ||| FEATURES_OK then
    let t' := { t with deviceStatus := status }
    if !t.device.activated then t'.activate backend else t'
  else if status &&& FAILED ≠ 0 then { t with deviceStatus := t.deviceStatus ||| FAILED }
  else if status = 0 then
    let t' :=
      if t.device.activated then
        let r := t.device.reset
        let t := { t with device := r.2 }
        if !r.1 then { t with deviceStatus := t.deviceStatus ||| FAILED } else t
      else t
    if t'.deviceStatus &&& FAILED = 0 then t'.reset else t'
  else t

def hi (v : GuestAddress) (x : BitVec 32) : GuestAddress :=
  (v &&& 0xffffffff) ||| x.setWidth 64 <<< 32

def lo (v : GuestAddress) (x : BitVec 32) : GuestAddress :=
  (v &&& ~~~0xffffffff) ||| x.setWidth 64

/-- A write to the register at `offset`, below 0x100. -/
def writeRegister (t : MmioTransport) (offset : BitVec 64) (v : BitVec 32) (backend : Bool) :
    MmioTransport :=
  if offset = 0x14 then { t with featuresSelect := v }
  else if offset = 0x20 then
    if t.checkDeviceStatus DRIVER (FEATURES_OK ||| FAILED) then
      { t with device := t.device.ackFeaturesByPage t.ackedFeaturesSelect v }
    else t
  else if offset = 0x24 then { t with ackedFeaturesSelect := v }
  else if offset = 0x30 then { t with queueSelect := v }
  else if offset = 0x38 then t.updateQueueField fun q => { q with size := v.setWidth 16 }
  else if offset = 0x44 then t.updateQueueField fun q => { q with ready := v = 1 }
  else if offset = 0x50 then { t with queueEvts := t.queueEvts.modify v.toNat fun _ => true }
  else if offset = 0x64 then
    if t.checkDeviceStatus DRIVER_OK 0 then
      let t' := { t with interrupt := t.interrupt.fetchAnd v }
      if t'.interrupt.status = 0 then { t' with intc := t.intc.clearIrq t.interrupt.irqLine } else t'
    else t
  else if offset = 0x70 then t.setDeviceStatus v backend
  else if offset = 0x80 then t.updateQueueField fun q => { q with descTable := lo q.descTable v }
  else if offset = 0x84 then t.updateQueueField fun q => { q with descTable := hi q.descTable v }
  else if offset = 0x90 then t.updateQueueField fun q => { q with availRing := lo q.availRing v }
  else if offset = 0x94 then t.updateQueueField fun q => { q with availRing := hi q.availRing v }
  else if offset = 0xa0 then t.updateQueueField fun q => { q with usedRing := lo q.usedRing v }
  else if offset = 0xa4 then t.updateQueueField fun q => { q with usedRing := hi q.usedRing v }
  else if offset = 0xac then { t with shmRegionSelect := v }
  else t

/-- A guest's write. The devices keep nothing of a write to their configuration
space, from 0x100 on. -/
def write (t : MmioTransport) (offset : BitVec 64) (data : List Byte) (backend : Bool) :
    MmioTransport :=
  if offset ≤ 0xff ∧ data.length = 4 then
    t.writeRegister offset (BitVec.ofNat 32 (ofLE data)) backend
  else t

/-- The device's line is raised at the interrupt controller. -/
def asserted (t : MmioTransport) : Bool :=
  match t.interrupt.irqLine with
  | some irq => decide (irq.toNat < IOAPIC_NUM_PINS) && t.intc.irr.getLsbD irq.toNat
  | none => false

/-- `try_signal` of the device's worker. -/
def trySignal (t : MmioTransport) (status : BitVec 32) : MmioTransport :=
  { t with
    interrupt := t.interrupt.fetchOr status
    intc := t.intc.setIrq t.interrupt.irqLine }

/-! ## The worker's thread -/

/-- The event of the queue that the worker serves is signaled. -/
def queueEvent (t : MmioTransport) : Bool := t.queueEvts.getD t.device.kind.servedQueue false

/-- The worker waits, and only the stop event can wake it. -/
def idle (t : MmioTransport) : Bool :=
  t.device.thread = .waiting && !t.queueEvent && !t.device.hostEvent

/-- The write is a reset that has to wait for the worker: it returns when the thread has ended, and
a thread that serves its queues does not end by the stop event. -/
def waits (t : MmioTransport) (offset : BitVec 64) (data : List Byte) : Bool :=
  offset = 0x70 && data.length = 4 && BitVec.ofNat 32 (ofLE data) = 0 && t.device.activated &&
    t.device.thread ≠ .ended && !t.idle

end MmioTransport

/-- What happens to a worker. -/
inductive WorkerStep
  /-- The host has input, or a frame, for it. -/
  | hostSignals
  /-- It takes an event, that of its queue first, and serves what it stands for. -/
  | wakes
  /-- It signals the guest. -/
  | signal (status : BitVec 32)
  /-- It has served, and waits again. -/
  | rests
  /-- It takes a stop event that was left signaled, and its thread ends. -/
  | stops
  /-- Its thread panics, or its wait fails. -/
  | ends

namespace MmioTransport

/-- `none` if the worker is not where it can do this. -/
def workerStep (t : MmioTransport) : WorkerStep → Option MmioTransport
  | .hostSignals =>
    if t.device.listens then some { t with device := { t.device with hostEvent := true } }
    else none
  | .wakes =>
    if t.device.worker.isSome ∧ t.device.thread = .waiting then
      if t.queueEvent then some { t with
        queueEvts := t.queueEvts.modify t.device.kind.servedQueue fun _ => false
        device := { t.device with thread := .serving } }
      else if t.device.hostEvent then some { t with
        device := { t.device with hostEvent := false, thread := .serving } }
      else none
    else none
  | .signal status =>
    if t.device.worker.isSome ∧ t.device.thread = .serving then some (t.trySignal status) else none
  | .rests =>
    if t.device.worker.isSome ∧ t.device.thread = .serving then
      some { t with device := { t.device with thread := .waiting } }
    else none
  | .stops =>
    if t.device.worker.isSome ∧ t.idle ∧ t.device.stopEvent then
      some { t with device := { t.device with thread := .ended, stopEvent := false } }
    else none
  | .ends =>
    if t.device.worker.isSome ∧ t.device.thread ≠ .ended then
      some { t with device := { t.device with thread := .ended } }
    else none

end MmioTransport

/-! ## Runs -/

namespace Mmio

inductive Label
  | write (offset : BitVec 64) (data : List Byte) (backend : Bool)
  | worker (w : WorkerStep)
  | ioapic (offset : BitVec 64) (data : List Byte)

/-- A guest's write to the device or to the IOAPIC, or what happens to the device's
worker. A write that has to wait for the worker comes after what the worker does
meanwhile; a panic ends the run. -/
def step (t : MmioTransport) : Label → Option MmioTransport
  | .write offset data backend =>
    if t.panicked ∨ t.waits offset data then none else some (t.write offset data backend)
  | .worker w => t.workerStep w
  | .ioapic offset data => some { t with intc := t.intc.write offset data }

/-- From a transport just created. -/
def system : System MmioTransport Label :=
  .ofStep (fun t => ∃ kind irqLine intc, t = .new (.new kind) irqLine intc) step

end Mmio

end Whypa
