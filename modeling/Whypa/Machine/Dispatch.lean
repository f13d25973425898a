import Mathlib.Logic.Function.Basic
import Whypa.Boot.ZeroPage
import Whypa.Irq.Faults
import Whypa.Virtio.Interference

/-!
# The machine

The devices of a partition together: the IOAPIC, the stub for the PCI
configuration space and four virtio transports, which share the IOAPIC. The
emulator calls back with every access to memory-mapped I/O (`emulator.rs`), and
the access goes to the device whose window has its address (`memoryCallback`).
A step of the machine is such an access, an end of interrupt that the processor
reports (`vm.rs`), or something that happens to a worker.
-/

namespace Whypa

open Framework

def VIRTIO_BLOCK_IRQ : BitVec 32 := 20
def VIRTIO_RNG_IRQ : BitVec 32 := 21
def VIRTIO_CONSOLE_IRQ : BitVec 32 := 22
def VIRTIO_NET_IRQ : BitVec 32 := 23

/-- The virtio devices of the machine. -/
inductive Slot
  | block
  | rng
  | console
  | net
deriving DecidableEq, Repr

namespace Slot

def all : List Slot := [block, rng, console, net]

theorem mem_all (s : Slot) : s ∈ all := by cases s <;> decide

def irqLine : Slot → BitVec 32
  | block => VIRTIO_BLOCK_IRQ
  | rng => VIRTIO_RNG_IRQ
  | console => VIRTIO_CONSOLE_IRQ
  | net => VIRTIO_NET_IRQ

/-- The disk is writable, and flushed. -/
def kind : Slot → DeviceKind
  | block => .block true false
  | rng => .rng
  | console => .console
  | net => .net

end Slot

/-- What handles an access to memory-mapped I/O. -/
inductive MmioHandler
  | ioapic
  | pciEcam
  | virtio (s : Slot)
deriving DecidableEq, Repr

/-- The handlers under the names that `register_devices` gives them. -/
def mmioHandlers : List (String × MmioHandler) :=
  [("ioapic", .ioapic), ("pci_ecam", .pciEcam), ("virtio_block", .virtio .block),
    ("virtio_rng", .virtio .rng), ("virtio_console", .virtio .console), ("virtio_net", .virtio .net)]

/-- The answer of a callback to the emulator. -/
inductive HResult
  | ok
  | invalidParameter
  | notFound
deriving DecidableEq, Repr

/-- `WHV_EMULATOR_MEMORY_ACCESS_INFO`. -/
structure MemoryAccessInfo where
  gpaAddress : BitVec 64
  /-- 0 for a read, 1 for a write. -/
  direction : BitVec 8
  accessSize : BitVec 8
  data : List Byte
  length_data : data.length = 8

structure Machine where
  partition : Partition
  intc : IoApic
  /-- The transports, but for the interrupt controller, which is that of the machine. -/
  transports : Slot → MmioTransport
  configs : Slot → DeviceConfig

namespace Machine

/-- A transport with the interrupt controller it shares with the others. -/
def view (m : Machine) (s : Slot) : MmioTransport := { m.transports s with intc := m.intc }

def put (m : Machine) (s : Slot) (t : MmioTransport) : Machine :=
  { m with intc := t.intc, transports := Function.update m.transports s t }

/-- What a guest reads into the buffer `data`; the IOAPIC may panic, and no device is present on
the bus of the ECAM. -/
def read (ck : Bool) (m : Machine) (h : MmioHandler) (offset : BitVec 64) (data : List Byte) :
    Option (List Byte) :=
  match h with
  | .ioapic => IoApic.Checked.read ck m.intc offset data
  | .pciEcam => some (data.map fun _ => 0xff)
  | .virtio s => some ((m.view s).read (m.configs s) offset data)

/-- The write is a reset that has to wait for the worker of its device. -/
def waits (m : Machine) (h : MmioHandler) (offset : BitVec 64) (data : List Byte) : Bool :=
  match h with
  | .ioapic | .pciEcam => false
  | .virtio s => (m.view s).waits offset data

def write (m : Machine) (h : MmioHandler) (offset : BitVec 64) (data : List Byte) (backend : Bool) :
    Machine :=
  match h with
  | .ioapic => { m with intc := m.intc.write offset data }
  | .pciEcam => m
  | .virtio s => m.put s ((m.view s).write offset data backend)

/-- An access at the offset `offset` into the window of `h`; `none` is a panic, if the access is
larger than the emulator's buffer or the handler panics, or a write that does not return before the
worker of the device has ended. -/
def access (ck : Bool) (m : Machine) (h : MmioHandler) (offset : BitVec 64) (a : MemoryAccessInfo)
    (backend : Bool) : Option (HResult × List Byte × Machine) :=
  let size := a.accessSize.toNat
  if a.direction = 0 then
    if a.data.length < size then none
    else (m.read ck h offset (a.data.take size)).map fun read => (.ok, read ++ a.data.drop size, m)
  else if a.direction = 1 then
    if a.data.length < size ∨ m.waits h offset (a.data.take size) then none
    else some (.ok, a.data, m.write h offset (a.data.take size) backend)
  else some (.invalidParameter, a.data, m)

/-- The answer, and the emulator's buffer and the machine after it. -/
def memoryCallback (ck : Bool) (m : Machine) (a : MemoryAccessInfo) (backend : Bool) :
    Option (HResult × List Byte × Machine) :=
  match Partition.findMmio ck a.gpaAddress m.partition.mmioRegions with
  | none => none
  | some none => some (.notFound, a.data, m)
  | some (some region) =>
    match plainSub ck a.gpaAddress region.gpa with
    | none => none
    | some offset =>
      match region.handler with
      | none => some (.notFound, a.data, m)
      | some name =>
        match mmioHandlers.lookup name with
        | none => some (.notFound, a.data, m)
        | some h => m.access ck h offset a backend

/-- A write has panicked, in whichever device. -/
def panicked (m : Machine) : Bool := Slot.all.any fun s => (m.transports s).panicked

/-! ## Runs -/

/-- The emulator calls back; the processor reports the end of an interrupt, which is handed to the
IOAPIC; something happens to a worker. -/
inductive Label
  | access (a : MemoryAccessInfo) (backend : Bool)
  | apicEoi (vector : BitVec 32)
  | worker (s : Slot) (w : WorkerStep)

/-- A panic ends the run; a write that waits for a worker comes after what the worker does
meanwhile. -/
def step (ck : Bool) (m : Machine) (l : Label) : Option Machine :=
  if m.panicked then none
  else match l with
    | .access a backend => (m.memoryCallback ck a backend).map fun r => r.2.2
    | .apicEoi vector => some (m.write .ioapic IO_EOI (leBytes 4 vector.toNat) true)
    | .worker s w => ((m.view s).workerStep w).map (m.put s)

/-- The machine with `n` GiB of RAM when its devices have been registered. -/
def start (n source : Nat) (h1 : 1 ≤ n) (hn : n < 2 ^ 33) (configs : Slot → DeviceConfig) : Machine where
  partition := .started n source h1 hn
  intc := .new
  transports s := .new (.new s.kind) (some s.irqLine) .new
  configs := configs

def system (ck : Bool) : System Machine Label :=
  .ofStep (fun m => ∃ n source h1 hn configs, m = start n source h1 hn configs) (step ck)

end Machine

end Whypa
