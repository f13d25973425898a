import Whypa.Devices.ReferenceTsc
import Whypa.Machine.Dispatch
import Whypa.Machine.Ports

/-!
# The processor

The loop that runs the virtual processor and handles its exits (`vm.rs`). An
exit is for the instruction emulator, which calls back for the accesses of the
instruction (`emulator.rs`), or it is a `cpuid` or an access to an MSR, which the
loop answers in the place of a Hyper-V host. What the hypervisor's own calls
return, and what the guest leaves in its registers and its RAM when it exits, is
given with the exit.
-/

namespace Whypa

open Framework

/-- The registers of the virtual processor that an exit sets. -/
structure Vp where
  rax : BitVec 64
  rbx : BitVec 64
  rcx : BitVec 64
  rdx : BitVec 64
  rip : BitVec 64
deriving DecidableEq, Repr

/-- `WHV_VP_EXIT_CONTEXT`. -/
structure VpContext where
  rip : BitVec 64
  /-- The length of the instruction in the low four bits. -/
  bitfield : BitVec 8
deriving DecidableEq, Repr

def VpContext.instructionLength (c : VpContext) : BitVec 64 := (c.bitfield &&& 0x0f).setWidth 64

inductive ExitError
  | memory (e : MemoryError)
  | hypervisor
deriving DecidableEq, Repr

/-- What the calls of the hypervisor return: whether they set the registers. -/
structure Hypervisor where
  setRegisters : Bool
  advanceRip : Bool
deriving DecidableEq, Repr

/-! ## MSRs -/

/-- `WHV_X64_MSR_ACCESS_CONTEXT`. -/
structure MsrAccess where
  /-- A write if the lowest bit is set. -/
  accessInfo : BitVec 32
  msrNumber : BitVec 32
  rax : BitVec 64
  rdx : BitVec 64
deriving DecidableEq, Repr

namespace MsrAccess

def isWrite (a : MsrAccess) : Bool := a.accessInfo &&& 1 ≠ 0

/-- The value that is written. -/
def value (a : MsrAccess) : BitVec 64 := (a.rdx <<< 32) ||| (a.rax &&& 0xffffffff)

end MsrAccess

/-- What the partition keeps for its MSRs. -/
structure Msrs where
  guestOsId : BitVec 64
  tscReferenceGpa : Option (BitVec 64)
  /-- When the time was first asked for. -/
  vmStartTime : Option Nat
  tscInvariantControl : BitVec 64
deriving DecidableEq, Repr

namespace Msrs

def new : Msrs := ⟨0, none, none, 0⟩

/-- `rax` and `rdx` for a value. -/
def split (v : BitVec 64) : BitVec 64 × BitVec 64 := (v &&& 0xffffffff, v >>> 32)

/-- The time since the start, in units of 100 ns. -/
def timeRefCount (s : Msrs) (now : Nat) : (BitVec 64 × BitVec 64) × Msrs :=
  let start := s.vmStartTime.getD now
  let ticks := (now - start) / 100
  ((BitVec.ofNat 64 (ticks % 2 ^ 32), BitVec.ofNat 64 (ticks / 2 ^ 32 % 2 ^ 32)),
    { s with vmStartTime := some start })

/-- A write of the MSR for the reference time: the lowest bit of `v` enables the page at the others,
which is written first. -/
def writeReferenceTsc (writePage : GuestAddress → Mem → Option (Except MemoryError Unit × Mem))
    (v : BitVec 64) (s : Msrs) (m : Mem) : Option (Except MemoryError Unit × Msrs × Mem) :=
  if v &&& 1 ≠ 0 then
    let gpa := v &&& ~~~0xfff
    match writePage gpa m with
    | none => none
    | some (.error e, m') => some (.error e, s, m')
    | some (.ok (), m') => some (.ok (), { s with tscReferenceGpa := some gpa }, m')
  else some (.ok (), { s with tscReferenceGpa := none }, m)

/-- An access `a` at the time `now`: what a read finds for `rax` and `rdx`, the MSRs and the RAM. The
page for the reference time is written by `writePage`. -/
def access (writePage : GuestAddress → Mem → Option (Except MemoryError Unit × Mem)) (now : Nat)
    (a : MsrAccess) (s : Msrs) (m : Mem) :
    Option (Except MemoryError (BitVec 64 × BitVec 64) × Msrs × Mem) :=
  if a.msrNumber = 0x40000000 then
    if a.isWrite then some (.ok (0, 0), { s with guestOsId := a.value }, m)
    else some (.ok (split s.guestOsId), s, m)
  else if a.msrNumber = 0x40000001 then
    if a.isWrite then some (.ok (0, 0), s, m) else some (.ok (1, 0), s, m)
  else if a.msrNumber = 0x40000020 then
    some (.ok (s.timeRefCount now).1, (s.timeRefCount now).2, m)
  else if a.msrNumber = 0x40000021 then
    if a.isWrite then
      (s.writeReferenceTsc writePage a.value m).map fun r => (r.1.map fun _ => (0, 0), r.2)
    else match s.tscReferenceGpa with
      | some gpa => some (.ok (split (gpa ||| 1)), s, m)
      | none => some (.ok (0, 0), s, m)
  else if a.msrNumber = 0x40000118 then
    if a.isWrite then some (.ok (0, 0), { s with tscInvariantControl := a.value }, m)
    else some (.ok (split s.tscInvariantControl), s, m)
  else some (.ok (0, 0), s, m)

end Msrs

/-! ## CPUID -/

/-- `WHV_X64_CPUID_ACCESS_CONTEXT`. -/
structure CpuidAccess where
  rax : BitVec 64
  defaultResultRax : BitVec 64
  defaultResultRbx : BitVec 64
  defaultResultRcx : BitVec 64
  defaultResultRdx : BitVec 64
deriving DecidableEq, Repr

/-- Four characters, the first in the lowest byte. -/
def fourcc (s : List Byte) : BitVec 64 := BitVec.ofNat 64 (ofLE s)

/-- The answer, and what `rip` will be. The names are "Microsoft Hv" and "Hv#1". -/
def CpuidAccess.results (a : CpuidAccess) (rip : BitVec 64) : Vp :=
  if a.rax = 0x40000000 then
    ⟨0x40000005, fourcc [0x4d, 0x69, 0x63, 0x72], fourcc [0x6f, 0x73, 0x6f, 0x66],
      fourcc [0x74, 0x20, 0x48, 0x76], rip⟩
  else if a.rax = 0x40000001 then
    ⟨fourcc [0x48, 0x76, 0x23, 0x31], 0, 0, 0, rip⟩
  else if a.rax = 0x40000002 then ⟨0, (10 <<< 16) ||| 0, 0, 0, rip⟩
  else if a.rax = 0x40000003 then ⟨(1 <<< 1) ||| (1 <<< 9) ||| (1 <<< 15), 0, 0, 0, rip⟩
  else if a.rax = 0x40000004 ∨ a.rax = 0x40000005 then ⟨0, 0, 0, 0, rip⟩
  else ⟨a.defaultResultRax, a.defaultResultRbx, a.defaultResultRcx, a.defaultResultRdx, rip⟩

/-! ## The emulator -/

/-- What happens while the emulator has an instruction: its calls, and what the workers do. -/
inductive EmulatorEvent
  | ioPort (nanos : Nat) (a : IoAccessInfo)
  | memory (a : MemoryAccessInfo) (backend : Bool)
  | setRegisters (vp : Vp)
  | worker (slot : Slot) (w : WorkerStep)

/-- The events, and what the emulator returns: `WHV_EMULATOR_STATUS`, if anything. -/
structure Emulation where
  events : List EmulatorEvent
  status : Option (BitVec 32)

/-- The instruction was emulated. -/
def Emulation.successful (status : BitVec 32) : Bool := status &&& 1 = 1

/-! ## Exits -/

/-- Why the processor has stopped, with what the handler reads of the context. -/
inductive Exit
  | none
  | memoryAccess (gpa : GuestAddress) (e : Emulation)
  | ioPortAccess (e : Emulation)
  | exception
  | unrecoverableException
  | invalidVpRegisterValue
  | unsupportedFeature
  /-- `now` is the time of day in milliseconds. -/
  | interruptWindow (now : BitVec 64)
  | halt
  | canceled
  | apicEoi (vector : BitVec 32)
  | cpuid (c : VpContext) (a : CpuidAccess) (h : Hypervisor)
  /-- `now` is the time in nanoseconds. -/
  | msrAccess (c : VpContext) (a : MsrAccess) (now : Nat) (h : Hypervisor)
  | other (reason : BitVec 32)

/-- The partition and its processor. -/
structure Vm where
  machine : Machine
  ports : Ports
  msrs : Msrs
  mem : Mem
  vp : Vp
  vmStartTsc : BitVec 64
  lastInterruptTime : BitVec 64
  /-- The times at which the timer's interrupt was requested, the last first. -/
  timerRequests : List (BitVec 64)

namespace Vm

/-- `none` is a panic, a write that has not returned, or a step that the worker cannot take. -/
def event (ck : Bool) (s : Vm) : EmulatorEvent → Option Vm
  | .ioPort nanos a => some { s with ports := (s.ports.ioPortCallback nanos a).2 }
  | .memory a backend => (s.machine.step ck (.access a backend)).map fun m => { s with machine := m }
  | .setRegisters vp => some { s with vp := vp }
  | .worker slot w => (s.machine.step ck (.worker slot w)).map fun m => { s with machine := m }

def events (ck : Bool) : List EmulatorEvent → Vm → Option Vm
  | [], s => some s
  | e :: es, s => (s.event ck e).bind (events ck es)

/-- `handle_io_port`. -/
def handleIoPort (ck : Bool) (s : Vm) (e : Emulation) : Option (Except ExitError Bool × Vm) :=
  (events ck e.events s).map fun s' =>
    match e.status with
    | none => (.error .hypervisor, s')
    | some status => (.ok (Emulation.successful status), s')

/-- The part of `handle_exit` for an access outside the RAM. An access to RAM or to nothing is not
emulated, whatever it may do there. -/
def handleMemoryAccess (ck : Bool) (s : Vm) (gpa : GuestAddress) (e : Emulation) :
    Option (Except ExitError Bool × Vm) :=
  match Partition.findMmio ck gpa s.machine.partition.mmioRegions with
  | none => none
  | some none => some (.ok false, s)
  | some (some _) => (events ck e.events s).map fun s' =>
    match e.status with
    | none => (.ok false, s')
    | some status => (.ok (Emulation.successful status), s')

/-- `handle_interrupt_window`: requests the timer's interrupt, but once in a millisecond. The
difference of the times saturates at 0. -/
def handleInterruptWindow (s : Vm) (now : BitVec 64) : Vm :=
  if 1 ≤ now.toNat - s.lastInterruptTime.toNat ∨ s.lastInterruptTime = 0 then
    { s with lastInterruptTime := now, timerRequests := now :: s.timerRequests }
  else s

def handleCpuid (ck : Bool) (s : Vm) (c : VpContext) (a : CpuidAccess) (h : Hypervisor) :
    Option (Except ExitError Bool × Vm) :=
  (plainAdd ck c.rip c.instructionLength).map fun rip =>
    if h.setRegisters then (.ok true, { s with vp := a.results rip }) else (.error .hypervisor, s)

/-- `advance_rip`. -/
def advanceRip (ck : Bool) (s : Vm) (c : VpContext) (h : Hypervisor) :
    Option (Except ExitError Bool × Vm) :=
  (plainAdd ck c.rip c.instructionLength).map fun rip =>
    if h.advanceRip then (.ok true, { s with vp := { s.vp with rip := rip } })
    else (.error .hypervisor, s)

def handleMsrAccess (ck : Bool) (cpuid : BitVec 32 → Partition.CpuidResult) (s : Vm) (c : VpContext)
    (a : MsrAccess) (now : Nat) (h : Hypervisor) : Option (Except ExitError Bool × Vm) :=
  let writePage := Partition.writeTscReferencePage ck s.machine.partition.memory cpuid s.vmStartTsc
  match s.msrs.access writePage now a s.mem with
  | none => none
  | some (.error e, msrs, mem) => some (.error (.memory e), { s with msrs := msrs, mem := mem })
  | some (.ok (rax, rdx), msrs, mem) =>
    let s' := { s with msrs := msrs, mem := mem }
    if a.isWrite then s'.advanceRip ck c h
    else if h.setRegisters then
      { s' with vp := { s'.vp with rax := rax, rdx := rdx } }.advanceRip ck c h
    else some (.error .hypervisor, s')

/-- Whether to go on, and the machine then; `none` is a panic. -/
def handleExit (ck : Bool) (cpuid : BitVec 32 → Partition.CpuidResult) (s : Vm) :
    Exit → Option (Except ExitError Bool × Vm)
  | .none => some (.ok false, s)
  | .memoryAccess gpa e => s.handleMemoryAccess ck gpa e
  | .ioPortAccess e => s.handleIoPort ck e
  | .exception | .unrecoverableException | .invalidVpRegisterValue | .unsupportedFeature =>
    some (.ok false, s)
  | .interruptWindow now => some (.ok true, s.handleInterruptWindow now)
  | .halt => some (.ok true, s)
  | .canceled => some (.ok false, s)
  | .apicEoi vector =>
    (s.machine.step ck (.apicEoi vector)).map fun m => (.ok true, { s with machine := m })
  | .cpuid c a h => s.handleCpuid ck c a h
  | .msrAccess c a now h => s.handleMsrAccess ck cpuid c a now h
  | .other _ => some (.ok false, s)

/-! ## The loop -/

/-- A turn of the loop. While the processor runs, the guest changes its registers and its RAM, and
the workers go on. -/
structure Turn where
  /-- The machine is not to stop. -/
  running : Bool
  workers : List (Slot × WorkerStep)
  vp : Vp
  mem : Mem
  /-- `none` if the processor could not be run. -/
  exit : Option Exit

/-- Why the loop has ended. -/
inductive Ended
  | stopped
  | runFailed
  | exit
  | failed (e : ExitError)
deriving DecidableEq, Repr

/-- A turn of the loop, and whether it is the last. -/
def turn (ck : Bool) (cpuid : BitVec 32 → Partition.CpuidResult) (s : Vm) (t : Turn) :
    Option (Option Ended × Vm) :=
  if t.running = false then some (some .stopped, s)
  else match events ck (t.workers.map fun e => .worker e.1 e.2) { s with vp := t.vp, mem := t.mem } with
    | none => none
    | some s =>
      match t.exit with
      | none => some (some .runFailed, s)
      | some exit => (s.handleExit ck cpuid exit).map fun r =>
        match r.1 with
        | .ok true => (none, r.2)
        | .ok false => (some .exit, r.2)
        | .error e => (some (.failed e), r.2)

/-- The loop over the turns, until one of them ends it. -/
def run (ck : Bool) (cpuid : BitVec 32 → Partition.CpuidResult) :
    List Turn → Vm → Option (Option Ended × Vm)
  | [], s => some (none, s)
  | t :: ts, s =>
    match s.turn ck cpuid t with
    | none => none
    | some (none, s') => run ck cpuid ts s'
    | some (some ended, s') => some (some ended, s')

/-- The partition before the loop. -/
def start (machine : Machine) (vmStartTsc : BitVec 64) (mem : Mem) (vp : Vp) : Vm where
  machine := machine
  ports := .new
  msrs := .new
  mem := mem
  vp := vp
  vmStartTsc := vmStartTsc
  lastInterruptTime := 0
  timerRequests := []

end Vm

end Whypa
