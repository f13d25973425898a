import Whypa.Virtio.Queue

/-!
# What a worker does

A device's worker accesses guest memory through the memory manager and, for the
buffers of a request, directly (`VolatileSlice`), and it acts on what is outside
the machine: the disk image, the random numbers of the system, the terminal,
the network's proxy, and the buffers and events it shares with other threads.
Each of these is one `Act` of a program. What the outside answers is a
parameter (`Env`) over a state of its own.

Two acts do nothing but note what the worker does with the chains of its queue:
that it popped one, and that it calls `add_used` for one.
-/

namespace Whypa

open Framework

/-- The errors of an I/O operation that the workers see or make. -/
inductive IoError
  | unexpectedEof
  | writeZero
  | invalidData
  | os (code : BitVec 32)
deriving DecidableEq, Repr

/-- Operations on what is outside the machine. -/
inductive Io
  /-- Read into `len` bytes of buffers from the disk image. -/
  | readv (len : Nat) (offset : BitVec 64)
  | writev (bytes : List Byte) (offset : BitVec 64)
  | flush
  | sync
  | discardToAny (offset length : BitVec 64)
  | discardToZero (offset length : BitVec 64)
  | writeZeroes (offset length : BitVec 64)
  | genRandom (len : Nat)
  | stdout (bytes : List Byte)
  /-- Add to the input of the console, and signal its event. -/
  | extendInput (bytes : List Byte)
  | drainInput
  /-- Write to the network's proxy, and flush. -/
  | writeProxy (bytes : List Byte)
  | drainPending
  | extendPending (frames : List (List Byte))
  /-- `try_signal_used_queue`. -/
  | signal
deriving DecidableEq, Repr

/-- What each operation answers. A failed read may have filled a part of the
buffers. -/
abbrev Io.Answer : Io → Type
  | .readv .. => Except IoError Unit × List Byte
  | .writev .. | .flush | .sync | .discardToAny .. | .discardToZero .. | .writeZeroes .. |
    .writeProxy _ | .signal => Except IoError Unit
  | .genRandom len => Option (Fin len → Byte)
  | .stdout _ | .extendInput _ | .extendPending _ => Unit
  | .drainInput => List Byte
  | .drainPending => List (List Byte)

/-- What is outside the machine, with a state of type `ε`. -/
abbrev Env (ε : Type) := (op : Io) → ε → op.Answer × ε

/-- One action of a worker. -/
inductive Act
  | mem (a : Access)
  | copyFrom (host len : Nat)
  | copyTo (host : Nat) (bytes : List Byte)
  | io (op : Io)
  | popped (c : DescriptorChain)
  | used (index : BitVec 16)

abbrev Act.Answer : Act → Type
  | .mem a => a.Answer
  | .copyFrom .. => List Byte
  | .copyTo .. => Unit
  | .io op => op.Answer
  | .popped _ => Unit
  | .used _ => Unit

/-- What a worker did with its queue: it popped a chain, from the memory of that
moment, or called `add_used`. -/
inductive Event
  | popped (c : DescriptorChain) (mem : Mem)
  | used (index : BitVec 16)

structure World (ε : Type) where
  mem : Mem
  ext : ε
  log : List Event

/-- A program of a worker. -/
abbrev WProg := Prog Act Act.Answer

variable {ε : Type}

/-- What each action does; `ck` says whether the build checks for overflow. -/
def MemoryManager.world (ck : Bool) (mm : MemoryManager) (env : Env ε) :
    Handler Act Act.Answer (World ε)
  | .mem a, w => (mm.handler ck a w.mem).map fun r => (r.1, { w with mem := r.2 })
  | .copyFrom host len, w => some (w.mem.read host len, w)
  | .copyTo host bytes, w => some ((), { w with mem := w.mem.write host bytes })
  | .io op, w => some ((env op w.ext).1, { w with ext := (env op w.ext).2 })
  | .popped c, w => some ((), { w with log := w.log ++ [.popped c w.mem] })
  | .used index, w => some ((), { w with log := w.log ++ [.used index] })

namespace WProg

variable {α : Type}

/-- A program that accesses guest memory, as a part of a worker. -/
def lift : VProg α → WProg α
  | .pure x => .pure x
  | .panic => .panic
  | .access a k => .access (.mem a) fun r => lift (k r)

def act (a : Act) : WProg a.Answer := .access a .pure

def io (op : Io) : WProg op.Answer := .access (.io op) .pure

end WProg

open WProg

variable {ck : Bool} {mm : MemoryManager} {env : Env ε} {α : Type}

theorem run_lift (p : VProg α) (w : World ε) :
    Prog.run (mm.world ck env) (lift p) w =
      (Prog.run (mm.handler ck) p w.mem).map fun r => (r.1, { w with mem := r.2 }) := by
  induction p generalizing w with
  | pure x => rfl
  | panic => rfl
  | access a k ih =>
    simp only [lift, Prog.run_access, MemoryManager.world]
    cases mm.handler ck a w.mem with
    | none => rfl
    | some r => exact ih r.1 { w with mem := r.2 }

theorem locate_checked (gpa : GuestAddress) (n : Nat) (allowed : MemoryPerms → Bool)
    (denied : MemoryError) : mm.locate true gpa n allowed denied = none ∨
      mm.locate true gpa n allowed denied = mm.locate false gpa n allowed denied := by
  unfold MemoryManager.locate
  cases mm.findRegion gpa with
  | none => exact .inr rfl
  | some r =>
    rcases plainAdd_checked gpa (BitVec.ofNat 64 n) with h | h
    · exact .inl (by simp only [h])
    · exact .inr (by simp only [h])

theorem handler_checked (a : Access) (m : Mem) :
    mm.handler true a m = none ∨ mm.handler true a m = mm.handler false a m := by
  cases a with
  | read gpa n =>
    simp only [MemoryManager.handler, MemoryManager.readGuestMemory]
    rcases locate_checked gpa n MemoryPerms.read .notReadable with h | h
    · exact .inl (by rw [h]; rfl)
    · exact .inr (by rw [h])
  | write bytes gpa =>
    simp only [MemoryManager.handler, MemoryManager.writeGuestMemory]
    rcases locate_checked gpa bytes.length MemoryPerms.write .readOnly with h | h
    · exact .inl (by rw [h]; rfl)
    · exact .inr (by rw [h])
  | load addr => exact .inr rfl
  | store val addr => exact .inr rfl
  | overflow => exact .inl rfl

/-- A build that does not check for overflow performs every access. -/
theorem handler_unchecked (a : Access) (m : Mem) : mm.handler false a m ≠ none := by
  have hl : ∀ gpa n allowed denied, mm.locate false gpa n allowed denied ≠ none := by
    intro gpa n allowed denied
    have hp : plainAdd false gpa (BitVec.ofNat 64 n) = some (gpa + BitVec.ofNat 64 n) :=
      if_pos (.inr rfl)
    unfold MemoryManager.locate
    rw [hp]
    split
    · exact Option.some_ne_none _
    · simp only
      split
      · exact Option.some_ne_none _
      · split
        · exact Option.some_ne_none _
        · split <;> exact Option.some_ne_none _
  cases a with
  | read gpa n =>
    simp only [MemoryManager.handler, MemoryManager.readGuestMemory, ne_eq, Option.map_eq_none_iff]
    exact hl _ _ _ _
  | write bytes gpa =>
    simp only [MemoryManager.handler, MemoryManager.writeGuestMemory, ne_eq, Option.map_eq_none_iff]
    exact hl _ _ _ _
  | load addr => exact Option.some_ne_none _
  | store val addr => exact Option.some_ne_none _
  | overflow => exact Option.some_ne_none _

theorem world_unchecked (a : Act) (w : World ε) : mm.world false env a w ≠ none := by
  cases a with
  | mem a =>
    simp only [MemoryManager.world, ne_eq, Option.map_eq_none_iff]
    exact handler_unchecked a w.mem
  | copyFrom host len => exact Option.some_ne_none _
  | copyTo host bytes => exact Option.some_ne_none _
  | io op => exact Option.some_ne_none _
  | popped c => exact Option.some_ne_none _
  | used index => exact Option.some_ne_none _

/-- A build that checks for overflow refuses more. -/
theorem handler_refuses (ck : Bool) (mm : MemoryManager) (a : Access) (m : Mem) :
    mm.handler ck a m = none ∨ mm.handler ck a m = mm.handler false a m := by
  cases ck with
  | false => exact .inr rfl
  | true => exact handler_checked a m

theorem world_checked (ck : Bool) (mm : MemoryManager) (env : Env ε) (a : Act) (w : World ε) :
    mm.world ck env a w = none ∨ mm.world ck env a w = mm.world false env a w := by
  cases a with
  | mem a =>
    simp only [MemoryManager.world]
    rcases handler_refuses ck mm a w.mem with h | h
    · exact .inl (by rw [h]; rfl)
    · exact .inr (by rw [h])
  | copyFrom host len => exact .inr rfl
  | copyTo host bytes => exact .inr rfl
  | io op => exact .inr rfl
  | popped c => exact .inr rfl
  | used index => exact .inr rfl

/-- It panics, or does what a build does that does not check. -/
theorem run_checked (ck : Bool) (mm : MemoryManager) (env : Env ε) (p : WProg α) (w : World ε) :
    Prog.run (mm.world ck env) p w = none ∨
      Prog.run (mm.world ck env) p w = Prog.run (mm.world false env) p w :=
  Prog.run_of_refuses (world_checked ck mm env) p w

/-- So what it returns is what a build returns that does not check. -/
theorem run_of_checked {p : WProg α} {w : World ε} {r : α × World ε}
    (h : Prog.run (mm.world ck env) p w = some r) : Prog.run (mm.world false env) p w = some r := by
  rcases run_checked ck mm env p w with hn | he
  · rw [h] at hn
    cases hn
  · rw [← he, h]

/-- A program that never panics in either build does the same in both. -/
theorem run_lift_of_always {P : Access → Prop} {Q : α → Prop} {p : VProg α} {w : World ε}
    {r : α × Mem} (hp : Prog.Always (mm.handler ck) P Q p)
    (hr : Prog.run (mm.handler false) p w.mem = some r) :
    Prog.run (mm.world ck env) (lift p) w = some (r.1, { w with mem := r.2 }) := by
  obtain ⟨x, m', hx, -⟩ := hp.run w.mem
  rw [run_lift]
  rcases Prog.run_of_refuses (handler_refuses ck mm) p w.mem with hn | he
  · rw [hx] at hn
    cases hn
  · rw [he, hr]
    rfl

theorem trace_of_checked {p : WProg α} {w : World ε} {r : α × World ε}
    (h : Prog.run (mm.world ck env) p w = some r) :
    Prog.trace (mm.world ck env) p w = Prog.trace (mm.world false env) p w :=
  Prog.trace_of_refuses (world_checked ck mm env) h

end Whypa
