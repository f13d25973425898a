import Whypa.Framework.Mailbox
import Whypa.Framework.Reach
import Whypa.Virtio.Mmio
import Whypa.Virtio.Receive
import Whypa.Virtio.Served

/-!
# The threads of the network device

The reader thread, the worker and the guest, one action at a time. The reader
pushes frames into `rx_pending` and signals `rx_ready`; the worker waits for
the event of the transmit queue, for `rx_ready` and for the stop event, and
delivers the frames into the chains of the receive queue; the guest writes to
its memory and notifies queues. The two critical sections of the worker on
`rx_pending`, the drain and the put-back, are apart, and the reader can push
in between.

`worker_runs`: the worker's part is a run of `process_rx_virtio_queue`. As far as
the frames go the device is a mailbox (`step_mailbox`).
-/

namespace Whypa

open Framework WProg NetWorker

/-- An outside with the frames that are pending. -/
def sharing {ε : Type} (env : Env ε) : Env (ε × List (List Byte))
  | .drainPending, s => (s.2, (s.1, []))
  | .extendPending frames, s => ((), (s.1, s.2 ++ frames))
  | op, s => ((env op s.1).1, ((env op s.1).2, s.2))

namespace NetDevice

/-- Where the worker is in `work`. -/
inductive Worker
  /-- In `WaitForMultipleObjects`. -/
  | waiting
  | transmitting (p : WProg (Option Queue))
  /-- Before `drain`. -/
  | draining
  /-- At the head of the loop over the frames. -/
  | looping (packets : List (List Byte)) (usedAny : Bool)
  | popping (frame : List Byte) (packets : List (List Byte)) (usedAny : Bool)
    (p : WProg (Option DescriptorChain × Queue))
  | serving (frame : List Byte) (packets : List (List Byte)) (usedAny : Bool)
    (p : WProg (Queue × Bool))
  /-- Before `extend`. -/
  | requeuing (packets : List (List Byte)) (usedAny : Bool)
  | notifying (p : WProg Queue)
  | stopped
  | panicked

/-- Whether the reader has pushed frames that it has not signaled. -/
inductive Reader
  | reading
  | batching
deriving DecidableEq, Repr

/-- The reader signals after it has pushed. -/
def Reader.next : Reader → ReaderEvent → Option Reader
  | _, .push _ => some batching
  | batching, .signal => some reading
  | reading, .signal => none

structure State (ε : Type) where
  /-- The memory, the outside with `rx_pending`, and the worker's notes. -/
  world : World (ε × List (List Byte))
  transport : MmioTransport
  rxQueue : Queue
  txQueue : Queue
  worker : Worker
  rxReady : Bool
  stopEvent : Bool
  reader : Reader
  /-- The frames that the reader has pushed. -/
  produced : List (List Byte)
  /-- The frames that were written into buffers of the guest. -/
  delivered : List (List Byte)
  /-- The guest has notified the receive queue after its last write to memory. -/
  notified : Bool

inductive Label
  | reader (e : ReaderEvent)
  /-- The guest writes to its memory, for one to post chains. -/
  | guest (m : Mem)
  /-- The guest writes to `QueueNotify`. -/
  | notify (v : BitVec 32)
  /-- The device signals the stop event. -/
  | stop
  /-- `WaitForMultipleObjects` returns; the numbers are the fuel for a drain of the
  transmit queue. -/
  | wake (fuel n : Nat)
  | worker

variable {ε : Type}

namespace State

def pending (s : State ε) : List (List Byte) := s.world.ext.2

def txEvent (s : State ε) : Bool := s.transport.queueEvts.getD 1 false

/-- The first of the events that is signaled wakes the worker, and is reset. -/
def wake (mm : MemoryManager) (fuel n : Nat) (s : State ε) : Option (State ε) :=
  match s.worker with
  | .waiting =>
    if s.txEvent then
      some { s with
        transport := { s.transport with queueEvts := s.transport.queueEvts.modify 1 fun _ => false }
        worker := .transmitting (processTxVirtioQueue mm fuel n s.txQueue) }
    else if s.rxReady then some { s with rxReady := false, worker := .draining }
    else if s.stopEvent then some { s with stopEvent := false, worker := .stopped }
    else none
  | _ => none

/-- The next action of the worker. -/
def work (ck : Bool) (mm : MemoryManager) (env : Env ε) (s : State ε) : Option (State ε) :=
  let h := mm.world ck (sharing env)
  match s.worker with
  | .waiting | .stopped | .panicked => none
  | .transmitting (.pure (some q)) => some { s with txQueue := q, worker := .waiting }
  | .transmitting .panic | .popping _ _ _ .panic | .serving _ _ _ .panic | .notifying .panic =>
    some { s with worker := .panicked }
  | .transmitting p =>
    (p.next h s.world).map fun r => { s with world := r.2, worker := .transmitting r.1 }
  | .draining =>
    let s' := { s with world := { s.world with ext := (s.world.ext.1, []) } }
    if s.pending.isEmpty then some { s' with worker := .waiting }
    else some { s' with worker := .looping s.pending false }
  | .looping [] usedAny => some { s with worker := .notifying (notifyUsed s.rxQueue usedAny) }
  | .looping (frame :: packets) usedAny =>
    if MAX_FRAME_SIZE < frame.length then some { s with worker := .looping packets usedAny }
    else some { s with worker := .popping frame packets usedAny (popChain s.rxQueue) }
  | .popping frame packets usedAny (.pure (none, q)) =>
    some { s with rxQueue := q, worker := .requeuing (frame :: packets) usedAny }
  | .popping frame packets usedAny (.pure (some head, q)) =>
    some { s with rxQueue := q, worker := .serving frame packets usedAny (serveRx mm frame head q) }
  | .popping frame packets usedAny p =>
    (p.next h s.world).map fun r =>
      { s with world := r.2, worker := .popping frame packets usedAny r.1 }
  | .serving frame packets usedAny (.pure (q, used)) =>
    some { s with
      rxQueue := q
      delivered := if used then s.delivered ++ [frame] else s.delivered
      worker := .looping packets (usedAny || used) }
  | .serving frame packets usedAny p =>
    (p.next h s.world).map fun r =>
      { s with world := r.2, worker := .serving frame packets usedAny r.1 }
  | .requeuing packets usedAny =>
    some { s with
      world := { s.world with ext := (s.world.ext.1, s.pending ++ packets) }
      worker := .notifying (notifyUsed s.rxQueue usedAny) }
  | .notifying (.pure q) => some { s with rxQueue := q, worker := .waiting }
  | .notifying p => (p.next h s.world).map fun r => { s with world := r.2, worker := .notifying r.1 }

end State

/-- One action of one of the threads, or of the guest. -/
def step (ck : Bool) (mm : MemoryManager) (env : Env ε) (s : State ε) : Label → Option (State ε)
  | .reader e =>
    (s.reader.next e).map fun r =>
      match e with
      | .push frame => { s with
          reader := r
          world := { s.world with ext := (s.world.ext.1, s.pending ++ [frame]) }
          produced := s.produced ++ [frame] }
      | .signal => { s with reader := r, rxReady := true }
  | .guest m => some { s with world := { s.world with mem := m }, notified := false }
  | .notify v => some { s with
      transport := s.transport.writeRegister 0x50 v false
      notified := s.notified || decide (v = 0) }
  | .stop => some { s with stopEvent := true }
  | .wake fuel n => s.wake mm fuel n
  | .worker => s.work ck mm env

/-- From the start of the threads, with no frames yet. -/
def system (ck : Bool) (mm : MemoryManager) (env : Env ε) : System (State ε) Label :=
  .ofStep (fun s => s.pending = [] ∧ s.worker = .waiting ∧ s.reader = .reading ∧ s.produced = [] ∧
    s.delivered = []) (step ck mm env)

/-! ## The worker runs the code -/

section
variable {ck : Bool} {mm : MemoryManager} {env : Env ε} {s s' : State ε}

/-- What is left of `process_rx_virtio_queue` before the frames `packets`. -/
def rest (mm : MemoryManager) (packets : List (List Byte)) (q : Queue) (usedAny : Bool) : WProg Queue :=
  rxLoop mm packets q usedAny >>= fun x => notifyUsed x.1 x.2

/-- After a chain was popped for `frame`, or none was left. -/
def afterPop (mm : MemoryManager) (frame : List Byte) (packets : List (List Byte)) (usedAny : Bool) :
    Option DescriptorChain × Queue → WProg Queue
  | (none, q) => io (.extendPending (frame :: packets)) >>= fun _ => notifyUsed q usedAny
  | (some head, q) => serveRx mm frame head q >>= fun x => rest mm packets x.1 (usedAny || x.2)

/-- What is left of the call; nothing while the worker waits. -/
def Worker.code (mm : MemoryManager) (q : Queue) : Worker → Option (WProg Queue)
  | .waiting => some (pure q)
  | .draining => some (processRxVirtioQueue mm q)
  | .looping packets usedAny => some (rest mm packets q usedAny)
  | .popping frame packets usedAny p => some (p >>= afterPop mm frame packets usedAny)
  | .serving _ packets usedAny p => some (p >>= fun x => rest mm packets x.1 (usedAny || x.2))
  | .requeuing packets usedAny =>
    some (io (.extendPending packets) >>= fun _ => notifyUsed q usedAny)
  | .notifying p => some p
  | .transmitting _ | .stopped | .panicked => none

theorem rest_cons {frame : List Byte} (hf : ¬ MAX_FRAME_SIZE < frame.length)
    (packets : List (List Byte)) (q : Queue) (usedAny : Bool) :
    rest mm (frame :: packets) q usedAny = popChain q >>= afterPop mm frame packets usedAny := by
  rw [rest, rxLoop, if_neg hf, Prog.bind_assoc]
  refine congrArg _ (funext fun x => ?_)
  rcases x with ⟨_ | head, q⟩
  · rfl
  · exact Prog.bind_assoc ..

/-- The drain is the first action of the call. -/
theorem next_processRxVirtioQueue (ck : Bool) (mm : MemoryManager) (env : Env ε) (q : Queue)
    (w : World (ε × List (List Byte))) :
    (processRxVirtioQueue mm q).next (mm.world ck (sharing env)) w =
      some (if w.ext.2.isEmpty then pure q else rest mm w.ext.2 q false,
        { w with ext := (w.ext.1, []) }) := rfl

/-- The places of the worker inside a program. -/
inductive Place : Type → Type
  | transmitting : Place (Option Queue)
  | popping (frame : List Byte) (packets : List (List Byte)) (usedAny : Bool) :
      Place (Option DescriptorChain × Queue)
  | serving (frame : List Byte) (packets : List (List Byte)) (usedAny : Bool) : Place (Queue × Bool)
  | notifying : Place Queue

/-- The worker with `p` left to do there. -/
def Place.worker {α : Type} : Place α → WProg α → Worker
  | .transmitting, p => .transmitting p
  | .popping frame packets usedAny, p => .popping frame packets usedAny p
  | .serving frame packets usedAny, p => .serving frame packets usedAny p
  | .notifying, p => .notifying p

/-- Inside a program the worker panics or makes the next access. -/
theorem work_program {α : Type} (place : Place α) {p : WProg α} (hk : s.worker = place.worker p)
    (hp : ∀ x, p ≠ .pure x) (hw : s.work ck mm env = some s') :
    p = .panic ∧ s' = { s with worker := .panicked } ∨
      ∃ p' w, p.next (mm.world ck (sharing env)) s.world = some (p', w) ∧
        s' = { s with world := w, worker := place.worker p' } := by
  unfold State.work at hw
  rw [hk] at hw
  cases p with
  | pure x => exact absurd rfl (hp x)
  | panic =>
    refine .inl ⟨rfl, ?_⟩
    cases place <;> exact (Option.some.inj hw).symm
  | access a k =>
    have hw : (Prog.next (mm.world ck (sharing env)) (.access a k) s.world).map (fun r =>
        { s with world := r.2, worker := place.worker r.1 }) = some s' := by
      cases place <;> exact hw
    obtain ⟨⟨p', w⟩, hn, rfl⟩ := Option.map_eq_some_iff.mp hw
    exact .inr ⟨p', w, hn, rfl⟩

/-- So does the code, in which the program is followed by the rest of the call. -/
theorem program_runs {α : Type} (place : Place α) {r : WProg α} (f : α → WProg Queue)
    (hcode : ∀ r', (place.worker r').code mm s.rxQueue = some (r' >>= f))
    (hk : s.worker = place.worker r) (hr : ∀ x, r ≠ .pure x) (hw : s.work ck mm env = some s') :
    (∃ p', s'.worker.code mm s'.rxQueue = some p' ∧ (p' = (r >>= f) ∧ s'.world = s.world ∨
      (r >>= f).next (mm.world ck (sharing env)) s.world = some (p', s'.world))) ∨
    (r >>= f) = .panic ∧ s'.worker = .panicked := by
  rcases work_program place hk hr hw with ⟨rfl, rfl⟩ | ⟨r', w, hn, rfl⟩
  · exact .inr ⟨rfl, rfl⟩
  · exact .inl ⟨_, hcode r', .inr (Prog.next_bind hn f)⟩

/-- An action of the worker is one of what is left of the code, or a move to
another place of the code with the same left to do. -/
theorem worker_runs {p : WProg Queue} (hp : s.worker.code mm s.rxQueue = some p)
    (hw : s.work ck mm env = some s') :
    (∃ p', s'.worker.code mm s'.rxQueue = some p' ∧ (p' = p ∧ s'.world = s.world ∨
      p.next (mm.world ck (sharing env)) s.world = some (p', s'.world))) ∨
    p = .panic ∧ s'.worker = .panicked := by
  obtain ⟨world, transport, rxQueue, txQueue, worker, rxReady, stopEvent, reader, produced,
    delivered, notified⟩ := s
  have hstep := hw
  unfold State.work at hw
  cases worker with
  | waiting => cases hw
  | transmitting p => cases hp
  | draining =>
    obtain rfl := Option.some.inj hp
    simp only at hw
    have hn := next_processRxVirtioQueue ck mm env rxQueue world
    split at hw
    · rename_i hnil
      obtain rfl := Option.some.inj hw
      rw [if_pos (show world.ext.2.isEmpty = true from hnil)] at hn
      exact .inl ⟨_, rfl, .inr hn⟩
    · rename_i hne
      obtain rfl := Option.some.inj hw
      rw [if_neg (show ¬ world.ext.2.isEmpty = true from hne)] at hn
      exact .inl ⟨_, rfl, .inr hn⟩
  | looping packets usedAny =>
    obtain rfl := Option.some.inj hp
    cases packets with
    | nil =>
      obtain rfl := Option.some.inj hw
      exact .inl ⟨_, rfl, .inl ⟨rfl, rfl⟩⟩
    | cons frame packets =>
      simp only at hw
      split at hw
      · rename_i hf
        obtain rfl := Option.some.inj hw
        refine .inl ⟨_, rfl, .inl ⟨?_, rfl⟩⟩
        rw [rest, rest, rxLoop, if_pos hf]
      · rename_i hf
        obtain rfl := Option.some.inj hw
        exact .inl ⟨_, rfl, .inl ⟨(rest_cons hf ..).symm, rfl⟩⟩
  | popping frame packets usedAny r =>
    obtain rfl := Option.some.inj hp
    cases r with
    | pure x =>
      rcases x with ⟨_ | head, q⟩
      · obtain rfl := Option.some.inj hw
        exact .inl ⟨_, rfl, .inl ⟨rfl, rfl⟩⟩
      · obtain rfl := Option.some.inj hw
        exact .inl ⟨_, rfl, .inl ⟨rfl, rfl⟩⟩
    | _ => exact program_runs (.popping frame packets usedAny) _ (fun _ => rfl) rfl nofun hstep
  | serving frame packets usedAny r =>
    obtain rfl := Option.some.inj hp
    cases r with
    | pure x =>
      obtain rfl := Option.some.inj hw
      exact .inl ⟨_, rfl, .inl ⟨rfl, rfl⟩⟩
    | _ => exact program_runs (.serving frame packets usedAny) _ (fun _ => rfl) rfl nofun hstep
  | requeuing packets usedAny =>
    obtain rfl := Option.some.inj hp
    obtain rfl := Option.some.inj hw
    exact .inl ⟨_, rfl, .inr rfl⟩
  | notifying r =>
    obtain rfl := Option.some.inj hp
    cases r with
    | pure q =>
      obtain rfl := Option.some.inj hw
      exact .inl ⟨_, rfl, .inl ⟨rfl, rfl⟩⟩
    | panic =>
      obtain rfl := Option.some.inj hw
      exact .inr ⟨rfl, rfl⟩
    | access a k =>
      obtain ⟨r, hr, rfl⟩ := Option.map_eq_some_iff.mp hw
      exact .inl ⟨_, rfl, .inr hr⟩
  | stopped => cases hw
  | panicked => cases hw

end

/-! ## Who touches the pending frames -/

/-- An action that leaves `rx_pending`. -/
def Aside : Act → Prop
  | .io .drainPending | .io (.extendPending _) => False
  | _ => True

abbrev OnlyAside {α : Type} (p : WProg α) : Prop := Prog.Only Aside p

theorem aside_lift {α : Type} (p : VProg α) : OnlyAside (lift p) := by
  induction p with
  | pure x => trivial
  | panic => trivial
  | access a k ih => exact ⟨trivial, ih⟩

theorem aside_popChain (q : Queue) : OnlyAside (popChain q) := by
  refine (aside_lift _).bind fun x => ?_
  rcases x with ⟨_ | head, q⟩
  · trivial
  · exact ⟨trivial, fun _ => trivial⟩

theorem aside_addUsed (q : Queue) (i : BitVec 16) (len : Nat) : OnlyAside (addUsed q i len) :=
  ⟨trivial, fun _ => (aside_lift _).bind fun _ => trivial⟩

theorem aside_signalUsed (q : Queue) (usedAny : Bool) : OnlyAside (signalUsed q usedAny) := by
  unfold signalUsed
  split
  · exact ⟨trivial, fun _ => trivial⟩
  · trivial

theorem aside_notifyUsed (q : Queue) (usedAny : Bool) : OnlyAside (notifyUsed q usedAny) := by
  unfold notifyUsed
  split
  · refine (aside_lift _).bind fun x => (aside_lift _).bind fun need => ?_
    split
    · exact ⟨trivial, fun _ => trivial⟩
    · trivial
  · trivial

theorem aside_consume {α : Type} {size : α → Nat} {empty : α} {c : DescriptorChainConsumer} {n : Nat}
    {f : List VolatileSlice → WProg (Except IoError α)} (hf : ∀ bufs, OnlyAside (f bufs)) :
    OnlyAside (c.consume size empty n f) := by
  unfold DescriptorChainConsumer.consume
  simp only
  split
  · trivial
  · refine (hf _).bind fun x => ?_
    cases x with
    | error e => trivial
    | ok x =>
      simp only
      split <;> trivial

theorem aside_copyOut (n : Nat) (bufs : List VolatileSlice) : OnlyAside (copyOut n bufs) := by
  induction bufs generalizing n with
  | nil => trivial
  | cons vs bufs ih => exact ⟨trivial, fun _ => (ih _).bind fun _ => trivial⟩

theorem aside_copyIn (bytes : List Byte) (bufs : List VolatileSlice) : OnlyAside (copyIn bytes bufs) := by
  induction bufs generalizing bytes with
  | nil => trivial
  | cons vs bufs ih => exact ⟨trivial, fun _ => (ih _).bind fun _ => trivial⟩

theorem aside_writeLoop (fuel : Nat) (bytes : List Byte) (w : Writer) :
    OnlyAside (Writer.writeLoop fuel bytes w) := by
  induction fuel generalizing bytes w with
  | zero => cases bytes <;> trivial
  | succ fuel ih =>
    cases bytes with
    | nil => trivial
    | cons b bytes =>
      have hw : OnlyAside (w.write (b :: bytes)) := by
        refine (aside_consume fun bufs => ?_).bind fun _ => trivial
        exact (aside_copyIn _ bufs).bind fun _ => trivial
      refine hw.bind fun x => ?_
      rcases x with ⟨_ | _ | n, w⟩
      · trivial
      · trivial
      · exact ih _ w

theorem aside_serveRx (mm : MemoryManager) (frame : List Byte) (head : DescriptorChain) (q : Queue) :
    OnlyAside (serveRx mm frame head q) := by
  refine (aside_lift _).bind fun x => ?_
  cases x with
  | error e => trivial
  | ok writer =>
    simp only
    split
    · exact (aside_addUsed ..).bind fun _ => trivial
    · refine (aside_writeLoop ..).bind fun x => ?_
      rcases x with ⟨_ | _, writer⟩
      · exact (aside_addUsed ..).bind fun _ => trivial
      · exact (aside_writeLoop ..).bind fun _ => (aside_addUsed ..).bind fun _ => trivial

theorem aside_transmit (reader : Whypa.Reader) : OnlyAside (transmit reader) := by
  unfold transmit
  split
  · have hr : OnlyAside (reader.read reader.availableBytes) := by
      refine (aside_consume fun bufs => ?_).bind fun _ => trivial
      exact (aside_copyOut _ bufs).bind fun _ => trivial
    refine hr.bind fun x => ?_
    rcases x with ⟨_ | buf, reader⟩
    · trivial
    · simp only
      split
      · exact ⟨trivial, fun _ => trivial⟩
      · trivial
  · trivial

theorem aside_serveTx (mm : MemoryManager) (head : DescriptorChain) (q : Queue) :
    OnlyAside (serveTx mm head q) := by
  refine (aside_lift _).bind fun x => ?_
  cases x with
  | error e => trivial
  | ok reader => exact (aside_transmit reader).bind fun _ => (aside_addUsed ..).bind fun _ => trivial

theorem aside_popLoop (mm : MemoryManager) (fuel : Nat) (q : Queue) (usedAny : Bool) :
    OnlyAside (popLoop (serveTx mm) fuel q usedAny) := by
  induction fuel generalizing q usedAny with
  | zero => trivial
  | succ fuel ih =>
    refine (aside_popChain q).bind fun x => ?_
    rcases x with ⟨_ | head, q⟩
    · trivial
    · exact (aside_serveTx mm head q).bind fun _ => ih ..

theorem aside_processTxVirtioQueue (mm : MemoryManager) (fuel n : Nat) (q : Queue) :
    OnlyAside (processTxVirtioQueue mm fuel n q) := by
  unfold processTxVirtioQueue
  induction n generalizing q with
  | zero => trivial
  | succ n ih =>
    have hp : OnlyAside (processTxQueue mm fuel q) := by
      refine (aside_popLoop mm fuel q false).bind fun x => ?_
      rcases x with _ | ⟨q, usedAny⟩
      · trivial
      · exact (aside_signalUsed q usedAny).bind fun _ => trivial
    refine (aside_lift _).bind fun _ => (aside_lift _).bind fun _ => hp.bind fun x => ?_
    cases x with
    | none => trivial
    | some q =>
      refine (aside_lift _).bind fun _ => (aside_lift _).bind fun more => ?_
      split
      · exact ih q
      · trivial

/-! ## The device as a mailbox -/

/-- The frames that the worker has drained and not dealt with. -/
def Worker.held : Worker → List (List Byte)
  | .looping packets _ | .requeuing packets _ => packets
  | .popping frame packets .. | .serving frame packets .. => frame :: packets
  | .waiting | .transmitting _ | .draining | .notifying _ | .stopped | .panicked => []

def Worker.waits : Worker → Bool
  | .waiting => true
  | _ => false

def Worker.drains : Worker → Bool
  | .draining => true
  | _ => false

def Worker.requeues : Worker → Bool
  | .requeuing .. => true
  | _ => false

def State.mailbox (s : State ε) : Mailbox (List Byte) where
  produced := s.produced
  box := s.pending
  held := s.worker.held
  delivered := s.delivered
  signalled := s.rxReady
  batching := s.reader = .batching
  woken := s.worker.drains

/-- The program the worker is in leaves `rx_pending`. -/
def Worker.Aside : Worker → Prop
  | .transmitting p => OnlyAside p
  | .popping _ _ _ p => OnlyAside p
  | .serving _ _ _ p => OnlyAside p
  | .notifying p => OnlyAside p
  | .waiting | .draining | .looping .. | .requeuing .. | .stopped | .panicked => True

section
variable {ck : Bool} {mm : MemoryManager} {env : Env ε} {s s' : State ε} {l : Label}

/-- An action of such a program leaves `rx_pending`. -/
theorem next_aside {α : Type} {p p' : WProg α} {w w' : World (ε × List (List Byte))}
    (hp : OnlyAside p) (hn : p.next (mm.world ck (sharing env)) w = some (p', w')) :
    OnlyAside p' ∧ w'.ext.2 = w.ext.2 := by
  obtain ⟨hp', rfl | ⟨a, ha, r, hr⟩⟩ := hp.next hn
  · exact ⟨hp', rfl⟩
  refine ⟨hp', ?_⟩
  cases a with
  | mem a =>
    obtain ⟨⟨r', m'⟩, -, e⟩ := Option.map_eq_some_iff.mp hr
    obtain ⟨-, rfl⟩ := Prod.mk.inj e
    rfl
  | io op =>
    obtain ⟨-, rfl⟩ := Prod.mk.inj (Option.some.inj hr)
    cases op with
    | drainPending => exact ha.elim
    | extendPending frames => exact ha.elim
    | _ => rfl
  | _ =>
    obtain ⟨-, rfl⟩ := Prod.mk.inj (Option.some.inj hr)
    rfl

/-- The worker puts frames back. -/
def State.putsBack (s : State ε) : Label → Bool
  | .worker => s.worker.requeues
  | _ => false

/-- What a step does to the mailbox: nothing, or one action, which puts frames
back only if the step does. -/
def MailboxStep (s s' : State ε) (l : Label) : Prop :=
  s'.mailbox = s.mailbox ∨
    ∃ a, s.mailbox.Step a s'.mailbox ∧ (a = .putBack → s.putsBack l = true)

/-- An action of the program that the worker is in. -/
theorem mailbox_next {w : World (ε × List (List Byte))} {k k' : Worker} (hk : s.worker = k)
    (hw : w.ext.2 = s.world.ext.2) (hh : k'.held = k.held) (hd : k'.drains = k.drains) :
    { s with world := w, worker := k' }.mailbox = s.mailbox := by
  unfold State.mailbox State.pending
  simp only [hw, hh, hd, hk]

/-- A panic abandons the frames that the worker holds. -/
theorem mailbox_panicked (s : State ε) :
    s.worker.drains = false → MailboxStep s { s with worker := .panicked } .worker := by
  intro hd
  refine .inr ⟨.drop, ?_, nofun⟩
  have hm : { s with worker := .panicked }.mailbox = { s.mailbox with held := [] } := by
    unfold State.mailbox
    rw [hd]
    rfl
  rw [hm]
  exact .drop (List.nil_sublist _)

/-- Inside a program the mailbox stays as it is, unless it ends in a panic. -/
theorem program_mailbox {α : Type} (place : Place α) {p : WProg α} (hk : s.worker = place.worker p)
    (hp : ∀ x, p ≠ .pure x) (ha : s.worker.Aside) (hs : s.work ck mm env = some s') :
    s'.worker.Aside ∧ MailboxStep s s' .worker := by
  have hdrains : s.worker.drains = false := by
    rw [hk]
    cases place <;> rfl
  have haside : ∀ {p}, (place.worker p).Aside ↔ OnlyAside p := by cases place <;> exact Iff.rfl
  rcases work_program place hk hp hs with ⟨-, rfl⟩ | ⟨p', w, hn, rfl⟩
  · exact ⟨trivial, mailbox_panicked s hdrains⟩
  · rw [hk, haside] at ha
    obtain ⟨hp', hw⟩ := next_aside ha hn
    refine ⟨haside.mpr hp', .inl (mailbox_next hk hw ?_ ?_)⟩ <;> cases place <;> rfl

theorem work_mailbox (ha : s.worker.Aside) (hs : s.work ck mm env = some s') :
    s'.worker.Aside ∧ MailboxStep s s' .worker := by
  obtain ⟨world, transport, rxQueue, txQueue, worker, rxReady, stopEvent, reader, produced,
    delivered, notified⟩ := s
  have hstep := hs
  unfold State.work at hs
  cases worker with
  | waiting => cases hs
  | stopped => cases hs
  | panicked => cases hs
  | transmitting p =>
    cases p with
    | pure x =>
      cases x with
      | none => cases hs
      | some q =>
        obtain rfl := Option.some.inj hs
        exact ⟨trivial, .inl rfl⟩
    | _ => exact program_mailbox .transmitting rfl nofun ha hstep
  | draining =>
    simp only at hs
    split at hs
    · rename_i hnil
      obtain rfl := Option.some.inj hs
      refine ⟨trivial, .inr ⟨.take, ?_, nofun⟩⟩
      have hbox : world.ext.2 = [] := List.isEmpty_iff.mp hnil
      have htake := Mailbox.Step.take (s := State.mailbox ⟨world, transport, rxQueue, txQueue,
        .draining, rxReady, stopEvent, reader, produced, delivered, notified⟩) rfl
      simp only [State.mailbox, State.pending, hbox] at htake ⊢
      exact htake
    · obtain rfl := Option.some.inj hs
      exact ⟨trivial, .inr ⟨.take, .take rfl, nofun⟩⟩
  | looping packets usedAny =>
    cases packets with
    | nil =>
      obtain rfl := Option.some.inj hs
      exact ⟨aside_notifyUsed .., .inl rfl⟩
    | cons frame packets =>
      simp only at hs
      split at hs
      · obtain rfl := Option.some.inj hs
        exact ⟨trivial, .inr ⟨.drop, .drop (List.sublist_cons_self ..), nofun⟩⟩
      · obtain rfl := Option.some.inj hs
        exact ⟨aside_popChain _, .inl rfl⟩
  | popping frame packets usedAny p =>
    cases p with
    | pure x =>
      rcases x with ⟨_ | head, q⟩
      · obtain rfl := Option.some.inj hs
        exact ⟨trivial, .inl rfl⟩
      · obtain rfl := Option.some.inj hs
        exact ⟨aside_serveRx .., .inl rfl⟩
    | _ => exact program_mailbox (.popping frame packets usedAny) rfl nofun ha hstep
  | serving frame packets usedAny p =>
    cases p with
    | pure x =>
      obtain ⟨q, used⟩ := x
      obtain rfl := Option.some.inj hs
      refine ⟨trivial, .inr ?_⟩
      cases used with
      | true => exact ⟨.deliver, .deliver rfl, nofun⟩
      | false => exact ⟨.drop, .drop (List.sublist_cons_self ..), nofun⟩
    | _ => exact program_mailbox (.serving frame packets usedAny) rfl nofun ha hstep
  | requeuing packets usedAny =>
    obtain rfl := Option.some.inj hs
    exact ⟨aside_notifyUsed .., .inr ⟨.putBack, .putBack, fun _ => rfl⟩⟩
  | notifying p =>
    cases p with
    | pure q =>
      obtain rfl := Option.some.inj hs
      exact ⟨trivial, .inl rfl⟩
    | _ => exact program_mailbox .notifying rfl nofun ha hstep

theorem step_mailbox (ha : s.worker.Aside) (hs : step ck mm env s l = some s') :
    s'.worker.Aside ∧ MailboxStep s s' l := by
  cases l with
  | reader e =>
    obtain ⟨r, hr, rfl⟩ := Option.map_eq_some_iff.mp hs
    cases e with
    | push frame =>
      obtain rfl := Option.some.inj hr
      exact ⟨ha, .inr ⟨.push frame, .push frame, nofun⟩⟩
    | signal =>
      refine ⟨ha, .inr ⟨.signal, ?_, nofun⟩⟩
      cases hrd : s.reader with
      | reading =>
        rw [hrd] at hr
        cases hr
      | batching =>
        rw [hrd] at hr
        obtain rfl := Option.some.inj hr
        exact .signal
  | guest m =>
    obtain rfl := Option.some.inj hs
    exact ⟨ha, .inl rfl⟩
  | notify v =>
    obtain rfl := Option.some.inj hs
    exact ⟨ha, .inl rfl⟩
  | stop =>
    obtain rfl := Option.some.inj hs
    exact ⟨ha, .inl rfl⟩
  | wake fuel n =>
    simp only [step, State.wake] at hs
    cases hk : s.worker with
    | waiting =>
      simp only [hk] at hs
      split at hs
      · obtain rfl := Option.some.inj hs
        refine ⟨aside_processTxVirtioQueue .., .inl ?_⟩
        exact mailbox_next hk rfl rfl rfl
      split at hs
      · rename_i hready
        obtain rfl := Option.some.inj hs
        refine ⟨trivial, .inr ⟨.wake, ?_, nofun⟩⟩
        have hwake := Mailbox.Step.wake (s := s.mailbox) hready
        simp only [State.mailbox, hk] at hwake ⊢
        exact hwake
      split at hs
      · obtain rfl := Option.some.inj hs
        exact ⟨trivial, .inl (mailbox_next hk rfl rfl rfl)⟩
      · cases hs
    | _ =>
      simp only [hk] at hs
      cases hs
  | worker => exact work_mailbox ha hs

/-- What holds of the mailbox at the start and is kept by its actions, as far as
the steps that meet `C` make them, holds in every state that these steps reach. -/
theorem mailbox_invariant {C : State ε → Label → Prop} {I : Mailbox (List Byte) → Prop}
    (h0 : ∀ s : State ε, (system ck mm env).init s → I s.mailbox)
    (hI : ∀ (s : State ε) l a m, C s l → I s.mailbox → s.mailbox.Step a m →
      (a = .putBack → s.putsBack l = true) → I m)
    (h : ((system ck mm env).under C).Reachable s) : I s.mailbox := by
  have hinv : s.worker.Aside ∧ I s.mailbox := by
    refine h.invariant (I := fun s => s.worker.Aside ∧ I s.mailbox) (fun s hi => ?_) ?_
    · refine ⟨?_, h0 s hi⟩
      rw [hi.2.1]
      trivial
    · rintro s l s' ⟨ha, hi⟩ ⟨hC, hs⟩
      obtain ⟨ha', heq | ⟨a, hm, hp⟩⟩ := step_mailbox ha hs
      · exact ⟨ha', heq ▸ hi⟩
      · exact ⟨ha', hI s l a _ hC hi hm hp⟩
  exact hinv.2

end

/-! ## The reader -/

section
variable {peek : Nat → Option (BitVec 32)} {s : RxReader}

/-- Where the reader is after what it did. -/
def after (s : RxReader) : Option Reader := s.events.foldlM Reader.next .reading

theorem after_emit {r : Reader} (h : after s = some r) (e : ReaderEvent) :
    after (s.emit e) = r.next e := by
  unfold after at h ⊢
  rw [RxReader.emit, List.foldlM_append, h]
  show (r.next e).bind pure = r.next e
  exact Option.bind_fun_some _

theorem after_readFrame {r : Except IoError (List Byte)} {s' : RxReader} (h : s.readFrame = (r, s')) :
    after s' = after s := by
  have he := RxReader.events_readFrame (s := s)
  rw [h] at he
  exact congrArg (·.foldlM Reader.next .reading) he

/-- The events of the reader loop are steps of the reader here, and at the end all
that was pushed is signaled. -/
theorem after_rxReaderLoop {fuel : Nat} {bs : List Byte}
    (hr : rxReaderLoop peek fuel (.start bs) = some s) : after s = some .reading := by
  have hk : ReaderKeeps (fun s => after s = some .reading) (fun s => after s = some .batching) := by
    constructor
    · exact fun s e s' h hr => (after_readFrame hr).trans h
    · exact fun s frame s' h hr => after_emit ((after_readFrame hr).trans h) _
    · exact fun s n h => h
    · exact fun s e s' h hr => (after_readFrame hr).trans h
    · exact fun s frame s' h hr => after_emit ((after_readFrame hr).trans h) _
    · exact fun s h => after_emit h _
  obtain ⟨t, ht, hend⟩ := hk.rxReaderLoop rfl hr
  exact (after_readFrame hend).trans ht

end

end NetDevice

end Whypa
