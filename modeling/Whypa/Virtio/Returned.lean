import Whypa.Virtio.Served

/-!
# Every chain popped is returned

`returned_once_iff`: in a run of one of the six loops over a queue, every chain
popped is returned exactly once if and only if each was well formed when it was
popped. A worker that cannot create its streams, or cannot read the header of
a request, goes on with the next chain and never returns this one.
-/

namespace Whypa

open Framework WProg

variable {ε : Type} {env : Env ε} {mm : MemoryManager} {wf : Mem → DescriptorChain → Bool}

/-! ## The notes of a run -/

def Event.pop? : Event → Option (DescriptorChain × Mem)
  | .popped c m => some (c, m)
  | .used _ => none

def Event.used? : Event → Option (BitVec 16)
  | .popped .. => none
  | .used i => some i

/-- The chains popped, each with the memory of that moment. -/
def pops (log : List Event) : List (DescriptorChain × Mem) := log.filterMap Event.pop?

/-- The heads `add_used` was called with. -/
def useds (log : List Event) : List (BitVec 16) := log.filterMap Event.used?

/-- Exactly the well-formed chains were returned, in order. -/
def Fair (wf : Mem → DescriptorChain → Bool) (log : List Event) : Prop :=
  useds log = ((pops log).filter fun p => wf p.2 p.1).map fun p => p.1.index

theorem fair_served {log : List Event} (h : Fair wf log) (c : DescriptorChain) (m : Mem) :
    Fair wf (log ++ [.popped c m] ++ if wf m c then [.used c.index] else []) := by
  unfold Fair useds pops at h ⊢
  cases hw : wf m c with
  | true => simp [h, hw, Event.pop?, Event.used?, List.filterMap_cons]
  | false => simp [h, hw, Event.pop?, Event.used?, List.filterMap_cons]

/-- All chains were returned exactly if all were well formed. -/
theorem Fair.perm_iff {log : List Event} (h : Fair wf log) :
    (useds log).Perm ((pops log).map fun p => p.1.index) ↔ ∀ p ∈ pops log, wf p.2 p.1 = true := by
  unfold Fair at h
  rw [h]
  constructor
  · intro hp
    have hl := hp.length_eq
    rw [List.length_map, List.length_map] at hl
    exact List.length_filter_eq_length_iff.mp hl
  · intro hall
    rw [List.filter_eq_self.mpr hall]

/-! ## The loops -/

/-- Runs of `p` keep the notes fair. -/
abbrev KeepsFair (mm : MemoryManager) (env : Env ε) (wf : Mem → DescriptorChain → Bool) {α : Type}
    (p : WProg α) : Prop :=
  Prog.Keeps (mm.world false env) (fun w => Fair wf w.log) p

section
variable {α β : Type}

theorem log_lift {p : VProg α} {w w' : World ε} {x : α}
    (hr : Prog.run (mm.world false env) (lift p) w = some (x, w')) : w'.log = w.log := by
  rw [run_lift] at hr
  obtain ⟨r, -, e⟩ := Option.map_eq_some_iff.mp hr
  obtain ⟨-, rfl⟩ := Prod.mk.inj e
  rfl

theorem keepsFair_lift (p : VProg α) : KeepsFair mm env wf (lift p) := by
  intro w x w' hf hr
  rw [log_lift hr]
  exact hf

theorem keepsFair_io (op : Io) : KeepsFair mm env wf (io op) := by
  intro w x w' hf hr
  obtain ⟨-, rfl⟩ := Prod.mk.inj (Option.some.inj hr)
  exact hf

theorem log_popChain {q q' : Queue} {w w' : World ε} {o : Option DescriptorChain}
    (hr : Prog.run (mm.world false env) (popChain q) w = some ((o, q'), w')) :
    (o = none ∧ w'.log = w.log) ∨ ∃ c, o = some c ∧ w'.log = w.log ++ [.popped c w'.mem] := by
  rw [popChain, Prog.run_bind] at hr
  obtain ⟨⟨⟨o', q₁⟩, w₁⟩, h₁, hr⟩ := Option.bind_eq_some_iff.mp hr
  have hl := log_lift h₁
  cases o' with
  | none =>
    obtain ⟨e, rfl⟩ := Prod.mk.inj (Option.some.inj hr)
    exact .inl ⟨(Prod.mk.inj e).1.symm, hl⟩
  | some c =>
    obtain ⟨e, rfl⟩ := Prod.mk.inj (Option.some.inj hr)
    refine .inr ⟨c, (Prod.mk.inj e).1.symm, ?_⟩
    show w₁.log ++ [.popped c w₁.mem] = w.log ++ [.popped c w₁.mem]
    rw [hl]

/-- Serving a chain pops none. -/
theorem Serves.pops {S : Nat → Prop} {ok : Bool} {c : DescriptorChain} {q : Queue} {p : WProg (Queue × β)}
    {w w' : World ε} {x : Queue × β} (h : Serves mm env S ok c q p w)
    (hr : Prog.run (mm.world false env) p w = some (x, w')) : Whypa.pops w'.log = Whypa.pops w.log := by
  obtain ⟨_, _, _, hr', hs⟩ := h
  obtain ⟨-, rfl⟩ := Prod.mk.inj (Option.some.inj (hr'.symm.trans hr))
  rw [hs.log]
  cases ok <;> simp [Whypa.pops, Event.pop?]

/-- What every loop does next: it pops a chain, serves it, and goes on. -/
theorem keepsFair_pop {q : Queue} {f : Option DescriptorChain × Queue → WProg α}
    {serve : DescriptorChain → Queue → WProg (Queue × β)} {g : Queue × β → WProg α}
    (hs : ∀ c q w, ∃ S, Serves mm env S (wf w.mem c) c q (serve c q) w)
    (hnone : ∀ q, KeepsFair mm env wf (f (none, q)))
    (hsome : ∀ c q, f (some c, q) = serve c q >>= g) (hg : ∀ x, KeepsFair mm env wf (g x)) :
    KeepsFair mm env wf (popChain q >>= f) := by
  intro w x w' hf hr
  rw [Prog.run_bind] at hr
  obtain ⟨⟨⟨o, q₁⟩, w₁⟩, hp, hr⟩ := Option.bind_eq_some_iff.mp hr
  rcases log_popChain hp with ⟨rfl, hl⟩ | ⟨c, rfl, hl⟩
  · refine hnone q₁ ?_ hr
    show Fair wf w₁.log
    rw [hl]
    exact hf
  · obtain ⟨S, q₂, y, w₂, hr₂, hsv⟩ := hs c q₁ w₁
    dsimp only at hr
    rw [hsome, Prog.run_bind, hr₂, Option.bind_some] at hr
    refine hg _ ?_ hr
    show Fair wf w₂.log
    rw [hsv.log, hl]
    exact fair_served hf c w₁.mem

end

theorem keepsFair_notifyUsed (q : Queue) (used : Bool) : KeepsFair mm env wf (notifyUsed q used) := by
  unfold notifyUsed
  split
  · refine (keepsFair_lift _).bind fun x => (keepsFair_lift _).bind fun b => ?_
    split
    · exact (keepsFair_io _).bind fun _ => .pure _
    · exact .pure _
  · exact .pure _

theorem keepsFair_signalUsed (q : Queue) (used : Bool) : KeepsFair mm env wf (signalUsed q used) := by
  unfold signalUsed
  split
  · exact (keepsFair_io _).bind fun _ => .pure _
  · exact .pure _

section
variable {serve : DescriptorChain → Queue → WProg (Queue × Bool)}
  (hs : ∀ c q w, ∃ S, Serves mm env S (wf w.mem c) c q (serve c q) w)
include hs

theorem keepsFair_popLoop (fuel : Nat) (q : Queue) (used : Bool) :
    KeepsFair mm env wf (popLoop serve fuel q used) := by
  induction fuel generalizing q used with
  | zero => exact .pure _
  | succ fuel ih => exact keepsFair_pop hs (fun q => .pure _) (fun c q => rfl) fun x => ih x.1 _

theorem keepsFair_processWith {notify : Queue → Bool → WProg Queue}
    (hn : ∀ q used, KeepsFair mm env wf (notify q used)) (fuel : Nat) (q : Queue) :
    KeepsFair mm env wf (processWith serve notify fuel q) := by
  refine (keepsFair_popLoop hs fuel q false).bind fun x => ?_
  cases x with
  | none => exact .pure _
  | some x => exact (hn _ _).bind fun _ => .pure _

end

namespace ConsoleWorker

theorem keepsFair_rxLoop (data : List Byte) (fuel offset : Nat) (q : Queue) (used : Bool) :
    KeepsFair mm env (fun m c => c.writableOk mm m) (rxLoop mm data fuel offset q used) := by
  induction fuel generalizing offset q used with
  | zero => exact .pure _
  | succ fuel ih =>
    unfold rxLoop
    split
    · exact .pure _
    refine keepsFair_pop (fun c q w => ⟨_, servedRx (data.drop offset) c q w⟩) (fun q => .pure _)
      (fun c q => rfl) fun x => ?_
    rcases x with ⟨q, _ | n⟩
    · exact ih _ _ _
    · exact ih _ _ _

theorem keepsFair_processRxInput (fuel : Nat) (q : Queue) :
    KeepsFair mm env (fun m c => c.writableOk mm m) (processRxInput mm fuel q) := by
  refine (keepsFair_io _).bind fun data => ?_
  split
  · exact .pure _
  refine (keepsFair_rxLoop data fuel 0 q false).bind fun x => ?_
  cases x with
  | none => exact .pure _
  | some x => exact (keepsFair_notifyUsed _ _).bind fun _ => .pure _

end ConsoleWorker

namespace NetWorker

theorem keepsFair_rxLoop (packets : List (List Byte)) (q : Queue) (used : Bool) :
    KeepsFair mm env (fun m c => c.writableOk mm m) (rxLoop mm packets q used) := by
  induction packets generalizing q used with
  | nil => exact .pure _
  | cons frame packets ih =>
    unfold rxLoop
    split
    · exact ih _ _
    refine keepsFair_pop (fun c q w => ⟨_, servedRx frame c q w⟩) (fun q => ?_) (fun c q => rfl)
      fun x => ih x.1 _
    exact (keepsFair_io _).bind fun _ => .pure _

theorem keepsFair_processRxVirtioQueue (q : Queue) :
    KeepsFair mm env (fun m c => c.writableOk mm m) (processRxVirtioQueue mm q) := by
  refine (keepsFair_io _).bind fun packets => ?_
  split
  · exact .pure _
  · exact (keepsFair_rxLoop packets q false).bind fun x => keepsFair_notifyUsed _ _

end NetWorker

/-! ## The six loops -/

/-- The functions that pop chains from a queue. -/
inductive QueueLoop
  | block (disk : BlockWorker.DiskProperties)
  | rng
  | consoleTx
  | consoleRx
  | netTx
  | netRx

namespace QueueLoop

def process (mm : MemoryManager) : QueueLoop → Nat → Queue → WProg (Option Queue)
  | block disk => BlockWorker.processQueue mm disk
  | rng => RngWorker.processQueue mm
  | consoleTx => ConsoleWorker.processTxQueue mm
  | consoleRx => ConsoleWorker.processRxInput mm
  | netTx => NetWorker.processTxQueue mm
  | netRx => fun _ q => do
    let q ← NetWorker.processRxVirtioQueue mm q
    pure (some q)

/-- The chain lies in guest memory, as far as the loop uses it: the disk's both
sides of it, and at least the header of a request; a transmit queue's readable
side; the others' writable side. -/
def wellFormed (mm : MemoryManager) : QueueLoop → Mem → DescriptorChain → Bool
  | block _ => BlockWorker.wellFormed mm
  | consoleTx | netTx => fun m c => c.readableOk mm m
  | rng | consoleRx | netRx => fun m c => c.writableOk mm m

theorem keepsFair_process (l : QueueLoop) (fuel : Nat) (q : Queue) :
    KeepsFair mm env (l.wellFormed mm) (l.process mm fuel q) := by
  cases l with
  | block disk =>
    exact keepsFair_processWith (fun c q w => ⟨_, BlockWorker.served disk c q w⟩)
      keepsFair_notifyUsed fuel q
  | rng =>
    exact keepsFair_processWith (fun c q w => ⟨_, RngWorker.served c q w⟩) keepsFair_notifyUsed fuel q
  | consoleTx =>
    exact keepsFair_processWith (fun c q w => ⟨_, ConsoleWorker.servedTx c q w⟩)
      keepsFair_signalUsed fuel q
  | consoleRx => exact ConsoleWorker.keepsFair_processRxInput fuel q
  | netTx =>
    exact keepsFair_processWith (fun c q w => ⟨_, NetWorker.servedTx c q w⟩)
      keepsFair_signalUsed fuel q
  | netRx => exact (NetWorker.keepsFair_processRxVirtioQueue q).bind fun _ => .pure _

/-- In a run that returns, every chain popped is returned by exactly one call of
`add_used` if and only if every chain was well formed when it was popped. -/
theorem returned_once_iff (ck : Bool) (l : QueueLoop) {fuel : Nat} {q q' : Queue} {m : Mem} {e : ε}
    {w : World ε}
    (hr : Prog.run (mm.world ck env) (l.process mm fuel q) ⟨m, e, []⟩ = some (some q', w)) :
    (useds w.log).Perm ((pops w.log).map fun p => p.1.index) ↔
      ∀ p ∈ pops w.log, l.wellFormed mm p.2 p.1 = true := by
  have hf : Fair (l.wellFormed mm) (World.mk m e []).log := rfl
  exact (keepsFair_process l fuel q hf (run_of_checked hr)).perm_iff

theorem returned_once_iff_console : ∃ q' w,
    Prog.run (smallRam.world true idleEnv) (consoleTx.process smallRam 2 smallQueue)
      ⟨oneChain 0 0x4000, (), []⟩ = some (some q', w) ∧ (pops w.log).length = 1 ∧
    (useds w.log).Perm ((pops w.log).map fun p => p.1.index) := by
  have hr : (Prog.run (smallRam.world true idleEnv) (consoleTx.process smallRam 2 smallQueue)
      ⟨oneChain 0 0x4000, (), []⟩).map (fun r => (r.1.isSome, (pops r.2.log).length,
        (pops r.2.log).all fun p => consoleTx.wellFormed smallRam p.2 p.1)) =
      some (true, 1, true) := by decide +kernel
  obtain ⟨⟨o, w⟩, h, he⟩ := Option.map_eq_some_iff.mp hr
  simp only [Prod.mk.injEq, Option.isSome_iff_exists] at he
  obtain ⟨⟨q', rfl⟩, hl, hall⟩ := he
  exact ⟨q', w, h, hl, (returned_once_iff true consoleTx h).mpr (List.all_eq_true.mp hall)⟩

/-- A chain whose descriptor points outside guest memory is popped by the
console and never returned. -/
theorem chain_not_returned : ∃ q' w,
    Prog.run (smallRam.world true idleEnv) (consoleTx.process smallRam 2 smallQueue)
      ⟨oneChain 0 0x100000, (), []⟩ = some (some q', w) ∧
    (pops w.log).map (fun p => p.1.index) = [0] ∧ useds w.log = [] ∧
    ¬ (useds w.log).Perm ((pops w.log).map fun p => p.1.index) := by
  have hr : (Prog.run (smallRam.world true idleEnv) (consoleTx.process smallRam 2 smallQueue)
      ⟨oneChain 0 0x100000, (), []⟩).map (fun r => (r.1.isSome,
        (pops r.2.log).map (fun p => p.1.index), useds r.2.log)) = some (true, [0], []) := by
    decide +kernel
  obtain ⟨⟨o, w⟩, h, he⟩ := Option.map_eq_some_iff.mp hr
  simp only [Prod.mk.injEq, Option.isSome_iff_exists] at he
  obtain ⟨⟨q', rfl⟩, hp, hu⟩ := he
  refine ⟨q', w, h, hp, hu, ?_⟩
  rw [hp, hu]
  decide

end QueueLoop

end Whypa
