import Whypa.Framework.Counter
import Whypa.Framework.Reach
import Whypa.Virtio.Rings

/-!
# Kicking the device

A driver that publishes heads and then decides whether to notify, and a worker
that drains the queue and then waits for a notification. Each of the two writes
one word and then reads the other's: the driver `avail.idx` and then the
suppression state of the used ring, the worker the suppression state and then
`avail.idx`. `no_lost_kick` is the point of this file: the worker never waits
with heads left in the ring and no notification on its way.
-/

namespace Whypa

open Framework Framework.Counter

namespace Kick

/-- Where a worker is in `work` and `process_virtio_queues`. -/
inductive Worker
  /-- In `WaitForMultipleObjects`. -/
  | waiting
  | disabling (p : VProg (Except QueueError Unit))
  | popping (p : VProg (Option DescriptorChain × Queue))
  /-- Processing the chain that `pop` returned. -/
  | processing
  /-- After `pop` returned `none`, before the end of `process_queue`. -/
  | finishing
  | enabling (p : VProg (Except QueueError Bool))
  | panicked

/-- Whether the driver has yet to decide on a notification, after it moved
`avail.idx` from `old` to `new`. -/
inductive Driver
  | idle
  | published (old new : BitVec 16)

structure State where
  mem : Mem
  queue : Queue
  worker : Worker
  /-- The queue's auto-reset event is signaled. -/
  event : Bool
  driver : Driver

namespace State

/-- The worker with `p` left to do of `pop`. -/
def settlePop (s : State) : VProg (Option DescriptorChain × Queue) → State
  | .pure (some _, q) => { s with queue := q, worker := .processing }
  | .pure (none, q) => { s with queue := q, worker := .finishing }
  | .panic => { s with worker := .panicked }
  | p => { s with worker := .popping p }

/-- The worker with `p` left to do of `disableNotification`. -/
def settleDisable (s : State) : VProg (Except QueueError Unit) → State
  | .pure (.ok ()) => s.settlePop s.queue.pop
  | .pure (.error _) | .panic => { s with worker := .panicked }
  | p => { s with worker := .disabling p }

/-- The worker with `p` left to do of `enableNotification`. -/
def settleEnable (s : State) : VProg (Except QueueError Bool) → State
  | .pure (.ok true) => s.settleDisable s.queue.disableNotification
  | .pure (.ok false) => { s with worker := .waiting }
  | .pure (.error _) | .panic => { s with worker := .panicked }
  | p => { s with worker := .enabling p }

end State

inductive Label
  | publish (k : Nat)
  | check
  /-- The driver's other writes, and the worker's into the buffers and the used elements. -/
  | other (m : Mem)
  | wake
  | access
  /-- The end of a request, or of `process_queue`: `addUsed` and `needsNotification` have changed
  the counters of the used ring. -/
  | complete (nextUsed numAdded : BitVec 16)

section
variable (ck : Bool) (mm : MemoryManager) (av us : Nat)

def State.availIdx (s : State) : BitVec 16 := s.mem.word (av + 2) 16

/-- The word that tells the driver whether to notify. -/
def State.suppression (s : State) : BitVec 16 := s.mem.word (s.queue.notifyAt us) 16

/-- The driver's decision after it moved `avail.idx` from `old` to `new`. -/
def State.kicks (s : State) (old new : BitVec 16) : Bool :=
  if s.queue.eventIdxEnabled then new - s.suppression us - 1 < new - old
  else s.suppression us &&& VRING_USED_F_NO_NOTIFY = 0

/-- One step of the driver or of the worker. -/
def step (s : State) : Label → Option State
  | .publish k =>
    match s.driver with
    | .idle =>
      if 1 ≤ k ∧ k < 2 ^ 16 then
        some { s with
          mem := s.mem.putWord (av + 2) (s.availIdx av + BitVec.ofNat 16 k)
          driver := .published (s.availIdx av) (s.availIdx av + BitVec.ofNat 16 k) }
      else none
    | _ => none
  | .check =>
    match s.driver with
    | .published old new => some { s with driver := .idle, event := s.event || s.kicks us old new }
    | _ => none
  | .other m =>
    if s.mem.SameOn m (av + 2) 2 ∧ s.mem.SameOn m (s.queue.notifyAt us) 2 then
      some { s with mem := m }
    else none
  | .wake =>
    match s.worker with
    | .waiting =>
      if s.event then some ({ s with event := false }.settleDisable s.queue.disableNotification)
      else none
    | _ => none
  | .access =>
    match s.worker with
    | .disabling p =>
      (p.next (mm.handler ck) s.mem).map fun r => { s with mem := r.2 }.settleDisable r.1
    | .popping p => (p.next (mm.handler ck) s.mem).map fun r => { s with mem := r.2 }.settlePop r.1
    | .enabling p =>
      (p.next (mm.handler ck) s.mem).map fun r => { s with mem := r.2 }.settleEnable r.1
    | _ => none
  | .complete nextUsed numAdded =>
    match s.worker with
    | .processing =>
      some ({ s with queue := { s.queue with nextUsed, numAdded } }.settlePop
        { s.queue with nextUsed, numAdded }.pop)
    | .finishing =>
      some ({ s with queue := { s.queue with nextUsed, numAdded } }.settleEnable
        { s.queue with nextUsed, numAdded }.enableNotification)
    | _ => none

/-- From zeroed rings, with the worker waiting. -/
def system (q : Queue) : System State Label :=
  .ofStep (fun s => s.queue = q ∧ s.queue.nextAvail = 0 ∧ s.worker = .waiting ∧ s.driver = .idle ∧
    (∀ i < 6 + 2 * q.size.toNat, s.mem (av + i) = 0) ∧
    (∀ i < 6 + 8 * q.size.toNat, s.mem (us + i) = 0)) (step ck mm av us)

end

variable {ck : Bool} {mm : MemoryManager} {av us : Nat} {q : Queue} {s s' : State} {l : Label}

/-- A driver that moves `avail.idx` away from `nextAvail` will notify. -/
def Armed (us : Nat) (s : State) : Prop := s.suppression us = s.queue.armValue

/-- What does not depend on where the worker is. -/
structure Base (av : Nat) (q : Queue) (s : State) : Prop where
  config : q.SameConfig s.queue
  driver : ∀ old new, s.driver = .published old new →
    s.availIdx av = new ∧ ∃ k, 1 ≤ k ∧ k < 2 ^ 16 ∧ new = ahead old k

/-- What holds while the worker waits: an event is signaled, or else there is
nothing to pop, or the driver has published and is bound to signal one. -/
def Covered (av us : Nat) (s : State) : Prop :=
  s.event = true ∨ Armed us s ∧
    (s.availIdx av = s.queue.nextAvail ∨ ∃ new, s.driver = .published s.queue.nextAvail new)

/-- What holds at each place of the worker. -/
def Phase (ck : Bool) (mm : MemoryManager) (av us : Nat) (s : State) : Prop :=
  match s.worker with
  | .waiting => Covered av us s
  | .disabling p => s.queue.eventIdxEnabled = false ∧ p = s.queue.disableNotification
  | .popping p => Prog.Always (mm.handler ck) Access.isRead s.queue.Popped p
  | .processing => True
  | .finishing => True
  | .enabling p => p = s.queue.enableNotification ∨ p = s.queue.recheckAvail ∧ Armed us s
  | .panicked => False

/-- The index and the suppression state are in different rings. -/
theorem idx_sep (hr : q.Rings mm av us) :
    av + 2 + 2 ≤ q.notifyAt us ∨ q.notifyAt us + 2 ≤ av + 2 := by
  have := hr.disjoint
  unfold Queue.notifyAt
  split <;> omega

/-! ## The worker -/

/-- Writing to the suppression state keeps `Base`. -/
theorem Base.suppress (hb : Base av q s) (hr : q.Rings mm av us) (v : BitVec 16) :
    Base av q { s with mem := s.mem.putWord (s.queue.notifyAt us) v } := by
  refine ⟨hb.config, fun old new hd => ?_⟩
  obtain ⟨hidx, hk⟩ := hb.driver old new hd
  refine ⟨?_, hk⟩
  show (s.mem.putWord (s.queue.notifyAt us) v).word (av + 2) 16 = new
  rw [Mem.word_putWord_sep (idx_sep (hr.config hb.config))]
  exact hidx

theorem settlePop_inv (hb : Base av q s) {p : VProg (Option DescriptorChain × Queue)}
    (hp : Prog.Always (mm.handler ck) Access.isRead s.queue.Popped p) :
    Base av q (s.settlePop p) ∧ Phase ck mm av us (s.settlePop p) := by
  cases p with
  | pure r =>
    obtain ⟨c, q'⟩ := r
    have hc := hb.config.trans (Queue.Popped.sameConfig hp)
    cases c with
    | none => exact ⟨⟨hc, hb.driver⟩, trivial⟩
    | some c => exact ⟨⟨hc, hb.driver⟩, trivial⟩
  | panic => exact hp.elim
  | access a k => exact ⟨⟨hb.config, hb.driver⟩, hp⟩

/-- An access of `enableNotification` is next, of the whole or of its end. -/
theorem settleEnable_inv (hb : Base av q s) {p : VProg (Except QueueError Bool)}
    {r : VProg (Except QueueError Bool) × Mem} (hn : p.next (mm.handler ck) s.mem = some r)
    (hp : p = s.queue.enableNotification ∨ p = s.queue.recheckAvail ∧ Armed us s) :
    Base av q (s.settleEnable p) ∧ Phase ck mm av us (s.settleEnable p) := by
  have hs : s.settleEnable p = { s with worker := .enabling p } := by
    obtain ⟨a, k, rfl⟩ := Prog.eq_access_of_next hn
    rfl
  rw [hs]
  exact ⟨⟨hb.config, hb.driver⟩, hp⟩

section
variable (hq : q.Popable mm av us)
include hq

theorem settleDisable_inv (hb : Base av q s) :
    Base av q (s.settleDisable s.queue.disableNotification) ∧
      Phase ck mm av us (s.settleDisable s.queue.disableNotification) := by
  have hq' := hq.config hb.config
  cases he : s.queue.eventIdxEnabled with
  | true =>
    rw [Queue.disableNotification_of_eventIdx he]
    exact settlePop_inv hb hq'.always_pop
  | false =>
    have hn : Prog.next (mm.handler ck) _ s.mem = _ := Queue.next_disableNotification hq'.rings.used he
    have hs : s.settleDisable s.queue.disableNotification =
        { s with worker := .disabling s.queue.disableNotification } := by
      obtain ⟨a, k, e⟩ := Prog.eq_access_of_next hn
      rw [e]
      rfl
    rw [hs]
    exact ⟨⟨hb.config, hb.driver⟩, he, rfl⟩

/-- The first access of `enableNotification` arms the driver. -/
theorem armed_enable (hb : Base av q s) :
    Base av q ({ s with mem := s.mem.putWord (s.queue.notifyAt us) s.queue.armValue }.settleEnable
        s.queue.recheckAvail) ∧
      Phase ck mm av us ({ s with
        mem := s.mem.putWord (s.queue.notifyAt us) s.queue.armValue }.settleEnable
          s.queue.recheckAvail) := by
  have hq' := hq.config hb.config
  refine settleEnable_inv (hb.suppress hq.rings _) (Queue.next_recheckAvail hq'.rings.avail)
    (.inr ⟨rfl, ?_⟩)
  exact Mem.word_putWord16 ..

theorem access_inv (hb : Base av q s) (hph : Phase ck mm av us s)
    (hs : step ck mm av us s .access = some s') : Base av q s' ∧ Phase ck mm av us s' := by
  have hq' := hq.config hb.config
  cases hw : s.worker with
  | waiting => simp only [step, hw] at hs; cases hs
  | processing => simp only [step, hw] at hs; cases hs
  | finishing => simp only [step, hw] at hs; cases hs
  | panicked => simp only [step, hw] at hs; cases hs
  | disabling p =>
    simp only [step, hw] at hs
    simp only [Phase, hw] at hph
    obtain ⟨he, rfl⟩ := hph
    rw [Queue.next_disableNotification hq'.rings.used he] at hs
    obtain rfl := Option.some.inj hs
    have hus : s.queue.notifyAt us = us := by simp [Queue.notifyAt, he]
    have hb' := hb.suppress hq.rings VRING_USED_F_NO_NOTIFY
    rw [hus] at hb'
    exact settlePop_inv hb' hq'.always_pop
  | popping p =>
    simp only [step, hw] at hs
    simp only [Phase, hw] at hph
    obtain ⟨⟨p', m⟩, hn, rfl⟩ := Option.map_eq_some_iff.mp hs
    obtain ⟨hp', rfl⟩ := next_of_isRead hph hn
    exact settlePop_inv hb hp'
  | enabling p =>
    simp only [step, hw] at hs
    simp only [Phase, hw] at hph
    rcases hph with rfl | ⟨rfl, harm⟩
    · rw [Queue.next_enableNotification hq'.rings.used] at hs
      obtain rfl := Option.some.inj hs
      exact armed_enable hq hb
    · rw [Queue.next_recheckAvail hq'.rings.avail] at hs
      obtain rfl := Option.some.inj hs
      by_cases hidx : s.mem.word (av + 2) 16 = s.queue.nextAvail
      · simp only [hidx, bne_self_eq_false]
        exact ⟨⟨hb.config, hb.driver⟩, .inr ⟨harm, .inl hidx⟩⟩
      · rw [show (s.mem.word (av + 2) 16 != s.queue.nextAvail) = true by simpa using hidx]
        exact settleDisable_inv (s := { s with worker := .enabling s.queue.recheckAvail }) hq
          ⟨hb.config, hb.driver⟩

theorem complete_inv (hb : Base av q s) {u n : BitVec 16}
    (hs : step ck mm av us s (.complete u n) = some s') : Base av q s' ∧ Phase ck mm av us s' := by
  have hc : s.queue.SameConfig { s.queue with nextUsed := u, numAdded := n } :=
    ⟨rfl, rfl, rfl, rfl, rfl, rfl, rfl⟩
  have hb' : Base av q { s with queue := { s.queue with nextUsed := u, numAdded := n } } :=
    ⟨hb.config.trans hc, hb.driver⟩
  have hq' := hq.config hb'.config
  cases hw : s.worker with
  | processing =>
    simp only [step, hw] at hs
    obtain rfl := Option.some.inj hs
    exact settlePop_inv hb' hq'.always_pop
  | finishing =>
    simp only [step, hw] at hs
    obtain rfl := Option.some.inj hs
    exact settleEnable_inv hb' (Queue.next_enableNotification hq'.rings.used) (.inl rfl)
  | waiting => simp only [step, hw] at hs; cases hs
  | disabling p => simp only [step, hw] at hs; cases hs
  | popping p => simp only [step, hw] at hs; cases hs
  | enabling p => simp only [step, hw] at hs; cases hs
  | panicked => simp only [step, hw] at hs; cases hs

theorem wake_inv (hb : Base av q s) (hs : step ck mm av us s .wake = some s') :
    Base av q s' ∧ Phase ck mm av us s' := by
  simp only [step] at hs
  split at hs
  · obtain ⟨-, e⟩ := Option.ite_none_right_eq_some.mp hs
    obtain rfl := Option.some.inj e
    exact settleDisable_inv (s := { s with event := false }) hq ⟨hb.config, hb.driver⟩
  · cases hs

end

/-! ## The driver -/

/-- A step of the driver leaves the worker where it is. -/
theorem Phase.driver (hph : Phase ck mm av us s) (hwk : s'.worker = s.worker)
    (hqu : s'.queue = s.queue) (harm : Armed us s → Armed us s')
    (hwait : Covered av us s → Covered av us s') : Phase ck mm av us s' := by
  unfold Phase at hph ⊢
  rw [hwk]
  cases hw : s.worker with
  | waiting => rw [hw] at hph; exact hwait hph
  | disabling p => rw [hw] at hph; simp only [hqu]; exact hph
  | popping p => rw [hw] at hph; simp only [hqu]; exact hph
  | processing => trivial
  | finishing => trivial
  | enabling p =>
    rw [hw] at hph
    simp only [hqu]
    exact hph.imp id fun ⟨e, h⟩ => ⟨e, harm h⟩
  | panicked => rw [hw] at hph; exact hph

theorem publish_inv (hq : q.Popable mm av us) (hb : Base av q s) (hph : Phase ck mm av us s) {k : Nat}
    (hs : step ck mm av us s (.publish k) = some s') : Base av q s' ∧ Phase ck mm av us s' := by
  simp only [step] at hs
  split at hs
  · rename_i hd
    obtain ⟨⟨hk, hk'⟩, e⟩ := Option.ite_none_right_eq_some.mp hs
    obtain rfl := Option.some.inj e
    have hsep := idx_sep (hq.rings.config hb.config)
    refine ⟨⟨hb.config, ?_⟩, hph.driver rfl rfl (fun ha => ?_) ?_⟩
    · intro old new hd'
      obtain ⟨rfl, rfl⟩ := Driver.published.inj hd'
      exact ⟨Mem.word_putWord16 .., k, hk, hk', rfl⟩
    · show (s.mem.putWord (av + 2) _).word (s.queue.notifyAt us) 16 = s.queue.armValue
      rw [Mem.word_putWord_sep hsep.symm]
      exact ha
    · rintro (he | ⟨ha, hidx | ⟨new, hd'⟩⟩)
      · exact .inl he
      · refine .inr ⟨?_, .inr ⟨s.availIdx av + BitVec.ofNat 16 k, ?_⟩⟩
        · show (s.mem.putWord (av + 2) _).word (s.queue.notifyAt us) 16 = s.queue.armValue
          rw [Mem.word_putWord_sep hsep.symm]
          exact ha
        · show Driver.published _ _ = Driver.published _ _
          rw [hidx]
      · rw [hd] at hd'
        cases hd'
  · cases hs

/-- The driver notifies a worker that waits for what it published. -/
theorem kicks_of_armed (hb : Base av q s) (ha : Armed us s) {new : BitVec 16}
    (hd : s.driver = .published s.queue.nextAvail new) : s.kicks us s.queue.nextAvail new = true := by
  obtain ⟨-, k, hk, hk', rfl⟩ := hb.driver _ _ hd
  unfold Armed at ha
  unfold State.kicks
  rw [ha, Queue.armValue]
  cases s.queue.eventIdxEnabled with
  | true =>
    simp only [if_true, decide_eq_true_eq]
    exact (passed_iff _ _ hk').mpr ⟨0, hk, (ahead_zero _).symm⟩
  | false =>
    simp only [Bool.false_eq_true, if_false, decide_eq_true_eq]
    decide

theorem check_inv (hb : Base av q s) (hph : Phase ck mm av us s)
    (hs : step ck mm av us s .check = some s') : Base av q s' ∧ Phase ck mm av us s' := by
  simp only [step] at hs
  split at hs
  · rename_i old new hd
    obtain rfl := Option.some.inj hs
    refine ⟨⟨hb.config, fun _ _ h => by cases h⟩, hph.driver rfl rfl id ?_⟩
    rintro (he | ⟨ha, hidx | ⟨new', hd'⟩⟩)
    · exact .inl (by simp only [he, Bool.true_or])
    · exact .inr ⟨ha, .inl hidx⟩
    · have hk := kicks_of_armed hb ha hd'
      rw [hd] at hd'
      obtain ⟨rfl, rfl⟩ := Driver.published.inj hd'
      exact .inl (by simp only [hk, Bool.or_true])
  · cases hs

theorem other_inv (hb : Base av q s) (hph : Phase ck mm av us s) {m : Mem}
    (hs : step ck mm av us s (.other m) = some s') : Base av q s' ∧ Phase ck mm av us s' := by
  obtain ⟨⟨hidx, hsup⟩, e⟩ := Option.ite_none_right_eq_some.mp hs
  obtain rfl := Option.some.inj e
  have hidx' : m.word (av + 2) 16 = s.mem.word (av + 2) 16 := Mem.word_congr hidx
  have harm : Armed us s → Armed us { s with mem := m } := by
    intro ha
    exact (Mem.word_congr hsup).trans ha
  refine ⟨⟨hb.config, fun old new hd => ?_⟩, hph.driver rfl rfl harm ?_⟩
  · exact ⟨hidx'.trans (hb.driver old new hd).1, (hb.driver old new hd).2⟩
  · rintro (he | ⟨ha, h | h⟩)
    · exact .inl he
    · exact .inr ⟨harm ha, .inl (hidx'.trans h)⟩
    · exact .inr ⟨harm ha, .inr h⟩

/-! ## Every run -/

theorem inv_step (hq : q.Popable mm av us) (hi : Base av q s ∧ Phase ck mm av us s)
    (hs : step ck mm av us s l = some s') : Base av q s' ∧ Phase ck mm av us s' := by
  obtain ⟨hb, hph⟩ := hi
  cases l with
  | publish k => exact publish_inv hq hb hph hs
  | check => exact check_inv hb hph hs
  | other m => exact other_inv hb hph hs
  | wake => exact wake_inv hq hb hs
  | access => exact access_inv hq hb hph hs
  | complete u n => exact complete_inv hq hb hs

theorem inv_init (h : (system ck mm av us q).init s) : Base av q s ∧ Phase ck mm av us s := by
  obtain ⟨rfl, h0, hw, hd, hav, hus⟩ := h
  have hidx : s.availIdx av = 0 := Mem.word_of_zero fun i hi => by
    have := hav (2 + i) (by omega)
    rwa [← Nat.add_assoc] at this
  have hsup : s.suppression us = 0 := by
    refine Mem.word_of_zero fun i hi => ?_
    unfold Queue.notifyAt
    split
    · rw [Nat.add_assoc]
      exact hus _ (by omega)
    · exact hus i (by omega)
  refine ⟨⟨.refl _, fun old new h => by rw [hd] at h; cases h⟩, ?_⟩
  unfold Phase
  rw [hw]
  refine .inr ⟨?_, .inl (hidx.trans h0.symm)⟩
  unfold Armed
  rw [hsup, Queue.armValue, h0]
  exact (ite_self _).symm

/-- In no state reached by any interleaving does the worker wait with its event
not signaled, the driver not between publishing and deciding, and heads left in
the ring; and the worker never panics. -/
theorem no_lost_kick (hq : q.Popable mm av us) (h : (system ck mm av us q).Reachable s) :
    ¬ (s.worker = .waiting ∧ s.event = false ∧ s.driver = .idle ∧
      s.availIdx av ≠ s.queue.nextAvail) ∧ s.worker ≠ .panicked := by
  obtain ⟨-, hph⟩ := h.invariant (I := fun s => Base av q s ∧ Phase ck mm av us s)
    (fun s h => inv_init h) fun s l s' hi hs => inv_step hq hi hs
  unfold Phase at hph
  constructor
  · rintro ⟨hw, he, hd, hne⟩
    rw [hw] at hph
    rcases hph with h | ⟨-, h | ⟨new, h⟩⟩
    · rw [he] at h; cases h
    · exact hne h
    · rw [hd] at h; cases h
  · intro hw
    rw [hw] at hph
    exact hph

theorem no_lost_kick_one : ∃ s, (system true smallRam 0x2000 0x3000 smallQueue).Reachable s ∧
    s.queue.nextAvail = 1 ∧ s.worker ≠ .panicked := by
  have hr : ([.publish 1, .check, .wake, .access, .access, .access, .access, .complete 1 1, .access,
      .complete 1 1, .access, .access].foldlM (step true smallRam 0x2000 0x3000)
      ⟨fun _ => 0, smallQueue, .waiting, false, .idle⟩).map (fun s => s.queue.nextAvail) = some 1 := by
    decide +kernel
  obtain ⟨s, hs, hn⟩ := Option.map_eq_some_iff.mp hr
  have h0 : (system true smallRam 0x2000 0x3000 smallQueue).Reachable
      ⟨fun _ => 0, smallQueue, .waiting, false, .idle⟩ :=
    .init ⟨rfl, rfl, rfl, rfl, fun _ _ => rfl, fun _ _ => rfl⟩
  have h := h0.foldlM _ hs
  exact ⟨s, h, hn, (no_lost_kick smallQueue_popable h).2⟩

end Kick

end Whypa
