import Whypa.Framework.Counter
import Whypa.Framework.Reach
import Whypa.Virtio.Rings

/-!
# Interrupting the driver

A device that returns chains in batches and a driver that sleeps when it has
consumed them all, with event indices negotiated. Before it sleeps the driver
writes its index to `used_event` and then reads `used.idx` again; the device
advances `used.idx` and at the end of the batch reads `used_event`
(`Queue.needsNotification`). `no_lost_completion` is the point of this file:
the driver never sleeps on unread completions once the device has left
`process_queue`, unless an interrupt is pending.
-/

namespace Whypa

open Framework Framework.Counter

namespace Completion

/-- Where the device is in `process_queue`. -/
inductive Device
  | outside
  | popping (p : VProg (Option DescriptorChain × Queue))
  /-- Processing the chain that starts at `head`. -/
  | processing (head : BitVec 16)
  | adding (p : VProg (Except QueueError Unit × Queue))
  | notifying (p : VProg (Except QueueError Bool × Queue))
  /-- About to signal the interrupt. -/
  | signalling
  | panicked

inductive Driver
  | awake
  /-- `used_event` is written, `used.idx` not yet read again. -/
  | armed
  | asleep
deriving DecidableEq

structure State where
  mem : Mem
  queue : Queue
  device : Device
  usedAny : Bool
  /-- Chains returned since `process_queue` was called. -/
  added : Nat
  driver : Driver
  /-- The driver's index. -/
  consumed : BitVec 16
  /-- An interrupt is pending. -/
  pending : Bool

namespace State

/-- The device with `p` left to do of `needsNotification`. -/
def settleNotify (s : State) : VProg (Except QueueError Bool × Queue) → State
  | .pure (.ok true, q) => { s with queue := q, device := .signalling }
  | .pure (.ok false, q) => { s with queue := q, device := .outside }
  | .pure (.error _, _) | .panic => { s with device := .panicked }
  | p => { s with device := .notifying p }

/-- The device with `p` left to do of `pop`. -/
def settlePop (s : State) : VProg (Option DescriptorChain × Queue) → State
  | .pure (some c, q) => { s with queue := q, device := .processing c.index }
  | .pure (none, q) =>
    if s.usedAny then { s with queue := q }.settleNotify q.needsNotification
    else { s with queue := q, device := .outside }
  | .panic => { s with device := .panicked }
  | p => { s with device := .popping p }

/-- The device with `p` left to do of `addUsed`. -/
def settleAdd (s : State) : VProg (Except QueueError Unit × Queue) → State
  | .pure (_, q) => { s with queue := q, usedAny := true, added := s.added + 1 }.settlePop q.pop
  | .panic => { s with device := .panicked }
  | p => { s with device := .adding p }

end State

inductive Label
  | enter
  | access
  /-- A chain is given up. -/
  | drop
  | add (len : BitVec 32)
  | signal
  | consume
  | arm
  | recheck
  /-- A driver that is not asleep takes the interrupt and goes on. -/
  | interrupt
  /-- Anything else that happens to memory, outside `used.idx` and `used_event`. -/
  | other (m : Mem)

section
variable (ck : Bool) (mm : MemoryManager) (av us : Nat)

def State.usedIdx (s : State) : BitVec 16 := s.mem.word (us + 2) 16

def State.usedEvent (s : State) : BitVec 16 := s.mem.word (s.queue.usedEventAt av) 16

/-- One step of the device or of the driver. -/
def step (s : State) : Label → Option State
  | .enter =>
    match s.device with
    | .outside => some ({ s with usedAny := false, added := 0 }.settlePop s.queue.pop)
    | _ => none
  | .access =>
    match s.device with
    | .popping p => (p.next (mm.handler ck) s.mem).map fun r => { s with mem := r.2 }.settlePop r.1
    | .adding p => (p.next (mm.handler ck) s.mem).map fun r => { s with mem := r.2 }.settleAdd r.1
    | .notifying p =>
      (p.next (mm.handler ck) s.mem).map fun r => { s with mem := r.2 }.settleNotify r.1
    | _ => none
  | .drop =>
    match s.device with
    | .processing _ => some (s.settlePop s.queue.pop)
    | _ => none
  | .add len =>
    match s.device with
    | .processing head =>
      if s.added + 1 < 2 ^ 16 then some (s.settleAdd (s.queue.addUsed head len)) else none
    | _ => none
  | .signal =>
    match s.device with
    | .signalling => some { s with device := .outside, pending := true }
    | _ => none
  | .consume =>
    if s.driver = .awake ∧ s.consumed ≠ s.usedIdx us then some { s with consumed := s.consumed + 1 }
    else none
  | .arm =>
    if s.driver = .awake then
      some { s with mem := s.mem.putWord (s.queue.usedEventAt av) s.consumed, driver := .armed }
    else none
  | .recheck =>
    if s.driver = .armed then
      some { s with driver := if s.usedIdx us = s.consumed then .asleep else .awake }
    else none
  | .interrupt =>
    if s.pending then
      some { s with pending := false, driver := if s.driver = .asleep then .awake else s.driver }
    else none
  | .other m =>
    if s.mem.SameOn m (us + 2) 2 ∧ s.mem.SameOn m (s.queue.usedEventAt av) 2 then
      some { s with mem := m }
    else none

/-- From a used ring that is consumed, at any index. -/
def system (q : Queue) : System State Label :=
  .ofStep (fun s => s.queue = q ∧ q.numAdded = 0 ∧ s.mem.word (us + 2) 16 = q.nextUsed ∧
    s.device = .outside ∧ s.driver = .awake ∧ s.consumed = q.nextUsed) (step ck mm av us)

end

variable {ck : Bool} {mm : MemoryManager} {av us : Nat} {q : Queue} {s s' : State} {l : Label}

/-- What does not depend on where the device is in `process_queue`. -/
structure Base (av us : Nat) (q : Queue) (s : State) : Prop where
  config : q.SameConfig s.queue
  idx : s.usedIdx us = s.queue.nextUsed
  /-- The driver asks to be interrupted for the next completion. -/
  event : s.driver ≠ .awake → s.usedEvent av = s.consumed

/-- A driver that is asleep with no interrupt pending went to sleep at most `n`
chains ago. -/
def Slept (us n : Nat) (s : State) : Prop :=
  s.driver = .asleep → s.pending = false → ∃ a ≤ n, s.usedIdx us = ahead s.consumed a

/-- Inside `process_queue`: the chains returned so far are counted. -/
structure Batch (us : Nat) (s : State) : Prop where
  numAdded : s.queue.numAdded = BitVec.ofNat 16 s.added
  lt : s.added < 2 ^ 16
  usedAny : s.usedAny = false → s.added = 0
  slept : Slept us s.added s

/-- What holds at each place of the device. -/
def Phase (ck : Bool) (mm : MemoryManager) (us : Nat) (s : State) : Prop :=
  match s.device with
  | .outside => s.queue.numAdded = 0 ∧ Slept us 0 s
  | .popping p => Batch us s ∧ Prog.Always (mm.handler ck) Access.isRead s.queue.Popped p
  | .processing head => Batch us s ∧ head < s.queue.size
  | .adding p => Batch us s ∧ s.added + 1 < 2 ^ 16 ∧
      ((∃ head len, head < s.queue.size ∧ p = s.queue.addUsed head len) ∨ p = s.queue.publishUsed)
  | .notifying p => Batch us s ∧ p = s.queue.needsNotification
  | .signalling => s.queue.numAdded = 0
  | .panicked => False

/-- The invariant. -/
def Inv (ck : Bool) (mm : MemoryManager) (av us : Nat) (q : Queue) (s : State) : Prop :=
  Base av us q s ∧ Phase ck mm us s

/-- The used ring's index and the driver's event are in different rings. -/
theorem idx_sep (hr : q.Rings mm av us) :
    us + 2 + 2 ≤ q.usedEventAt av ∨ q.usedEventAt av + 2 ≤ us + 2 := by
  have := hr.disjoint
  unfold Queue.usedEventAt
  omega

/-! ## The decision to interrupt -/

/-- A driver that went to sleep inside the batch, and not after its last chain,
is interrupted. -/
theorem eventPassed_of_slept (hb : Base av us q s) (hba : Batch us s) {a : Nat} (h0 : 0 < a)
    (ha : a ≤ s.added) (hd : s.driver = .asleep) (hidx : s.usedIdx us = ahead s.consumed a) :
    s.queue.eventPassed (s.usedEvent av) = true := by
  obtain ⟨old, hold⟩ : ∃ old, old = s.queue.nextUsed - s.queue.numAdded := ⟨_, rfl⟩
  have hnext : s.queue.nextUsed = ahead old s.added := by
    rw [hold, ahead, ← hba.numAdded, BitVec.sub_add_cancel]
  have hev : s.usedEvent av = ahead old (s.added - a) := by
    rw [hb.event (by rw [hd]; decide)]
    refine ahead_left_inj (n := a) ?_
    rw [← hidx, hb.idx, hnext, ahead_ahead, Nat.sub_add_cancel ha]
  simp only [Queue.eventPassed, ← hold, decide_eq_true_eq]
  rw [hnext]
  exact (passed_iff old _ hba.lt).mpr ⟨s.added - a, by omega, hev⟩

/-! ## The device's steps -/

section
variable (hq : q.Popable mm av us) (he : q.eventIdxEnabled = true)
include hq he

theorem settleNotify_inv (hb : Base av us q s) (hba : Batch us s) :
    Inv ck mm av us q (s.settleNotify s.queue.needsNotification) := by
  have hn : Prog.next (mm.handler ck) _ s.mem = _ := Queue.next_needsNotification
    (hq.config hb.config).rings.avail (hb.config.eventIdx.trans he)
  have hs : s.settleNotify s.queue.needsNotification =
      { s with device := .notifying s.queue.needsNotification } := by
    obtain ⟨a, k, e⟩ := Prog.eq_access_of_next hn
    rw [e]
    rfl
  rw [hs]
  exact ⟨⟨hb.config, hb.idx, hb.event⟩, ⟨hba.numAdded, hba.lt, hba.usedAny, hba.slept⟩, rfl⟩

theorem settlePop_inv (hb : Base av us q s) (hba : Batch us s)
    {p : VProg (Option DescriptorChain × Queue)}
    (hp : Prog.Always (mm.handler ck) Access.isRead s.queue.Popped p) :
    Inv ck mm av us q (s.settlePop p) := by
  cases p with
  | pure r =>
    obtain ⟨c, q'⟩ := r
    rcases hp with ⟨rfl, rfl⟩ | ⟨⟨c, rfl, hlt⟩, rfl⟩
    · by_cases hu : s.usedAny = true
      · have hs : s.settlePop (.pure (none, s.queue)) =
            s.settleNotify s.queue.needsNotification := if_pos hu
        rw [hs]
        exact settleNotify_inv hq he hb hba
      · have hs : s.settlePop (.pure (none, s.queue)) = { s with device := .outside } := if_neg hu
        have h0 := hba.usedAny (Bool.not_eq_true _ ▸ hu)
        have hslept := hba.slept
        rw [h0] at hslept
        rw [hs]
        exact ⟨⟨hb.config, hb.idx, hb.event⟩, by simpa [h0] using hba.numAdded, hslept⟩
    · have hc : s.queue.SameConfig { s.queue with nextAvail := s.queue.nextAvail + 1 } :=
        ⟨rfl, rfl, rfl, rfl, rfl, rfl, rfl⟩
      rw [Queue.actualSize_of_le (hq.config hb.config).le_max] at hlt
      exact ⟨⟨hb.config.trans hc, hb.idx, hb.event⟩,
        ⟨hba.numAdded, hba.lt, hba.usedAny, hba.slept⟩, hlt⟩
  | panic => exact hp.elim
  | access a k =>
    exact ⟨⟨hb.config, hb.idx, hb.event⟩, ⟨hba.numAdded, hba.lt, hba.usedAny, hba.slept⟩, hp⟩

/-- `pop` is called, in a batch that goes on or that begins. -/
theorem callPop_inv (hb : Base av us q s) (hba : Batch us s) :
    Inv ck mm av us q (s.settlePop s.queue.pop) :=
  settlePop_inv hq he hb hba (hq.config hb.config).always_pop

omit he in
/-- An access of `addUsed` is next, of the whole or of its end. -/
theorem settleAdd_inv (hb : Base av us q s) (hba : Batch us s) (hlt : s.added + 1 < 2 ^ 16)
    {p : VProg (Except QueueError Unit × Queue)}
    (hp : (∃ head len, head < s.queue.size ∧ p = s.queue.addUsed head len) ∨
      p = s.queue.publishUsed) : Inv ck mm av us q (s.settleAdd p) := by
  have hu := (hq.config hb.config).rings.used
  have hs : s.settleAdd p = { s with device := .adding p } := by
    have hn : ∃ r, Prog.next (mm.handler ck) p s.mem = some r := by
      rcases hp with ⟨head, len, hh, rfl⟩ | rfl
      · exact ⟨_, Queue.next_addUsed hu hh len⟩
      · exact ⟨_, Queue.next_publishUsed hu⟩
    obtain ⟨r, hn⟩ := hn
    obtain ⟨a, k, rfl⟩ := Prog.eq_access_of_next hn
    rfl
  rw [hs]
  exact ⟨⟨hb.config, hb.idx, hb.event⟩, ⟨hba.numAdded, hba.lt, hba.usedAny, hba.slept⟩, hlt, hp⟩

omit he in
/-- The element is written outside of the index and of the driver's event. -/
theorem writeElement_inv (hb : Base av us q s) (hba : Batch us s) (hlt : s.added + 1 < 2 ^ 16)
    (head : BitVec 16) (len : BitVec 32) :
    Inv ck mm av us q ({ s with
      mem := writeElement s.mem (s.queue.usedSlot us s.queue.nextUsed) head len }.settleAdd
        s.queue.publishUsed) := by
  have hr := (hq.config hb.config).rings
  have hmod := Nat.mod_lt s.queue.nextUsed.toNat (hq.config hb.config).pos
  have hidx : (writeElement s.mem (s.queue.usedSlot us s.queue.nextUsed) head len).word (us + 2) 16 =
      s.mem.word (us + 2) 16 := Mem.word_congr fun i hi =>
    writeElement_apply (by simp only [Queue.usedSlot]; omega)
  have hev : (writeElement s.mem (s.queue.usedSlot us s.queue.nextUsed) head len).word
      (s.queue.usedEventAt av) 16 = s.mem.word (s.queue.usedEventAt av) 16 := by
    refine Mem.word_congr fun i hi => writeElement_apply ?_
    have := hr.disjoint
    simp only [Queue.usedSlot, Queue.usedEventAt]
    omega
  refine settleAdd_inv (s := { s with
      mem := writeElement s.mem (s.queue.usedSlot us s.queue.nextUsed) head len }) hq
    ⟨hb.config, hidx.trans hb.idx, fun h => hev.trans (hb.event h)⟩
    ⟨hba.numAdded, hba.lt, hba.usedAny, fun hd hp => ?_⟩ hlt (.inr rfl)
  obtain ⟨a, ha, h⟩ := hba.slept hd hp
  exact ⟨a, ha, hidx.trans h⟩

/-- The index is published: a chain more for a driver that is asleep. -/
theorem publish_inv (hb : Base av us q s) (hba : Batch us s) (hlt : s.added + 1 < 2 ^ 16) :
    Inv ck mm av us q ({ s with mem := s.mem.putWord (us + 2) (s.queue.nextUsed + 1) }.settleAdd
      (.pure (.ok (),
        { s.queue with nextUsed := s.queue.nextUsed + 1, numAdded := s.queue.numAdded + 1 }))) := by
  have hr := (hq.config hb.config).rings
  have hc : s.queue.SameConfig
      { s.queue with nextUsed := s.queue.nextUsed + 1, numAdded := s.queue.numAdded + 1 } :=
    ⟨rfl, rfl, rfl, rfl, rfl, rfl, rfl⟩
  refine callPop_inv (s := { s with
      mem := s.mem.putWord (us + 2) (s.queue.nextUsed + 1)
      queue := { s.queue with nextUsed := s.queue.nextUsed + 1, numAdded := s.queue.numAdded + 1 }
      usedAny := true
      added := s.added + 1 }) hq he
    ⟨hb.config.trans hc, Mem.word_putWord16 s.mem (us + 2) (s.queue.nextUsed + 1), fun h => ?_⟩
    ⟨?_, hlt, fun h => (by cases h), fun hd hp => ?_⟩
  · show (s.mem.putWord (us + 2) _).word (s.queue.usedEventAt av) 16 = s.consumed
    rw [Mem.word_putWord_sep (idx_sep hr).symm]
    exact hb.event h
  · show s.queue.numAdded + 1 = BitVec.ofNat 16 (s.added + 1)
    rw [hba.numAdded, BitVec.ofNat_add]
    rfl
  · obtain ⟨a, ha, h⟩ := hba.slept hd hp
    refine ⟨a + 1, Nat.succ_le_succ ha,
      (Mem.word_putWord16 s.mem (us + 2) (s.queue.nextUsed + 1)).trans ?_⟩
    rw [← hb.idx, h]
    exact ahead_succ _ _

omit hq he in
/-- The driver's event is read. -/
theorem notify_inv (hb : Base av us q s) (hba : Batch us s) :
    Inv ck mm av us q (s.settleNotify (.pure (.ok (s.queue.eventPassed (s.usedEvent av)),
      { s.queue with numAdded := 0 }))) := by
  have hc : s.queue.SameConfig { s.queue with numAdded := 0 } := ⟨rfl, rfl, rfl, rfl, rfl, rfl, rfl⟩
  have hb' : ∀ d, Base av us q { s with queue := { s.queue with numAdded := 0 }, device := d } :=
    fun d => ⟨hb.config.trans hc, hb.idx, hb.event⟩
  cases hp : s.queue.eventPassed (s.usedEvent av) with
  | true => exact ⟨hb' _, rfl⟩
  | false =>
    refine ⟨hb' _, rfl, fun hd hpend => ?_⟩
    obtain ⟨a, ha, hidx⟩ := hba.slept hd hpend
    rcases Nat.eq_zero_or_pos a with h0 | h0
    · exact ⟨0, le_refl _, h0 ▸ hidx⟩
    · rw [eventPassed_of_slept hb hba h0 ha hd hidx] at hp
      cases hp

theorem access_inv (hi : Inv ck mm av us q s) (hs : step ck mm av us s .access = some s') :
    Inv ck mm av us q s' := by
  obtain ⟨hb, hph⟩ := hi
  have hq' := hq.config hb.config
  unfold Phase at hph
  simp only [step] at hs
  split at hs
  · rename_i p hd
    rw [hd] at hph
    obtain ⟨hba, hp⟩ := hph
    obtain ⟨⟨p', m⟩, hn, rfl⟩ := Option.map_eq_some_iff.mp hs
    obtain ⟨hp', rfl⟩ := next_of_isRead hp hn
    exact settlePop_inv hq he hb hba hp'
  · rename_i p hd
    rw [hd] at hph
    obtain ⟨hba, hlt, ⟨head, len, hh, rfl⟩ | rfl⟩ := hph
    · rw [Queue.next_addUsed hq'.rings.used hh len] at hs
      obtain rfl := Option.some.inj hs
      exact writeElement_inv hq hb hba hlt head len
    · rw [Queue.next_publishUsed hq'.rings.used] at hs
      obtain rfl := Option.some.inj hs
      exact publish_inv hq he hb hba hlt
  · rename_i p hd
    rw [hd] at hph
    obtain ⟨hba, rfl⟩ := hph
    rw [Queue.next_needsNotification hq'.rings.avail (hb.config.eventIdx.trans he)] at hs
    obtain rfl := Option.some.inj hs
    exact notify_inv hb hba
  · cases hs

theorem device_inv (hi : Inv ck mm av us q s)
    (hl : l = .enter ∨ l = .drop ∨ (∃ len, l = .add len) ∨ l = .signal)
    (hs : step ck mm av us s l = some s') : Inv ck mm av us q s' := by
  obtain ⟨hb, hph⟩ := hi
  unfold Phase at hph
  rcases hl with rfl | rfl | ⟨len, rfl⟩ | rfl
  · simp only [step] at hs
    split at hs
    · rename_i hd
      rw [hd] at hph
      obtain ⟨hn, hslept⟩ := hph
      obtain rfl := Option.some.inj hs
      exact callPop_inv (s := { s with usedAny := false, added := 0 }) hq he
        ⟨hb.config, hb.idx, hb.event⟩ ⟨hn, Nat.two_pow_pos 16, fun _ => rfl, hslept⟩
    · cases hs
  · simp only [step] at hs
    split at hs
    · rename_i head hd
      rw [hd] at hph
      obtain rfl := Option.some.inj hs
      exact callPop_inv hq he hb hph.1
    · cases hs
  · simp only [step] at hs
    split at hs
    · rename_i head hd
      rw [hd] at hph
      obtain ⟨hlt, e⟩ := Option.ite_none_right_eq_some.mp hs
      obtain rfl := Option.some.inj e
      exact settleAdd_inv hq hb hph.1 hlt (.inl ⟨head, len, hph.2, rfl⟩)
    · cases hs
  · simp only [step] at hs
    split at hs
    · rename_i hd
      rw [hd] at hph
      obtain rfl := Option.some.inj hs
      exact ⟨⟨hb.config, hb.idx, hb.event⟩, hph, fun _ h => by cases h⟩
    · cases hs

end

/-! ## The driver's steps -/

/-- A step of the driver leaves the device where it is. -/
theorem Inv.driver (hi : Inv ck mm av us q s) (hqu : s'.queue = s.queue) (hdv : s'.device = s.device)
    (hua : s'.usedAny = s.usedAny) (hadd : s'.added = s.added)
    (idx : s'.usedIdx us = s.usedIdx us)
    (event : s'.driver ≠ .awake → s'.usedEvent av = s'.consumed)
    (slept : ∀ n, Slept us n s → Slept us n s') : Inv ck mm av us q s' := by
  obtain ⟨hb, hph⟩ := hi
  have hbatch : Batch us s → Batch us s' := fun h =>
    ⟨by rw [hqu, hadd]; exact h.numAdded, by rw [hadd]; exact h.lt,
      by rw [hua, hadd]; exact h.usedAny, by rw [hadd]; exact slept _ h.slept⟩
  refine ⟨⟨hqu ▸ hb.config, by rw [idx, hqu]; exact hb.idx, event⟩, ?_⟩
  unfold Phase at hph ⊢
  rw [hdv]
  cases hd : s.device with
  | outside => rw [hd] at hph; exact ⟨hqu ▸ hph.1, slept 0 hph.2⟩
  | popping p => rw [hd] at hph; exact ⟨hbatch hph.1, hqu ▸ hph.2⟩
  | processing head => rw [hd] at hph; exact ⟨hbatch hph.1, hqu ▸ hph.2⟩
  | adding p => rw [hd] at hph; exact ⟨hbatch hph.1, hadd ▸ hph.2.1, hqu ▸ hph.2.2⟩
  | notifying p => rw [hd] at hph; exact ⟨hbatch hph.1, hqu ▸ hph.2⟩
  | signalling => rw [hd] at hph; exact hqu ▸ hph
  | panicked => rw [hd] at hph; exact hph

theorem consume_inv (hi : Inv ck mm av us q s) (hs : step ck mm av us s .consume = some s') :
    Inv ck mm av us q s' := by
  obtain ⟨⟨hd, -⟩, e⟩ := Option.ite_none_right_eq_some.mp hs
  obtain rfl := Option.some.inj e
  refine hi.driver rfl rfl rfl rfl rfl (fun h => absurd hd h) fun n _ h => ?_
  exact absurd (hd.symm.trans h) (by decide)

theorem arm_inv (hq : q.Popable mm av us) (hi : Inv ck mm av us q s)
    (hs : step ck mm av us s .arm = some s') : Inv ck mm av us q s' := by
  obtain ⟨-, e⟩ := Option.ite_none_right_eq_some.mp hs
  obtain rfl := Option.some.inj e
  have hsep := idx_sep (hq.rings.config hi.1.config)
  refine hi.driver rfl rfl rfl rfl ?_ (fun _ => Mem.word_putWord16 ..) fun n _ h => by cases h
  exact Mem.word_putWord_sep hsep

theorem recheck_inv (hi : Inv ck mm av us q s) (hs : step ck mm av us s .recheck = some s') :
    Inv ck mm av us q s' := by
  obtain ⟨hd, e⟩ := Option.ite_none_right_eq_some.mp hs
  obtain rfl := Option.some.inj e
  refine hi.driver rfl rfl rfl rfl rfl (fun _ => hi.1.event (by rw [hd]; decide)) fun n _ h _ => ?_
  by_cases hidx : s.usedIdx us = s.consumed
  · exact ⟨0, Nat.zero_le _, hidx.trans (ahead_zero _).symm⟩
  · simp only [hidx, if_false] at h
    cases h

theorem interrupt_inv (hi : Inv ck mm av us q s) (hs : step ck mm av us s .interrupt = some s') :
    Inv ck mm av us q s' := by
  obtain ⟨-, e⟩ := Option.ite_none_right_eq_some.mp hs
  obtain rfl := Option.some.inj e
  by_cases hd : s.driver = .asleep
  · rw [if_pos hd]
    exact hi.driver rfl rfl rfl rfl rfl (fun h => absurd rfl h) fun n _ h => by cases h
  · rw [if_neg hd]
    exact hi.driver rfl rfl rfl rfl rfl hi.1.event fun n _ h => absurd h hd

theorem other_inv (hi : Inv ck mm av us q s) {m : Mem}
    (hs : step ck mm av us s (.other m) = some s') : Inv ck mm av us q s' := by
  obtain ⟨⟨hidx, hev⟩, e⟩ := Option.ite_none_right_eq_some.mp hs
  obtain rfl := Option.some.inj e
  have hidx' : m.word (us + 2) 16 = s.mem.word (us + 2) 16 := Mem.word_congr hidx
  refine hi.driver rfl rfl rfl rfl hidx'
    (fun h => (Mem.word_congr hev).trans (hi.1.event h)) fun n hn hd hp => ?_
  obtain ⟨a, ha, h⟩ := hn hd hp
  exact ⟨a, ha, hidx'.trans h⟩

/-! ## Every run -/

theorem inv_step (hq : q.Popable mm av us) (he : q.eventIdxEnabled = true)
    (hi : Inv ck mm av us q s) (hs : step ck mm av us s l = some s') : Inv ck mm av us q s' := by
  cases l with
  | enter => exact device_inv hq he hi (.inl rfl) hs
  | access => exact access_inv hq he hi hs
  | drop => exact device_inv hq he hi (.inr (.inl rfl)) hs
  | add len => exact device_inv hq he hi (.inr (.inr (.inl ⟨len, rfl⟩))) hs
  | signal => exact device_inv hq he hi (.inr (.inr (.inr rfl))) hs
  | consume => exact consume_inv hi hs
  | arm => exact arm_inv hq hi hs
  | recheck => exact recheck_inv hi hs
  | interrupt => exact interrupt_inv hi hs
  | other m => exact other_inv hi hs

theorem inv_init (h : (system ck mm av us q).init s) : Inv ck mm av us q s := by
  obtain ⟨rfl, hn, hidx, hd, hdr, -⟩ := h
  refine ⟨⟨.refl _, hidx, fun h => absurd hdr h⟩, ?_⟩
  unfold Phase
  rw [hd]
  exact ⟨hn, fun h => absurd (hdr.symm.trans h) (by decide)⟩

/-- In no state reached by any interleaving is the driver asleep with no
interrupt pending, completions left to consume, and the device outside
`process_queue`; and the device never panics. -/
theorem no_lost_completion (hq : q.Popable mm av us) (he : q.eventIdxEnabled = true)
    (h : (system ck mm av us q).Reachable s) :
    ¬ (s.driver = .asleep ∧ s.pending = false ∧ s.usedIdx us ≠ s.consumed ∧ s.device = .outside) ∧
      s.device ≠ .panicked := by
  obtain ⟨-, hph⟩ := h.invariant (I := Inv ck mm av us q) (fun s h => inv_init h)
    fun s l s' hi hs => inv_step hq he hi hs
  unfold Phase at hph
  constructor
  · rintro ⟨hd, hp, hne, hout⟩
    rw [hout] at hph
    obtain ⟨a, ha, hidx⟩ := hph.2 hd hp
    rw [Nat.le_zero.mp ha, ahead_zero] at hidx
    exact hne hidx
  · intro hd
    rw [hd] at hph
    exact hph

/-- The small queue with event indices. -/
def eventQueue : Queue := smallQueue.setEventIdx true

theorem no_lost_completion_one : ∃ s, (system true smallRam 0x2000 0x3000 eventQueue).Reachable s ∧
    (s.driver = .asleep ∧ s.pending = true ∧ s.usedIdx 0x3000 = 1) ∧ s.device ≠ .panicked := by
  have hr : ([.arm, .recheck, .enter, .access, .access, .access, .add 0, .access, .access, .access,
      .access, .signal].foldlM (step true smallRam 0x2000 0x3000)
      ⟨fun x => if x = 0x2002 then 1 else 0, eventQueue, .outside, false, 0, .awake, 0, false⟩).map
      (fun s => (s.driver, s.pending, s.usedIdx 0x3000)) = some (.asleep, true, 1) := by
    decide +kernel
  obtain ⟨s, hs, hd⟩ := Option.map_eq_some_iff.mp hr
  have h0 : (system true smallRam 0x2000 0x3000 eventQueue).Reachable
      ⟨fun x => if x = 0x2002 then 1 else 0, eventQueue, .outside, false, 0, .awake, 0, false⟩ :=
    .init ⟨rfl, rfl, by decide +kernel, rfl, rfl, rfl⟩
  have h := h0.foldlM _ hs
  have hq : eventQueue.Popable smallRam 0x2000 0x3000 :=
    ⟨⟨by decide, smallRam_backs (by decide), smallRam_backs (by decide), .inl (by decide)⟩, by decide,
      by decide, by decide⟩
  simp only [Prod.mk.injEq] at hd
  exact ⟨s, h, hd, (no_lost_completion hq rfl h).2⟩

end Completion

end Whypa
