import Whypa.Virtio.Pending

/-!
# When the drain loop ends

`drain_ends_iff`: a worker that drains its queue, with a driver that does
nothing meanwhile, comes to an end exactly if `pop` accepts every head that is
pending. `pop` stops at a head it does not accept without moving past it, while
`enable_notification` asks for another round as long as a head is pending, so
the worker then tries the same head forever. What the steps of the loop write
must leave the pending heads (`Spares`), as it does if it does not reach the
available ring and the descriptor table (`spares_of_clear`).
-/

namespace Whypa

open Framework WProg

variable {mm : MemoryManager} {q : Queue} {dt av us : Nat} {m : Mem}

/-! ## One round of the loop -/

section
variable {ε : Type} {env : Env ε} {q₀ : Queue} {m₀ : Mem} {k : Nat}
  {serve : DescriptorChain → Queue → WProg (Queue × Bool)}
  {S : Mem → DescriptorChain → Nat → Prop}

/-- What serving the pending chains writes, `S`, lies outside the available ring
and the descriptor table. -/
structure Apart (q₀ : Queue) (mm : MemoryManager) (dt av : Nat) (m₀ : Mem)
    (S : Mem → DescriptorChain → Nat → Prop) : Prop where
  table : ∀ k < q₀.pending av m₀, ∀ c ∈ q₀.accepted mm av m₀ k, ∀ x, S m₀ c x →
    x < dt ∨ dt + 16 * q₀.size.toNat ≤ x
  avail : ∀ k < q₀.pending av m₀, ∀ c ∈ q₀.accepted mm av m₀ k, ∀ x, S m₀ c x →
    x < av ∨ av + (6 + 2 * q₀.size.toNat) ≤ x

/-- It also stays the same as long as the descriptor table does. -/
structure Clear (q₀ : Queue) (mm : MemoryManager) (dt av : Nat) (m₀ : Mem)
    (S : Mem → DescriptorChain → Nat → Prop) : Prop extends Apart q₀ mm dt av m₀ S where
  congr : ∀ m c, q₀.Steady dt av m₀ m → DescriptorChain.OfTable q₀.descTable q₀.actualSize c →
    S m c = S m₀ c

/-- Where a loop over the heads from `k` can stop: at the end, or at one that is
not accepted, with all before accepted. -/
def StopsAt (q₀ : Queue) (mm : MemoryManager) (av : Nat) (m₀ : Mem) (k j : Nat) : Prop :=
  k ≤ j ∧ (∀ i, k ≤ i → i < j → (q₀.accepted mm av m₀ i).isSome) ∧
    (j = q₀.pending av m₀ ∨ q₀.accepted mm av m₀ j = none)

/-- A signal after the loop keeps the queue's position and the memory. -/
def Notifies (mm : MemoryManager) (env : Env ε) (notify : Queue → Bool → WProg Queue) : Prop :=
  ∀ {q : Queue} {dt av us : Nat} (used : Bool) (w : World ε), q.Placed mm dt av us →
    ∃ q' w', Prog.run (mm.world false env) (notify q used) w = some (q', w') ∧ q.SameConfig q' ∧
      q'.nextAvail = q.nextAvail ∧ w'.mem = w.mem

theorem notifies_signalUsed : Notifies mm env signalUsed := by
  intro q dt av us used w _
  unfold signalUsed
  split
  · exact ⟨q, _, rfl, .refl q, rfl, rfl⟩
  · exact ⟨q, w, rfl, .refl q, rfl, rfl⟩

theorem notifies_notifyUsed : Notifies mm env notifyUsed := by
  intro q dt av us used w hM
  have hn : ∃ b q', Prog.run (mm.handler false) q.needsNotification w.mem =
      some ((.ok b, q'), w.mem) ∧ q.SameConfig q' ∧ q'.nextAvail = q.nextAvail := by
    cases he : q.eventIdxEnabled with
    | true =>
      refine ⟨_, _, Prog.run_of_next (Queue.next_needsNotification hM.avail he), ?_, rfl⟩
      exact ⟨rfl, rfl, rfl, rfl, rfl, rfl, rfl⟩
    | false =>
      refine ⟨true, q, ?_, .refl q, rfl⟩
      rw [Queue.needsNotification, he]
      rfl
  obtain ⟨b, q', hr, hc, hq⟩ := hn
  unfold notifyUsed
  split
  · rw [Prog.run_bind, run_lift, hr]
    cases b with
    | true => exact ⟨q', { w with ext := _ }, rfl, hc, hq, rfl⟩
    | false => exact ⟨q', w, rfl, hc, hq, rfl⟩
  · exact ⟨q, w, rfl, .refl q, rfl, rfl⟩

/-- `popChain` takes the next of the heads, if it is accepted, as long as the heads are there. -/
theorem run_popChain_awaits (hM : q₀.Placed mm dt av us) (env : Env ε) {q : Queue} {w : World ε}
    (hc : q₀.SameConfig q) (hn : q.nextAvail = Counter.ahead q₀.nextAvail k)
    (ha : q₀.Awaits mm av m₀ w.mem) (hle : k ≤ q₀.pending av m₀) :
    (∃ c w', k < q₀.pending av m₀ ∧ c ∈ q₀.accepted mm av m₀ k ∧ w'.mem = w.mem ∧
      Prog.run (mm.world false env) (popChain q) w =
        some ((some c, { q with nextAvail := q.nextAvail + 1 }), w')) ∨
    ((k = q₀.pending av m₀ ∨ q₀.accepted mm av m₀ k = none) ∧
      Prog.run (mm.world false env) (popChain q) w = some ((none, q), w)) := by
  obtain ⟨o, ho, hr⟩ := Queue.run_pop (hM.config hc) w.mem
  rw [Queue.pending_ahead hn ha.idx hle] at ho
  rw [popChain, Prog.run_bind, run_lift, hr]
  split at ho
  · subst ho
    exact .inr ⟨.inl (by omega), rfl⟩
  · have hk : k < q₀.pending av m₀ := by omega
    have hacc : q.headChain mm w.mem (q.headAt av w.mem 0) = q₀.accepted mm av m₀ k :=
      (Queue.accepted_ahead hc hn).trans (ha.accepted k hk)
    rw [hacc] at ho
    subst ho
    cases h : q₀.accepted mm av m₀ k with
    | none => exact .inr ⟨.inr rfl, rfl⟩
    | some c => exact .inl ⟨c, { w with log := w.log ++ [.popped c w.mem] }, hk, rfl, rfl, rfl⟩

section
variable (hL : q₀.Layout mm dt av us)
include hL

/-- Serving the pending head of index `k` leaves the rest of the heads. -/
theorem at_served (hS : Clear q₀ mm dt av m₀ S) {ok : Bool} {c : DescriptorChain}
    (hk : k < q₀.pending av m₀) (hc : c ∈ q₀.accepted mm av m₀ k) {j : Nat}
    {q q' : Queue} {w w' : World ε} (hat : q₀.At dt av m₀ j q w.mem)
    (hs : Served mm (S w.mem c) ok c q q' w w') : q₀.At dt av m₀ j q' w'.mem := by
  have hdisj := hL.rings.disjoint
  have htab := hL.tableUsed
  have hct := (Queue.run_headChain mm q₀ m₀ (q₀.headAt av m₀ k)).2 c hc
  have hmem := hs.mem us (by rw [hat.config.usedRing, hat.config.size]; exact hL.rings.used)
  rw [hS.congr w.mem c hat.steady hct, hat.config.size] at hmem
  refine hat.same hs.config hs.nextAvail
    ⟨fun i hi => hmem _ ?_ (by omega), fun i hi => hmem _ ?_ (by omega)⟩
  · intro hx
    have := hS.table k hk c hc _ hx
    omega
  · intro hx
    have := hS.avail k hk c hc _ hx
    omega

/-- `popChain` takes the next of the heads, if it is accepted. -/
theorem run_popChain_at (env : Env ε) {q : Queue} {w : World ε}
    (hat : q₀.At dt av m₀ k q w.mem) :
    (∃ c w', k < q₀.pending av m₀ ∧ c ∈ q₀.accepted mm av m₀ k ∧ w'.mem = w.mem ∧
      Prog.run (mm.world false env) (popChain q) w =
        some ((some c, { q with nextAvail := q.nextAvail + 1 }), w')) ∨
    ((k = q₀.pending av m₀ ∨ q₀.accepted mm av m₀ k = none) ∧
      Prog.run (mm.world false env) (popChain q) w = some ((none, q), w)) :=
  run_popChain_awaits hL.placed env hat.config hat.nextAvail (hat.steady.awaits hL) hat.le

end

/-! ## The steps of the loop -/

/-- Where a worker is in its loop. -/
inductive LoopPlace
  /-- It turns notifications off. -/
  | disabling
  /-- It pops heads, and has returned a chain of this round if `used`. -/
  | popping (used : Bool)
  /-- It turns notifications on, and looks for more. -/
  | enabling
  | ended

/-- One step of a worker in its loop. -/
inductive LoopStep (mm : MemoryManager) (env : Env ε) (serve : DescriptorChain → Queue → WProg (Queue × Bool))
    (notify : Queue → Bool → WProg Queue) : LoopPlace × Queue × World ε → LoopPlace × Queue × World ε → Prop
  | disable {q : Queue} {w w' : World ε} {x : Except QueueError Unit}
      (h : Prog.run (mm.world false env) (lift q.disableNotification) w = some (x, w')) :
      LoopStep mm env serve notify (.disabling, q, w) (.popping false, q, w')
  | serve {q q₁ q₂ : Queue} {w w₁ w₂ : World ε} {c : DescriptorChain} {used used' : Bool}
      (hp : Prog.run (mm.world false env) (popChain q) w = some ((some c, q₁), w₁))
      (hs : Prog.run (mm.world false env) (serve c q₁) w₁ = some ((q₂, used'), w₂)) :
      LoopStep mm env serve notify (.popping used, q, w) (.popping (used || used'), q₂, w₂)
  | signal {q q₁ q₂ : Queue} {w w₁ w₂ : World ε} {used : Bool}
      (hp : Prog.run (mm.world false env) (popChain q) w = some ((none, q₁), w₁))
      (h : Prog.run (mm.world false env) (notify q₁ used) w₁ = some (q₂, w₂)) :
      LoopStep mm env serve notify (.popping used, q, w) (.enabling, q₂, w₂)
  | enable {q : Queue} {w w' : World ε} {more : Bool}
      (h : Prog.run (mm.world false env) (lift q.enableNotification) w = some (.ok more, w')) :
      LoopStep mm env serve notify (.enabling, q, w) (if more then .disabling else .ended, q, w')

/-- From this place on the loop comes to no state in which the driver's index, or what `pop` finds at a
head that is pending now, has changed. -/
def Spares (mm : MemoryManager) (env : Env ε) (serve : DescriptorChain → Queue → WProg (Queue × Bool))
    (notify : Queue → Bool → WProg Queue) (av : Nat) (l : LoopPlace) (q : Queue) (w : World ε) : Prop :=
  ∀ l' q' w', Relation.ReflTransGen (LoopStep mm env serve notify) (l, q, w) (l', q', w') →
    q.Awaits mm av w.mem w'.mem

theorem run_disableNotification (env : Env ε) (hM : q.Placed mm dt av us) (w : World ε) :
    ∃ m', Prog.run (mm.world false env) (lift q.disableNotification) w =
        some (.ok (), { w with mem := m' }) ∧
      ∀ x, x < us ∨ us + (6 + 8 * q.size.toNat) ≤ x → m' x = w.mem x := by
  rw [run_lift]
  cases he : q.eventIdxEnabled with
  | true => exact ⟨w.mem, by rw [Queue.disableNotification_of_eventIdx he]; rfl, fun _ _ => rfl⟩
  | false =>
    refine ⟨_, by rw [Prog.run_of_next (Queue.next_disableNotification hM.used he)]; rfl, fun x hx => ?_⟩
    exact Mem.write_apply (by rw [length_leBytes]; omega)

/-- `enable_notification` asks for another round if the driver's index has gone on. -/
theorem run_enableNotification (env : Env ε) (hM : q.Placed mm dt av us) (w : World ε) :
    ∃ m', Prog.run (mm.world false env) (lift q.enableNotification) w =
        some (.ok (m'.word (av + 2) 16 != q.nextAvail), { w with mem := m' }) ∧
      ∀ x, x < us ∨ us + (6 + 8 * q.size.toNat) ≤ x → m' x = w.mem x := by
  rw [run_lift, Prog.run_of_next (Queue.next_enableNotification hM.used),
    Prog.run_of_next (Queue.next_recheckAvail hM.avail)]
  refine ⟨_, rfl, fun x hx => Mem.write_apply ?_⟩
  rw [length_leBytes]
  unfold Queue.notifyAt
  split <;> omega

section
variable {notify : Queue → Bool → WProg Queue} {w₀ : World ε} (hL : q₀.Layout mm dt av us)
  (hS : Clear q₀ mm dt av w₀.mem S)
  (hserve : ∀ c q w, ∃ ok, Serves mm env (S w.mem c) ok c q (serve c q) w)
  (hn : Notifies mm env notify)
include hL hS hserve hn

/-- What a step writes does not reach the available ring and the table. -/
theorem at_step {l l' : LoopPlace} {q q' : Queue} {w w' : World ε} (hat : q₀.At dt av w₀.mem k q w.mem)
    (hs : LoopStep mm env serve notify (l, q, w) (l', q', w')) :
    ∃ k', q₀.At dt av w₀.mem k' q' w'.mem := by
  have hM := hL.placed.config hat.config
  have hused : ∀ m', (∀ x, x < us ∨ us + (6 + 8 * q.size.toNat) ≤ x → m' x = w.mem x) →
      q₀.At dt av w₀.mem k q m' := fun m' hm => by
    rw [hat.config.size] at hm
    exact hat.same (.refl q) rfl (Queue.steady_of_used hL hm)
  cases hs with
  | disable h =>
    obtain ⟨m', hr, hm⟩ := run_disableNotification env hM w
    obtain ⟨-, rfl⟩ := Prog.run_unique hr h
    exact ⟨k, hused m' hm⟩
  | serve hp hs =>
    rcases run_popChain_at hL env hat with ⟨c, w₁, hk, hc, hm, hr⟩ | ⟨-, hr⟩
    · obtain ⟨hcq, rfl⟩ := Prog.run_unique hr hp
      obtain ⟨hcc, rfl⟩ := Prod.mk.inj hcq
      obtain rfl := Option.some.inj hcc
      obtain ⟨ok, q₂, used, w₂, hr₂, hserved⟩ := hserve c { q with nextAvail := q.nextAvail + 1 } w₁
      obtain ⟨hq, rfl⟩ := Prog.run_unique hr₂ hs
      obtain ⟨rfl, -⟩ := Prod.mk.inj hq
      have hat' : q₀.At dt av w₀.mem (k + 1) { q with nextAvail := q.nextAvail + 1 } w₁.mem :=
        hm ▸ hat.pop hk
      exact ⟨k + 1, at_served hL hS hk hc hat' hserved⟩
    · cases (Prog.run_unique hr hp).1
  | signal hp h =>
    rcases run_popChain_at hL env hat with ⟨c, w₁, -, -, -, hr⟩ | ⟨-, hr⟩
    · cases (Prog.run_unique hr hp).1
    · obtain ⟨hcq, rfl⟩ := Prog.run_unique hr hp
      obtain ⟨-, rfl⟩ := Prod.mk.inj hcq
      obtain ⟨q', w', hr, hc, hq, hm⟩ := hn _ w hM
      obtain ⟨rfl, rfl⟩ := Prog.run_unique hr h
      rw [hm]
      exact ⟨k, hat.same hc hq (.refl ..)⟩
  | enable h =>
    obtain ⟨m', hr, hm⟩ := run_enableNotification env hM w
    obtain ⟨-, rfl⟩ := Prog.run_unique hr h
    exact ⟨k, hused m' hm⟩

/-- So the steps spare the heads. -/
theorem spares_of_clear (l : LoopPlace) : Spares mm env serve notify av l q₀ w₀ := by
  have hat : ∀ s, Relation.ReflTransGen (LoopStep mm env serve notify) (l, q₀, w₀) s →
      ∃ k, q₀.At dt av w₀.mem k s.2.1 s.2.2.mem := by
    intro s h
    induction h with
    | refl => exact ⟨0, .refl q₀, (Counter.ahead_zero _).symm, .refl .., Nat.zero_le _⟩
    | tail _ hs ih =>
      obtain ⟨k, hat⟩ := ih
      exact at_step hL hS hserve hn hat hs
  intro l' q w h
  obtain ⟨k, hat⟩ := hat _ h
  exact hat.steady.awaits hL

end

/-! ## All rounds -/

/-- The loop that was at `l₀` with `q₀` has come to `l` with `q`, after `k` of the heads that were
pending. -/
structure Reached (mm : MemoryManager) (env : Env ε) (serve : DescriptorChain → Queue → WProg (Queue × Bool))
    (notify : Queue → Bool → WProg Queue) (av : Nat) (l₀ : LoopPlace) (q₀ : Queue) (w₀ : World ε)
    (l : LoopPlace) (k : Nat) (q : Queue) (w : World ε) : Prop where
  steps : Relation.ReflTransGen (LoopStep mm env serve notify) (l₀, q₀, w₀) (l, q, w)
  config : q₀.SameConfig q
  nextAvail : q.nextAvail = Counter.ahead q₀.nextAvail k
  le : k ≤ q₀.pending av w₀.mem

theorem Reached.refl {notify : Queue → Bool → WProg Queue} (l₀ : LoopPlace) (q₀ : Queue) (w₀ : World ε) :
    Reached mm env serve notify av l₀ q₀ w₀ l₀ 0 q₀ w₀ :=
  ⟨.refl, .refl q₀, (Counter.ahead_zero _).symm, Nat.zero_le _⟩

section
variable {notify : Queue → Bool → WProg Queue} {w₀ : World ε} {l₀ l : LoopPlace}

/-- A step that leaves the queue's position. -/
theorem Reached.same {l' : LoopPlace} {q q' : Queue} {w w' : World ε}
    (h : Reached mm env serve notify av l₀ q₀ w₀ l k q w)
    (hs : LoopStep mm env serve notify (l, q, w) (l', q', w')) (hc : q.SameConfig q')
    (hn : q'.nextAvail = q.nextAvail) : Reached mm env serve notify av l₀ q₀ w₀ l' k q' w' :=
  ⟨h.steps.tail hs, h.config.trans hc, hn.trans h.nextAvail, h.le⟩

variable (hM : q₀.Placed mm dt av us) (hS : Spares mm env serve notify av l₀ q₀ w₀)
  (hserve : ∀ c q w, ∃ ok, Serves mm env (S w.mem c) ok c q (serve c q) w)
include hM hS hserve

/-- The pops of a round end at a head, where the next of them finds nothing, unless the fuel runs out. -/
theorem run_popLoop (fuel : Nat) {q : Queue} {used : Bool} {w : World ε}
    (h : Reached mm env serve notify av l₀ q₀ w₀ (.popping used) k q w) :
    (fuel ≤ q₀.pending av w₀.mem - k ∧
      ∃ w', Prog.run (mm.world false env) (popLoop serve fuel q used) w = some (none, w')) ∨
    ∃ q' used' w' j,
      Prog.run (mm.world false env) (popLoop serve fuel q used) w = some (some (q', used'), w') ∧
      Prog.run (mm.world false env) (popChain q') w' = some ((none, q'), w') ∧
      Reached mm env serve notify av l₀ q₀ w₀ (.popping used') j q' w' ∧
      StopsAt q₀ mm av w₀.mem k j := by
  induction fuel generalizing k q used w with
  | zero => exact .inl ⟨Nat.zero_le _, w, rfl⟩
  | succ fuel ih =>
    rw [popLoop, Prog.run_bind]
    rcases run_popChain_awaits hM env h.config h.nextAvail (hS _ q w h.steps) h.le with
      ⟨c, w₁, hk, hc, -, hr⟩ | ⟨hstop, hr⟩
    · obtain ⟨ok, q₂, used₂, w₂, hr₂, hs⟩ := hserve c { q with nextAvail := q.nextAvail + 1 } w₁
      have hpop : q.SameConfig { q with nextAvail := q.nextAvail + 1 } :=
        ⟨rfl, rfl, rfl, rfl, rfl, rfl, rfl⟩
      have h₂ : Reached mm env serve notify av l₀ q₀ w₀ (.popping (used || used₂)) (k + 1) q₂ w₂ := by
        refine ⟨h.steps.tail (.serve hr hr₂), (h.config.trans hpop).trans hs.config, ?_, hk⟩
        rw [hs.nextAvail, ← Counter.ahead_succ, ← h.nextAvail]
        rfl
      rw [hr, Option.bind_some]
      dsimp only
      rw [Prog.run_bind, hr₂, Option.bind_some]
      rcases @ih (k + 1) q₂ (used || used₂) w₂ h₂ with
        ⟨hf, w', hr'⟩ | ⟨q', used', w', j, hr', hnone, h', hj⟩
      · exact .inl ⟨by omega, w', hr'⟩
      · refine .inr ⟨q', used', w', j, hr', hnone, h', by have := hj.1; omega, fun i hi hij => ?_, hj.2.2⟩
        rcases Nat.eq_or_lt_of_le hi with rfl | hi
        · exact Option.isSome_iff_exists.mpr ⟨c, hc⟩
        · exact hj.2.1 i hi hij
    · rw [hr, Option.bind_some]
      exact .inr ⟨q, used, w, k, rfl, hr, h, Nat.le_refl k, fun i hi hij => by omega, hstop⟩

omit hserve in
/-- Another round follows if a head is left. -/
theorem run_enableNotification_reached {q : Queue} {w : World ε}
    (h : Reached mm env serve notify av l₀ q₀ w₀ .enabling k q w) :
    ∃ w', Prog.run (mm.world false env) (lift q.enableNotification) w =
        some (.ok (decide (k < q₀.pending av w₀.mem)), w') ∧
      Reached mm env serve notify av l₀ q₀ w₀
        (if k < q₀.pending av w₀.mem then .disabling else .ended) k q w' := by
  obtain ⟨m', hr, -⟩ := run_enableNotification env (hM.config h.config) w
  have h' := h.same (.enable hr) (.refl q) rfl
  have hp : q.pending av m' = _ := Queue.pending_ahead h.nextAvail (hS _ q _ h'.steps).idx h.le
  have hle := h.le
  have hne : (m'.word (av + 2) 16 != q.nextAvail) = decide (k < q₀.pending av w₀.mem) := by
    unfold Queue.pending at hp
    generalize m'.word (av + 2) 16 = idx at hp ⊢
    rw [Bool.eq_iff_iff, bne_iff_ne, decide_eq_true_iff]
    constructor
    · intro hne
      have : idx - q.nextAvail ≠ 0 := fun h => hne (by bv_omega)
      have : (idx - q.nextAvail).toNat ≠ 0 := fun h => this (BitVec.eq_of_toNat_eq h)
      unfold Queue.pending at hle ⊢
      omega
    · rintro hlt rfl
      rw [BitVec.sub_self] at hp
      unfold Queue.pending at hlt
      change 0 = _ at hp
      omega
  rw [hne] at hr
  simp only [hne, decide_eq_true_eq] at h'
  exact ⟨{ w with mem := m' }, hr, h'⟩

variable (hn : Notifies mm env notify) {q : Queue} {w : World ε}
include hn

theorem run_processWith (fuel : Nat) (h : Reached mm env serve notify av l₀ q₀ w₀ (.popping false) k q w) :
    (fuel ≤ q₀.pending av w₀.mem - k ∧
      ∃ w', Prog.run (mm.world false env) (processWith serve notify fuel q) w = some (none, w')) ∨
    ∃ q' w' j,
      Prog.run (mm.world false env) (processWith serve notify fuel q) w = some (some q', w') ∧
      Reached mm env serve notify av l₀ q₀ w₀ .enabling j q' w' ∧ StopsAt q₀ mm av w₀.mem k j := by
  rw [processWith, Prog.run_bind]
  rcases run_popLoop hM hS hserve fuel h with ⟨hf, w', hr⟩ | ⟨q₁, used, w₁, j, hr, hnone, h₁, hj⟩
  · exact .inl ⟨hf, w', by rw [hr]; rfl⟩
  · obtain ⟨q₂, w₂, hr₂, hc, hq, -⟩ := hn used w₁ (hM.config h₁.config)
    refine .inr ⟨q₂, w₂, j, ?_, h₁.same (.signal hnone hr₂) hc hq, hj⟩
    rw [hr, Option.bind_some]
    dsimp only
    rw [Prog.run_bind, hr₂]
    rfl

/-- One round: the fuel runs out, or the loop stops at a head, and another round
follows if the head is pending. -/
theorem run_round (fuel n : Nat) (h : Reached mm env serve notify av l₀ q₀ w₀ .disabling k q w) :
    (fuel ≤ q₀.pending av w₀.mem - k ∧ ∃ w', Prog.run (mm.world false env)
      (drain (processWith serve notify) fuel (n + 1) q) w = some (none, w')) ∨
    ∃ q' w' j, StopsAt q₀ mm av w₀.mem k j ∧
      Reached mm env serve notify av l₀ q₀ w₀
        (if j < q₀.pending av w₀.mem then .disabling else .ended) j q' w' ∧
      Prog.run (mm.world false env) (drain (processWith serve notify) fuel (n + 1) q) w =
        if j < q₀.pending av w₀.mem then
          Prog.run (mm.world false env) (drain (processWith serve notify) fuel n q') w'
        else some (some q', w') := by
  obtain ⟨m₁, hd, -⟩ := run_disableNotification env (hM.config h.config) w
  have h₁ := h.same (.disable hd) (.refl q) rfl
  rw [drain, Prog.run_bind, hd, Option.bind_some, Prog.run_bind, VProg.unwrap_ok, run_lift]
  simp only [Prog.pure_eq, Prog.run_pure, Option.map_some, Option.bind_some]
  rw [Prog.run_bind]
  rcases run_processWith hM hS hserve hn fuel h₁ with ⟨hf, w₂, hr₂⟩ | ⟨q₂, w₂, j, hr₂, h₂, hj⟩
  · exact .inl ⟨hf, w₂, by rw [hr₂]; rfl⟩
  · obtain ⟨w₃, he, h₃⟩ := run_enableNotification_reached hM hS h₂
    refine .inr ⟨q₂, w₃, j, hj, h₃, ?_⟩
    rw [hr₂, Option.bind_some]
    dsimp only
    rw [Prog.run_bind, he, Option.bind_some, Prog.run_bind, VProg.unwrap_ok, run_lift]
    simp only [Prog.pure_eq, Prog.run_pure, Option.map_some, Option.bind_some, decide_eq_true_eq]
    split <;> rfl

end

section
variable {notify : Queue → Bool → WProg Queue} {w₀ : World ε} (hM : q₀.Placed mm dt av us)
  (hS : Spares mm env serve notify av .disabling q₀ w₀)
  (hserve : ∀ c q w, ∃ ok, Serves mm env (S w.mem c) ok c q (serve c q) w) (hn : Notifies mm env notify)
include hM hS hserve hn

/-- If all heads are accepted, the first round is the last. -/
theorem run_drain_of_accepted (hall : ∀ i < q₀.pending av w₀.mem, (q₀.accepted mm av w₀.mem i).isSome)
    {fuel : Nat} (hf : q₀.pending av w₀.mem < fuel) (n : Nat) :
    ∃ q' w', Prog.run (mm.world false env) (drain (processWith serve notify) fuel (n + 1) q₀) w₀ =
      some (some q', w') := by
  rcases run_round hM hS hserve hn fuel n (.refl .disabling q₀ w₀) with ⟨hf', -⟩ | ⟨q', w', j, hj, -, hr⟩
  · omega
  · have hge : ¬ j < q₀.pending av w₀.mem := by
      intro hlt
      rcases hj.2.2 with h | h
      · omega
      · have := hall j hlt
        rw [h] at this
        cases this
    rw [if_neg hge] at hr
    exact ⟨q', w', hr⟩

/-- A head that is not accepted is never passed: there is always another round. -/
theorem run_drain_of_rejected {i : Nat} (hi : i < q₀.pending av w₀.mem)
    (hrej : q₀.accepted mm av w₀.mem i = none) (fuel n : Nat) {q : Queue} {w : World ε}
    (h : Reached mm env serve notify av .disabling q₀ w₀ .disabling k q w) (hk : k ≤ i) :
    ∃ w', Prog.run (mm.world false env) (drain (processWith serve notify) fuel n q) w =
      some (none, w') := by
  induction n generalizing k q w with
  | zero => exact ⟨w, rfl⟩
  | succ n ih =>
    rcases run_round hM hS hserve hn fuel n h with ⟨-, hr⟩ | ⟨q', w', j, hj, h', hr⟩
    · exact hr
    · have hji : j ≤ i := by
        by_contra hlt
        have := hj.2.1 i hk (Nat.lt_of_not_le hlt)
        rw [hrej] at this
        cases this
      have hlt : j < q₀.pending av w₀.mem := by omega
      rw [if_pos hlt] at hr h'
      obtain ⟨w'', hr'⟩ := ih h' hji
      exact ⟨w'', hr.trans hr'⟩

end

end

/-! ## The four workers -/

/-- The workers that drain a queue. -/
inductive Drainer
  | block (disk : BlockWorker.DiskProperties)
  | rng
  | consoleTx
  | netTx

namespace Drainer

/-- `process_virtio_queues` of the block and rng workers, `process_tx_virtio_queue`
of the others. -/
def processVirtioQueue (mm : MemoryManager) : Drainer → Nat → Nat → Queue → WProg (Option Queue)
  | block disk => BlockWorker.processVirtioQueues mm disk
  | rng => RngWorker.processVirtioQueues mm
  | consoleTx => ConsoleWorker.processTxVirtioQueue mm
  | netTx => NetWorker.processTxVirtioQueue mm

/-- The memory that serving a chain may write, besides the used ring. -/
def Writes (mm : MemoryManager) : Drainer → Mem → DescriptorChain → Nat → Prop
  | block _ | rng => fun m c => c.InBuffers mm m
  | consoleTx | netTx => fun _ _ _ => False

def serve (mm : MemoryManager) : Drainer → DescriptorChain → Queue → WProg (Queue × Bool)
  | block disk => BlockWorker.serve mm disk
  | rng => RngWorker.serve mm
  | consoleTx => ConsoleWorker.serveTx mm
  | netTx => NetWorker.serveTx mm

def notify : Drainer → Queue → Bool → WProg Queue
  | block _ | rng => notifyUsed
  | consoleTx | netTx => signalUsed

theorem processVirtioQueue_eq (mm : MemoryManager) (d : Drainer) :
    d.processVirtioQueue mm = drain (processWith (d.serve mm) d.notify) := by
  cases d <;> rfl

section
variable {ε : Type} {env : Env ε}

theorem served (d : Drainer) (c : DescriptorChain) (q : Queue) (w : World ε) :
    ∃ ok, Serves mm env (d.Writes mm w.mem c) ok c q (d.serve mm c q) w := by
  cases d with
  | block disk => exact ⟨_, BlockWorker.served disk c q w⟩
  | rng => exact ⟨_, RngWorker.served c q w⟩
  | consoleTx => exact ⟨_, ConsoleWorker.servedTx c q w⟩
  | netTx => exact ⟨_, NetWorker.servedTx c q w⟩

theorem notifies (d : Drainer) : Notifies mm env d.notify := by
  cases d with
  | block | rng => exact notifies_notifyUsed
  | consoleTx | netTx => exact notifies_signalUsed

theorem clear {d : Drainer} (hL : q.Layout mm dt av us)
    (h : Apart q mm dt av m (d.Writes mm)) : Clear q mm dt av m (d.Writes mm) := by
  refine ⟨h, fun m' c hs hc => ?_⟩
  cases d with
  | block | rng => exact DescriptorChain.inBuffers_congr hL hs hc
  | consoleTx | netTx => rfl

/-- The worker comes to an end, with the queue as it leaves it. -/
def Returns (ck : Bool) (mm : MemoryManager) (env : Env ε) (d : Drainer) (q : Queue) (w : World ε) :
    Prop :=
  ∃ fuel n q' w', Prog.run (mm.world ck env) (d.processVirtioQueue mm fuel n q) w =
    some (some q', w')

/-- The worker comes to an end, or a check for overflow ends it. -/
def Ends (ck : Bool) (mm : MemoryManager) (env : Env ε) (d : Drainer) (q : Queue) (w : World ε) :
    Prop :=
  ∃ fuel n, ∀ w', Prog.run (mm.world ck env) (d.processVirtioQueue mm fuel n q) w ≠ some (none, w')

/-- The worker's loop comes to no state in which the driver's index, or what `pop` finds at a head
that is pending at its start, has changed. -/
def Spares (mm : MemoryManager) (env : Env ε) (d : Drainer) (av : Nat) (q : Queue) (w : World ε) : Prop :=
  Whypa.Spares mm env (d.serve mm) d.notify av .disabling q w

/-- So it is if what it writes does not reach the available ring and the table. -/
theorem spares_of_apart (env : Env ε) {d : Drainer} {w : World ε} (hL : q.Layout mm dt av us)
    (hA : Apart q mm dt av w.mem (d.Writes mm)) : d.Spares mm env av q w :=
  spares_of_clear hL (clear hL hA) d.served d.notifies .disabling

section
variable {d : Drainer} {w : World ε} (hM : q.Placed mm dt av us) (hS : d.Spares mm env av q w)
include hM hS

theorem returns_of_accepted (hall : ∀ k < q.pending av w.mem, (q.accepted mm av w.mem k).isSome) :
    ∃ q' w', Prog.run (mm.world false env)
      (d.processVirtioQueue mm (q.pending av w.mem + 1) 1 q) w = some (some q', w') := by
  rw [processVirtioQueue_eq]
  exact run_drain_of_accepted hM hS d.served d.notifies hall (Nat.lt_succ_self _) 0

/-- With a head that is not accepted, no number of rounds is enough. -/
theorem runs_forever {k : Nat} (hk : k < q.pending av w.mem) (hrej : q.accepted mm av w.mem k = none)
    (fuel n : Nat) :
    ∃ w', Prog.run (mm.world false env) (d.processVirtioQueue mm fuel n q) w = some (none, w') := by
  rw [processVirtioQueue_eq]
  exact run_drain_of_rejected hM hS d.served d.notifies hk hrej fuel n (.refl .disabling q w) (Nat.zero_le k)

/-- With a driver that does nothing, and steps that spare the pending heads, the worker returns exactly
if every pending head is valid. A build that checks for overflow ends if every head is valid, and
returns only then. -/
theorem drain_ends_iff :
    (d.Returns false mm env q w ↔
      ∀ k < q.pending av w.mem, q.validHead false mm w.mem (q.headAt av w.mem k) = true) ∧
    ((∀ k < q.pending av w.mem, q.validHead true mm w.mem (q.headAt av w.mem k) = true) →
      d.Ends true mm env q w) ∧
    (d.Returns true mm env q w →
      ∀ k < q.pending av w.mem, q.validHead true mm w.mem (q.headAt av w.mem k) = true) := by
  have hv : ∀ ck, (∀ k < q.pending av w.mem, q.validHead ck mm w.mem (q.headAt av w.mem k) = true) ↔
      ∀ k < q.pending av w.mem, (q.accepted mm av w.mem k).isSome = true := by
    intro ck
    simp only [Queue.validHead_iff hM, Queue.accepted]
  have hret : ∀ ck, d.Returns ck mm env q w →
      ∀ k < q.pending av w.mem, (q.accepted mm av w.mem k).isSome = true := by
    rintro ck ⟨fuel, n, q', w', hr⟩ k hk
    by_contra hrej
    obtain ⟨w'', h⟩ := runs_forever hM hS hk (Option.not_isSome_iff_eq_none.mp hrej) fuel n
    rw [run_of_checked hr] at h
    cases (Prod.mk.inj (Option.some.inj h)).1
  refine ⟨⟨fun h => (hv false).mpr (hret false h), fun h => ?_⟩, fun h => ?_,
    fun h => (hv true).mpr (hret true h)⟩
  · obtain ⟨q', w', hr⟩ := returns_of_accepted hM hS ((hv false).mp h)
    exact ⟨_, _, q', w', hr⟩
  · obtain ⟨q', w', hr⟩ := returns_of_accepted hM hS ((hv true).mp h)
    refine ⟨q.pending av w.mem + 1, 1, fun w'' he => ?_⟩
    rw [run_of_checked he] at hr
    cases (Prod.mk.inj (Option.some.inj hr)).1

end

end

theorem smallQueue_layout : smallQueue.Layout smallRam 0x1000 0x2000 0x3000 :=
  ⟨smallQueue_rings, smallRam_backs (by decide), .inl (by decide), by decide⟩

theorem apart_consoleTx (q : Queue) (m : Mem) : Apart q mm dt av m (consoleTx.Writes mm) :=
  ⟨fun _ _ _ _ _ h => h.elim, fun _ _ _ _ _ h => h.elim⟩

theorem drain_ends_iff_console :
    consoleTx.Returns false smallRam idleEnv smallQueue ⟨oneChain 0 0x4000, (), []⟩ := by
  have h : ∀ k < smallQueue.pending 0x2000 (oneChain 0 0x4000), smallQueue.validHead false smallRam
      (oneChain 0 0x4000) (smallQueue.headAt 0x2000 (oneChain 0 0x4000) k) = true := by
    decide +kernel
  exact (drain_ends_iff smallQueue_layout.placed
    (spares_of_apart idleEnv smallQueue_layout (apart_consoleTx _ _))).1.mpr h

/-- A queue of two entries whose only pending head is 2: every round ends at
once, and is followed by another. -/
theorem drain_never_ends :
    ¬ consoleTx.Ends false smallRam idleEnv smallQueue ⟨oneChain 2 0x4000, (), []⟩ ∧
      ¬ consoleTx.Returns true smallRam idleEnv smallQueue ⟨oneChain 2 0x4000, (), []⟩ := by
  let w : World Unit := ⟨oneChain 2 0x4000, (), []⟩
  have hp : 0 < smallQueue.pending 0x2000 w.mem := by decide +kernel
  have hrej : (smallQueue.accepted smallRam 0x2000 w.mem 0).isNone := by decide +kernel
  have hA : Apart smallQueue smallRam 0x1000 0x2000 w.mem (consoleTx.Writes smallRam) :=
    apart_consoleTx smallQueue w.mem
  have hforever := runs_forever smallQueue_layout.placed (spares_of_apart idleEnv smallQueue_layout hA) hp
    (Option.isNone_iff_eq_none.mp hrej)
  constructor
  · rintro ⟨fuel, n, h⟩
    obtain ⟨w', hr⟩ := hforever fuel n
    exact h w' hr
  · rintro ⟨fuel, n, q', w', h⟩
    obtain ⟨w'', hr⟩ := hforever fuel n
    rw [run_of_checked h] at hr
    cases (Prod.mk.inj (Option.some.inj hr)).1

end Drainer

end Whypa
