import Whypa.Framework.Counter
import Whypa.Framework.Reach
import Whypa.Virtio.Rings

/-!
# The used ring as a queue of completions

A device that returns chains with `Queue.addUsed`, one access at a time, and a
driver that reads `used.idx` and then the elements up to it.
`usedRing_delivers` is the point of this file: whatever the interleaving, the
driver reads the completions in the order of the calls, each once and only
after it was written, and has read all of them when it has reached `used.idx`.
-/

namespace Whypa

open Framework Framework.Counter

namespace UsedRing

/-- Where the device is in `Queue.addUsed`. -/
inductive Device
  | idle
  | adding (p : VProg (Except QueueError Unit × Queue))
  | panicked

structure State where
  mem : Mem
  queue : Queue
  device : Device
  /-- Heads the device has popped and not yet returned. -/
  inflight : List (BitVec 16)
  /-- The arguments of the calls of `addUsed`. -/
  calls : List (BitVec 16 × BitVec 32)
  /-- The driver's index. -/
  consumed : BitVec 16
  /-- `used.idx` when the driver last read it. -/
  seen : BitVec 16
  /-- The elements the driver has read. -/
  reads : List (BitVec 32 × BitVec 32)

/-- The element a call of `addUsed` stands for. -/
def element (c : BitVec 16 × BitVec 32) : BitVec 32 × BitVec 32 := (c.1.setWidth 32, c.2)

/-- The element at `a`. -/
def elementAt (m : Mem) (a : Nat) : BitVec 32 × BitVec 32 := (m.word a 32, m.word (a + 4) 32)

namespace State

/-- Chains in flight, and completions the driver has not read. -/
def outstanding (s : State) : Nat := s.inflight.length + (s.calls.length - s.reads.length)

/-- The device after an access of `addUsed`, with `p` left to do. -/
def settle (s : State) : VProg (Except QueueError Unit × Queue) → State
  | .pure (_, q) => { s with queue := q, device := .idle }
  | .panic => { s with device := .panicked }
  | p => { s with device := .adding p }

end State

inductive Label
  /-- The device gets a chain; there are never more than `size` outstanding. -/
  | submit (h : BitVec 16)
  | call (h : BitVec 16) (len : BitVec 32)
  | access
  | poll
  | take
  /-- Anything else that happens to memory, outside `idx` and the elements. -/
  | other (m : Mem)

section
variable (ck : Bool) (mm : MemoryManager) (us : Nat)

/-- One step of the device or of the driver. -/
def step (s : State) : Label → Option State
  | .submit h =>
    if h < s.queue.size ∧ s.outstanding < s.queue.size.toNat then
      some { s with inflight := s.inflight ++ [h] }
    else none
  | .call h len =>
    match s.device with
    | .idle =>
      if h ∈ s.inflight then
        some ({ s with inflight := s.inflight.erase h, calls := s.calls ++ [(h, len)] }.settle
          (s.queue.addUsed h len))
      else none
    | _ => none
  | .access =>
    match s.device with
    | .adding p => (p.next (mm.handler ck) s.mem).map fun r => { s with mem := r.2 }.settle r.1
    | _ => none
  | .poll => some { s with seen := s.mem.word (us + 2) 16 }
  | .take =>
    if s.consumed ≠ s.seen then
      some { s with
        consumed := s.consumed + 1
        reads := s.reads ++ [elementAt s.mem (s.queue.usedSlot us s.consumed)] }
    else none
  | .other m =>
    if s.mem.SameOn m (us + 2) (2 + 8 * s.queue.size.toNat) then some { s with mem := m } else none

/-- From an empty ring, at any index. -/
def system (q : Queue) : System State Label :=
  .ofStep (fun s => s.queue = q ∧ s.mem.word (us + 2) 16 = q.nextUsed ∧ s.device = .idle ∧
    s.inflight = [] ∧ s.calls = [] ∧ s.consumed = q.nextUsed ∧ s.seen = q.nextUsed ∧ s.reads = [])
    (step ck mm us)

end

/-- The calls of `addUsed` that have published their element. -/
def State.done (s : State) : Nat :=
  match s.device with
  | .adding _ => s.calls.length - 1
  | _ => s.calls.length

/-- The ring holds the element of call `i`. -/
def Holds (us : Nat) (q : Queue) (s : State) (i : Nat) : Prop :=
  ∀ c, s.calls[i]? = some c → elementAt s.mem (q.usedSlot us (ahead q.nextUsed i)) = element c

/-- What the device has left to do of `addUsed`: everything, or the second access. -/
def Phase (us : Nat) (q : Queue) (s : State) : Prop :=
  match s.device with
  | .idle => True
  | .panicked => False
  | .adding p => 0 < s.calls.length ∧
      ((∃ h len, s.calls[s.calls.length - 1]? = some (h, len) ∧ h < q.size ∧
          p = s.queue.addUsed h len) ∨
        p = s.queue.publishUsed ∧ Holds us q s (s.calls.length - 1))

/-- The invariant: the elements published and not yet read are in the ring. -/
structure Inv (us : Nat) (q : Queue) (s : State) : Prop where
  config : q.SameConfig s.queue
  heads : ∀ h ∈ s.inflight, h < q.size
  nextUsed : s.queue.nextUsed = ahead q.nextUsed s.done
  idx : s.mem.word (us + 2) 16 = ahead q.nextUsed s.done
  consumed : s.consumed = ahead q.nextUsed s.reads.length
  seen : ∃ e, s.seen = ahead q.nextUsed e ∧ s.reads.length ≤ e ∧ e ≤ s.done
  room : s.outstanding ≤ q.size.toNat
  order : s.reads <+: s.calls.map element
  slots : ∀ i, s.reads.length ≤ i → i < s.done → Holds us q s i
  phase : Phase us q s

variable {ck : Bool} {mm : MemoryManager} {us : Nat} {q : Queue} {s s' : State} {l : Label}

theorem done_le (s : State) : s.done ≤ s.calls.length := by
  unfold State.done
  split <;> omega

theorem usedSlot_congr {q' : Queue} (hc : q.SameConfig q') (c : BitVec 16) :
    q'.usedSlot us c = q.usedSlot us c := by
  simp only [Queue.usedSlot, hc.size]

/-- Memory that holds the index and the elements of the old one. -/
theorem elementAt_congr {m m' : Mem} (hq : 0 < q.size.toNat)
    (h : m.SameOn m' (us + 2) (2 + 8 * q.size.toNat)) (c : BitVec 16) :
    elementAt m' (q.usedSlot us c) = elementAt m (q.usedSlot us c) := by
  have hlt := Nat.mod_lt c.toNat hq
  have h₁ : m.SameOn m' (q.usedSlot us c) (32 / 8) :=
    h.sub (by simp only [Queue.usedSlot]; omega) (by simp only [Queue.usedSlot]; omega)
  have h₂ : m.SameOn m' (q.usedSlot us c + 4) (32 / 8) :=
    h.sub (by simp only [Queue.usedSlot]; omega) (by simp only [Queue.usedSlot]; omega)
  simp only [elementAt, Mem.word_congr h₁, Mem.word_congr h₂]

/-- Publishing an index leaves the elements. -/
theorem elementAt_putWord_idx {m : Mem} {c v : BitVec 16} :
    elementAt (m.putWord (us + 2) v) (q.usedSlot us c) = elementAt m (q.usedSlot us c) := by
  simp only [elementAt]
  rw [Mem.word_putWord_sep (by simp only [Queue.usedSlot]; omega),
    Mem.word_putWord_sep (by simp only [Queue.usedSlot]; omega)]

theorem elementAt_writeElement {m : Mem} {a : Nat} {h : BitVec 16} {len : BitVec 32} :
    elementAt (writeElement m a h len) a = element (h, len) := by
  have h₁ : ((m.putWord a (h.setWidth 32)).putWord (a + 4) len).word a 32 = h.setWidth 32 := by
    rw [Mem.word_putWord_sep (.inl (by omega))]
    exact Mem.word_putWord (n := 4) m a (h.setWidth 32)
  have h₂ : ((m.putWord a (h.setWidth 32)).putWord (a + 4) len).word (a + 4) 32 = len :=
    Mem.word_putWord (n := 4) _ _ len
  simp only [elementAt, writeElement, h₁, h₂, element]

/-- Writing an element leaves the others, less than the ring's size apart. -/
theorem elementAt_writeElement_slot (hq : q.Sized) {m : Mem} {c h : BitVec 16} {len : BitVec 32}
    {i j : Nat} (hij : i < j) (hj : j - i < q.size.toNat) :
    elementAt (writeElement m (q.usedSlot us (ahead c j)) h len) (q.usedSlot us (ahead c i)) =
      elementAt m (q.usedSlot us (ahead c i)) := by
  have hne : (ahead c i).toNat % q.size.toNat ≠ (ahead c j).toNat % q.size.toNat := by
    rw [slot_ahead c i hq.dvd, slot_ahead c j hq.dvd]
    intro e
    exact absurd (slot_inj e hij.le hj) hij.ne
  have hsep : ∀ k < 8, writeElement m (q.usedSlot us (ahead c j)) h len
      (q.usedSlot us (ahead c i) + k) = m (q.usedSlot us (ahead c i) + k) := fun k hk =>
    writeElement_apply (by simp only [Queue.usedSlot]; omega)
  have h₁ : m.SameOn (writeElement m (q.usedSlot us (ahead c j)) h len)
      (q.usedSlot us (ahead c i)) (32 / 8) := fun k hk => hsep k (by omega)
  have h₂ : m.SameOn (writeElement m (q.usedSlot us (ahead c j)) h len)
      (q.usedSlot us (ahead c i) + 4) (32 / 8) := fun k hk => by
    rw [Nat.add_assoc]; exact hsep (4 + k) (by omega)
  simp only [elementAt, Mem.word_congr h₁, Mem.word_congr h₂]

theorem settle_of_next {p : VProg (Except QueueError Unit × Queue)}
    {r : VProg (Except QueueError Unit × Queue) × Mem} {m : Mem}
    (h : p.next (mm.handler ck) m = some r) : s.settle p = { s with device := .adding p } := by
  obtain ⟨a, k, rfl⟩ := Prog.eq_access_of_next h
  rfl

theorem Phase.mem {m : Mem} (h : Phase us q s)
    (hh : ∀ i, Holds us q s i → Holds us q { s with mem := m } i) :
    Phase us q { s with mem := m } := by
  unfold Phase at h ⊢
  cases hd : s.device with
  | idle => trivial
  | panicked => rw [hd] at h; exact h
  | adding p =>
    rw [hd] at h
    obtain ⟨h0, h | ⟨e, h⟩⟩ := h
    · exact ⟨h0, .inl h⟩
    · exact ⟨h0, .inr ⟨e, hh _ h⟩⟩

/-! ## The device's steps -/

theorem Inv.submit (hi : Inv us q s) {h : BitVec 16} (hh : h < s.queue.size)
    (hroom : s.outstanding < s.queue.size.toNat) :
    Inv us q { s with inflight := s.inflight ++ [h] } := by
  refine ⟨hi.config, ?_, hi.nextUsed, hi.idx, hi.consumed, hi.seen, ?_, hi.order, hi.slots,
    hi.phase⟩
  · intro h' hmem
    rcases List.mem_append.mp hmem with hm | hm
    · exact hi.heads h' hm
    · rw [List.mem_singleton.mp hm, ← hi.config.size]
      exact hh
  · rw [hi.config.size] at hroom
    simp only [State.outstanding, List.length_append, List.length_singleton] at hroom ⊢
    omega

theorem Inv.call (hu : mm.Backs q.usedRing (6 + 8 * q.size.toNat) us) (ck : Bool) (hi : Inv us q s)
    {h : BitVec 16} {len : BitVec 32} (hd : s.device = .idle) (hh : h ∈ s.inflight) :
    Inv us q ({ s with inflight := s.inflight.erase h, calls := s.calls ++ [(h, len)] }.settle
      (s.queue.addUsed h len)) := by
  have hc := hi.config
  have hu' : mm.Backs s.queue.usedRing (6 + 8 * s.queue.size.toNat) us := by
    rw [hc.usedRing, hc.size]; exact hu
  have hlt : h < s.queue.size := by rw [hc.size]; exact hi.heads h hh
  rw [settle_of_next (Queue.next_addUsed hu' hlt len : Prog.next (mm.handler ck) _ s.mem = _)]
  have hdone : s.done = s.calls.length := by simp only [State.done, hd]
  have hdone' : ∀ p, State.done { s with
      device := .adding p, inflight := s.inflight.erase h, calls := s.calls ++ [(h, len)] } =
      s.done := by
    intro p
    simp only [State.done, hd, List.length_append, List.length_singleton, Nat.add_sub_cancel]
  have hle := hi.order.length_le
  rw [List.length_map] at hle
  refine ⟨hc, fun h' hm => hi.heads h' (List.mem_of_mem_erase hm), ?_, ?_, hi.consumed, ?_, ?_, ?_,
    ?_, ?_⟩
  · rw [hdone']; exact hi.nextUsed
  · rw [hdone']; exact hi.idx
  · rw [hdone']; exact hi.seen
  · have hroom := hi.room
    have hpos := List.length_pos_of_mem hh
    simp only [State.outstanding, List.length_append, List.length_singleton,
      List.length_erase_of_mem hh] at hroom ⊢
    omega
  · show s.reads <+: (s.calls ++ [(h, len)]).map element
    rw [List.map_append]
    exact hi.order.trans (List.prefix_append ..)
  · intro i hi₁ hi₂ c hget
    rw [hdone', hdone] at hi₂
    have hget : (s.calls ++ [(h, len)])[i]? = some c := hget
    rw [List.getElem?_append_left hi₂] at hget
    exact hi.slots i hi₁ (by rw [hdone]; exact hi₂) c hget
  · refine ⟨by simp, .inl ⟨h, len, by simp, hc.size ▸ hlt, rfl⟩⟩

/-! ## The driver's steps -/

theorem Inv.take (hi : Inv us q s) (hne : s.consumed ≠ s.seen) :
    Inv us q { s with
      consumed := s.consumed + 1
      reads := s.reads ++ [elementAt s.mem (s.queue.usedSlot us s.consumed)] } := by
  obtain ⟨e, he, hre, hed⟩ := hi.seen
  have hroom := hi.room
  have hle := done_le s
  have hsize := q.size.isLt
  have hlt : s.reads.length < e := by
    refine Nat.lt_of_le_of_ne hre fun h => hne ?_
    rw [hi.consumed, he, h]
  have hget : s.calls[s.reads.length]? = some s.calls[s.reads.length] :=
    List.getElem?_eq_getElem (by omega)
  have hread := hi.slots _ (le_refl _) (by omega) _ hget
  rw [usedSlot_congr hi.config, hi.consumed, hread]
  refine ⟨hi.config, hi.heads, hi.nextUsed, hi.idx, ?_, ⟨e, he, ?_, hed⟩, ?_, ?_, ?_, hi.phase⟩
  · rw [List.length_append, List.length_singleton]
    exact ahead_succ _ _
  · rw [List.length_append, List.length_singleton]
    exact hlt
  · simp only [State.outstanding, List.length_append, List.length_singleton] at hroom ⊢
    omega
  · have htake := List.prefix_iff_eq_take.mp hi.order
    refine List.prefix_iff_eq_take.mpr ?_
    rw [List.length_append, List.length_singleton, List.take_add_one, ← htake, List.getElem?_map, hget]
    rfl
  · intro i hi₁ hi₂
    rw [List.length_append, List.length_singleton] at hi₁
    exact hi.slots i (by omega) hi₂

/-! ## The accesses of `addUsed` -/

/-- The element of the last call is in the ring, and its index is next. -/
theorem Inv.element (hq : q.Sized) (hi : Inv us q s) {p : VProg (Except QueueError Unit × Queue)}
    (hd : s.device = .adding p) (h0 : 0 < s.calls.length) {h : BitVec 16} {len : BitVec 32}
    (hlast : s.calls[s.calls.length - 1]? = some (h, len)) :
    Inv us q { s with
      mem := writeElement s.mem (q.usedSlot us (ahead q.nextUsed s.done)) h len
      device := .adding s.queue.publishUsed } := by
  have hdone : s.done = s.calls.length - 1 := by simp only [State.done, hd]
  have hdone' : ∀ m p, State.done { s with mem := m, device := .adding p } = s.done := by
    intro m p
    simp only [State.done, hd]
  have hroom := hi.room
  have hle := hi.order.length_le
  rw [List.length_map] at hle
  refine ⟨hi.config, hi.heads, by rw [hdone']; exact hi.nextUsed, ?_, hi.consumed,
    by rw [hdone']; exact hi.seen, hi.room, hi.order, ?_, h0, .inr ⟨rfl, ?_⟩⟩
  · rw [hdone']
    refine (Mem.word_congr fun i hi => ?_).trans hi.idx
    exact writeElement_apply (by simp only [Queue.usedSlot]; omega)
  · intro i hi₁ hi₂ c hget
    rw [hdone'] at hi₂
    have hi₁ : s.reads.length ≤ i := hi₁
    rw [elementAt_writeElement_slot hq hi₂ (by simp only [State.outstanding] at hroom; omega)]
    exact hi.slots i hi₁ hi₂ c hget
  · intro c hget
    obtain rfl : c = (h, len) := Option.some.inj (hget.symm.trans hlast)
    rw [← hdone, elementAt_writeElement]

/-- The index counts the last call, whose element is in the ring. -/
theorem Inv.publish (hi : Inv us q s) {p : VProg (Except QueueError Unit × Queue)}
    (hd : s.device = .adding p) (h0 : 0 < s.calls.length)
    (hlast : Holds us q s (s.calls.length - 1)) :
    Inv us q { s with
      mem := s.mem.putWord (us + 2) (s.queue.nextUsed + 1)
      queue := { s.queue with
        nextUsed := s.queue.nextUsed + 1
        numAdded := s.queue.numAdded + 1 }
      device := .idle } := by
  have hdone : s.done = s.calls.length - 1 := by simp only [State.done, hd]
  have hcfg : s.queue.SameConfig
      { s.queue with nextUsed := s.queue.nextUsed + 1, numAdded := s.queue.numAdded + 1 } :=
    ⟨rfl, rfl, rfl, rfl, rfl, rfl, rfl⟩
  have hnext : s.queue.nextUsed + 1 = ahead q.nextUsed s.calls.length := by
    rw [hi.nextUsed, hdone]
    exact (ahead_succ _ _).trans (by rw [Nat.sub_add_cancel h0])
  obtain ⟨e, he, hre, hed⟩ := hi.seen
  refine ⟨hi.config.trans hcfg, hi.heads, hnext, ?_, hi.consumed, ⟨e, he, hre, ?_⟩, hi.room, hi.order,
    ?_, trivial⟩
  · exact (Mem.word_putWord16 ..).trans hnext
  · exact hed.trans (done_le s)
  · intro i hi₁ hi₂ c hget
    have hi₂ : i < s.calls.length := hi₂
    show elementAt (s.mem.putWord (us + 2) _) _ = UsedRing.element c
    rw [elementAt_putWord_idx]
    rcases Nat.lt_or_ge i s.done with hlt | hge
    · exact hi.slots i hi₁ hlt c hget
    · obtain rfl : i = s.calls.length - 1 := by omega
      exact hlast c hget

/-! ## Every run -/

section
variable (hq : q.Sized) (hu : mm.Backs q.usedRing (6 + 8 * q.size.toNat) us)
include hq hu

/-- One access of `addUsed`: the element, then the index; and no other byte. -/
theorem Inv.access (hi : Inv us q s) {p p' : VProg (Except QueueError Unit × Queue)} {m : Mem}
    (hd : s.device = .adding p) (hn : p.next (mm.handler ck) s.mem = some (p', m)) :
    Inv us q ({ s with mem := m }.settle p') ∧
      ∀ x, (x < s.queue.usedSlot us s.queue.nextUsed ∨ s.queue.usedSlot us s.queue.nextUsed + 8 ≤ x) →
        (x < us + 2 ∨ us + 4 ≤ x) → m x = s.mem x := by
  have hc := hi.config
  have hu' : mm.Backs s.queue.usedRing (6 + 8 * s.queue.size.toNat) us := by
    rw [hc.usedRing, hc.size]; exact hu
  have ph := hi.phase
  unfold Phase at ph
  rw [hd] at ph
  obtain ⟨h0, ⟨h, len, hlast, hlt, rfl⟩ | ⟨rfl, hlast⟩⟩ := ph
  · rw [Queue.next_addUsed hu' (by rw [hc.size]; exact hlt) len] at hn
    obtain ⟨rfl, rfl⟩ := Prod.mk.inj (Option.some.inj hn)
    refine ⟨?_, fun x hx _ => writeElement_apply hx⟩
    rw [settle_of_next (Queue.next_publishUsed hu' : Prog.next (mm.handler ck) _ s.mem = _),
      usedSlot_congr hc, hi.nextUsed]
    exact hi.element hq hd h0 hlast
  · rw [Queue.next_publishUsed hu'] at hn
    obtain ⟨rfl, rfl⟩ := Prod.mk.inj (Option.some.inj hn)
    refine ⟨hi.publish hd h0 hlast, fun x _ hx => Mem.write_apply ?_⟩
    rw [length_leBytes]
    exact hx

theorem inv_step (hi : Inv us q s) (hs : step ck mm us s l = some s') : Inv us q s' := by
  cases l with
  | submit h =>
    obtain ⟨⟨hh, hroom⟩, e⟩ := Option.ite_none_right_eq_some.mp hs
    obtain rfl := Option.some.inj e
    exact hi.submit hh hroom
  | call h len =>
    simp only [step] at hs
    split at hs
    · rename_i hd
      obtain ⟨hh, e⟩ := Option.ite_none_right_eq_some.mp hs
      obtain rfl := Option.some.inj e
      exact hi.call hu ck hd hh
    · cases hs
  | access =>
    simp only [step] at hs
    split at hs
    · rename_i p hd
      obtain ⟨⟨p', m⟩, hn, rfl⟩ := Option.map_eq_some_iff.mp hs
      exact (hi.access hq hu hd hn).1
    · cases hs
  | poll =>
    obtain rfl := Option.some.inj hs
    obtain ⟨e, -, hre, hed⟩ := hi.seen
    exact ⟨hi.config, hi.heads, hi.nextUsed, hi.idx, hi.consumed,
      ⟨s.done, hi.idx, hre.trans hed, le_refl _⟩, hi.room, hi.order, hi.slots, hi.phase⟩
  | take =>
    obtain ⟨hne, e⟩ := Option.ite_none_right_eq_some.mp hs
    obtain rfl := Option.some.inj e
    exact hi.take hne
  | other m =>
    obtain ⟨hsame, e⟩ := Option.ite_none_right_eq_some.mp hs
    obtain rfl := Option.some.inj e
    rw [hi.config.size] at hsame
    have hholds : ∀ i, Holds us q s i → Holds us q { s with mem := m } i := by
      intro i h c hget
      rw [elementAt_congr hq.pos hsame]
      exact h c hget
    refine ⟨hi.config, hi.heads, hi.nextUsed, ?_, hi.consumed, hi.seen, hi.room, hi.order,
      fun i h₁ h₂ => hholds i (hi.slots i h₁ h₂), ?_⟩
    · exact (Mem.word_congr (hsame.sub (le_refl _) (by omega))).trans hi.idx
    · exact hi.phase.mem hholds

theorem inv_reachable (h : (system ck mm us q).Reachable s) : Inv us q s := by
  refine h.invariant (I := Inv us q) ?_ fun s l s' hi hs => inv_step hq hu hi hs
  rintro s ⟨rfl, hidx, hdev, hfl, hcalls, hcons, hseen, hreads⟩
  have hdone : s.done = 0 := by simp only [State.done, hdev, hcalls, List.length_nil]
  refine ⟨.refl _, ?_, ?_, ?_, ?_, ⟨0, ?_, ?_, Nat.zero_le _⟩, ?_, ?_, ?_, ?_⟩
  · intro h hmem
    rw [hfl] at hmem
    cases hmem
  · rw [hdone, ahead_zero]
  · rw [hdone, ahead_zero]
    exact hidx
  · rw [hreads, List.length_nil, ahead_zero]
    exact hcons
  · rw [ahead_zero]
    exact hseen
  · rw [hreads]
    exact Nat.le_refl 0
  · simp only [State.outstanding, hfl, hcalls, List.length_nil]
    omega
  · rw [hreads]
    exact List.nil_prefix
  · intro i _ hlt
    rw [hdone] at hlt
    exact absurd hlt (Nat.not_lt_zero i)
  · unfold Phase
    rw [hdev]
    trivial

end

/-- In every state reached by any interleaving, over runs of any length: the
elements the driver has read are those of the first calls of `addUsed`, in
order, and of all calls once it has reached `used.idx` and no call is in
progress; a call changes no byte other than its element and `used.idx`; and the
device does not panic. -/
theorem usedRing_delivers (hq : q.Sized) (hu : mm.Backs q.usedRing (6 + 8 * q.size.toNat) us)
    (h : (system ck mm us q).Reachable s) :
    s.reads <+: s.calls.map element ∧
    (s.device = .idle → s.consumed = s.mem.word (us + 2) 16 → s.reads = s.calls.map element) ∧
    (∀ s', step ck mm us s .access = some s' → ∀ x,
      (x < s.queue.usedSlot us s.queue.nextUsed ∨ s.queue.usedSlot us s.queue.nextUsed + 8 ≤ x) →
      (x < us + 2 ∨ us + 4 ≤ x) → s'.mem x = s.mem x) ∧
    s.device ≠ .panicked := by
  have hi := inv_reachable hq hu h
  refine ⟨hi.order, ?_, ?_, ?_⟩
  · intro hd hc
    have hdone : s.done = s.calls.length := by simp only [State.done, hd]
    have hle := hi.order.length_le
    have hroom := hi.room
    have hsize := q.size.isLt
    rw [List.length_map] at hle
    rw [hi.consumed, hi.idx, hdone] at hc
    have hlen := (ahead_eq_iff _ hle (by simp only [State.outstanding] at hroom; omega)).mp hc.symm
    exact hi.order.eq_of_length (by rw [List.length_map]; exact hlen.symm)
  · intro s' hs
    simp only [step] at hs
    split at hs
    · rename_i p hd
      obtain ⟨⟨p', m⟩, hn, rfl⟩ := Option.map_eq_some_iff.mp hs
      have hmem : ({ s with mem := m }.settle p').mem = m := by
        unfold State.settle
        split <;> rfl
      rw [hmem]
      exact (hi.access hq hu hd hn).2
    · cases hs
  · intro hd
    have ph := hi.phase
    unfold Phase at ph
    rw [hd] at ph
    exact ph

theorem usedRing_delivers_two : ∃ s, (system true smallRam 0x3000 smallQueue).Reachable s ∧
    s.reads = [(1, 7), (0, 9)] ∧ s.reads <+: s.calls.map element := by
  have hr : ([.submit 0, .submit 1, .call 1 7, .access, .access, .call 0 9, .poll, .access, .take,
      .access, .poll, .take].foldlM (step true smallRam 0x3000)
      ⟨fun _ => 0, smallQueue, .idle, [], [], 0, 0, []⟩).map State.reads =
      some [(1, 7), (0, 9)] := by decide +kernel
  obtain ⟨s, hs, hreads⟩ := Option.map_eq_some_iff.mp hr
  have h0 : (system true smallRam 0x3000 smallQueue).Reachable
      ⟨fun _ => 0, smallQueue, .idle, [], [], 0, 0, []⟩ :=
    .init ⟨rfl, by decide +kernel, rfl, rfl, rfl, rfl, rfl, rfl⟩
  have h := h0.foldlM _ hs
  exact ⟨s, h, hreads, (usedRing_delivers smallQueue_sized smallQueue_rings.used h).1⟩

end UsedRing

end Whypa
