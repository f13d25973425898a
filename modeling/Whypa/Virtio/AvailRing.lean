import Whypa.Framework.Counter
import Whypa.Framework.Reach
import Whypa.Virtio.Rings

/-!
# The available ring as a queue of heads

A driver and a device share the available ring. The driver stores heads in the
slots after `avail.idx` and publishes them by advancing `avail.idx`; the device
runs `Queue.pop`, one access at a time. `availRing_fifo` is the point of this
file: whatever the interleaving, the heads popped are a prefix of the heads
published, `pop` returns `none` only when none is left, and `Queue.len` counts
those left.
-/

namespace Whypa

open Framework Framework.Counter

namespace AvailRing

/-- Where the device is in `Queue.pop`. -/
inductive Device
  | idle
  | popping (p : VProg (Option DescriptorChain × Queue))
  | panicked

structure State where
  mem : Mem
  queue : Queue
  device : Device
  /-- Heads stored in the ring, and the driver has advanced `avail.idx` past them. -/
  published : List (BitVec 16)
  /-- Heads stored in the ring after `avail.idx`. -/
  staged : List (BitVec 16)
  /-- Heads `pop` has returned. -/
  popped : List (BitVec 16)
  /-- Heads popped and published when `pop` returned `none`, each time. -/
  nones : List (List (BitVec 16) × List (BitVec 16))

namespace State

def pending (s : State) : Nat := s.published.length - s.popped.length

/-- The heads in the ring that have not been popped. -/
def live (s : State) : List (BitVec 16) := (s.published ++ s.staged).drop s.popped.length

/-- The device after an access of `pop`, with `p` left to do. -/
def settle (s : State) : VProg (Option DescriptorChain × Queue) → State
  | .pure (some c, q) =>
    { s with queue := q, device := .idle, popped := s.popped ++ [c.index] }
  | .pure (none, q) =>
    { s with queue := q, device := .idle, nones := s.nones ++ [(s.popped, s.published)] }
  | .panic => { s with device := .panicked }
  | p => { s with device := .popping p }

end State

inductive Label
  | store (h : BitVec 16)
  | publish
  /-- Anything else that happens to memory, outside `idx` and the slots. -/
  | other (m : Mem)
  | call
  | access

section
variable (ck : Bool) (mm : MemoryManager) (av : Nat)

/-- Every head in the ring starts a chain. -/
def State.Valid (s : State) : Prop := ∀ h ∈ s.live, s.queue.validHead ck mm s.mem h = true

instance (s : State) : Decidable (s.Valid ck mm) :=
  decidable_of_iff (s.live.all (s.queue.validHead ck mm s.mem) = true) List.all_eq_true

/-- `avail.idx` once the heads stored after it are published. -/
def State.nextIdx (s : State) : BitVec 16 :=
  s.mem.word (av + 2) 16 + BitVec.ofNat 16 s.staged.length

/-- The driver stores `h` in the next slot. -/
def State.store (s : State) (h : BitVec 16) : State :=
  { s with
    mem := s.mem.putWord (s.queue.availSlot av (s.nextIdx av)) h
    staged := s.staged ++ [h] }

/-- The driver advances `avail.idx` past the heads it has stored. -/
def State.publish (s : State) : State :=
  { s with
    mem := s.mem.putWord (av + 2) (s.nextIdx av)
    published := s.published ++ s.staged
    staged := [] }

/-- One step of the driver or of the device. The driver stores a head only
while fewer than `size` are in the ring, and leaves those it has stored valid. -/
def step (s : State) : Label → Option State
  | .store h =>
    if s.pending + s.staged.length < s.queue.size.toNat ∧ (s.store av h).Valid ck mm then
      some (s.store av h)
    else none
  | .publish => if (s.publish av).Valid ck mm then some (s.publish av) else none
  | .other m =>
    if s.mem.SameOn m (av + 2) (2 + 2 * s.queue.size.toNat) ∧ { s with mem := m }.Valid ck mm then
      some { s with mem := m }
    else none
  | .call =>
    match s.device with
    | .idle => some (s.settle s.queue.pop)
    | _ => none
  | .access =>
    match s.device with
    | .popping p => (p.next (mm.handler ck) s.mem).map fun r => { s with mem := r.2 }.settle r.1
    | _ => none

/-- From an empty ring, at any index. -/
def system (q : Queue) : System State Label :=
  .ofStep (fun s => s.queue = q ∧ s.mem.word (av + 2) 16 = q.nextAvail ∧ s.device = .idle ∧
    s.published = [] ∧ s.staged = [] ∧ s.popped = [] ∧ s.nones = []) (step ck mm av)

/-- The next access of the device ends `pop` without a chain. -/
def ReturnsNone (s : State) : Prop :=
  ∃ p q m, s.device = .popping p ∧ p.next (mm.handler ck) s.mem = some (.pure (none, q), m)

end

/-- What the device has left to do of `pop`: everything, or all but the first
access, or all but the last. -/
def Phase (s : State) : Prop :=
  match s.device with
  | .idle => True
  | .panicked => False
  | .popping p => p = s.queue.pop ∨ 0 < s.pending ∧
      ((∃ n, n ≠ 0 ∧ p = s.queue.popHead n) ∨ ∃ h, s.live[0]? = some h ∧ p = s.queue.popChain h)

/-- The invariant: the ring holds the heads that are not popped, from the
device's index on. -/
structure Inv (ck : Bool) (mm : MemoryManager) (av : Nat) (q : Queue) (s : State) : Prop where
  config : q.SameConfig s.queue
  order : s.popped <+: s.published
  idx : s.mem.word (av + 2) 16 = ahead s.queue.nextAvail s.pending
  room : s.pending + s.staged.length ≤ q.size.toNat
  slots : ∀ i h, s.live[i]? = some h →
    s.mem.word (s.queue.availSlot av (ahead s.queue.nextAvail i)) 16 = h
  valid : s.Valid ck mm
  phase : Phase s
  nones : ∀ x ∈ s.nones, x.1 = x.2

variable {ck : Bool} {mm : MemoryManager} {av : Nat} {q : Queue} {s s' : State} {l : Label}

theorem length_live (h : s.popped <+: s.published) : s.live.length = s.pending + s.staged.length := by
  have := h.length_le
  simp only [State.live, State.pending, List.length_drop, List.length_append]
  omega

theorem word_slot_putWord_idx {m : Mem} {c v : BitVec 16} :
    (m.putWord (av + 2) v).word (q.availSlot av c) 16 = m.word (q.availSlot av c) 16 :=
  Mem.word_putWord_sep (by simp only [Queue.availSlot]; omega)

theorem word_idx_putWord_slot {m : Mem} {c v : BitVec 16} :
    (m.putWord (q.availSlot av c) v).word (av + 2) 16 = m.word (av + 2) 16 :=
  Mem.word_putWord_sep (by simp only [Queue.availSlot]; omega)

/-- Two slots less than the ring's size apart do not overlap. -/
theorem word_slot_putWord_slot (hq : q.Sized) {m : Mem} {c v : BitVec 16} {i j : Nat} (hij : i < j)
    (hj : j - i < q.size.toNat) :
    (m.putWord (q.availSlot av (ahead c j)) v).word (q.availSlot av (ahead c i)) 16 =
      m.word (q.availSlot av (ahead c i)) 16 := by
  have hne : (ahead c i).toNat % q.size.toNat ≠ (ahead c j).toNat % q.size.toNat := by
    rw [slot_ahead c i hq.dvd, slot_ahead c j hq.dvd]
    intro e
    exact absurd (slot_inj e hij.le hj) hij.ne
  exact Mem.word_putWord_sep (by simp only [Queue.availSlot]; omega)

/-! ## The driver's steps -/

/-- A driver's step leaves the device where it is: it only has to keep the
heads in the ring. -/
theorem Inv.driver (hi : Inv ck mm av q s) (hs : s'.queue = s.queue) (hd : s'.device = s.device)
    (hp : s'.popped = s.popped) (hnones : s'.nones = s.nones) (hpub : s.published <+: s'.published)
    (hlive : s.live <+: s'.live)
    (idx : s'.mem.word (av + 2) 16 = ahead s'.queue.nextAvail s'.pending)
    (room : s'.pending + s'.staged.length ≤ q.size.toNat)
    (slots : ∀ i h, s'.live[i]? = some h →
      s'.mem.word (s'.queue.availSlot av (ahead s'.queue.nextAvail i)) 16 = h)
    (valid : s'.Valid ck mm) : Inv ck mm av q s' := by
  have hle : s.pending ≤ s'.pending := by
    have := hpub.length_le
    simp only [State.pending, hp]
    omega
  refine ⟨hs ▸ hi.config, hp ▸ hi.order.trans hpub, idx, room, slots, valid, ?_, hnones ▸ hi.nones⟩
  have ph := hi.phase
  unfold Phase at ph ⊢
  rw [hd]
  cases hdev : s.device with
  | idle => trivial
  | panicked => rw [hdev] at ph; exact ph
  | popping p =>
    rw [hdev] at ph
    rcases ph with ph | ⟨h0, ph | ⟨h, hh, ph⟩⟩
    · exact .inl (hs ▸ ph)
    · exact .inr ⟨by omega, .inl (hs ▸ ph)⟩
    · have hh' : s'.live[0]? = some h := by
        obtain ⟨t, ht⟩ := hlive
        rw [← ht, List.getElem?_append_left (List.getElem?_eq_some_iff.mp hh).1, hh]
      exact .inr ⟨by omega, .inr ⟨h, hh', hs ▸ ph⟩⟩

theorem Inv.store (hq : q.Sized) (hi : Inv ck mm av q s) {h : BitVec 16}
    (hroom : s.pending + s.staged.length < s.queue.size.toNat) (hv : (s.store av h).Valid ck mm) :
    Inv ck mm av q (s.store av h) := by
  have hle := hi.order.length_le
  have hlen := length_live hi.order
  have hlive : (s.store av h).live = s.live ++ [h] := by
    simp only [State.live, State.store, ← List.append_assoc]
    rw [List.drop_append_of_le_length (by rw [List.length_append]; omega)]
  have hslot : s.nextIdx av = ahead s.queue.nextAvail s.live.length := by
    rw [State.nextIdx, hi.idx, hlen, ← ahead_ahead]
    rfl
  have hmem : (s.store av h).mem =
      s.mem.putWord (s.queue.availSlot av (ahead s.queue.nextAvail s.live.length)) h := by
    rw [State.store, hslot]
  refine hi.driver rfl rfl rfl rfl List.prefix_rfl (hlive ▸ List.prefix_append ..) ?_ ?_ ?_ hv
  · rw [hmem, word_idx_putWord_slot]
    exact hi.idx
  · show s.pending + (s.staged ++ [h]).length ≤ q.size.toNat
    rw [List.length_append, List.length_singleton, ← hi.config.size]
    exact hroom
  · intro i h' hget
    rw [hlive] at hget
    rw [hmem]
    show (s.mem.putWord _ h).word (s.queue.availSlot av (ahead s.queue.nextAvail i)) 16 = h'
    rcases Nat.lt_or_ge i s.live.length with hlt | hge
    · rw [List.getElem?_append_left hlt] at hget
      rw [word_slot_putWord_slot (hq.config hi.config) hlt (by omega)]
      exact hi.slots i h' hget
    · obtain rfl : i = s.live.length := by
        have := (List.getElem?_eq_some_iff.mp hget).1
        rw [List.length_append, List.length_singleton] at this
        omega
      rw [List.getElem?_concat_length] at hget
      rw [Mem.word_putWord16]
      exact Option.some.inj hget

theorem Inv.publish (hi : Inv ck mm av q s) (hv : (s.publish av).Valid ck mm) :
    Inv ck mm av q (s.publish av) := by
  have hle := hi.order.length_le
  have hlive : (s.publish av).live = s.live := by
    simp only [State.live, State.publish, List.append_nil]
  have hpend : (s.publish av).pending = s.pending + s.staged.length := by
    simp only [State.pending, State.publish, List.length_append]
    omega
  refine hi.driver rfl rfl rfl rfl (List.prefix_append ..) ⟨[], by rw [List.append_nil, hlive]⟩
    ?_ ?_ ?_ hv
  · rw [hpend, State.publish, Mem.word_putWord16, State.nextIdx, hi.idx, ← ahead_ahead]
    rfl
  · rw [hpend]
    exact hi.room
  · intro i h' hget
    rw [hlive] at hget
    rw [State.publish, word_slot_putWord_idx]
    exact hi.slots i h' hget

theorem Inv.other (hq : q.Sized) (hi : Inv ck mm av q s) {m : Mem}
    (hsame : s.mem.SameOn m (av + 2) (2 + 2 * s.queue.size.toNat))
    (hv : { s with mem := m }.Valid ck mm) : Inv ck mm av q { s with mem := m } := by
  refine hi.driver rfl rfl rfl rfl List.prefix_rfl List.prefix_rfl ?_ hi.room ?_ hv
  · rw [Mem.word_congr (hsame.sub (by omega) (by omega))]
    exact hi.idx
  · intro i h' hget
    have hlt := Nat.mod_lt (ahead s.queue.nextAvail i).toNat (hq.config hi.config).pos
    have hsub : s.mem.SameOn m (s.queue.availSlot av (ahead s.queue.nextAvail i)) (16 / 8) :=
      hsame.sub (by simp only [Queue.availSlot]; omega) (by simp only [Queue.availSlot]; omega)
    rw [Mem.word_congr hsub]
    exact hi.slots i h' hget

/-! ## The device's steps -/

/-- The invariant while the device is inside `pop`, whatever it has left to do. -/
theorem Inv.popping (hi : Inv ck mm av q s) {p : VProg (Option DescriptorChain × Queue)}
    (hp : Phase { s with device := .popping p }) : Inv ck mm av q { s with device := .popping p } :=
  ⟨hi.config, hi.order, hi.idx, hi.room, hi.slots, hi.valid, hp, hi.nones⟩

/-- The device stays inside `pop` while it has an access left. -/
theorem settle_of_next {p : VProg (Option DescriptorChain × Queue)}
    {r : VProg (Option DescriptorChain × Queue) × Mem} {m : Mem}
    (h : p.next (mm.handler ck) m = some r) : s.settle p = { s with device := .popping p } := by
  obtain ⟨a, k, rfl⟩ := Prog.eq_access_of_next h
  rfl

theorem pop_access (ck : Bool) (hb : mm.Backs s.queue.availRing (6 + 2 * s.queue.size.toNat) av) :
    s.settle s.queue.pop = { s with device := .popping s.queue.pop } :=
  settle_of_next (Queue.next_pop hb : Prog.next (mm.handler ck) _ s.mem = _)

/-- The heads published and not yet popped are those the driver has in the ring,
besides the staged ones. -/
theorem live_of_rest {rest : List (BitVec 16)} (h : s.popped ++ rest = s.published) :
    s.live = rest ++ s.staged := by
  rw [State.live, ← h, List.append_assoc, List.drop_left]

theorem pending_of_rest {rest : List (BitVec 16)} (h : s.popped ++ rest = s.published) :
    s.pending = rest.length := by
  rw [State.pending, ← h, List.length_append, Nat.add_sub_cancel_left]

/-- `pop` takes the oldest head: every slot moves one place to the front. -/
theorem Inv.taken (hi : Inv ck mm av q s) {h : BitVec 16} (hh : s.live[0]? = some h)
    (h0 : 0 < s.pending) :
    Inv ck mm av q { s with
      queue := { s.queue with nextAvail := s.queue.nextAvail + 1 }
      device := .idle
      popped := s.popped ++ [h] } := by
  obtain ⟨rest, hrest⟩ := hi.order
  have hlive := live_of_rest hrest
  have hpend := pending_of_rest hrest
  obtain ⟨a, rest, rfl⟩ := List.exists_cons_of_length_pos (hpend ▸ h0)
  obtain rfl : a = h := by rw [hlive] at hh; exact Option.some.inj hh
  have hrest' : (s.popped ++ [a]) ++ rest = s.published := by rw [List.append_assoc]; exact hrest
  have hc : s.queue.SameConfig { s.queue with nextAvail := s.queue.nextAvail + 1 } :=
    ⟨rfl, rfl, rfl, rfl, rfl, rfl, rfl⟩
  have hstep : ∀ n, ahead (s.queue.nextAvail + 1) n = ahead s.queue.nextAvail (n + 1) := by
    intro n
    rw [Nat.add_comm n 1, ← ahead_ahead]
    rfl
  refine ⟨hi.config.trans hc, ⟨rest, hrest'⟩, ?_, ?_, ?_, ?_, trivial, hi.nones⟩
  · rw [pending_of_rest hrest', hstep, ← List.length_cons, ← hpend]
    exact hi.idx
  · have := hi.room
    rw [pending_of_rest hrest']
    rw [hpend, List.length_cons] at this
    show rest.length + s.staged.length ≤ q.size.toNat
    omega
  · intro i h' hget
    rw [live_of_rest hrest'] at hget
    show s.mem.word (s.queue.availSlot av (ahead (s.queue.nextAvail + 1) i)) 16 = h'
    rw [hstep]
    exact hi.slots (i + 1) h' (by rw [hlive]; exact hget)
  · intro h' hmem
    rw [live_of_rest hrest'] at hmem
    rw [Queue.validHead_congr hc]
    exact hi.valid h' (by rw [hlive]; exact List.mem_cons_of_mem _ hmem)

/-- `pop` finds the index it has already reached. -/
theorem Inv.returned (hi : Inv ck mm av q s) (h0 : s.pending = 0) : Inv ck mm av q { s with
    device := .idle
    nones := s.nones ++ [(s.popped, s.published)] } := by
  refine ⟨hi.config, hi.order, hi.idx, hi.room, hi.slots, hi.valid, trivial, fun x hx => ?_⟩
  rcases List.mem_append.mp hx with hx | hx
  · exact hi.nones x hx
  · obtain rfl := List.mem_singleton.mp hx
    exact hi.order.eq_of_length_le (Nat.le_of_sub_eq_zero h0)

theorem pending_lt (hi : Inv ck mm av q s) : s.pending < 2 ^ 16 := by
  have := hi.room
  have := q.size.isLt
  omega

/-- The count `pop` reads. -/
theorem idx_sub (hi : Inv ck mm av q s) :
    s.mem.word (av + 2) 16 - s.queue.nextAvail = BitVec.ofNat 16 s.pending := by
  rw [hi.idx]
  simpa using ahead_sub s.queue.nextAvail (Nat.zero_le s.pending)

theorem idx_sub_eq_zero (hi : Inv ck mm av q s) :
    s.mem.word (av + 2) 16 - s.queue.nextAvail = 0 ↔ s.pending = 0 := by
  have hlt := pending_lt hi
  rw [idx_sub hi, ← BitVec.toNat_inj, BitVec.toNat_ofNat, Nat.mod_eq_of_lt hlt]
  rfl

section
variable (hq : q.Sized) (hmax : q.maxSize.toNat ≤ 1024)
  (hb : mm.Backs q.availRing (6 + 2 * q.size.toNat) av)
include hq hmax hb

/-- One access of `pop`: the index, then the slot, then the descriptor. -/
theorem Inv.access (hi : Inv ck mm av q s) {p p' : VProg (Option DescriptorChain × Queue)} {m : Mem}
    (hd : s.device = .popping p) (hn : p.next (mm.handler ck) s.mem = some (p', m)) :
    Inv ck mm av q ({ s with mem := m }.settle p') ∧
      ∀ q', p' = .pure (none, q') → s.pending = 0 := by
  have hc := hi.config
  have hb' : mm.Backs s.queue.availRing (6 + 2 * s.queue.size.toNat) av := by
    rw [hc.availRing, hc.size]; exact hb
  have hq' := hq.config hc
  have hpop : ∀ n, n ≠ 0 → Prog.next (mm.handler ck) (s.queue.popHead n) s.mem =
      some (s.queue.popChain (s.mem.word (s.queue.availSlot av s.queue.nextAvail) 16), s.mem) :=
    fun n hn => Queue.next_popHead hb' hn hq'.pos hq'.le_max (by rw [hc.maxSize]; exact hmax)
  have ph := hi.phase
  unfold Phase at ph
  rw [hd] at ph
  rcases ph with rfl | ⟨h0, ⟨n, hn0, rfl⟩ | ⟨h, hh, rfl⟩⟩
  · rw [Queue.next_pop hb'] at hn
    obtain ⟨rfl, rfl⟩ := Prod.mk.inj (Option.some.inj hn)
    by_cases hz : s.mem.word (av + 2) 16 - s.queue.nextAvail = 0
    · rw [hz, Queue.popHead_zero]
      exact ⟨hi.returned ((idx_sub_eq_zero hi).mp hz), fun _ _ => (idx_sub_eq_zero hi).mp hz⟩
    · have hpos : 0 < s.pending := Nat.pos_of_ne_zero fun e => hz ((idx_sub_eq_zero hi).mpr e)
      have hnext := hpop _ hz
      refine ⟨?_, fun q' e => ?_⟩
      · rw [settle_of_next hnext]
        exact hi.popping (.inr ⟨hpos, .inl ⟨_, hz, rfl⟩⟩)
      · rw [e] at hnext
        cases hnext
  · have hnext := hpop n hn0
    rw [hnext] at hn
    obtain ⟨rfl, rfl⟩ := Prod.mk.inj (Option.some.inj hn)
    have hlen : 0 < s.live.length := by rw [length_live hi.order]; omega
    have hget : s.live[0]? = some s.live[0] := List.getElem?_eq_getElem hlen
    have hslot := hi.slots 0 _ hget
    rw [ahead_zero] at hslot
    have hv := hi.valid _ (List.getElem_mem hlen)
    obtain ⟨c, -, hchain⟩ := Queue.next_popChain hv
    rw [hslot]
    refine ⟨?_, fun q' e => ?_⟩
    · rw [settle_of_next hchain]
      exact hi.popping (.inr ⟨h0, .inr ⟨_, hget, rfl⟩⟩)
    · rw [e] at hchain
      cases hchain
  · obtain ⟨c, hci, hchain⟩ := Queue.next_popChain (hi.valid h (List.mem_of_getElem? hh))
    rw [hchain] at hn
    obtain ⟨rfl, rfl⟩ := Prod.mk.inj (Option.some.inj hn)
    refine ⟨?_, fun q' e => by cases e⟩
    rw [State.settle, hci]
    exact hi.taken hh h0

theorem inv_step (hi : Inv ck mm av q s) (hs : step ck mm av s l = some s') : Inv ck mm av q s' := by
  cases l with
  | store h =>
    obtain ⟨⟨hroom, hv⟩, e⟩ := Option.ite_none_right_eq_some.mp hs
    obtain rfl := Option.some.inj e
    exact hi.store hq hroom hv
  | publish =>
    obtain ⟨hv, e⟩ := Option.ite_none_right_eq_some.mp hs
    obtain rfl := Option.some.inj e
    exact hi.publish hv
  | other m =>
    obtain ⟨⟨hsame, hv⟩, e⟩ := Option.ite_none_right_eq_some.mp hs
    obtain rfl := Option.some.inj e
    exact hi.other hq hsame hv
  | call =>
    simp only [step] at hs
    split at hs
    · obtain rfl := Option.some.inj hs
      rw [pop_access ck (by rw [hi.config.availRing, hi.config.size]; exact hb)]
      exact hi.popping (.inl rfl)
    · cases hs
  | access =>
    simp only [step] at hs
    split at hs
    · rename_i p hd
      obtain ⟨⟨p', m⟩, hn, rfl⟩ := Option.map_eq_some_iff.mp hs
      exact (hi.access hq hmax hb hd hn).1
    · cases hs

theorem inv_reachable (h : (system ck mm av q).Reachable s) : Inv ck mm av q s := by
  refine h.invariant (I := Inv ck mm av q) ?_ fun s l s' hi hs => inv_step hq hmax hb hi hs
  rintro s ⟨rfl, hidx, hdev, hpub, hst, hpop, hnones⟩
  have hlive : s.live = [] := by rw [State.live, hpub, hst, hpop]; rfl
  have hpend : s.pending = 0 := by rw [State.pending, hpub, hpop]; rfl
  refine ⟨.refl _, ⟨[], by rw [List.append_nil, hpop, hpub]⟩, by rw [hpend, ahead_zero]; exact hidx,
    by rw [hpend, hst]; exact Nat.zero_le _, ?_, ?_, ?_, ?_⟩
  · intro i h hget; rw [hlive] at hget; cases hget
  · intro h hmem; rw [hlive] at hmem; cases hmem
  · unfold Phase; rw [hdev]; trivial
  · rw [hnones]
    exact nofun

end

/-- In every state reached by any interleaving, over runs of any length: the
heads popped are a prefix of the heads published, `pop` has returned `none`, and
ends without a chain, only when they are all of them, and `len` is the number of
the others; and `pop` does not panic. -/
theorem availRing_fifo (hq : q.Sized) (hmax : q.maxSize.toNat ≤ 1024)
    (hb : mm.Backs q.availRing (6 + 2 * q.size.toNat) av) (h : (system ck mm av q).Reachable s) :
    s.popped <+: s.published ∧
    (∀ x ∈ s.nones, x.1 = x.2) ∧ (ReturnsNone ck mm s → s.popped = s.published) ∧
    (∃ n, s.queue.len.run (mm.handler ck) s.mem = some (n, s.mem) ∧
      n.toNat = s.published.length - s.popped.length) ∧
    s.device ≠ .panicked := by
  have hi := inv_reachable hq hmax hb h
  refine ⟨hi.order, hi.nones, ?_, ?_, ?_⟩
  · rintro ⟨p, q', m, hd, hn⟩
    have h0 := (hi.access hq hmax hb hd hn).2 q' rfl
    have := hi.order.length_le
    exact hi.order.eq_of_length_le (by simp only [State.pending] at h0; omega)
  · refine ⟨_, Queue.run_len (by rw [hi.config.availRing, hi.config.size]; exact hb), ?_⟩
    rw [idx_sub hi, BitVec.toNat_ofNat, Nat.mod_eq_of_lt (pending_lt hi)]
    rfl
  · intro e
    have ph := hi.phase
    unfold Phase at ph
    rw [e] at ph
    exact ph

theorem availRing_fifo_one : ∃ s, (system true smallRam 0x2000 smallQueue).Reachable s ∧
    s.popped = [1] ∧ s.popped <+: s.published := by
  have hr : (([.store 1, .publish, .call, .access, .access, .access].foldlM
      (step true smallRam 0x2000) ⟨fun _ => 0, smallQueue, .idle, [], [], [], []⟩).map
      State.popped) = some [1] := by decide +kernel
  obtain ⟨s, hs, hp⟩ := Option.map_eq_some_iff.mp hr
  have h0 : (system true smallRam 0x2000 smallQueue).Reachable
      ⟨fun _ => 0, smallQueue, .idle, [], [], [], []⟩ :=
    .init ⟨rfl, by decide +kernel, rfl, rfl, rfl, rfl, rfl⟩
  have h := h0.foldlM _ hs
  exact ⟨s, h, hp, (availRing_fifo smallQueue_sized (by decide) smallQueue_rings.avail h).1⟩

end AvailRing

end Whypa
