import Whypa.Framework.Counter
import Whypa.Virtio.Rings

/-!
# Calls of `add_used`

`addUsed` writes an element of the used ring and then the ring's index. It drops a failure of
the first write, and counts the element before the second, so that it is all or nothing only if
neither write fails (`addUsed_allOrNothing_iff`). The elements that are counted are those that
`needsNotification` looks for the driver's event in; the count is exact for fewer than `2 ^ 16`
of them (`needsNotification_batch_iff`).
-/

namespace Whypa

open Framework Framework.Counter

namespace Queue

variable {ck : Bool} {mm : MemoryManager} {m m' : Mem} {q q' : Queue} {head : BitVec 16}
  {len : BitVec 32} {addr : GuestAddress}

/-! ## One call -/

/-- Where the next element of the used ring goes. -/
def usedElemAddr (q : Queue) : Option GuestAddress :=
  checkedAdd q.usedRing
    (VIRTQ_USED_RING_HEADER_SIZE + (q.nextUsed % q.size).setWidth 64 * VIRTQ_USED_ELEMENT_SIZE)

/-- Guest memory accepts the next element, at the host address `h`. -/
def ElementAt (ck : Bool) (mm : MemoryManager) (q : Queue) (h : Nat) : Prop :=
  ∃ addr, q.usedElemAddr = some addr ∧
    mm.locate ck addr 8 MemoryPerms.write .readOnly = some (.ok h)

/-- Guest memory accepts the index, at the host address `h`. -/
def IndexAt (mm : MemoryManager) (q : Queue) (h : Nat) : Prop :=
  ∃ addr, checkedAdd q.usedRing 2 = some addr ∧
    mm.locateAtomic addr MemoryPerms.write .readOnly = .ok h

/-- The queue with one more element in the used ring. -/
def counted (q : Queue) : Queue := { q with nextUsed := q.nextUsed + 1, numAdded := q.numAdded + 1 }

/-- `addUsed` returns; an error leaves the queue and the memory as they are, and without one both writes
are made. -/
def AllOrNothing (ck : Bool) (mm : MemoryManager) (q : Queue) (head : BitVec 16) (len : BitVec 32)
    (m : Mem) : Prop :=
  ∃ r q' m', Prog.run (mm.handler ck) (q.addUsed head len) m = some ((r, q'), m') ∧
    match r with
    | .error _ => q' = q ∧ m' = m
    | .ok _ => q' = q.counted ∧ ∃ h hi, q.ElementAt ck mm h ∧ q.IndexAt mm hi ∧
        m' = (m.write h (AsBytes.bytes (⟨head.setWidth 32, len⟩ : VirtqUsedElem))).putWord hi (q.nextUsed + 1)

theorem counted_ne (q : Queue) : q.counted ≠ q := fun h => by
  have hn : q.nextUsed + 1 = q.nextUsed := congrArg nextUsed h
  have h1 : (1 : BitVec 16) = 0 := BitVec.add_left_inj q.nextUsed |>.mp
    ((BitVec.add_comm 1 q.nextUsed).trans (hn.trans (BitVec.zero_add q.nextUsed).symm))
  exact absurd h1 (by decide)

/-- The index lies before every element. -/
theorem exists_indexAddr (ha : q.usedElemAddr = some addr) : ∃ addr, checkedAdd q.usedRing 2 = some addr := by
  have h4 : VIRTQ_USED_RING_HEADER_SIZE.toNat = 4 := rfl
  have h8 : VIRTQ_USED_ELEMENT_SIZE.toNat = 8 := rfl
  have hn := (q.nextUsed % q.size).isLt
  obtain ⟨hlt, -⟩ := checkedAdd_eq_some.mp ha
  rw [BitVec.toNat_add, BitVec.toNat_mul, BitVec.toNat_setWidth, h4, h8] at hlt
  have h2 : (2 : BitVec 64).toNat = 2 := rfl
  exact ⟨_, checkedAdd_of_lt (by rw [h2]; omega)⟩

/-- The second write, at whatever memory the first one leaves. -/
theorem run_publishUsed (hi : checkedAdd q.usedRing 2 = some addr) (m : Mem) :
    Prog.run (mm.handler ck) q.publishUsed m =
      some (((mm.store (q.nextUsed + 1) addr m).1.mapError .guestMemory, q.counted),
        (mm.store (q.nextUsed + 1) addr m).2) := by
  simp only [publishUsed, hi]
  rfl

/-- Once the head and the element's address are accepted, the queue counts the element whatever
becomes of the writes. -/
theorem run_addUsed (hlt : ¬ q.size ≤ head) (ha : q.usedElemAddr = some addr) (m : Mem) :
    Prog.run (mm.handler ck) (q.addUsed head len) m =
      (mm.writeGuestMemory ck (AsBytes.bytes (⟨head.setWidth 32, len⟩ : VirtqUsedElem)) addr m).bind
        fun r => Prog.run (mm.handler ck) q.publishUsed r.2 := by
  unfold usedElemAddr at ha
  simp only [addUsed, hlt, if_false, ha]
  rfl

/-- A call that is not refused at once is all or nothing if and only if both writes are accepted. -/
theorem allOrNothing_iff_writes (hlt : ¬ q.size ≤ head) (ha : q.usedElemAddr = some addr) :
    q.AllOrNothing ck mm head len m ↔ (∃ h, q.ElementAt ck mm h) ∧ ∃ hi, q.IndexAt mm hi := by
  obtain ⟨iaddr, hi⟩ := exists_indexAddr ha
  constructor
  · rintro ⟨r, q', m', hr, hx⟩
    have hq' : q' = q.counted := by
      rw [run_addUsed hlt ha] at hr
      obtain ⟨⟨e, m₁⟩, -, hr⟩ := Option.bind_eq_some_iff.mp hr
      rw [run_publishUsed hi] at hr
      exact (Prod.mk.inj (Prod.mk.inj (Option.some.inj hr)).1).2.symm
    cases r with
    | error e => exact absurd (hq'.symm.trans hx.1) q.counted_ne
    | ok u =>
      obtain ⟨-, h, hi, he, hidx, -⟩ := hx
      exact ⟨⟨h, he⟩, hi, hidx⟩
  · rintro ⟨⟨h, he⟩, hi', hidx⟩
    obtain ⟨addr', ha', hloc⟩ := id he
    obtain rfl := Option.some.inj (ha.symm.trans ha')
    obtain ⟨iaddr', hia, hiloc⟩ := id hidx
    refine ⟨.ok (), q.counted, _, ?_, rfl, h, hi', he, hidx, rfl⟩
    have hw : ∀ bs : List Byte, bs.length = 8 →
        mm.writeGuestMemory ck bs addr m = some (.ok (), m.write h bs) := fun bs hbs => by
      rw [MemoryManager.writeGuestMemory, hbs, hloc]
      rfl
    rw [run_addUsed hlt ha, hw _ (by simp [AsBytes.bytes]), Option.bind_some, run_publishUsed hia,
      MemoryManager.store, hiloc]
    rfl

/-- The condition of `addUsed` for being all or nothing. -/
theorem addUsed_allOrNothing_iff (ck : Bool) (mm : MemoryManager) (q : Queue) (head : BitVec 16)
    (len : BitVec 32) (m : Mem) : q.AllOrNothing ck mm head len m ↔
      q.size ≤ head ∨ q.usedElemAddr = none ∨ (∃ h, q.ElementAt ck mm h) ∧ ∃ hi, q.IndexAt mm hi := by
  by_cases hle : q.size ≤ head
  · refine iff_of_true ⟨.error .invalidDescriptorIndex, q, m, ?_, rfl, rfl⟩ (.inl hle)
    rw [addUsed, if_pos hle]
    rfl
  cases ha : q.usedElemAddr with
  | none =>
    refine iff_of_true ⟨.error .addressOverflow, q, m, ?_, rfl, rfl⟩ (.inr (.inl rfl))
    unfold usedElemAddr at ha
    simp only [addUsed, hle, if_false, ha]
    rfl
  | some addr =>
    rw [allOrNothing_iff_writes hle ha]
    exact ⟨fun h => .inr (.inr h), fun h => (h.resolve_left hle).resolve_left (Option.some_ne_none addr)⟩

/-- A used ring of one element that ends where the RAM does. -/
def lastQueue : Queue := { smallQueue with size := 1, usedRing := 0xfff4 }

/-- The element is not written, the index is, and the call succeeds. -/
theorem addUsed_drops_element :
    Prog.run (smallRam.handler true) (lastQueue.addUsed 0 0) (fun _ => 0) =
        some ((.ok (), lastQueue.counted), Mem.putWord (fun _ => 0) 0xfff6 (1 : BitVec 16)) ∧
      ¬ lastQueue.AllOrNothing true smallRam 0 0 fun _ => 0 := by
  have hr : Prog.run (smallRam.handler true) (lastQueue.addUsed 0 0) (fun _ => 0) =
      some ((.ok (), lastQueue.counted), Mem.putWord (fun _ => 0) 0xfff6 (1 : BitVec 16)) := rfl
  refine ⟨hr, fun ⟨r, q', m', hr', hx⟩ => ?_⟩
  obtain ⟨rfl, -⟩ := Prod.mk.inj (Prod.mk.inj (Option.some.inj (hr.symm.trans hr'))).1
  obtain ⟨-, h, hi, ⟨addr, ha, hloc⟩, -⟩ := hx
  obtain rfl := Option.some.inj (ha.symm.trans (show lastQueue.usedElemAddr = some 0xfff8 by decide))
  have hno : smallRam.locate true 0xfff8 8 MemoryPerms.write .readOnly = some (.error .exceeds) := by
    decide +kernel
  cases hno.symm.trans hloc

/-! ## A batch of calls -/

/-- `q'` is `q` after `n` successful calls of `addUsed`, each in the memory of its moment, and after
steps that leave the two counters alone. -/
inductive Adds (ck : Bool) (mm : MemoryManager) (q : Queue) : Nat → Queue → Prop
  | nil : Adds ck mm q 0 q
  | added {n : Nat} {q' q'' : Queue} {head : BitVec 16} {len : BitVec 32} {m m' : Mem} (h : Adds ck mm q n q')
    (hr : Prog.run (mm.handler ck) (q'.addUsed head len) m = some ((.ok (), q''), m')) :
    Adds ck mm q (n + 1) q''
  | other {n : Nat} {q' q'' : Queue} (h : Adds ck mm q n q') (hu : q''.nextUsed = q'.nextUsed)
    (hn : q''.numAdded = q'.numAdded) : Adds ck mm q n q''

theorem counted_of_addUsed (h : Prog.run (mm.handler ck) (q.addUsed head len) m = some ((.ok (), q'), m')) :
    q' = q.counted := by
  by_cases hle : q.size ≤ head
  · rw [addUsed, if_pos hle] at h
    cases (Prod.mk.inj (Prod.mk.inj (Option.some.inj h)).1).1
  cases ha : q.usedElemAddr with
  | none =>
    unfold usedElemAddr at ha
    simp only [addUsed, hle, if_false, ha] at h
    cases (Prod.mk.inj (Prod.mk.inj (Option.some.inj h)).1).1
  | some addr =>
    obtain ⟨iaddr, hi⟩ := exists_indexAddr ha
    rw [run_addUsed hle ha] at h
    obtain ⟨⟨e, m₁⟩, -, h⟩ := Option.bind_eq_some_iff.mp h
    rw [run_publishUsed hi] at h
    exact (Prod.mk.inj (Prod.mk.inj (Option.some.inj h)).1).2.symm

theorem Adds.counters {n : Nat} (h : q.Adds ck mm n q') :
    q'.nextUsed = ahead q.nextUsed n ∧ q'.numAdded = ahead q.numAdded n := by
  induction h with
  | nil => exact ⟨(ahead_zero _).symm, (ahead_zero _).symm⟩
  | added _ hr ih =>
    rw [counted_of_addUsed hr]
    exact ⟨(congrArg (· + 1) ih.1).trans (ahead_succ ..), (congrArg (· + 1) ih.2).trans (ahead_succ ..)⟩
  | other _ hu hn ih => exact ⟨hu.trans ih.1, hn.trans ih.2⟩

/-- The test compares with the number of elements counted. -/
theorem eventPassed_iff (q : Queue) (ev : BitVec 16) :
    q.eventPassed ev = true ↔ (q.nextUsed - ev - 1).toNat < q.numAdded.toNat := by
  have hsub : q.nextUsed - (q.nextUsed - q.numAdded) = q.numAdded := by
    rw [BitVec.sub_eq_iff_eq_add, BitVec.add_comm, BitVec.sub_add_cancel]
  rw [eventPassed, hsub, decide_eq_true_eq, BitVec.lt_def]

theorem run_needsNotification (he : q.eventIdxEnabled = true) {ev : BitVec 16}
    (hev : Prog.run (mm.handler ck) q.usedEvent m = some (.ok ev, m)) :
    Prog.run (mm.handler ck) q.needsNotification m =
      some ((.ok (q.eventPassed ev), { q with numAdded := 0 }), m) := by
  rw [needsNotification, if_pos he, Prog.run_bind, hev]
  rfl

/-- After a batch that starts with nothing counted, as `needsNotification` leaves the queue, it says whether
an element with the event's index was added, if and only if the batch has fewer than `2 ^ 16` elements
or the event lies within the last `n % 2 ^ 16` of them. -/
theorem needsNotification_batch_iff {n : Nat} {ev : BitVec 16} (hz : q.numAdded = 0) (ha : q.Adds ck mm n q')
    (he : q'.eventIdxEnabled = true) (hev : Prog.run (mm.handler ck) q'.usedEvent m = some (.ok ev, m)) :
    (∃ b q'', Prog.run (mm.handler ck) q'.needsNotification m = some ((.ok b, q''), m) ∧
      (b = true ↔ ∃ i < n, ev = ahead q.nextUsed i)) ↔
    n < 2 ^ 16 ∨ (q'.nextUsed - ev - 1).toNat < n % 2 ^ 16 := by
  obtain ⟨hu, hn⟩ := ha.counters
  have hcount : q'.numAdded.toNat = n % 2 ^ 16 := by
    rw [hn, hz, toNat_ahead]
    exact congrArg (· % 2 ^ 16) (Nat.zero_add n)
  have hpass := q'.eventPassed_iff ev
  rw [hcount] at hpass
  have hresult : (∃ b q'', Prog.run (mm.handler ck) q'.needsNotification m = some ((.ok b, q''), m) ∧
      (b = true ↔ ∃ i < n, ev = ahead q.nextUsed i)) ↔
      (q'.eventPassed ev = true ↔ ∃ i < n, ev = ahead q.nextUsed i) := by
    rw [run_needsNotification he hev]
    constructor
    · rintro ⟨b, q'', hr, hb⟩
      obtain ⟨hb', -⟩ := Prod.mk.inj (Prod.mk.inj (Option.some.inj hr)).1
      rwa [Except.ok.inj hb']
    · exact fun h => ⟨_, _, rfl, h⟩
  rw [hresult, hpass]
  rcases Nat.lt_or_ge n (2 ^ 16) with hlt | hge
  · refine iff_of_true ?_ (.inl hlt)
    have hp := passed_iff q.nextUsed ev hlt
    rw [BitVec.lt_def, ← hu] at hp
    have hd : (q'.nextUsed - q.nextUsed).toNat = n % 2 ^ 16 := by
      rw [hu, ← ahead_zero q.nextUsed, ahead_ahead, Nat.zero_add, ahead_sub _ (Nat.zero_le n),
        BitVec.toNat_ofNat]
      rfl
    rwa [hd] at hp
  · have hall : ∃ i < n, ev = ahead q.nextUsed i := by
      refine ⟨(ev - q.nextUsed).toNat, (BitVec.isLt _).trans_le hge, ?_⟩
      rw [ahead, BitVec.ofNat_toNat, BitVec.setWidth_eq, BitVec.add_comm, BitVec.sub_add_cancel]
    rw [iff_true_right hall]
    exact ⟨.inr, fun h => h.resolve_left (Nat.not_lt.mpr hge)⟩

/-- A queue in RAM that has returned `n` chains since `needsNotification`. -/
def batchQueue (n : Nat) : Queue :=
  { smallQueue with
    eventIdxEnabled := true, nextUsed := BitVec.ofNat 16 n, numAdded := BitVec.ofNat 16 n }

theorem counted_batchQueue (n : Nat) : (batchQueue n).counted = batchQueue (n + 1) := by
  simp only [batchQueue, counted, BitVec.ofNat_add]
  rfl

theorem adds_batchQueue (n : Nat) : (batchQueue 0).Adds true smallRam n (batchQueue n) := by
  induction n with
  | zero => exact .nil
  | succ n ih =>
    have hu : smallRam.Backs (batchQueue n).usedRing (6 + 8 * (batchQueue n).size.toNat) 0x3000 :=
      smallRam_backs (by decide : (0x3000 : BitVec 64).toNat + (6 + 8 * (2 : BitVec 16).toNat) ≤ 0x10000)
    have h0 : (0 : BitVec 16) < (batchQueue n).size := (by decide : (0 : BitVec 16) < 2)
    have hr : Prog.run (smallRam.handler true) ((batchQueue n).addUsed 0 0) (fun _ => 0) = _ :=
      Prog.run_of_next (next_addUsed hu h0 0)
    rw [Prog.run_of_next (next_publishUsed hu)] at hr
    rw [← counted_batchQueue]
    exact ih.added hr

theorem run_usedEvent_batchQueue (n : Nat) :
    Prog.run (smallRam.handler true) (batchQueue n).usedEvent (fun _ => 0) = some (.ok 0, fun _ => 0) := by
  have ha : checkedAdd (batchQueue n).availRing
      (VIRTQ_AVAIL_RING_HEADER_SIZE + (batchQueue n).size.setWidth 64 * VIRTQ_AVAIL_ELEMENT_SIZE) =
        some 0x2008 := rfl
  simp only [usedEvent, ha]
  rfl

theorem needsNotification_batch_one : ∃ b q'',
    Prog.run (smallRam.handler true) (batchQueue 1).needsNotification (fun _ => 0) =
      some ((.ok b, q''), fun _ => 0) ∧
      (b = true ↔ ∃ i < 1, (0 : BitVec 16) = ahead (batchQueue 0).nextUsed i) :=
  (needsNotification_batch_iff rfl (adds_batchQueue 1) rfl (run_usedEvent_batchQueue 1)).mpr (.inl (by decide))

/-- A batch of `2 ^ 16` elements, of which the first has the driver's event as its index, is not announced. -/
theorem needsNotification_misses : (batchQueue 0).Adds true smallRam (2 ^ 16) (batchQueue (2 ^ 16)) ∧
    ∀ b q'', Prog.run (smallRam.handler true) (batchQueue (2 ^ 16)).needsNotification (fun _ => 0) =
        some ((.ok b, q''), fun _ => 0) →
      ¬ (b = true ↔ ∃ i < 2 ^ 16, (0 : BitVec 16) = ahead (batchQueue 0).nextUsed i) := by
  refine ⟨adds_batchQueue _, fun b q'' hr h => ?_⟩
  rw [run_needsNotification rfl (run_usedEvent_batchQueue _)] at hr
  obtain ⟨hb, -⟩ := Prod.mk.inj (Prod.mk.inj (Option.some.inj hr)).1
  have hb' : b = false := (Except.ok.inj hb).symm.trans (by decide)
  rw [hb'] at h
  exact absurd (h.mpr ⟨0, by decide, by decide⟩) Bool.false_ne_true

end Queue

end Whypa
