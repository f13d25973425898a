import Whypa.Memory.Backing
import Whypa.Virtio.Queue

/-!
# The queue's accesses to its rings

What each access of a queue operation reads or writes when the rings lie in
mapped memory (`Queue.Rings`): the available ring from `av`, the used ring from
`us` in the host's memory. Each lemma performs one access (`Prog.next`) and
names the rest of the operation.
-/

namespace Whypa

open Framework

/-- The accesses that do not change memory. -/
def Access.isRead : Access → Prop
  | .read .. | .load _ | .overflow => True
  | .write .. | .store .. => False

theorem handler_isRead {ck : Bool} {mm : MemoryManager} {a : Access} {m m' : Mem} {r : a.Answer}
    (ha : a.isRead) (h : mm.handler ck a m = some (r, m')) : m' = m := by
  cases a with
  | read gpa n =>
    simp only [MemoryManager.handler, Option.map_eq_some_iff, Prod.mk.injEq] at h
    obtain ⟨_, -, -, e⟩ := h
    exact e.symm
  | load addr =>
    simp only [MemoryManager.handler, Option.some.injEq, Prod.mk.injEq] at h
    exact h.2.symm
  | overflow =>
    simp only [MemoryManager.handler] at h
    split at h
    · cases h
    · simp only [Option.some.injEq, Prod.mk.injEq] at h
      exact h.2.symm
  | write bytes gpa => exact ha.elim
  | store val addr => exact ha.elim

/-- A program that only reads leaves memory as it is. -/
theorem next_of_isRead {α : Type} {ck : Bool} {mm : MemoryManager} {p p' : VProg α} {m m' : Mem}
    {Q : α → Prop} (hp : Prog.Always (mm.handler ck) Access.isRead Q p)
    (h : Prog.next (mm.handler ck) p m = some (p', m')) :
    Prog.Always (mm.handler ck) Access.isRead Q p' ∧ m' = m := by
  obtain ⟨hp', a, ha, r, e⟩ := hp.next h
  exact ⟨hp', handler_isRead ha e⟩

/-- A read that does not run over the end of the address space is answered. -/
theorem handler_read_ne_none {ck : Bool} {mm : MemoryManager} {gpa : GuestAddress} {n : Nat}
    (hn : gpa.toNat + n < 2 ^ 64) (m : Mem) : mm.handler ck (.read gpa n) m ≠ none := by
  have hn' : (BitVec.ofNat 64 n).toNat = n := by
    rw [BitVec.toNat_ofNat, Nat.mod_eq_of_lt (by omega)]
  have hl : ∀ allowed denied, mm.locate ck gpa n allowed denied ≠ none := by
    intro allowed denied
    simp only [MemoryManager.locate,
      plainAdd_of_lt ck (show gpa.toNat + (BitVec.ofNat 64 n).toNat < 2 ^ 64 by omega)]
    split
    · exact Option.some_ne_none _
    · split
      · exact Option.some_ne_none _
      · split
        · exact Option.some_ne_none _
        · split <;> exact Option.some_ne_none _
  simp only [MemoryManager.handler, MemoryManager.readGuestMemory, ne_eq, Option.map_eq_none_iff]
  exact hl _ _

namespace DescriptorChain

/-- Where entry `i` of the descriptor table starts. -/
theorem toNat_tableOffset (i : BitVec 16) : (i.setWidth 64 * 16 : BitVec 64).toNat = 16 * i.toNat := by
  have := i.isLt
  rw [BitVec.toNat_mul, BitVec.toNat_setWidth, show (16 : BitVec 64).toNat = 16 from rfl]
  omega

theorem always_checkedNew {ck : Bool} {mm : MemoryManager} {descTable : GuestAddress}
    {queueSize : BitVec 16} (hd : descTable.toNat + 16 * queueSize.toNat < 2 ^ 64)
    (index : BitVec 16) :
    Prog.Always (mm.handler ck) Access.isRead (fun c => ∀ d ∈ c, d.index = index ∧ index < queueSize)
      (checkedNew descTable queueSize index) := by
  unfold checkedNew
  split
  · intro d hd; cases hd
  rename_i hi
  have hi := BitVec.lt_def.mp (BitVec.not_le.mp hi)
  have ho := toNat_tableOffset index
  rw [checkedAdd_of_lt (by omega)]
  refine ⟨trivial, handler_read_ne_none ?_, fun m r m' _ => ?_⟩
  · rw [BitVec.toNat_add_of_lt (by omega), ho]
    show descTable.toNat + 16 * index.toNat + 16 < 2 ^ 64
    omega
  · cases r with
    | error e => intro d hd; cases hd
    | ok bs =>
      intro d hd
      simp only [Option.mem_def] at hd
      split at hd
      · obtain rfl := Option.some.inj hd
        exact ⟨rfl, BitVec.lt_def.mpr hi⟩
      · cases hd

end DescriptorChain

/-- Memory with an element of the used ring stored at `a`. -/
def writeElement (m : Mem) (a : Nat) (h : BitVec 16) (len : BitVec 32) : Mem :=
  (m.putWord a (h.setWidth 32)).putWord (a + 4) len

theorem writeElement_apply {m : Mem} {a x : Nat} {h : BitVec 16} {len : BitVec 32}
    (hx : x < a ∨ a + 8 ≤ x) : writeElement m a h len x = m x := by
  have h4 : ∀ v : BitVec 32, (leBytes (32 / 8) v.toNat).length = 4 := fun v => length_leBytes ..
  have hx₁ : x < a ∨ a + (leBytes (32 / 8) (h.setWidth 32 : BitVec 32).toNat).length ≤ x := by
    rw [h4]; omega
  have hx₂ : x < a + 4 ∨ a + 4 + (leBytes (32 / 8) len.toNat).length ≤ x := by
    rw [h4]; omega
  rw [writeElement, Mem.putWord, Mem.write_apply hx₂, Mem.putWord, Mem.write_apply hx₁]

namespace Queue

/-- `q'` is the queue `q`, at other positions in its rings. -/
structure SameConfig (q q' : Queue) : Prop where
  maxSize : q'.maxSize = q.maxSize
  size : q'.size = q.size
  ready : q'.ready = q.ready
  descTable : q'.descTable = q.descTable
  availRing : q'.availRing = q.availRing
  usedRing : q'.usedRing = q.usedRing
  eventIdx : q'.eventIdxEnabled = q.eventIdxEnabled

theorem SameConfig.refl (q : Queue) : q.SameConfig q := ⟨rfl, rfl, rfl, rfl, rfl, rfl, rfl⟩

theorem SameConfig.trans {q q' q'' : Queue} (h : q.SameConfig q') (h' : q'.SameConfig q'') :
    q.SameConfig q'' :=
  ⟨h'.1.trans h.1, h'.2.trans h.2, h'.3.trans h.3, h'.4.trans h.4, h'.5.trans h.5, h'.6.trans h.6,
    h'.7.trans h.7⟩

theorem SameConfig.symm {q q' : Queue} (h : q.SameConfig q') : q'.SameConfig q :=
  ⟨h.1.symm, h.2.symm, h.3.symm, h.4.symm, h.5.symm, h.6.symm, h.7.symm⟩

theorem SameConfig.actualSize {q q' : Queue} (h : q.SameConfig q') :
    q'.actualSize = q.actualSize := by
  unfold Queue.actualSize
  rw [h.size, h.maxSize]

/-- The rings of `q` are mapped, from `av` and from `us` in the host's memory,
and do not overlap; the descriptor table ends inside the address space. -/
structure Rings (q : Queue) (mm : MemoryManager) (av us : Nat) : Prop where
  desc : q.descTable.toNat + 16 * q.size.toNat < 2 ^ 64
  avail : mm.Backs q.availRing (6 + 2 * q.size.toNat) av
  used : mm.Backs q.usedRing (6 + 8 * q.size.toNat) us
  disjoint : av + (6 + 2 * q.size.toNat) ≤ us ∨ us + (6 + 8 * q.size.toNat) ≤ av

theorem Rings.config {q q' : Queue} {mm : MemoryManager} {av us : Nat} (h : q.Rings mm av us)
    (hc : q.SameConfig q') : q'.Rings mm av us := by
  obtain ⟨ht, ha, hu, hd⟩ := h
  rw [← hc.descTable, ← hc.size] at ht
  rw [← hc.availRing, ← hc.size] at ha
  rw [← hc.usedRing, ← hc.size] at hu
  rw [← hc.size] at hd
  exact ⟨ht, ha, hu, hd⟩

/-- The size is a power of two that the device offers. -/
structure Sized (q : Queue) : Prop where
  pow2 : ∃ k, q.size.toNat = 2 ^ k
  le_max : q.size ≤ q.maxSize

theorem Sized.pos {q : Queue} (h : q.Sized) : 0 < q.size.toNat := by
  obtain ⟨k, hk⟩ := h.pow2
  rw [hk]
  exact Nat.two_pow_pos k

theorem Sized.dvd {q : Queue} (h : q.Sized) : q.size.toNat ∣ 2 ^ 16 := by
  obtain ⟨k, hk⟩ := h.pow2
  have hlt : 2 ^ k < 2 ^ 16 := hk ▸ q.size.isLt
  rw [hk]
  exact Nat.pow_dvd_pow 2 ((Nat.pow_lt_pow_iff_right (by decide)).mp hlt).le

theorem Sized.config {q q' : Queue} (h : q.Sized) (hc : q.SameConfig q') : q'.Sized := by
  obtain ⟨hp, hm⟩ := h
  rw [← hc.size] at hp
  rw [← hc.size, ← hc.maxSize] at hm
  exact ⟨hp, hm⟩

variable {ck : Bool} {mm : MemoryManager} {q : Queue} {av us : Nat} {m : Mem}

theorem actualSize_of_le (h : q.size ≤ q.maxSize) : q.actualSize = q.size := if_pos h

/-! ## The available ring -/

theorem availIdx_eq (hb : mm.Backs q.availRing (6 + 2 * q.size.toNat) av) :
    q.availIdx = .access (.load (q.availRing + 2)) fun r => .pure (Except.mapError .guestMemory r) := by
  have h2 : (2 : BitVec 64).toNat < 6 + 2 * q.size.toNat := by simp; omega
  rw [availIdx, hb.checkedAdd h2]
  rfl

theorem load_availIdx (hb : mm.Backs q.availRing (6 + 2 * q.size.toNat) av) (m : Mem) :
    mm.handler ck (.load (q.availRing + 2)) m = some (.ok (m.word (av + 2) 16), m) := by
  have h2 : (2 : BitVec 64).toNat < 6 + 2 * q.size.toNat := by simp; omega
  exact (hb.sub (hb.toNat_add h2) (n := 2) (by simp; omega)).load ck (by omega) m

theorem run_len (hb : mm.Backs q.availRing (6 + 2 * q.size.toNat) av) :
    Prog.run (mm.handler ck) q.len m = some (m.word (av + 2) 16 - q.nextAvail, m) := by
  rw [len, availIdx_eq hb]
  simp only [Prog.access_bind, Prog.run_access, load_availIdx hb, Option.bind_some]
  rfl

theorem next_pop (hb : mm.Backs q.availRing (6 + 2 * q.size.toNat) av) :
    Prog.next (mm.handler ck) q.pop m = some (q.popHead (m.word (av + 2) 16 - q.nextAvail), m) := by
  rw [pop, len, availIdx_eq hb]
  simp only [Prog.access_bind, Prog.next, load_availIdx hb]
  rfl

theorem popHead_zero : q.popHead 0 = .pure (none, q) := if_pos (.inl rfl)

/-- The slot of the available ring for the index `c`. -/
def availSlot (q : Queue) (av : Nat) (c : BitVec 16) : Nat := av + (4 + 2 * (c.toNat % q.size.toNat))

/-- `pop` reads the slot of its index. -/
theorem popHead_eq {pending : BitVec 16} (hp : pending ≠ 0) (h0 : 0 < q.actualSize.toNat)
    (h1024 : q.actualSize.toNat ≤ 1024)
    (hend : q.availRing.toNat + (6 + 2 * q.actualSize.toNat) ≤ 2 ^ 64) :
    ∃ o : BitVec 64, o.toNat = 4 + 2 * (q.nextAvail.toNat % q.actualSize.toNat) ∧
      q.popHead pending = .access (.read (q.availRing + o) 2) fun r =>
        VProg.unwrap (Except.map FromBytes.ofBytes r) >>= q.popChain := by
  have hz : ¬ (pending = 0 ∨ q.actualSize = 0) := by
    rintro (h | h)
    · exact hp h
    · rw [h] at h0; exact absurd h0 (by decide)
  have hi : (q.nextAvail % q.actualSize).toNat = q.nextAvail.toNat % q.actualSize.toNat :=
    BitVec.toNat_umod
  have hlt : q.nextAvail.toNat % q.actualSize.toNat < q.actualSize.toNat := Nat.mod_lt _ h0
  have hm : (2 : BitVec 16).toNat * (q.nextAvail % q.actualSize).toNat < 2 ^ 16 := by
    rw [hi, show (2 : BitVec 16).toNat = 2 from rfl]
    omega
  have hm' : (2 * (q.nextAvail % q.actualSize)).toNat =
      2 * (q.nextAvail.toNat % q.actualSize.toNat) := by
    rw [BitVec.toNat_mul, Nat.mod_eq_of_lt hm, hi]
    rfl
  have ha : (4 : BitVec 16).toNat + (2 * (q.nextAvail % q.actualSize)).toNat < 2 ^ 16 := by
    rw [hm', show (4 : BitVec 16).toNat = 4 from rfl]
    omega
  have ho : ((4 + 2 * (q.nextAvail % q.actualSize)).setWidth 64).toNat =
      4 + 2 * (q.nextAvail.toNat % q.actualSize.toNat) := by
    rw [BitVec.toNat_setWidth, BitVec.toNat_add_of_lt ha, hm', show (4 : BitVec 16).toNat = 4 from rfl,
      Nat.mod_eq_of_lt (by omega)]
  refine ⟨(4 + 2 * (q.nextAvail % q.actualSize)).setWidth 64, ho, ?_⟩
  rw [popHead, if_neg hz, VProg.mul_of_lt hm]
  simp only [Prog.pure_bind, VProg.add_of_lt ha]
  rw [VProg.add_of_lt (by omega)]
  rfl

theorem next_popHead (hb : mm.Backs q.availRing (6 + 2 * q.size.toNat) av) {pending : BitVec 16}
    (hp : pending ≠ 0) (h0 : 0 < q.size.toNat) (hmax : q.size ≤ q.maxSize)
    (h1024 : q.maxSize.toNat ≤ 1024) :
    Prog.next (mm.handler ck) (q.popHead pending) m =
      some (q.popChain (m.word (q.availSlot av q.nextAvail) 16), m) := by
  have hs := actualSize_of_le hmax
  have hle : q.size.toNat ≤ 1024 := (BitVec.le_def.mp hmax).trans h1024
  obtain ⟨o, ho, e⟩ := popHead_eq hp (hs ▸ h0) (hs ▸ hle) (hs ▸ hb.end_le)
  rw [hs] at ho
  have hlt := Nat.mod_lt q.nextAvail.toNat h0
  have hadd := hb.toNat_add (o := o) (by omega)
  have hr := (hb.sub (n := 3) hadd (by omega)).read ck (show 2 < 3 by decide) m
  rw [ho] at hr
  simp only [e, Prog.next, hr]
  rfl

/-- `i` is the index of a table entry that can be read and does not point
outside the table. -/
def validHead (ck : Bool) (mm : MemoryManager) (q : Queue) (m : Mem) (i : BitVec 16) : Bool :=
  i < q.actualSize &&
    match checkedAdd q.descTable (i.setWidth 64 * 16) with
    | none => false
    | some addr =>
      match mm.readGuestMemory ck addr 16 m with
      | some (.ok bs) =>
        (DescriptorChain.ofDescriptor q.descTable q.actualSize i (FromBytes.ofBytes bs)).isValid
      | _ => false

theorem validHead_congr {q' : Queue} (hc : q.SameConfig q') :
    validHead ck mm q' = validHead ck mm q := by
  funext m i
  unfold validHead
  rw [hc.actualSize, hc.descTable]

/-- `pop` takes a valid head. -/
theorem next_popChain {i : BitVec 16} (hv : validHead ck mm q m i = true) :
    ∃ c, c.index = i ∧ Prog.next (mm.handler ck) (q.popChain i) m =
      some (.pure (some c, { q with nextAvail := q.nextAvail + 1 }), m) := by
  simp only [validHead, Bool.and_eq_true, decide_eq_true_eq] at hv
  obtain ⟨hi, hv⟩ := hv
  split at hv
  · cases hv
  rename_i addr haddr
  split at hv
  · rename_i bs hbs
    refine ⟨DescriptorChain.ofDescriptor q.descTable q.actualSize i (FromBytes.ofBytes bs), rfl, ?_⟩
    have hr : mm.handler ck (.read addr 16) m = some (.ok bs, m) := by
      simp only [MemoryManager.handler, hbs, Option.map_some]
    simp only [popChain, DescriptorChain.checkedNew, BitVec.not_le.mpr hi, if_false, haddr, readObj,
      VProg.read, FromBytes.size, Prog.access_bind, Prog.next, hr, Prog.pure_bind', Prog.pure_bind,
      Except.map, hv, if_true, Option.isSome_some]
    rfl
  · cases hv

/-- What `pop` returns: the queue as it is, or a chain of the queue and the
queue one position further. -/
def Popped (q : Queue) (r : Option DescriptorChain × Queue) : Prop :=
  (r.1 = none ∧ r.2 = q) ∨
    (∃ c, r.1 = some c ∧ c.index < q.actualSize) ∧ r.2 = { q with nextAvail := q.nextAvail + 1 }

theorem always_popChain (hd : q.descTable.toNat + 16 * q.size.toNat < 2 ^ 64)
    (hmax : q.size ≤ q.maxSize) (i : BitVec 16) :
    Prog.Always (mm.handler ck) Access.isRead q.Popped (q.popChain i) := by
  rw [← actualSize_of_le hmax] at hd
  refine (DescriptorChain.always_checkedNew hd i).bind fun c hc => ?_
  cases c with
  | none => exact .inl ⟨rfl, rfl⟩
  | some c => exact .inr ⟨⟨c, rfl, (hc c rfl).1 ▸ (hc c rfl).2⟩, rfl⟩

/-- What `pop` reads can be read: the index and every slot of the available
ring; and the ring and the descriptor table end inside the address space. -/
structure AvailReadable (q : Queue) (mm : MemoryManager) : Prop where
  desc : q.descTable.toNat + 16 * q.size.toNat < 2 ^ 64
  fits : q.availRing.toNat + (6 + 2 * q.size.toNat) ≤ 2 ^ 64
  idx : mm.Readable (q.availRing + 2) 0
  slots : ∀ a : GuestAddress, ∀ i < q.size.toNat, a.toNat = q.availRing.toNat + (4 + 2 * i) →
    mm.Readable a 2

theorem Rings.availReadable (hr : q.Rings mm av us) : q.AvailReadable mm := by
  have h2 : (2 : BitVec 64).toNat = 2 := rfl
  refine ⟨hr.desc, hr.avail.end_le, ?_, fun a i hi ha => ?_⟩
  · exact (hr.avail.sub (n := 1) (hr.avail.toNat_add (by rw [h2]; omega)) (by rw [h2]; omega)).readable
      (by omega)
  · exact (hr.avail.sub (n := 3) ha (by omega)).readable (by omega)

/-- `len` only reads, and never panics. -/
theorem always_len (hr : q.AvailReadable mm) :
    Prog.Always (mm.handler ck) Access.isRead (fun _ => True) q.len := by
  have h2 : (2 : BitVec 64).toNat = 2 := rfl
  have hfits := hr.fits
  obtain ⟨a, hl⟩ := hr.idx.load ck
  have he : q.len = .access (.load (q.availRing + 2)) fun r =>
      VProg.unwrap (Except.mapError QueueError.guestMemory r) >>= fun idx =>
        pure (idx - q.nextAvail) := by
    rw [len, availIdx, checkedAdd_of_lt (by rw [h2]; omega)]
    rfl
  rw [he]
  refine ⟨trivial, fun m => by rw [hl]; exact Option.some_ne_none _, fun m r m' e => ?_⟩
  rw [hl] at e
  obtain ⟨rfl, rfl⟩ := Prod.mk.inj (Option.some.inj e)
  trivial

/-- `pop` only reads, and never panics. -/
theorem always_pop (hr : q.AvailReadable mm) (h0 : 0 < q.size.toNat) (hmax : q.size ≤ q.maxSize)
    (h1024 : q.maxSize.toNat ≤ 1024) :
    Prog.Always (mm.handler ck) Access.isRead q.Popped q.pop := by
  refine (always_len hr).bind fun n _ => ?_
  by_cases hn : n = 0
  · rw [hn, popHead_zero]
    exact .inl ⟨rfl, rfl⟩
  · have hs := actualSize_of_le hmax
    have hle : q.size.toNat ≤ 1024 := (BitVec.le_def.mp hmax).trans h1024
    obtain ⟨o, ho, e⟩ := popHead_eq hn (hs ▸ h0) (hs ▸ hle) (hs ▸ hr.fits)
    rw [hs] at ho
    have hlt := Nat.mod_lt q.nextAvail.toNat h0
    have hfits := hr.fits
    obtain ⟨a, hread⟩ := (hr.slots (q.availRing + o) _ hlt
      (by rw [BitVec.toNat_add_of_lt (by omega), ho])).read ck
    rw [e]
    refine ⟨trivial, fun m => by rw [hread]; exact Option.some_ne_none _, fun m r m' e => ?_⟩
    rw [hread] at e
    obtain ⟨rfl, rfl⟩ := Prod.mk.inj (Option.some.inj e)
    exact always_popChain hr.desc hmax _

/-- The queue is one `pop` works on. -/
structure Popable (q : Queue) (mm : MemoryManager) (av us : Nat) : Prop where
  rings : q.Rings mm av us
  pos : 0 < q.size.toNat
  le_max : q.size ≤ q.maxSize
  max_le : q.maxSize.toNat ≤ 1024

theorem Popable.config {q' : Queue} (h : q.Popable mm av us) (hc : q.SameConfig q') :
    q'.Popable mm av us :=
  ⟨h.rings.config hc, by rw [hc.size]; exact h.pos, by rw [hc.size, hc.maxSize]; exact h.le_max,
    by rw [hc.maxSize]; exact h.max_le⟩

theorem Popable.always_pop (h : q.Popable mm av us) :
    Prog.Always (mm.handler ck) Access.isRead q.Popped q.pop :=
  Queue.always_pop h.rings.availReadable h.pos h.le_max h.max_le

theorem Popped.sameConfig {r : Option DescriptorChain × Queue} (h : q.Popped r) :
    q.SameConfig r.2 := by
  rcases h with ⟨-, h⟩ | ⟨-, h⟩ <;> rw [h]
  · exact .refl q
  · exact ⟨rfl, rfl, rfl, rfl, rfl, rfl, rfl⟩

theorem Popped.nextUsed {r : Option DescriptorChain × Queue} (h : q.Popped r) :
    r.2.nextUsed = q.nextUsed := by
  rcases h with ⟨-, h⟩ | ⟨-, h⟩ <;> rw [h]

/-! ## The used ring -/

/-- The element of the used ring for the index `c`. -/
def usedSlot (q : Queue) (us : Nat) (c : BitVec 16) : Nat := us + (4 + 8 * (c.toNat % q.size.toNat))

/-- The offset of the next element. -/
theorem toNat_usedOffset (q : Queue) (h0 : 0 < q.size.toNat) :
    (VIRTQ_USED_RING_HEADER_SIZE + (q.nextUsed % q.size).setWidth 64 * VIRTQ_USED_ELEMENT_SIZE).toNat =
      4 + 8 * (q.nextUsed.toNat % q.size.toNat) := by
  have hi : (q.nextUsed % q.size).toNat = q.nextUsed.toNat % q.size.toNat := BitVec.toNat_umod
  have hlt := Nat.mod_lt q.nextUsed.toNat h0
  have hs := q.size.isLt
  rw [BitVec.toNat_add, BitVec.toNat_mul, BitVec.toNat_setWidth,
    show VIRTQ_USED_RING_HEADER_SIZE.toNat = 4 from rfl, show VIRTQ_USED_ELEMENT_SIZE.toNat = 8 from rfl, hi]
  omega

/-- The first access of `addUsed` writes the element. -/
theorem next_addUsed (hu : mm.Backs q.usedRing (6 + 8 * q.size.toNat) us) {h : BitVec 16}
    (hh : h < q.size) (len : BitVec 32) :
    Prog.next (mm.handler ck) (q.addUsed h len) m =
      some (q.publishUsed, writeElement m (q.usedSlot us q.nextUsed) h len) := by
  have h0 : 0 < q.size.toNat := by have := BitVec.lt_def.mp hh; omega
  have hlt := Nat.mod_lt q.nextUsed.toNat h0
  have ho := q.toNat_usedOffset h0
  have hol := ho.trans_lt (show _ < 6 + 8 * q.size.toNat by omega)
  have hw : ∀ (bs : List Byte), bs.length = 8 → ∀ m, mm.handler ck (.write bs
      (q.usedRing + (VIRTQ_USED_RING_HEADER_SIZE +
        (q.nextUsed % q.size).setWidth 64 * VIRTQ_USED_ELEMENT_SIZE))) m =
      some (.ok (), m.write (q.usedSlot us q.nextUsed) bs) := fun bs hbs m =>
    (hu.sub (n := 9) ((hu.toNat_add hol).trans (by rw [ho])) (by omega)).write ck (by omega) m
  simp only [addUsed, BitVec.not_le.mpr hh, if_false, hu.checkedAdd hol, writeObj, VProg.write,
    AsBytes.bytes, Prog.access_bind, Prog.next]
  rw [hw _ (by simp)]
  simp only [Mem.write_append, length_leBytes]
  rfl

/-- Its second access publishes it. -/
theorem next_publishUsed (hu : mm.Backs q.usedRing (6 + 8 * q.size.toNat) us) :
    Prog.next (mm.handler ck) q.publishUsed m =
      some (.pure (.ok (), { q with nextUsed := q.nextUsed + 1, numAdded := q.numAdded + 1 }),
        m.putWord (us + 2) (q.nextUsed + 1)) := by
  have h2 : (2 : BitVec 64).toNat < 6 + 8 * q.size.toNat := by
    rw [show (2 : BitVec 64).toNat = 2 from rfl]
    omega
  have hst : ∀ v m, mm.handler ck (.store v (q.usedRing + 2)) m =
      some (.ok (), m.putWord (us + 2) v) := fun v m =>
    (hu.sub (n := 2) (hu.toNat_add h2) (by rw [show (2 : BitVec 64).toNat = 2 from rfl]; omega)).store
      ck (by omega) v m
  simp only [publishUsed, hu.checkedAdd h2, VProg.store, Prog.access_bind, Prog.next, hst]
  rfl

/-! ## Notifications -/

/-- Where the driver looks whether it must notify: the `avail_event` or the
`flags` of the used ring. -/
def notifyAt (q : Queue) (us : Nat) : Nat := if q.eventIdxEnabled then us + (4 + 8 * q.size.toNat) else us

/-- What it finds there after `setNotification true`. -/
def armValue (q : Queue) : BitVec 16 := if q.eventIdxEnabled then q.nextAvail else 0

theorem toNat_availEvent (q : Queue) :
    (VIRTQ_USED_RING_HEADER_SIZE + VIRTQ_USED_ELEMENT_SIZE * q.size.setWidth 64).toNat =
      4 + 8 * q.size.toNat := by
  have := q.size.isLt
  have h4 : VIRTQ_USED_RING_HEADER_SIZE.toNat = 4 := rfl
  have h8 : VIRTQ_USED_ELEMENT_SIZE.toNat = 8 := rfl
  rw [BitVec.toNat_add, BitVec.toNat_mul, BitVec.toNat_setWidth, h4, h8]
  omega

/-- The first access of `enableNotification` writes the suppression state. -/
theorem next_enableNotification (hu : mm.Backs q.usedRing (6 + 8 * q.size.toNat) us) :
    Prog.next (mm.handler ck) q.enableNotification m =
      some (q.recheckAvail, m.putWord (q.notifyAt us) q.armValue) := by
  cases he : q.eventIdxEnabled with
  | true =>
    have ho := q.toNat_availEvent
    have hlt : (VIRTQ_USED_RING_HEADER_SIZE + VIRTQ_USED_ELEMENT_SIZE * q.size.setWidth 64).toNat <
        6 + 8 * q.size.toNat := by omega
    have hst : ∀ v m, mm.handler ck (.store v (q.usedRing + (VIRTQ_USED_RING_HEADER_SIZE +
        VIRTQ_USED_ELEMENT_SIZE * q.size.setWidth 64))) m =
        some (.ok (), m.putWord (us + (4 + 8 * q.size.toNat)) v) := fun v m =>
      (hu.sub (n := 2) ((hu.toNat_add hlt).trans (by rw [ho])) (by omega)).store ck (by omega) v m
    simp only [enableNotification, setNotification, he, if_true, setAvailEvent, hu.checkedAdd hlt,
      VProg.store, Prog.access_bind, Prog.next, hst, notifyAt, armValue]
    rfl
  | false =>
    have hst : ∀ v m, mm.handler ck (.store v q.usedRing) m = some (.ok (), m.putWord us v) := fun v m =>
      hu.store ck (by omega) v m
    simp only [enableNotification, setNotification, he, if_true, Bool.false_eq_true, if_false,
      setUsedFlags, VProg.store, Prog.access_bind, Prog.next, hst, notifyAt, armValue]
    rfl

/-- Its second access reads the driver's index again. -/
theorem next_recheckAvail (hb : mm.Backs q.availRing (6 + 2 * q.size.toNat) av) :
    Prog.next (mm.handler ck) q.recheckAvail m =
      some (.pure (.ok (m.word (av + 2) 16 != q.nextAvail)), m) := by
  rw [recheckAvail, availIdx_eq hb]
  simp only [Prog.access_bind, Prog.next, load_availIdx hb]
  rfl

theorem disableNotification_of_eventIdx (he : q.eventIdxEnabled = true) :
    q.disableNotification = .pure (.ok ()) := by
  simp only [disableNotification, setNotification, he]
  rfl

theorem next_disableNotification (hu : mm.Backs q.usedRing (6 + 8 * q.size.toNat) us)
    (he : q.eventIdxEnabled = false) :
    Prog.next (mm.handler ck) q.disableNotification m =
      some (.pure (.ok ()), m.putWord us VRING_USED_F_NO_NOTIFY) := by
  have hst : ∀ v m, mm.handler ck (.store v q.usedRing) m = some (.ok (), m.putWord us v) := fun v m =>
    hu.store ck (by omega) v m
  simp only [disableNotification, setNotification, he, Bool.not_false, if_true, Bool.false_eq_true,
    if_false, setUsedFlags, VProg.store, Prog.access_bind, Prog.next, hst]
  rfl

/-- Where the driver says which completion it wants to be interrupted for. -/
def usedEventAt (q : Queue) (av : Nat) : Nat := av + (4 + 2 * q.size.toNat)

/-- The access of `needsNotification` reads it. -/
theorem next_needsNotification (hb : mm.Backs q.availRing (6 + 2 * q.size.toNat) av)
    (he : q.eventIdxEnabled = true) :
    Prog.next (mm.handler ck) q.needsNotification m =
      some (.pure (.ok (q.eventPassed (m.word (q.usedEventAt av) 16)), { q with numAdded := 0 }),
        m) := by
  have hs := q.size.isLt
  have h4 : VIRTQ_AVAIL_RING_HEADER_SIZE.toNat = 4 := rfl
  have h2 : VIRTQ_AVAIL_ELEMENT_SIZE.toNat = 2 := rfl
  have ho : (VIRTQ_AVAIL_RING_HEADER_SIZE + q.size.setWidth 64 * VIRTQ_AVAIL_ELEMENT_SIZE).toNat =
      4 + 2 * q.size.toNat := by
    rw [BitVec.toNat_add, BitVec.toNat_mul, BitVec.toNat_setWidth, h4, h2]
    omega
  have hol := ho.trans_lt (show _ < 6 + 2 * q.size.toNat by omega)
  have hl : ∀ m, mm.handler ck (.load (q.availRing +
      (VIRTQ_AVAIL_RING_HEADER_SIZE + q.size.setWidth 64 * VIRTQ_AVAIL_ELEMENT_SIZE))) m =
      some (.ok (m.word (q.usedEventAt av) 16), m) := fun m =>
    (hb.sub (n := 2) ((hb.toNat_add hol).trans (by rw [ho])) (by omega)).load ck (by omega) m
  simp only [needsNotification, he, if_true, usedEvent, hb.checkedAdd hol, VProg.load,
    Prog.access_bind, Prog.next, hl]
  rfl

end Queue

/-! ## A queue in RAM -/

/-- The RAM of a guest with 64 KiB. -/
def smallRam : MemoryManager := allocateMemoryWithSize 0x10000 0 (by decide) (by decide)

/-- A queue of two entries in it. -/
def smallQueue : Queue :=
  { Queue.new 256 with
    size := 2, ready := true, descTable := 0x1000, availRing := 0x2000, usedRing := 0x3000 }

theorem smallRam_backs {gpa : GuestAddress} {len : Nat} (h : gpa.toNat + len ≤ 0x10000) :
    smallRam.Backs gpa len gpa.toNat := by
  have hb : smallRam.Backs gpa len (0 + gpa.toNat) := MemoryManager.backs_allocated (by decide) h
  rwa [Nat.zero_add] at hb

theorem smallQueue_sized : smallQueue.Sized := ⟨⟨1, rfl⟩, by decide⟩

theorem smallQueue_rings : smallQueue.Rings smallRam 0x2000 0x3000 :=
  ⟨by decide, smallRam_backs (by decide), smallRam_backs (by decide), .inl (by decide)⟩

theorem smallQueue_popable : smallQueue.Popable smallRam 0x2000 0x3000 :=
  ⟨smallQueue_rings, by decide, by decide, by decide⟩

end Whypa
