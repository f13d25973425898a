import Whypa.Virtio.Negotiation
import Whypa.Virtio.Rings

/-!
# The queues handed to a device

`activated_usable` says when the queues a device is activated with are the ones
its worker can use (`Queue.Usable`): `Queue.isValid` accepts them, and no
access of `len` and `pop` panics. The transport itself checks nothing, so it is
the guest that must have programmed them (`Queue.Programmed`) by the time it
sets `DRIVER_OK`.
-/

namespace Whypa

open Framework DeviceStatus

namespace MemoryManager

variable {ck : Bool} {mm : MemoryManager} {gpa : GuestAddress} {n : Nat}

instance (mm : MemoryManager) (gpa : GuestAddress) (n : Nat) : Decidable (mm.Readable gpa n) :=
  decidable_of_iff ((mm.findRegion gpa).any fun r =>
    r.perms.read && r.hpa.isSome && decide (gpa.toNat + n < r.gpa.toNat + r.size.toNat)) <| by
    rw [Option.any_eq_true]
    constructor
    · rintro ⟨r, hf, h⟩
      simp only [Bool.and_eq_true, decide_eq_true_eq, Option.isSome_iff_exists] at h
      obtain ⟨⟨hr, hpa, hh⟩, hlt⟩ := h
      exact ⟨r, hpa, hf, hr, hh, hlt⟩
    · rintro ⟨r, hpa, hf, hr, hh, hlt⟩
      exact ⟨r, hf, by simp [hr, hh, hlt]⟩

/-- An atomic word that can be loaded. -/
theorem readable_of_load {m : Mem} {v : BitVec 16} (h : mm.load 16 gpa m = .ok v) :
    mm.Readable gpa 0 := by
  unfold load at h
  split at h
  · rename_i a ha
    obtain ⟨r, hpa, hf, hr, hh, -⟩ := locateAtomic_eq_ok.mp ha
    exact ⟨r, hpa, hf, hr, hh, (findRegion_contains hf).2⟩
  · cases h

/-- Bytes that can be read in a build that checks for overflow. -/
theorem readable_of_read {m : Mem} {bs : List Byte} (hn : n < 2 ^ 64)
    (h : mm.readGuestMemory true gpa n m = some (.ok bs)) : mm.Readable gpa n := by
  obtain ⟨a, ha, e⟩ := Option.map_eq_some_iff.mp h
  cases a with
  | error err => cases e
  | ok a =>
    obtain ⟨r, hpa, hf, hr, hh, -, hlt⟩ :=
      (locate_eq_ok_of_lt (lt_of_locate_checked hn ha)).mp ha
    exact ⟨r, hpa, hf, hr, hh, hlt⟩

/-- `n` is an address of guest memory. -/
def Covers (mm : MemoryManager) (n : Nat) : Prop :=
  n < 2 ^ 64 ∧ mm.addressInRange (BitVec.ofNat 64 n) = true

instance (mm : MemoryManager) (n : Nat) : Decidable (mm.Covers n) :=
  inferInstanceAs (Decidable (_ ∧ _))

end MemoryManager

/-! ## Queues a worker can use -/

namespace Queue

variable {ck : Bool} {mm : MemoryManager} {q : Queue}

/-- What the guest must have written to the registers of a queue: it is ready,
its size is a power of two that the device offers, the rings are aligned and
their ends are addresses of guest memory, and the available ring can be read. -/
structure Programmed (q : Queue) (mm : MemoryManager) : Prop where
  ready : q.ready = true
  pow2 : q.size.toNat.isPowerOfTwo
  le_max : q.size ≤ q.maxSize
  desc : mm.Covers (q.descTable.toNat + 16 * q.size.toNat)
  avail : mm.Covers (q.availRing.toNat + (6 + 2 * q.size.toNat))
  used : mm.Covers (q.usedRing.toNat + (6 + 8 * q.size.toNat))
  aligned : q.descTable.toNat % 16 = 0 ∧ q.availRing.toNat % 2 = 0 ∧ q.usedRing.toNat % 4 = 0
  idx : mm.Readable (q.availRing + 2) 0
  slots : ∀ i < q.size.toNat, mm.Readable (q.availRing + BitVec.ofNat 64 (4 + 2 * i)) 2

/-- `isValid` accepts the queue, and in either build, at every position of the
device and whatever the driver writes meanwhile, `len` and `pop` do not panic. -/
structure Usable (q : Queue) (mm : MemoryManager) : Prop where
  valid : q.isValid mm = true
  len : ∀ ck n, Prog.Always (mm.handler ck) (fun _ => True) (fun _ => True)
    { q with nextAvail := n }.len
  pop : ∀ ck n, Prog.Always (mm.handler ck) (fun _ => True) (fun _ => True)
    { q with nextAvail := n }.pop

theorem endInRange_iff {a n : BitVec 64} {k : Nat} (hn : n.toNat = k) :
    endInRange mm a n = true ↔ mm.Covers (a.toNat + k) := by
  subst hn
  unfold endInRange MemoryManager.Covers
  by_cases h : a.toNat + n.toNat < 2 ^ 64
  · have ha : a + n = BitVec.ofNat 64 (a.toNat + n.toNat) := by
      apply BitVec.eq_of_toNat_eq
      rw [BitVec.toNat_add_of_lt h, BitVec.toNat_ofNat, Nat.mod_eq_of_lt h]
    rw [checkedAdd_of_lt h, ha]
    exact ⟨fun hr => ⟨h, hr⟩, fun hr => hr.2⟩
  · rw [checkedAdd, if_neg h]
    exact ⟨fun hr => (by cases hr), fun hr => absurd hr.1 h⟩

theorem and_mask_eq_zero_iff {a : BitVec 64} (mask : BitVec 64) (k : Nat) {d : Nat} (hd : 2 ^ k = d)
    (hm : mask.toNat = d - 1) : a &&& mask = 0 ↔ a.toNat % d = 0 := by
  rw [← BitVec.toNat_inj, BitVec.toNat_and, hm, ← hd, Nat.and_two_pow_sub_one_eq_mod]
  rfl

theorem size_pow2_iff (q : Queue) :
    (q.size ≠ 0 ∧ q.size &&& (q.size - 1) = 0) ↔ q.size.toNat.isPowerOfTwo := by
  rw [← Nat.ne_zero_and_sub_one_eq_zero_iff_isPowerOfTwo]
  have h0 : q.size ≠ 0 ↔ q.size.toNat ≠ 0 := not_congr BitVec.toNat_inj.symm
  rw [h0]
  refine and_congr_right fun hz => ?_
  have h1 : (q.size - 1).toNat = q.size.toNat - 1 :=
    BitVec.toNat_sub_of_le (BitVec.le_def.mpr (Nat.one_le_iff_ne_zero.mpr hz))
  rw [← BitVec.toNat_inj, BitVec.toNat_and, h1]
  rfl

theorem isValid_iff : q.isValid mm = true ↔
    q.ready = true ∧ (q.size ≤ q.maxSize ∧ q.size.toNat.isPowerOfTwo) ∧
      mm.Covers (q.descTable.toNat + 16 * q.size.toNat) ∧
      mm.Covers (q.availRing.toNat + (6 + 2 * q.size.toNat)) ∧
      mm.Covers (q.usedRing.toNat + (6 + 8 * q.size.toNat)) ∧
      q.descTable.toNat % 16 = 0 ∧ q.availRing.toNat % 2 = 0 ∧ q.usedRing.toNat % 4 = 0 := by
  by_cases hm : q.size ≤ q.maxSize
  · have hs := q.size.isLt
    have hw : (q.size.setWidth 64).toNat = q.size.toNat := by
      rw [BitVec.toNat_setWidth, Nat.mod_eq_of_lt (by omega)]
    have hd : (16 * q.size.setWidth 64 : BitVec 64).toNat = 16 * q.size.toNat := by
      rw [BitVec.toNat_mul, hw, show (16 : BitVec 64).toNat = 16 from rfl]
      omega
    have ha : (6 + 2 * q.size.setWidth 64 : BitVec 64).toNat = 6 + 2 * q.size.toNat := by
      rw [BitVec.toNat_add, BitVec.toNat_mul, hw, show (6 : BitVec 64).toNat = 6 from rfl,
        show (2 : BitVec 64).toNat = 2 from rfl]
      omega
    have hu : (6 + 8 * q.size.setWidth 64 : BitVec 64).toNat = 6 + 8 * q.size.toNat := by
      rw [BitVec.toNat_add, BitVec.toNat_mul, hw, show (6 : BitVec 64).toNat = 6 from rfl,
        show (8 : BitVec 64).toNat = 8 from rfl]
      omega
    have h16 : q.descTable &&& 0xf = 0 ↔ q.descTable.toNat % 16 = 0 :=
      and_mask_eq_zero_iff 0xf 4 rfl rfl
    have h2 : q.availRing &&& 0x1 = 0 ↔ q.availRing.toNat % 2 = 0 :=
      and_mask_eq_zero_iff 0x1 1 rfl rfl
    have h4 : q.usedRing &&& 0x3 = 0 ↔ q.usedRing.toNat % 4 = 0 :=
      and_mask_eq_zero_iff 0x3 2 rfl rfl
    rw [← endInRange_iff hd, ← endInRange_iff ha, ← endInRange_iff hu, ← size_pow2_iff, ← h16, ← h2,
      ← h4, isValid, actualSize_of_le hm]
    simp [hm, BitVec.not_lt.mpr hm, and_assoc]
  · have hv : q.isValid mm = false := by
      simp [isValid, BitVec.not_le.mp hm]
    rw [hv]
    exact ⟨fun h => (by cases h), fun h => absurd h.2.1.1 hm⟩

theorem Programmed.availReadable (h : q.Programmed mm) : q.AvailReadable mm := by
  refine ⟨h.desc.1, h.avail.1.le, h.idx, fun a i hi ha => ?_⟩
  have hlt := h.avail.1
  have he : a = q.availRing + BitVec.ofNat 64 (4 + 2 * i) := by
    apply BitVec.eq_of_toNat_eq
    have hi' : (BitVec.ofNat 64 (4 + 2 * i)).toNat = 4 + 2 * i := by
      rw [BitVec.toNat_ofNat, Nat.mod_eq_of_lt (by omega)]
    rw [BitVec.toNat_add_of_lt (by omega), hi', ha]
  rw [he]
  exact h.slots i hi

theorem Programmed.usable (h : q.Programmed mm) (h1024 : q.maxSize.toNat ≤ 1024) : q.Usable mm := by
  have hr : ∀ n, { q with nextAvail := n }.AvailReadable mm := fun n =>
    ⟨h.availReadable.desc, h.availReadable.fits, h.availReadable.idx, h.availReadable.slots⟩
  refine ⟨?_, fun ck n => ?_, fun ck n => ?_⟩
  · exact isValid_iff.mpr ⟨h.ready, ⟨h.le_max, h.pow2⟩, h.desc, h.avail, h.used, h.aligned⟩
  · exact (always_len (hr n)).mono (fun _ _ => trivial) fun _ _ => trivial
  · exact (always_pop (hr n) (Nat.pos_of_isPowerOfTwo h.pow2) h.le_max h1024).mono
      (fun _ _ => trivial) fun _ _ => trivial

/-- `len` panics unless the index of the available ring can be read. -/
theorem idx_readable_of_len
    (h : Prog.Always (mm.handler ck) (fun _ => True) (fun _ => True) q.len) :
    mm.Readable (q.availRing + 2) 0 := by
  unfold len availIdx at h
  split at h
  · exact h.elim
  rename_i addr ha
  obtain ⟨-, rfl⟩ := checkedAdd_eq_some.mp ha
  obtain ⟨-, -, hk⟩ := h
  have hl := hk (fun _ => 0) _ _ rfl
  cases e : mm.load 16 (q.availRing + 2) (fun _ => 0) with
  | error err => rw [e] at hl; exact hl.elim
  | ok v => exact MemoryManager.readable_of_load e

/-- `pop` panics unless the slot of the available ring it looks at can be read. -/
theorem slot_readable_of_pop
    (h : Prog.Always (mm.handler true) (fun _ => True) (fun _ => True) q.pop)
    (hidx : mm.Readable (q.availRing + 2) 0) (h0 : 0 < q.size.toNat) (hmax : q.size ≤ q.maxSize)
    (h1024 : q.maxSize.toNat ≤ 1024)
    (hend : q.availRing.toNat + (6 + 2 * q.size.toNat) < 2 ^ 64) :
    mm.Readable (q.availRing + BitVec.ofNat 64 (4 + 2 * (q.nextAvail.toNat % q.size.toNat))) 2 := by
  obtain ⟨a, hl⟩ := hidx.load true
  have h2 : (2 : BitVec 64).toNat = 2 := rfl
  obtain ⟨m, hm⟩ : ∃ m : Mem, m.word a 16 = q.nextAvail + 1 :=
    ⟨Mem.putWord (fun _ => 0) a _, Mem.word_putWord16 ..⟩
  have hpend : m.word a 16 - q.nextAvail = 1 := by
    rw [hm, BitVec.add_comm]
    exact BitVec.add_sub_cancel _ _
  have hn : Prog.next (mm.handler true) q.pop m = some (q.popHead 1, m) := by
    rw [← hpend, pop, len, availIdx, checkedAdd_of_lt (by rw [h2]; omega)]
    simp only [VProg.load, Prog.access_bind, Prog.next, hl]
    rfl
  have hs := actualSize_of_le hmax
  have hle : q.size.toNat ≤ 1024 := (BitVec.le_def.mp hmax).trans h1024
  obtain ⟨o, ho, e⟩ := popHead_eq (show (1 : BitVec 16) ≠ 0 by decide) (hs ▸ h0) (hs ▸ hle)
    (hs ▸ hend.le)
  rw [hs] at ho
  have hp := (h.next hn).1
  rw [e] at hp
  obtain ⟨-, hne, hk⟩ := hp
  obtain ⟨⟨r, m'⟩, hr⟩ := Option.ne_none_iff_exists'.mp (hne m)
  have hu := hk m r m' hr
  obtain ⟨r', hr', er⟩ := Option.map_eq_some_iff.mp hr
  obtain ⟨rfl, -⟩ := Prod.mk.inj er
  cases r' with
  | error err => exact hu.elim
  | ok bs =>
    have ho' : BitVec.ofNat 64 (4 + 2 * (q.nextAvail.toNat % q.size.toNat)) = o := by
      rw [← ho, BitVec.ofNat_toNat, BitVec.setWidth_eq]
    rw [ho']
    exact MemoryManager.readable_of_read (by decide) hr'

theorem Usable.programmed (h : q.Usable mm) (h1024 : q.maxSize.toNat ≤ 1024) : q.Programmed mm := by
  obtain ⟨hready, ⟨hmax, hpow⟩, hdesc, havail, hused, halign⟩ := isValid_iff.mp h.valid
  have h0 := Nat.pos_of_isPowerOfTwo hpow
  have hidx : mm.Readable (q.availRing + 2) 0 :=
    idx_readable_of_len (q := { q with nextAvail := 0 }) (h.len true 0)
  refine ⟨hready, hpow, hmax, hdesc, havail, hused, halign, hidx, fun i hi => ?_⟩
  have hs := q.size.isLt
  have hr := slot_readable_of_pop (h.pop true (BitVec.ofNat 16 i)) hidx h0 hmax h1024 havail.1
  have hi' : (BitVec.ofNat 16 i).toNat % q.size.toNat = i := by
    rw [BitVec.toNat_ofNat, Nat.mod_eq_of_lt (hi.trans hs), Nat.mod_eq_of_lt hi]
  dsimp only at hr
  rwa [hi'] at hr

/-- A queue can be used exactly if the guest has programmed it, whatever was
negotiated about notifications. -/
theorem usable_setEventIdx_iff (h1024 : q.maxSize.toNat ≤ 1024) (b : Bool) :
    (q.setEventIdx b).Usable mm ↔ q.Programmed mm := by
  constructor
  · intro h
    have hp := h.programmed h1024
    exact ⟨hp.ready, hp.pow2, hp.le_max, hp.desc, hp.avail, hp.used, hp.aligned, hp.idx, hp.slots⟩
  · intro h
    have hp : (q.setEventIdx b).Programmed mm :=
      ⟨h.ready, h.pow2, h.le_max, h.desc, h.avail, h.used, h.aligned, h.idx, h.slots⟩
    exact hp.usable h1024

instance (q : Queue) (mm : MemoryManager) : Decidable (q.Programmed mm) :=
  decidable_of_iff (q.ready = true ∧ q.size.toNat.isPowerOfTwo ∧ q.size ≤ q.maxSize ∧
    mm.Covers (q.descTable.toNat + 16 * q.size.toNat) ∧
    mm.Covers (q.availRing.toNat + (6 + 2 * q.size.toNat)) ∧
    mm.Covers (q.usedRing.toNat + (6 + 8 * q.size.toNat)) ∧
    (q.descTable.toNat % 16 = 0 ∧ q.availRing.toNat % 2 = 0 ∧ q.usedRing.toNat % 4 = 0) ∧
    mm.Readable (q.availRing + 2) 0 ∧
    ∀ i < q.size.toNat, mm.Readable (q.availRing + BitVec.ofNat 64 (4 + 2 * i)) 2)
  ⟨fun ⟨h₁, h₂, h₃, h₄, h₅, h₆, h₇, h₈, h₉⟩ => ⟨h₁, h₂, h₃, h₄, h₅, h₆, h₇, h₈, h₉⟩,
    fun ⟨h₁, h₂, h₃, h₄, h₅, h₆, h₇, h₈, h₉⟩ => ⟨h₁, h₂, h₃, h₄, h₅, h₆, h₇, h₈, h₉⟩⟩

end Queue

/-! ## Runs of the transport -/

namespace Mmio

open MmioTransport

variable {mm : MemoryManager} {t t' : MmioTransport} {v : BitVec 32} {backend : Bool} {l : Label}

/-- If `v` activates the device, every queue of the transport is programmed. -/
def Prepared (mm : MemoryManager) (t : MmioTransport) (v : BitVec 32) : Prop :=
  t.Activates v → ∀ q ∈ t.queues.getD [], q.Programmed mm

/-- The guest programs every queue before it sets `DRIVER_OK`. -/
def Prepares (mm : MemoryManager) (t : MmioTransport) : Label → Prop
  | .write offset data _ =>
    offset = 0x70 → data.length = 4 → Prepared mm t (BitVec.ofNat 32 (ofLE data))
  | _ => True

instance (t : MmioTransport) (v : BitVec 32) : Decidable (Prepared mm t v) :=
  inferInstanceAs (Decidable (t.Activates v → _))

instance (t : MmioTransport) (l : Label) : Decidable (Prepares mm t l) :=
  match l with
  | .write offset data _ => inferInstanceAs (Decidable (offset = 0x70 → data.length = 4 → _))
  | .worker _ => isTrue trivial
  | .ioapic .. => isTrue trivial

/-- Every queue the device was activated with so far can be used. -/
def Activated (mm : MemoryManager) (t : MmioTransport) : Prop :=
  ∀ a ∈ t.activations, ∀ q ∈ a.2, q.Usable mm

theorem queueConfig_le (kind : DeviceKind) : ∀ n ∈ kind.queueConfig, n.toNat ≤ 1024 := by
  have hall : ∀ kind : DeviceKind, kind.queueConfig.all (fun n => n.toNat ≤ 1024) = true := by
    intro kind
    cases kind <;> rfl
  intro n hn
  exact of_decide_eq_true (List.all_eq_true.mp (hall kind) n hn)

theorem map_modify {α β : Type} {f : α → α} {g : α → β} (h : ∀ a, g (f a) = g a) (l : List α)
    (i : Nat) : (l.modify i f).map g = l.map g := by
  apply List.ext_getElem?
  intro j
  rw [List.getElem?_map, List.getElem?_map, List.getElem?_modify]
  split
  · rw [Option.map_eq_map, Option.map_map]
    exact congrArg (Option.map · l[j]?) (funext h)
  · rw [Option.map_eq_map, Option.map_id']

/-- The queues, while the transport has them, are those of the configuration. -/
structure QueueInv (t : MmioTransport) : Prop where
  events : t.queueEvts.length = t.queueConfig.length
  queues : ∀ qs, t.queues = some qs → qs.map Queue.maxSize = t.queueConfig

theorem QueueInv.stopped (hi : QueueInv t) : QueueInv t.stopped := by
  unfold MmioTransport.stopped
  split
  · exact ⟨hi.events, hi.queues⟩
  · exact hi

theorem QueueInv.setDeviceStatus (hi : QueueInv t) : QueueInv (t.setDeviceStatus v backend) := by
  have he := setDeviceStatus_effect t v backend
  generalize t.setDeviceStatus v backend = t' at he ⊢
  cases he with
  | advance h hn => exact ⟨hi.events, hi.queues⟩
  | activate h =>
    rcases activate_cases { t with deviceStatus := v } backend with
      ⟨-, e⟩ | ⟨queues, device, panicked, -, e, -⟩
    · rw [e]
      exact ⟨hi.events, hi.queues⟩
    · rw [e]
      exact ⟨hi.events, fun qs h => by cases h⟩
  | failed hn hf => exact ⟨hi.events, hi.queues⟩
  | reset h =>
    split
    · refine ⟨hi.stopped.events, fun qs h => ?_⟩
      obtain rfl := Option.some.inj h
      show (t.stopped.queueConfig.map Queue.new).map Queue.maxSize = t.stopped.queueConfig
      rw [List.map_map]
      exact List.map_id _
    · exact hi.stopped
  | invalid hn hf h0 => exact hi

theorem QueueInv.step (hi : QueueInv t) (hs : Mmio.step t l = some t') : QueueInv t' := by
  cases step_effect hs with
  | quiet h =>
    refine ⟨?_, ?_⟩
    · rw [h.queueEvts, h.queueConfig]
      exact hi.events
    · rw [h.queues, h.queueConfig]
      exact hi.queues
  | queue f hf =>
    refine ⟨hi.events, fun qs h => ?_⟩
    obtain ⟨qs', hq, rfl⟩ := Option.map_eq_some_iff.mp h
    exact (map_modify hf qs' _).trans (hi.queues qs' hq)
  | ack hg page value => exact ⟨hi.events, hi.queues⟩
  | status data backend hl hd => exact hi.setDeviceStatus

theorem queueInv_new (kind : DeviceKind) (irqLine : Option (BitVec 32)) (intc : IoApic) :
    QueueInv (.new (.new kind) irqLine intc) := by
  refine ⟨List.length_map _, fun qs hq => ?_⟩
  obtain rfl := Option.some.inj hq
  show (kind.queueConfig.map Queue.new).map Queue.maxSize = kind.queueConfig
  rw [List.map_map]
  exact List.map_id _

theorem usable_deviceQueues_iff (hd : DeviceInv t) (hi : QueueInv t) {qs : List Queue}
    (h : t.queues = some qs) :
    (∀ q ∈ t.deviceQueues qs, q.Usable mm) ↔ ∀ q ∈ qs, q.Programmed mm := by
  have hmap := hi.queues qs h
  have hlen : qs.length = t.queueEvts.length := by
    rw [hi.events, ← hmap, List.length_map]
  have h1024 : ∀ q ∈ qs, q.maxSize.toNat ≤ 1024 := by
    intro q hq
    apply queueConfig_le t.device.kind
    rw [← hd.queueConfig, ← hmap]
    exact List.mem_map_of_mem hq
  unfold MmioTransport.deviceQueues
  rw [← hlen, List.take_length, List.forall_mem_map]
  refine forall₂_congr fun q hq => ?_
  exact Queue.usable_setEventIdx_iff (h1024 q hq) _

theorem not_activates_zero : ¬ t.Activates 0 := by
  rintro ⟨h, -⟩
  have h0 : ~~~t.deviceStatus &&& (0 : BitVec 32) = 0 := BitVec.and_zero
  exact absurd (h0.symm.trans h) (by decide)

theorem activations_stopped (t : MmioTransport) : t.stopped.activations = t.activations := by
  unfold MmioTransport.stopped
  split <;> rfl

/-- A write to the status register hands over usable queues exactly if the
guest has programmed them. -/
theorem setDeviceStatus_activated_iff (hd : DeviceInv t) (hi : QueueInv t) (ha : Activated mm t) :
    Activated mm (t.setDeviceStatus v backend) ↔ Prepared mm t v := by
  have he := setDeviceStatus_effect t v backend
  generalize t.setDeviceStatus v backend = t' at he ⊢
  cases he with
  | advance h hn => exact ⟨fun _ h' => absurd h' hn, fun _ => ha⟩
  | activate h =>
    rcases activate_cases { t with deviceStatus := v } backend with
      ⟨hq, e⟩ | ⟨queues, device, panicked, hq, e, -⟩
    · rw [e]
      refine ⟨fun _ _ q hm => ?_, fun _ => ha⟩
      rw [show t.queues = none from hq] at hm
      cases hm
    · rw [e]
      have hu : (∀ q ∈ t.deviceQueues queues, q.Usable mm) ↔ ∀ q ∈ queues, q.Programmed mm :=
        usable_deviceQueues_iff hd hi hq
      have hp : Prepared mm t v ↔ ∀ q ∈ queues, q.Programmed mm := by
        unfold Prepared
        rw [show t.queues = some queues from hq]
        exact ⟨fun hp => hp h, fun hp _ => hp⟩
      rw [hp, ← hu]
      refine ⟨fun hact => hact (v, t.deviceQueues queues) ?_, fun hall a hm => ?_⟩
      · exact List.mem_append_right _ (List.mem_singleton.mpr rfl)
      · rcases List.mem_append.mp hm with hm | hm
        · exact ha a hm
        · obtain rfl := List.mem_singleton.mp hm
          exact hall
  | failed hn hf => exact ⟨fun _ h' => absurd h'.advances hn, fun _ => ha⟩
  | reset h =>
    subst h
    refine ⟨fun _ h' => absurd h' not_activates_zero, fun _ => ?_⟩
    split
    · intro a hm
      exact ha a ((activations_stopped t) ▸ hm)
    · intro a hm
      exact ha a ((activations_stopped t) ▸ hm)
  | invalid hn hf h0 => exact ⟨fun _ h' => absurd h'.advances hn, fun _ => ha⟩

theorem Activated.step (ha : Activated mm t) (hd : DeviceInv t) (hi : QueueInv t)
    (hp : Prepares mm t l) (hs : Mmio.step t l = some t') : Activated mm t' := by
  cases step_effect hs with
  | quiet h =>
    unfold Activated
    rw [h.activations]
    exact ha
  | queue f hf => exact ha
  | ack hg page value => exact ha
  | status data backend hl hd' =>
    subst hl
    exact (setDeviceStatus_activated_iff hd hi ha).mpr (hp rfl hd')

/-- In every run in which the guest programs every queue before it sets
`DRIVER_OK`, the queues a device is activated with can be used; and from every
state reached, a write to the status register hands over usable queues exactly
if the guest has programmed them. -/
theorem activated_usable (h : (system.under (Prepares mm)).Reachable t) :
    (∀ a ∈ t.activations, ∀ q ∈ a.2, q.Usable mm) ∧
      ∀ v backend, ((∀ a ∈ (t.setDeviceStatus v backend).activations, ∀ q ∈ a.2, q.Usable mm) ↔
        Prepared mm t v) := by
  have hi : DeviceInv t ∧ QueueInv t ∧ Activated mm t := by
    refine h.invariant (I := fun t => DeviceInv t ∧ QueueInv t ∧ Activated mm t) ?_ ?_
    · rintro t ⟨kind, irqLine, intc, rfl⟩
      exact ⟨deviceInv_new kind irqLine intc, queueInv_new kind irqLine intc, fun a hm => by cases hm⟩
    · rintro t l t' ⟨hd, hi, ha⟩ ⟨hp, hs⟩
      exact ⟨hd.step hs, hi.step hs, ha.step hd hi hp hs⟩
  exact ⟨hi.2.2, fun v backend => setDeviceStatus_activated_iff hi.1 hi.2.1 hi.2.2⟩

/-- The writes that set up a queue of two entries with its available ring at
`avail`, and activate the device. -/
def setup (avail : Nat) : List Label :=
  [writeReg 0x70 1, writeReg 0x70 3, writeReg 0x70 11, writeReg 0x38 2, writeReg 0x80 0x1000,
    writeReg 0x90 avail, writeReg 0xa0 0x3000, writeReg 0x44 1, writeReg 0x70 15]

theorem activated_usable_rng : ∃ t, (system.under (Prepares smallRam)).Reachable t ∧
    t.activations.length = 1 ∧ ∀ a ∈ t.activations, ∀ q ∈ a.2, q.Usable smallRam := by
  have hr : ((setup 0x2000).foldlM (fun t l => if Prepares smallRam t l then step t l else none)
      (.new (.new .rng) (some 21) .new)).map (fun t => t.activations.length) = some 1 := by
    decide +kernel
  obtain ⟨t, ht, he⟩ := Option.map_eq_some_iff.mp hr
  have h0 : (system.under (Prepares smallRam)).Reachable (.new (.new .rng) (some 21) .new) :=
    .init ⟨.rng, some 21, .new, rfl⟩
  have h := h0.foldlM_under _ ht
  exact ⟨t, h, he, (activated_usable h).1⟩

/-- A guest with 64 KiB of RAM whose driver puts the available ring at 1 MiB: the
device is activated with a queue that is not valid, and `len` panics. -/
theorem activated_unmapped : ∃ t, system.Reachable t ∧ ∃ a ∈ t.activations, ∃ q ∈ a.2,
    q.isValid smallRam = false ∧ Prog.run (smallRam.handler true) q.len (fun _ => 0) = none := by
  have hr : ((setup 0x100000).foldlM step (.new (.new .rng) (some 21) .new)).map
      (fun t => t.activations) =
      some [(15, [{ smallQueue with availRing := 0x100000 }])] := by decide +kernel
  obtain ⟨t, ht, he⟩ := Option.map_eq_some_iff.mp hr
  have h0 : system.Reachable (.new (.new .rng) (some 21) .new) := .init ⟨.rng, some 21, .new, rfl⟩
  refine ⟨t, h0.foldlM _ ht, _, by rw [he]; exact List.mem_singleton.mpr rfl, _,
    List.mem_singleton.mpr rfl, by decide +kernel, by rfl⟩

end Mmio

end Whypa
