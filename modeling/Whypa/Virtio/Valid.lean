import Whypa.Memory.Flat
import Whypa.Virtio.Activation

/-!
# What a valid queue can rely on

`Queue.isValid` looks at the end of each area of a queue only. `valid_sound_iff`
says for which queues that is enough: the areas lie in guest memory, and no
operation on the queue fails, exactly if each area starts in guest memory and no
hole begins inside it (`MemoryManager.Unbroken`), no region ends inside an entry
of the available ring, and the ring is not too large for the arithmetic of `pop`.
-/

namespace Whypa

open Framework

/-- The address after the last of the region. -/
def MemoryRegion.endAddr (r : MemoryRegion) : Nat := r.gpa.toNat + r.size.toNat

namespace MemoryManager

variable {ck : Bool} {mm : MemoryManager} {a : GuestAddress} {r : MemoryRegion} {x n : Nat}

/-! ## Ranges of addresses -/

theorem covers_iff :
    mm.Covers x ↔ ∃ r ∈ mm.regions, r.gpa.toNat ≤ x ∧ x < r.endAddr := by
  unfold Covers addressInRange findRegion MemoryRegion.endAddr
  rw [List.find?_isSome]
  constructor
  · rintro ⟨hx, r, hr, hc⟩
    have hc := MemoryRegion.contains_iff.mp hc
    rw [BitVec.toNat_ofNat, Nat.mod_eq_of_lt hx] at hc
    exact ⟨r, hr, hc⟩
  · rintro ⟨r, hr, hc⟩
    have hx : x < 2 ^ 64 := hc.2.trans_le r.fits
    refine ⟨hx, r, hr, MemoryRegion.contains_iff.mpr ?_⟩
    rw [BitVec.toNat_ofNat, Nat.mod_eq_of_lt hx]
    exact hc

/-- Each of the `n` addresses from `x` is in guest memory. -/
def Registered (mm : MemoryManager) (x n : Nat) : Prop := ∀ i < n, mm.Covers (x + i)

/-- The range starts in guest memory, and a region that ends inside it is
followed by another one at once. -/
structure Unbroken (mm : MemoryManager) (x n : Nat) : Prop where
  start : mm.Covers x
  follows : ∀ r ∈ mm.regions, x < r.endAddr → r.endAddr < x + n →
    ∃ r' ∈ mm.regions, r'.gpa.toNat = r.endAddr

theorem disjoint_regions (hd : mm.Disjoint) {r' : MemoryRegion} (hr : r ∈ mm.regions)
    (hr' : r' ∈ mm.regions) (h : r.gpa.toNat ≤ x ∧ x < r.endAddr)
    (h' : r'.gpa.toNat ≤ x ∧ x < r'.endAddr) : r = r' := by
  have hx : x < 2 ^ 64 := h.2.trans_le r.fits
  have hx' : (BitVec.ofNat 64 x).toNat = x := by
    rw [BitVec.toNat_ofNat, Nat.mod_eq_of_lt hx]
  have hf := findRegion_of_mem hd hr (a := BitVec.ofNat 64 x) (by rw [hx']; exact h)
  have hf' := findRegion_of_mem hd hr' (a := BitVec.ofNat 64 x) (by rw [hx']; exact h')
  exact Option.some.inj (hf.symm.trans hf')

theorem Registered.unbroken (hd : mm.Disjoint) (h0 : 0 < n) (h : mm.Registered x n) :
    mm.Unbroken x n := by
  refine ⟨h 0 h0, fun r hr hlo hhi => ?_⟩
  obtain ⟨i, hi⟩ := Nat.exists_eq_add_of_lt hlo
  obtain ⟨r', hr', hc⟩ := covers_iff.mp (h (i + 1) (by omega))
  refine ⟨r', hr', ?_⟩
  by_contra hne
  have hpos := r.size_pos
  have he : r.endAddr = r.gpa.toNat + r.size.toNat := rfl
  have hsame := disjoint_regions (x := r.endAddr - 1) hd hr hr' (by omega) (by omega)
  rw [← hsame] at hc
  omega

theorem Unbroken.registered (h : mm.Unbroken x n) : mm.Registered x n := by
  intro i hi
  induction i with
  | zero => exact h.start
  | succ i ih =>
    obtain ⟨r, hr, hc⟩ := covers_iff.mp (ih (by omega))
    by_cases hlast : x + (i + 1) < r.endAddr
    · exact covers_iff.mpr ⟨r, hr, by omega, hlast⟩
    · obtain ⟨r', hr', he⟩ := h.follows r hr (by omega) (by omega)
      have hpos := r'.size_pos
      have he' : r'.endAddr = r'.gpa.toNat + r'.size.toNat := rfl
      exact covers_iff.mpr ⟨r', hr', by omega, by omega⟩

/-- A table of RAM: disjoint regions that can be read and written. -/
structure IsRam (mm : MemoryManager) : Prop where
  disjoint : mm.Disjoint
  backed : ∀ r ∈ mm.regions, r.perms.read = true ∧ r.perms.write = true ∧ r.hpa.isSome

theorem IsRam.find (hm : mm.IsRam) (hc : mm.Covers a.toNat) :
    ∃ r hpa, mm.findRegion a = some r ∧ r.perms.read = true ∧ r.perms.write = true ∧
      r.hpa = some hpa ∧ r ∈ mm.regions := by
  obtain ⟨r, hr, hc⟩ := covers_iff.mp hc
  obtain ⟨hread, hwrite, hpa⟩ := hm.backed r hr
  obtain ⟨hpa, hh⟩ := Option.isSome_iff_exists.mp hpa
  exact ⟨r, hpa, findRegion_of_mem hm.disjoint hr hc, hread, hwrite, hh, hr⟩

theorem isRam_allocated {total : BitVec 64} {source : Nat} {hpos : 0 < total.toNat}
    {hfits : 0x40000000 + total.toNat ≤ 2 ^ 64} :
    (allocateMemoryWithSize total source hpos hfits).IsRam := by
  refine ⟨disjoint_allocated, fun r hr => ?_⟩
  by_cases hs : total ≤ MEM_32BIT_RESERVED_START
  · rw [regions_small hs] at hr
    obtain rfl := List.mem_singleton.mp hr
    exact ⟨rfl, rfl, rfl⟩
  · obtain ⟨lowPos, lowFits, highPos, highFits, -, -, e⟩ := regions_large source hpos hfits hs
    rw [e] at hr
    simp only [List.mem_cons, List.not_mem_nil, or_false] at hr
    rcases hr with rfl | rfl <;> exact ⟨rfl, rfl, rfl⟩

/-! ## Accesses -/

theorem IsRam.load (ck : Bool) (hm : mm.IsRam) (hc : mm.Covers a.toNat) :
    ∃ h, ∀ m, mm.handler ck (.load a) m = some (.ok (m.word h 16), m) := by
  obtain ⟨r, hpa, hf, hr, -, hh, -⟩ := hm.find hc
  refine ⟨hostAddr r hpa a, fun m => ?_⟩
  simp only [handler, MemoryManager.load, locateAtomic, hf, hr, hh]
  rfl

theorem IsRam.always_load (hm : mm.IsRam) (hc : mm.Covers a.toNat) :
    Prog.Always (mm.handler ck) (fun _ => True) (fun r => ∃ v, r = .ok v) (VProg.load a) := by
  obtain ⟨h, hl⟩ := hm.load ck hc
  refine ⟨trivial, fun m => by rw [hl]; exact Option.some_ne_none _, fun m r m' e => ?_⟩
  rw [hl] at e
  obtain ⟨rfl, -⟩ := Prod.mk.inj (Option.some.inj e)
  exact ⟨_, rfl⟩

theorem IsRam.always_store (hm : mm.IsRam) (hc : mm.Covers a.toNat) (v : BitVec 16) :
    Prog.Always (mm.handler ck) (fun _ => True) (fun r => r = .ok ()) (VProg.store v a) := by
  obtain ⟨r, hpa, hf, -, hw, hh, -⟩ := hm.find hc
  have hs : ∀ m, mm.handler ck (.store v a) m = some (.ok (), m.putWord (hostAddr r hpa a) v) := by
    intro m
    simp only [handler, MemoryManager.store, locateAtomic, hf, hw, hh]
    rfl
  refine ⟨trivial, fun m => by rw [hs]; exact Option.some_ne_none _, fun m r m' e => ?_⟩
  rw [hs] at e
  exact (Prod.mk.inj (Option.some.inj e)).1.symm

/-- A write is answered unless it runs over the end of the address space. -/
theorem always_write {bs : List Byte} (hn : a.toNat + bs.length < 2 ^ 64) :
    Prog.Always (mm.handler ck) (fun _ => True) (fun _ => True) (VProg.write bs a) := by
  have hn' : (BitVec.ofNat 64 bs.length).toNat = bs.length := by
    rw [BitVec.toNat_ofNat, Nat.mod_eq_of_lt (by omega)]
  refine ⟨trivial, fun m => ?_, fun _ _ _ _ => trivial⟩
  simp only [handler, writeGuestMemory, locate, ne_eq, Option.map_eq_none_iff,
    plainAdd_of_lt ck (show a.toNat + (BitVec.ofNat 64 bs.length).toNat < 2 ^ 64 by omega)]
  split
  · exact Option.some_ne_none _
  split
  · exact Option.some_ne_none _
  split
  · exact Option.some_ne_none _
  split <;> exact Option.some_ne_none _

/-- A read of `n` bytes that end before the region does. -/
theorem IsRam.readable (hm : mm.IsRam) (hc : mm.Covers a.toNat)
    (he : ∀ r ∈ mm.regions, ¬ (a.toNat < r.endAddr ∧ r.endAddr ≤ a.toNat + n)) :
    mm.Readable a n := by
  obtain ⟨r, hpa, hf, hr, -, hh, hmem⟩ := hm.find hc
  have hc := findRegion_contains hf
  have he := he r hmem
  have hend : r.endAddr = r.gpa.toNat + r.size.toNat := rfl
  exact ⟨r, hpa, hf, hr, hh, by omega⟩

end MemoryManager

namespace VProg

variable {ck : Bool} {mm : MemoryManager} {w : Nat} {a b : BitVec w}

theorem always_add (h : ck = true → a.toNat + b.toNat < 2 ^ w) :
    Prog.Always (mm.handler ck) (fun _ => True) (fun x => x = a + b) (add a b) := by
  unfold add
  split
  · rfl
  · rename_i hn
    cases ck with
    | true => exact absurd (h rfl) hn
    | false => exact ⟨trivial, fun m => Option.some_ne_none _, fun _ _ _ _ => rfl⟩

theorem run_add (h : ck = true → a.toNat + b.toNat < 2 ^ w) (m : Mem) :
    Prog.run (mm.handler ck) (add a b) m = some (a + b, m) := by
  unfold add
  split
  · rfl
  · rename_i hn
    cases ck with
    | true => exact absurd (h rfl) hn
    | false => rfl

theorem run_add_overflow (h : ¬ a.toNat + b.toNat < 2 ^ w) (m : Mem) :
    Prog.run (mm.handler true) (add a b) m = none := by
  unfold add
  rw [if_neg h]
  rfl

end VProg

namespace Queue

variable {ck : Bool} {mm : MemoryManager} {q : Queue}

/-! ## The operations -/

/-- No operation on the queue fails with a memory error or panics, whatever the
driver writes meanwhile. -/
structure Works (ck : Bool) (mm : MemoryManager) (q : Queue) : Prop where
  len : Prog.Always (mm.handler ck) (fun _ => True) (fun _ => True) q.len
  pop : Prog.Always (mm.handler ck) (fun _ => True) (fun _ => True) q.pop
  addUsed : ∀ headIndex len, Prog.Always (mm.handler ck) (fun _ => True)
    (fun r => r.1 = .ok () ∨ r.1 = .error .invalidDescriptorIndex) (q.addUsed headIndex len)
  needsNotification : Prog.Always (mm.handler ck) (fun _ => True) (fun r => ∃ b, r.1 = .ok b)
    q.needsNotification
  disableNotification : Prog.Always (mm.handler ck) (fun _ => True) (fun r => r = .ok ())
    q.disableNotification
  enableNotification : Prog.Always (mm.handler ck) (fun _ => True) (fun r => ∃ b, r = .ok b)
    q.enableNotification

/-- The areas of the queue lie in guest memory. -/
structure Mapped (mm : MemoryManager) (q : Queue) : Prop where
  desc : mm.Registered q.descTable.toNat (16 * q.size.toNat)
  avail : mm.Registered q.availRing.toNat (6 + 2 * q.size.toNat)
  used : mm.Registered q.usedRing.toNat (6 + 8 * q.size.toNat)

/-- Where `pop` looks in the available ring at position `n`, in the arithmetic of
16 bits. -/
def entryOffset (q : Queue) (n : BitVec 16) : BitVec 16 := 4 + 2 * (n % q.size)

/-- Each area starts in guest memory and no hole begins inside it; no region ends
inside an entry of the available ring that `pop` reads, or right after it; and
with checks for overflow the offset of every entry is one of 16 bits. -/
structure Enclosed (ck : Bool) (mm : MemoryManager) (q : Queue) : Prop where
  desc : mm.Unbroken q.descTable.toNat (16 * q.size.toNat)
  avail : mm.Unbroken q.availRing.toNat (6 + 2 * q.size.toNat)
  used : mm.Unbroken q.usedRing.toNat (6 + 8 * q.size.toNat)
  entries : ∀ n, ∀ r ∈ mm.regions, ¬ (q.availRing.toNat + (q.entryOffset n).toNat < r.endAddr ∧
    r.endAddr ≤ q.availRing.toNat + (q.entryOffset n).toNat + 2)
  small : ck = true → q.size.toNat < 32768

/-- What `isValid` says of the numbers. -/
structure Fits (q : Queue) : Prop where
  pos : 0 < q.size.toNat
  le : q.size.toNat ≤ 16384 ∨ q.size.toNat = 32768
  le_max : q.size ≤ q.maxSize
  desc : q.descTable.toNat + 16 * q.size.toNat < 2 ^ 64
  avail : q.availRing.toNat + (6 + 2 * q.size.toNat) < 2 ^ 64
  used : q.usedRing.toNat + (6 + 8 * q.size.toNat) < 2 ^ 64

theorem fits_of_isValid (h : q.isValid mm = true) : q.Fits := by
  obtain ⟨-, ⟨hmax, hpow⟩, hd, ha, hu, -⟩ := isValid_iff.mp h
  obtain ⟨k, hk⟩ := hpow
  have hs := q.size.isLt
  have hlt : 2 ^ k < 2 ^ 16 := hk ▸ hs
  have hk' : k < 16 := (Nat.pow_lt_pow_iff_right (by decide)).mp hlt
  have hle : q.size.toNat ≤ 16384 ∨ q.size.toNat = 32768 := by
    rcases Nat.lt_succ_iff_lt_or_eq.mp hk' with hk' | rfl
    · exact .inl (hk ▸ Nat.pow_le_pow_right (by decide) (Nat.lt_succ_iff.mp hk'))
    · exact .inr hk
  exact ⟨hk ▸ Nat.two_pow_pos k, hle, hmax, hd.1, ha.1, hu.1⟩

theorem Fits.config {q' : Queue} (h : q.Fits) (hc : q.SameConfig q') : q'.Fits := by
  obtain ⟨h₁, h₂, h₃, h₄, h₅, h₆⟩ := h
  rw [← hc.size] at h₁ h₂ h₃ h₄ h₅ h₆
  rw [← hc.maxSize] at h₃
  rw [← hc.descTable] at h₄
  rw [← hc.availRing] at h₅
  rw [← hc.usedRing] at h₆
  exact ⟨h₁, h₂, h₃, h₄, h₅, h₆⟩

theorem Mapped.config {q' : Queue} (h : q.Mapped mm) (hc : q.SameConfig q') : q'.Mapped mm := by
  obtain ⟨hd, ha, hu⟩ := h
  rw [← hc.descTable, ← hc.size] at hd
  rw [← hc.availRing, ← hc.size] at ha
  rw [← hc.usedRing, ← hc.size] at hu
  exact ⟨hd, ha, hu⟩

/-- An address inside an area. -/
theorem covers_add {a o : GuestAddress} {n : Nat} (h : mm.Registered a.toNat n)
    (ho : o.toNat < n) (hn : a.toNat + n < 2 ^ 64) :
    checkedAdd a o = some (a + o) ∧ mm.Covers (a + o).toNat := by
  have hlt : a.toNat + o.toNat < 2 ^ 64 := by omega
  refine ⟨checkedAdd_of_lt hlt, ?_⟩
  rw [BitVec.toNat_add_of_lt hlt]
  exact h _ ho

section
variable (hm : mm.IsRam) (hf : q.Fits) (hq : q.Mapped mm)
include hm hf hq

theorem always_availIdx :
    Prog.Always (mm.handler ck) (fun _ => True) (fun r => ∃ v, r = .ok v) q.availIdx := by
  have h2 : (2 : BitVec 64).toNat < 6 + 2 * q.size.toNat := by
    rw [show (2 : BitVec 64).toNat = 2 from rfl]
    omega
  obtain ⟨hadd, hc⟩ := covers_add hq.avail h2 hf.avail
  rw [availIdx, hadd]
  refine (hm.always_load hc).bind fun r hr => ?_
  obtain ⟨v, rfl⟩ := hr
  exact ⟨v, rfl⟩

theorem Mapped.always_len :
    Prog.Always (mm.handler ck) (fun _ => True) (fun _ => True) q.len := by
  refine (always_availIdx hm hf hq).bind fun r hr => ?_
  obtain ⟨v, rfl⟩ := hr
  trivial

theorem Mapped.always_addUsed (headIndex : BitVec 16) (len : BitVec 32) :
    Prog.Always (mm.handler ck) (fun _ => True)
      (fun r => r.1 = .ok () ∨ r.1 = .error .invalidDescriptorIndex) (q.addUsed headIndex len) := by
  have hs := q.size.isLt
  have hpos := hf.pos
  have hused := hf.used
  have hlt := Nat.mod_lt q.nextUsed.toNat hpos
  have ho := q.toNat_usedOffset hpos
  have h2 : (2 : BitVec 64).toNat < 6 + 8 * q.size.toNat := by
    rw [show (2 : BitVec 64).toNat = 2 from rfl]
    omega
  unfold addUsed
  split
  · exact .inr rfl
  · obtain ⟨hadd, -⟩ := covers_add hq.used (ho.trans_lt (by omega)) hused
    simp only [hadd]
    refine Prog.Always.bind (MemoryManager.always_write ?_) fun _ _ => ?_
    · rw [BitVec.toNat_add_of_lt (by omega), ho]
      simp only [AsBytes.bytes, List.length_append, length_leBytes]
      omega
    · obtain ⟨hadd', hc⟩ := covers_add hq.used h2 hused
      simp only [publishUsed, hadd']
      refine (hm.always_store hc _).bind fun r hr => ?_
      exact .inl (by rw [hr]; rfl)

theorem Mapped.always_needsNotification :
    Prog.Always (mm.handler ck) (fun _ => True) (fun r => ∃ b, r.1 = .ok b) q.needsNotification := by
  have hs := q.size.isLt
  have ho : (VIRTQ_AVAIL_RING_HEADER_SIZE + q.size.setWidth 64 * VIRTQ_AVAIL_ELEMENT_SIZE).toNat =
      4 + 2 * q.size.toNat := by
    rw [BitVec.toNat_add, BitVec.toNat_mul, BitVec.toNat_setWidth,
      show VIRTQ_AVAIL_RING_HEADER_SIZE.toNat = 4 from rfl,
      show VIRTQ_AVAIL_ELEMENT_SIZE.toNat = 2 from rfl]
    omega
  unfold needsNotification
  split
  · obtain ⟨hadd, hc⟩ := covers_add hq.avail (ho.trans_lt (by omega)) hf.avail
    have hev : Prog.Always (mm.handler ck) (fun _ => True) (fun r => ∃ v, r = .ok v)
        q.usedEvent := by
      rw [usedEvent, hadd]
      refine (hm.always_load hc).bind fun r hr => ?_
      obtain ⟨v, rfl⟩ := hr
      exact ⟨v, rfl⟩
    refine hev.bind fun r hr => ?_
    obtain ⟨v, rfl⟩ := hr
    exact ⟨_, rfl⟩
  · exact ⟨true, rfl⟩

theorem always_setNotification (enable : Bool) :
    Prog.Always (mm.handler ck) (fun _ => True) (fun r => r = .ok ()) (q.setNotification enable) := by
  have hflags : ∀ val, Prog.Always (mm.handler ck) (fun _ => True) (fun r => r = .ok ())
      (q.setUsedFlags val) := by
    intro val
    refine (hm.always_store (hq.used 0 (by omega)) val).bind fun r hr => ?_
    rw [hr]
    rfl
  have hevent : Prog.Always (mm.handler ck) (fun _ => True) (fun r => r = .ok ())
      (q.setAvailEvent q.nextAvail) := by
    obtain ⟨hadd, hc⟩ := covers_add hq.used (q.toNat_availEvent.trans_lt (by omega)) hf.used
    rw [setAvailEvent, hadd]
    refine (hm.always_store hc _).bind fun r hr => ?_
    rw [hr]
    rfl
  unfold setNotification
  split
  · split
    · exact hevent
    · exact hflags _
  · split
    · exact hflags _
    · rfl

theorem Mapped.always_enableNotification :
    Prog.Always (mm.handler ck) (fun _ => True) (fun r => ∃ b, r = .ok b) q.enableNotification := by
  refine (always_setNotification hm hf hq true).bind fun r hr => ?_
  subst hr
  refine (always_availIdx hm hf hq).bind fun r hr => ?_
  obtain ⟨v, rfl⟩ := hr
  exact ⟨_, rfl⟩

/-! ## The entries of the available ring -/

omit hm hf hq in
theorem toNat_entryOffset (n : BitVec 16) :
    (q.entryOffset n).toNat = (4 + 2 * (n.toNat % q.size.toNat)) % 2 ^ 16 := by
  rw [entryOffset, BitVec.toNat_add, BitVec.toNat_mul, BitVec.toNat_umod,
    show (4 : BitVec 16).toNat = 4 from rfl, show (2 : BitVec 16).toNat = 2 from rfl]
  omega

omit hm hq in
theorem entryOffset_le (n : BitVec 16) : (q.entryOffset n).toNat ≤ 2 + 2 * q.size.toNat := by
  have hlt := Nat.mod_lt n.toNat hf.pos
  have hle := Nat.mod_le (4 + 2 * (n.toNat % q.size.toNat)) (2 ^ 16)
  rw [toNat_entryOffset]
  omega

omit hm hq in
/-- The sums and products of `pop` do not overflow, but for the last two entries
of the largest ring. -/
theorem entry_arith (n : BitVec 16) :
    ((2 : BitVec 16).toNat * (n % q.size).toNat < 2 ^ 16) ∧
    (q.size.toNat < 32768 → (4 : BitVec 16).toNat + (2 * (n % q.size)).toNat < 2 ^ 16) ∧
    q.availRing.toNat + ((q.entryOffset n).setWidth 64).toNat < 2 ^ 64 := by
  have hlt := Nat.mod_lt n.toNat hf.pos
  have hle := hf.le
  have havail := hf.avail
  have ho := entryOffset_le hf n
  have h16 := (q.entryOffset n).isLt
  refine ⟨?_, fun hs => ?_, ?_⟩
  · rw [BitVec.toNat_umod, show (2 : BitVec 16).toNat = 2 from rfl]
    omega
  · rw [BitVec.toNat_mul, BitVec.toNat_umod, show (4 : BitVec 16).toNat = 4 from rfl,
      show (2 : BitVec 16).toNat = 2 from rfl]
    omega
  · rw [BitVec.toNat_setWidth, Nat.mod_eq_of_lt (by omega)]
    omega

omit hm in
/-- The address of the entry is in guest memory. -/
theorem covers_entry (n : BitVec 16) :
    (q.availRing + (q.entryOffset n).setWidth 64).toNat =
      q.availRing.toNat + (q.entryOffset n).toNat ∧
    mm.Covers (q.availRing + (q.entryOffset n).setWidth 64).toNat := by
  have ho := entryOffset_le hf n
  have hadd : (q.availRing + (q.entryOffset n).setWidth 64).toNat =
      q.availRing.toNat + (q.entryOffset n).toNat := by
    have h16 := (q.entryOffset n).isLt
    rw [BitVec.toNat_add_of_lt (entry_arith hf n).2.2, BitVec.toNat_setWidth,
      Nat.mod_eq_of_lt (by omega)]
  refine ⟨hadd, ?_⟩
  rw [hadd]
  exact hq.avail _ (by omega)

theorem Mapped.always_pop
    (he : ∀ n, ∀ r ∈ mm.regions, ¬ (q.availRing.toNat + (q.entryOffset n).toNat < r.endAddr ∧
      r.endAddr ≤ q.availRing.toNat + (q.entryOffset n).toNat + 2))
    (hs : ck = true → q.size.toNat < 32768) :
    Prog.Always (mm.handler ck) (fun _ => True) (fun _ => True) q.pop := by
  have hsize := actualSize_of_le hf.le_max
  obtain ⟨hmul, hadd, hsum⟩ := entry_arith hf q.nextAvail
  obtain ⟨haddr, hc⟩ := covers_entry hf hq q.nextAvail
  refine (hq.always_len hm hf).bind fun pending _ => ?_
  unfold popHead
  split
  · trivial
  rw [hsize, VProg.mul_of_lt hmul, Prog.pure_bind]
  refine (VProg.always_add fun h => hadd (hs h)).bind fun o ho => ?_
  subst ho
  refine (VProg.always_add fun _ => hsum).bind fun a ha => ?_
  subst ha
  have hr : mm.Readable (q.availRing + (q.entryOffset q.nextAvail).setWidth 64) 2 :=
    hm.readable hc (by rw [haddr]; exact he q.nextAvail)
  obtain ⟨h, hread⟩ := hr.read ck
  refine ⟨trivial, fun m => ?_, fun m r m' e => ?_⟩
  · show mm.handler ck (.read (q.availRing + (q.entryOffset q.nextAvail).setWidth 64) 2) m ≠ none
    rw [hread]
    exact Option.some_ne_none _
  · obtain ⟨rfl, rfl⟩ := Prod.mk.inj (Option.some.inj ((hread m).symm.trans e))
    exact (always_popChain hf.desc hf.le_max _).mono (fun _ _ => trivial) fun _ _ => trivial

/-- A memory in which the driver has made one chain available. -/
theorem exists_pending (ck : Bool) : ∃ m, Prog.run (mm.handler ck) q.pop m =
    Prog.run (mm.handler ck) (q.popHead 1) m := by
  have h2 : (2 : BitVec 64).toNat < 6 + 2 * q.size.toNat := by
    rw [show (2 : BitVec 64).toNat = 2 from rfl]
    omega
  obtain ⟨hadd, hc⟩ := covers_add hq.avail h2 hf.avail
  obtain ⟨h, hl⟩ := hm.load ck hc
  obtain ⟨m, hw⟩ : ∃ m : Mem, m.word h 16 = q.nextAvail + 1 :=
    ⟨Mem.putWord (fun _ => 0) h _, Mem.word_putWord16 ..⟩
  have hone : m.word h 16 - q.nextAvail = 1 := by
    rw [hw, BitVec.add_comm]
    exact BitVec.add_sub_cancel _ _
  have hlen : Prog.run (mm.handler ck) q.len m = some (1, m) := by
    rw [← hone, len, availIdx, hadd]
    simp only [VProg.load, Prog.access_bind, Prog.run_access, hl, Option.bind_some]
    rfl
  refine ⟨m, ?_⟩
  rw [pop, Prog.run_bind, hlen]
  rfl

omit hm hq in
theorem popHead_one : q.popHead 1 = VProg.add 4 (2 * (q.nextAvail % q.size)) >>= fun o =>
    VProg.add q.availRing (o.setWidth 64) >>= fun a =>
      readObj (BitVec 16) a >>= fun r => VProg.unwrap r >>= q.popChain := by
  have hn : ¬ ((1 : BitVec 16) = 0 ∨ q.size = 0) := by
    rintro (h | h)
    · exact absurd h (by decide)
    · have hpos := hf.pos
      rw [h] at hpos
      exact absurd hpos (by decide)
  rw [popHead, actualSize_of_le hf.le_max, if_neg hn, VProg.mul_of_lt (entry_arith hf q.nextAvail).1,
    Prog.pure_bind]

omit hm hq in
/-- Then `pop` reads the entry of its position. -/
theorem run_popHead_one (hs : ck = true → q.size.toNat < 32768) (m : Mem) :
    Prog.run (mm.handler ck) (q.popHead 1) m =
      (Prog.run (mm.handler ck) (readObj (BitVec 16)
        (q.availRing + (q.entryOffset q.nextAvail).setWidth 64)) m).bind fun p =>
          Prog.run (mm.handler ck) (VProg.unwrap p.1 >>= q.popChain) p.2 := by
  obtain ⟨-, hadd, hsum⟩ := entry_arith hf q.nextAvail
  unfold entryOffset at hsum ⊢
  rw [popHead_one hf, Prog.run_bind, VProg.run_add fun h => hadd (hs h), Option.bind_some]
  dsimp only
  rw [Prog.run_bind, VProg.run_add fun _ => hsum, Option.bind_some, Prog.run_bind]

/-- If `pop` does not panic at the last entry of the largest ring, its sums are
not checked. -/
theorem small_of_pop (hn : q.nextAvail = 32767)
    (hp : Prog.Always (mm.handler ck) (fun _ => True) (fun _ => True) q.pop) :
    ck = true → q.size.toNat < 32768 := by
  rintro rfl
  by_contra hge
  have hsize : q.size.toNat = 32768 := hf.le.resolve_left (by omega)
  obtain ⟨m, hpend⟩ := exists_pending hm hf hq true
  obtain ⟨x, m', hr, -⟩ := hp.run m
  have hover : ¬ (4 : BitVec 16).toNat + (2 * (q.nextAvail % q.size)).toNat < 2 ^ 16 := by
    rw [BitVec.toNat_mul, BitVec.toNat_umod, hsize, hn]
    decide
  rw [hpend, popHead_one hf, Prog.run_bind, VProg.run_add_overflow hover] at hr
  cases hr

/-- If `pop` does not panic no region ends inside the entry it reads. -/
theorem entry_of_pop (hs : ck = true → q.size.toNat < 32768)
    (hp : Prog.Always (mm.handler ck) (fun _ => True) (fun _ => True) q.pop) :
    ∀ r ∈ mm.regions, ¬ (q.availRing.toNat + (q.entryOffset q.nextAvail).toNat < r.endAddr ∧
      r.endAddr ≤ q.availRing.toNat + (q.entryOffset q.nextAvail).toNat + 2) := by
  obtain ⟨m, hpend⟩ := exists_pending hm hf hq ck
  obtain ⟨x, m', hr, -⟩ := hp.run m
  obtain ⟨haddr, -⟩ := covers_entry hf hq q.nextAvail
  have ho := entryOffset_le hf q.nextAvail
  have havail := hf.avail
  rw [hpend, run_popHead_one hf hs] at hr
  obtain ⟨⟨v, m₁⟩, hread, hr⟩ := Option.bind_eq_some_iff.mp hr
  obtain ⟨-, v', hbytes, rfl⟩ := Ram.run_readObj hread
  cases v' with
  | error e => cases hr
  | ok bs =>
    obtain ⟨l, hl, e⟩ := Option.map_eq_some_iff.mp hbytes
    cases l with
    | error e' => cases e
    | ok h =>
      have h2 : FromBytes.size (BitVec 16) = 2 := rfl
      obtain ⟨r₀, hpa, hf₀, -, -, hlt⟩ := MemoryManager.locate_ok (by rw [h2]; decide)
        (fun _ => by rw [haddr, h2]; omega) hl
      have hc₀ := MemoryManager.findRegion_contains hf₀
      rw [haddr] at hc₀ hlt
      rw [h2] at hlt
      rintro r hmem ⟨hlo, hhi⟩
      have hpos := r.size_pos
      have hend : r.endAddr = r.gpa.toNat + r.size.toNat := rfl
      have hend₀ : r₀.endAddr = r₀.gpa.toNat + r₀.size.toNat := rfl
      have hsame := MemoryManager.disjoint_regions (x := r.endAddr - 1) hm.disjoint hmem
        (MemoryManager.mem_of_findRegion hf₀) (by omega) (by omega)
      rw [hsame] at hhi
      omega

end

/-- For every table of RAM and every queue that is valid in it: the areas of the
queue lie in guest memory, and at any position in its rings no operation on it
fails with a memory error or panics, exactly if each area starts in guest memory
and no hole begins inside it, no region ends inside an entry of the available
ring, and, if overflows are checked, the queue has fewer than 32768 entries. -/
theorem valid_sound_iff (ck : Bool) (hm : mm.IsRam) (hv : q.isValid mm = true) :
    (q.Mapped mm ∧ ∀ q', q.SameConfig q' → q'.Works ck mm) ↔ q.Enclosed ck mm := by
  have hf := fits_of_isValid hv
  constructor
  · rintro ⟨hq, hw⟩
    have hc : ∀ n, q.SameConfig { q with nextAvail := n } := fun n =>
      ⟨rfl, rfl, rfl, rfl, rfl, rfl, rfl⟩
    have hs : ck = true → q.size.toNat < 32768 :=
      small_of_pop (q := { q with nextAvail := 32767 }) hm (hf.config (hc 32767))
        (hq.config (hc 32767)) rfl (hw _ (hc 32767)).pop
    have hpos := hf.pos
    exact ⟨hq.desc.unbroken hm.disjoint (by omega), hq.avail.unbroken hm.disjoint (by omega),
      hq.used.unbroken hm.disjoint (by omega),
      fun n => entry_of_pop hm (hf.config (hc n)) (hq.config (hc n)) hs (hw _ (hc n)).pop, hs⟩
  · intro h
    have hq : q.Mapped mm := ⟨h.desc.registered, h.avail.registered, h.used.registered⟩
    refine ⟨hq, fun q' hc => ?_⟩
    have hq' := hq.config hc
    have hf' := hf.config hc
    have he := h.entries
    have hs := h.small
    unfold entryOffset at he
    rw [← hc.availRing, ← hc.size] at he
    rw [← hc.size] at hs
    exact ⟨hq'.always_len hm hf', hq'.always_pop hm hf' he hs, hq'.always_addUsed hm hf',
      hq'.always_needsNotification hm hf', always_setNotification hm hf' hq' false,
      hq'.always_enableNotification hm hf'⟩

theorem valid_sound_iff_small : smallQueue.isValid smallRam = true ∧ smallQueue.Mapped smallRam ∧
    smallQueue.Works true smallRam := by
  have hv : smallQueue.isValid smallRam = true := by decide +kernel
  have hm : smallRam.IsRam := MemoryManager.isRam_allocated
  have hf := fits_of_isValid hv
  have hr : ∀ r ∈ smallRam.regions, r.endAddr = 0x10000 := by
    intro r hr
    obtain rfl := List.mem_singleton.mp hr
    rfl
  have hu : ∀ x n, x + n ≤ 0x10000 → 0 < n → smallRam.Unbroken x n := by
    intro x n hx hn
    refine ⟨MemoryManager.covers_iff.mpr ⟨_, List.mem_singleton.mpr rfl, Nat.zero_le _, ?_⟩,
      fun r hmem _ hend => ?_⟩
    · show x < 0 + 0x10000
      omega
    · rw [hr r hmem] at hend
      omega
  have he : smallQueue.Enclosed true smallRam := by
    refine ⟨hu _ _ (by decide) (by decide), hu _ _ (by decide) (by decide),
      hu _ _ (by decide) (by decide), fun n r hmem h => ?_, by decide⟩
    have ho := entryOffset_le hf n
    have hs : smallQueue.size.toNat = 2 := rfl
    have ha : smallQueue.availRing.toNat = 0x2000 := rfl
    rw [hr r hmem] at h
    omega
  have h := (valid_sound_iff true hm hv).mpr he
  exact ⟨hv, h.1, h.2 _ (.refl _)⟩

/-- A guest with 5 GiB of RAM, and a queue whose available ring starts in the
addresses of the devices and ends above them: it is valid, and `len` panics. -/
theorem valid_unsound : ∃ (mm : MemoryManager) (q : Queue), mm.IsRam ∧ q.isValid mm = true ∧ ¬ q.Mapped mm ∧
    ∀ ck, ¬ q.Works ck mm := by
  refine ⟨allocateMemoryWithSize 0x140000000 0 (by decide) (by decide), { Queue.new 256 with
    size := 256, ready := true, descTable := 0x1000, availRing := 0xffffff00, usedRing := 0x3000 },
    MemoryManager.isRam_allocated, by decide +kernel, fun h => ?_, fun ck h => ?_⟩
  · exact absurd (h.avail 0 (by decide)) (by decide +kernel)
  · obtain ⟨x, m', hr, -⟩ := h.len.run (fun _ => 0)
    cases hr

end Queue

end Whypa
