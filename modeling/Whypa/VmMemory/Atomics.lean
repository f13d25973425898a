import Whypa.Framework.Bits
import Whypa.VmMemory.Access

/-!
# Atomic accesses

The loads and stores of an integer that the processor makes whole (`guest_memory.rs`,
`volatile_memory.rs`). They take the first slice of the range and no other, so the
integer must be in one region, and at an address of the host that it is aligned to.
Then they are accesses to the guest's memory like the others, in an order that there
is for them, or a panic; else they are errors, and nothing has changed
(`atomic_access`).
-/

namespace Whypa.VmMemory

open Framework

inductive AtomicInteger
  | u8
  | u16
  | u32
  | u64
deriving DecidableEq, Repr

/-- The bytes of an integer, which are also what it is aligned to. -/
def AtomicInteger.size : AtomicInteger → Nat
  | .u8 => 1
  | .u16 => 2
  | .u32 => 4
  | .u64 => 8

inductive Ordering
  | relaxed
  | release
  | acquire
  | acqRel
  | seqCst
deriving DecidableEq, Repr

namespace Ordering

/-- The orders of a load. -/
def loads : Ordering → Bool
  | relaxed | acquire | seqCst => true
  | release | acqRel => false

/-- The orders of a store. -/
def stores : Ordering → Bool
  | relaxed | release | seqCst => true
  | acquire | acqRel => false

end Ordering

namespace VolatileSlice

def checkAlignment (v : VolatileSlice) (alignment : Nat) : Except VolatileMemoryError Unit :=
  if v.addr &&& BitVec.ofNat 64 (alignment - 1) ≠ 0 then .error (.misaligned v.addr alignment)
  else .ok ()

def getAtomicRef (v : VolatileSlice) (t : AtomicInteger) (offset : BitVec 64) :
    Except VolatileMemoryError VolatileSlice :=
  match v.subslice offset (BitVec.ofNat 64 t.size) with
  | .error e => .error e
  | .ok slice => match slice.checkAlignment t.size with
    | .error e => .error e
    | .ok () => .ok slice

/-- A store in an order that there is for loads only is a panic. -/
def store (v : VolatileSlice) {t : AtomicInteger} (val : BitVec (8 * t.size)) (addr : BitVec 64)
    (order : Ordering) (st : State) : Option (Except VolatileMemoryError Unit × State) :=
  match v.getAtomicRef t addr with
  | .error e => some (.error e, st)
  | .ok r =>
    if order.stores then some (.ok (), v.bitmap.markDirty addr (BitVec.ofNat 64 t.size)
      { st with mem := st.mem.putWord r.addr.toNat val })
    else none

def load (v : VolatileSlice) (t : AtomicInteger) (addr : BitVec 64) (order : Ordering) (st : State) :
    Option (Except VolatileMemoryError (BitVec (8 * t.size))) :=
  match v.getAtomicRef t addr with
  | .error e => some (.error e)
  | .ok r => if order.loads then some (.ok (st.mem.word r.addr.toNat (8 * t.size))) else none

end VolatileSlice

namespace GuestRegionCollection

/-- A store to the first item; that there is none would be a panic too. -/
def store (c : GuestRegionCollection) {t : AtomicInteger} (val : BitVec (8 * t.size))
    (addr : GuestAddress) (order : Ordering) (st : State) : Option (Except GuestMemoryError Unit × State) :=
  match (c.next ⟨addr, BitVec.ofNat 64 t.size⟩).1 with
  | none => none
  | some (.error e) => some (.error e, st)
  | some (.ok v) => (v.store val 0 order st).map fun r => (r.1.mapError .ofVolatile, r.2)

def load (c : GuestRegionCollection) (t : AtomicInteger) (addr : GuestAddress) (order : Ordering)
    (st : State) : Option (Except GuestMemoryError (BitVec (8 * t.size))) :=
  match (c.next ⟨addr, BitVec.ofNat 64 t.size⟩).1 with
  | none => none
  | some (.error e) => some (.error e)
  | some (.ok v) => (v.load t 0 order st).map (Except.mapError .ofVolatile)

/-- The `n` bytes at `a` are in one region, from the address `h` of the host on. -/
def Whole (c : GuestRegionCollection) (a n h : Nat) : Prop :=
  ∃ r ∈ c.regions, r.guestBase.toNat ≤ a ∧ a + n ≤ r.guestBase.toNat + r.size.toNat ∧
    h = r.addr.toNat + (a - r.guestBase.toNat)

end GuestRegionCollection

theorem AtomicInteger.size_eq (t : AtomicInteger) : ∃ k < 4, t.size = 2 ^ k := by
  cases t
  · exact ⟨0, by decide, rfl⟩
  · exact ⟨1, by decide, rfl⟩
  · exact ⟨2, by decide, rfl⟩
  · exact ⟨3, by decide, rfl⟩

theorem AtomicInteger.toNat_size (t : AtomicInteger) :
    (BitVec.ofNat 64 t.size).toNat = t.size ∧ 0 < t.size := by
  cases t <;> decide

theorem VolatileSlice.checkAlignment_eq (v : VolatileSlice) (t : AtomicInteger) :
    v.checkAlignment t.size =
      if t.size ∣ v.addr.toNat then .ok () else .error (.misaligned v.addr t.size) := by
  obtain ⟨k, hk, hsize⟩ := t.size_eq
  have hlt : 2 ^ k - 1 < 2 ^ 64 := by
    have := Nat.pow_lt_pow_right (show 1 < 2 by decide) (Nat.lt_trans hk (show 4 < 64 by decide))
    omega
  have hmask : v.addr &&& BitVec.ofNat 64 (t.size - 1) = 0 ↔ t.size ∣ v.addr.toNat := by
    rw [hsize, BitVec.toNat_eq, BitVec.toNat_and, toNat_ofNat_of_lt hlt,
      Nat.and_two_pow_sub_one_eq_mod, Nat.dvd_iff_mod_eq_zero]
    rfl
  rw [checkAlignment]
  by_cases h : t.size ∣ v.addr.toNat
  · rw [if_pos h, if_neg (not_not.mpr (hmask.mpr h))]
  · rw [if_neg h, if_pos (mt hmask.mp h)]

namespace GuestRegionCollection

variable {c : GuestRegionCollection} {t : AtomicInteger} {addr : GuestAddress} {a n h : Nat}
  {v : VolatileSlice} {st : State}

/-- The reference is there for an integer that is in the slice and aligned. -/
theorem getAtomicRef_eq (v : VolatileSlice) (hle : v.size.toNat ≤ t.size) :
    (v.size.toNat = t.size ∧ t.size ∣ v.addr.toNat ∧ v.getAtomicRef t 0 = .ok v) ∨
    ¬ (v.size.toNat = t.size ∧ t.size ∣ v.addr.toNat) ∧
      ∃ e, v.getAtomicRef t 0 = .error e ∧ GuestMemoryError.ofVolatile e = .invalidBackendAddress := by
  have hsize := t.toNat_size.1
  by_cases heq : v.size.toNat = t.size
  · have hv : ({ v with size := BitVec.ofNat 64 t.size } : VolatileSlice) = v := by
      rw [← heq, BitVec.ofNat_toNat, BitVec.setWidth_eq]
    have hsub := subslice_zero v (Nat.le_of_eq (hsize.trans heq.symm))
    rw [hv] at hsub
    by_cases hdvd : t.size ∣ v.addr.toNat
    · refine .inl ⟨heq, hdvd, ?_⟩
      simp only [VolatileSlice.getAtomicRef, hsub, v.checkAlignment_eq, if_pos hdvd]
    · refine .inr ⟨fun hall => hdvd hall.2, .misaligned v.addr t.size, ?_, rfl⟩
      simp only [VolatileSlice.getAtomicRef, hsub, v.checkAlignment_eq, if_neg hdvd]
  · have hsum : (0 : BitVec 64).toNat + (BitVec.ofNat 64 t.size).toNat < 2 ^ 64 := by
      show 0 + (BitVec.ofNat 64 t.size).toNat < 2 ^ 64
      omega
    have hlt : v.size < 0 + BitVec.ofNat 64 t.size := by
      rw [BitVec.lt_def, BitVec.toNat_add_of_lt hsum]
      show v.size.toNat < 0 + (BitVec.ofNat 64 t.size).toNat
      omega
    refine .inr ⟨fun hall => heq hall.1, .outOfBounds (0 + BitVec.ofNat 64 t.size), ?_, rfl⟩
    have hsub : v.subslice 0 (BitVec.ofNat 64 t.size) =
        .error (.outOfBounds (0 + BitVec.ofNat 64 t.size)) := by
      rw [VolatileSlice.subslice, computeOffset, checkedAdd_of_lt hsum]
      exact if_pos hlt
    simp only [VolatileSlice.getAtomicRef, hsub]

/-- The first item is the integer, if it is in one region, and else less of it. -/
theorem next_atomic (c : GuestRegionCollection) (t : AtomicInteger) (addr : GuestAddress) :
    (c.host addr.toNat = none ∧
      (c.next ⟨addr, BitVec.ofNat 64 t.size⟩).1 = some (.error (.invalidGuestAddress addr))) ∨
    ∃ v, c.host addr.toNat ≠ none ∧ (c.next ⟨addr, BitVec.ofNat 64 t.size⟩).1 = some (.ok v) ∧
      c.Part addr.toNat v ∧ v.size.toNat ≤ t.size ∧
      ∀ h, c.Whole addr.toNat t.size h ↔ v.size.toNat = t.size ∧ v.addr.toNat = h := by
  obtain ⟨hsize, hpos⟩ := t.toNat_size
  have hcount : BitVec.ofNat 64 t.size ≠ 0 := fun hz => by
    rw [hz] at hsize
    exact absurd hsize (Nat.ne_of_lt hpos)
  cases hf : c.findRegion addr with
  | none =>
    refine .inl ⟨host_eq_none_iff.mpr hf, ?_⟩
    rw [next_unmapped ⟨addr, BitVec.ofNat 64 t.size⟩ hcount hf]
  | some r =>
    obtain ⟨v, hnext, hpiece, rfl, hmin, -⟩ :=
      next_mapped ⟨addr, BitVec.ofNat 64 t.size⟩ hcount hf
    have hmin : v.size.toNat = min (v.bitmap.inner.guestBase.toNat + v.bitmap.inner.size.toNat -
      addr.toNat) (BitVec.ofNat 64 t.size).toNat := hmin
    have hat : addr.toNat = v.bitmap.inner.guestBase.toNat + v.bitmap.baseOffset.toNat :=
      hpiece.at_offset
    have haddr := hpiece.addr_eq
    have hvpos := hpiece.pos
    have hne : c.host addr.toNat ≠ none := fun hz => by
      rw [host_eq_none_iff.mp hz] at hf
      cases hf
    refine .inr ⟨v, hne, by rw [hnext], hpiece.toPart, by omega, fun h => ⟨?_, ?_⟩⟩
    · rintro ⟨r', hr', hlo, hhi, rfl⟩
      obtain rfl : r' = v.bitmap.inner := c.ordered.separate.unique hr' hpiece.mem (a := addr.toNat)
        ⟨hlo, Nat.lt_of_lt_of_le (Nat.lt_add_of_pos_right hpos) hhi⟩ (findRegion_eq_some_iff.mp hf).2
      omega
    · rintro ⟨heq, rfl⟩
      exact ⟨v.bitmap.inner, hpiece.mem, by omega, by omega, by omega⟩

theorem store_eq_put {val : BitVec (8 * t.size)} (hs : v.size.toNat = t.size)
    (hr : v.getAtomicRef t 0 = .ok v) (order : Ordering) (st : State) :
    v.store val 0 order st =
      if order.stores then some (.ok (), st.put v (leBytes t.size val.toNat)) else none := by
  have hn : 8 * t.size / 8 = t.size := by omega
  have hsize : BitVec.ofNat 64 t.size = v.size := by rw [← hs, BitVec.ofNat_toNat, BitVec.setWidth_eq]
  simp only [VolatileSlice.store, hr, hsize, Mem.putWord, hn]
  rfl

theorem mem_put (v : VolatileSlice) (val : BitVec (8 * t.size)) (st : State) :
    (st.put v (leBytes t.size val.toNat)).mem = st.mem.putWord v.addr.toNat val := by
  have hn : 8 * t.size / 8 = t.size := by omega
  rw [Mem.putWord, hn]
  rfl

/-- An access is made on a slice that is the integer, or it is an error. -/
theorem atomic_cases (c : GuestRegionCollection) (t : AtomicInteger) (addr : GuestAddress) :
    (∃ v, c.Part addr.toNat v ∧ v.size.toNat = t.size ∧ t.size ∣ v.addr.toNat ∧
      c.Whole addr.toNat t.size v.addr.toNat ∧
      ∀ order st, c.load t addr order st =
          (if order.loads then some (.ok (st.mem.word v.addr.toNat (8 * t.size))) else none) ∧
        ∀ val : BitVec (8 * t.size), c.store val addr order st =
          if order.stores then some (.ok (), st.put v (leBytes t.size val.toNat)) else none) ∨
    ¬ (∃ h, c.Whole addr.toNat t.size h ∧ t.size ∣ h) ∧ ∃ e,
      e = (if c.host addr.toNat = none then .invalidGuestAddress addr else .invalidBackendAddress) ∧
      ∀ order st, c.load t addr order st = some (.error e) ∧
        ∀ val : BitVec (8 * t.size), c.store val addr order st = some (.error e, st) := by
  obtain ⟨hnone, hnext⟩ | ⟨v, hne, hnext, hpart, hle, hwhole⟩ := c.next_atomic t addr
  · refine .inr ⟨fun ⟨h, ⟨r, hr, hlo, hhi, _⟩, _⟩ => absurd hnone ?_, _, (if_pos hnone).symm,
      fun order st => ⟨by simp only [load, hnext], fun val => by simp only [store, hnext]⟩⟩
    have hpos := t.toNat_size.2
    rw [host_eq_some_iff.mpr ⟨r, hr, ⟨hlo, Nat.lt_of_lt_of_le (Nat.lt_add_of_pos_right hpos) hhi⟩, rfl⟩]
    exact nofun
  · obtain ⟨heq, hdvd, href⟩ | ⟨hnot, e, href, he⟩ := getAtomicRef_eq (t := t) v hle
    · refine .inl ⟨v, hpart, heq, hdvd, (hwhole _).mpr ⟨heq, rfl⟩, fun order st => ⟨?_, fun val => ?_⟩⟩
      · simp only [load, hnext, VolatileSlice.load, href]
        cases order.loads <;> rfl
      · simp only [store, hnext, store_eq_put heq href]
        cases order.stores <;> rfl
    · refine .inr ⟨fun ⟨h, hw, hdvd⟩ => hnot ?_, _, (if_neg hne).symm,
        fun order st => ⟨?_, fun val => ?_⟩⟩
      · obtain ⟨heq, rfl⟩ := (hwhole h).mp hw
        exact ⟨heq, hdvd⟩
      · simp only [load, hnext, VolatileSlice.load, href]
        exact congrArg (some ∘ Except.error) he
      · simp only [store, hnext, VolatileSlice.store, href]
        exact congrArg (fun e => some (Except.error e, st)) he

/-- An integer that is in one region and aligned on the host is stored and loaded as a whole, in an
order that there is for a store or a load, else there is a panic: a store is one to the guest's memory
and dirties its pages, a load gives the bytes that are there, and after a store its value. Any other
access is an error in every order, and changes nothing. -/
theorem atomic_access (c : GuestRegionCollection) (hd : c.Distinct) {t : AtomicInteger}
    (val : BitVec (8 * t.size)) (addr : GuestAddress) (st : State) :
    ((∃ h, c.Whole addr.toNat t.size h ∧ t.size ∣ h) →
      (∃ v, leBytes t.size v.toNat = (c.guest st.mem).read addr.toNat t.size ∧
        ∀ order, c.load t addr order st = if order.loads then some (.ok v) else none) ∧
      ∃ st', (∀ order, c.store val addr order st = if order.stores then some (.ok (), st') else none) ∧
        (∀ order, c.load t addr order st' = if order.loads then some (.ok val) else none) ∧
        c.Related st st' ((⟨c.guest st.mem, ∅⟩ : Flat).store addr.toNat (leBytes t.size val.toNat))) ∧
    (¬ (∃ h, c.Whole addr.toNat t.size h ∧ t.size ∣ h) →
      ∃ e, e = (if c.host addr.toNat = none then .invalidGuestAddress addr else .invalidBackendAddress) ∧
        ∀ order, c.load t addr order st = some (.error e) ∧
          c.store val addr order st = some (.error e, st)) := by
  obtain ⟨v, hpart, heq, hdvd, hwhole, hrun⟩ | ⟨hnot, e, he, hrun⟩ := c.atomic_cases t addr
  · refine ⟨fun _ => ⟨⟨_, ?_, fun order => (hrun order st).1⟩, _, fun order => (hrun order st).2 val,
      fun order => ?_, ?_⟩, fun hno => ?_⟩
    · rw [Mem.leBytes_word, ← heq, hpart.read_guest]
    · rw [(hrun order _).1, mem_put, Mem.word_putWord]
    · exact (Related.start c st).put hd hpart (by rw [length_leBytes, heq])
    · exact absurd ⟨v.addr.toNat, hwhole, hdvd⟩ hno
  · exact ⟨fun hw => absurd hw hnot,
      fun _ => ⟨e, he, fun order => ⟨(hrun order st).1, (hrun order st).2 val⟩⟩⟩

/-- The index of a ring, at the end of a region. -/
theorem atomic_access_beside :
    ∃ st', besideCollection.store (t := .u16) 0x1234 0xffe .release freshState = some (.ok (), st') ∧
      besideCollection.load .u16 0xffe .acquire st' = some (.ok 0x1234) ∧
      besideCollection.load .u16 0xffe .release st' = none := by
  have hd : besideCollection.Distinct := List.pairwise_pair.mpr (by decide)
  obtain ⟨-, st', hs, hl, -⟩ := (atomic_access besideCollection hd (t := .u16) 0x1234 0xffe freshState).1
    ⟨_, ⟨lowRegion, List.mem_cons_self, by decide, by decide, rfl⟩, by decide⟩
  exact ⟨st', hs .release, hl .acquire, hl .release⟩

end GuestRegionCollection

end Whypa.VmMemory
