import Whypa.Framework.Holes
import Whypa.VmMemory.Regions

/-!
# Slices of the guest's memory

A range of addresses may go over several regions, and over holes. `get_slices`
(`guest_memory.rs`) gives the slices of it, one for each region, until it comes to a
hole, and then an error (`get_slices_cover`): they are the range's bytes on the host,
in order, as far as the range is mapped. So a range is checked (`checkRange`) by
whether an error comes.
-/

namespace Whypa.VmMemory

open Framework

/-- Where a slice is in the bitmap of its region. -/
structure BaseSlice where
  inner : GuestRegionMmap
  baseOffset : BitVec 64
deriving DecidableEq, Repr

structure VolatileSlice where
  addr : BitVec 64
  size : BitVec 64
  bitmap : BaseSlice
deriving DecidableEq, Repr

/-- The kinds of errors of a device that the code tells apart, and the others. -/
inductive ErrorKind
  | interrupted
  /-- "failed to fill whole buffer" -/
  | unexpectedEof
  /-- "failed to write whole buffer" -/
  | writeZero
  | other (code : Nat)
deriving DecidableEq, Repr

inductive VolatileMemoryError
  /-- "address 0x{addr:x} is out of bounds" -/
  | outOfBounds (addr : BitVec 64)
  /-- "address 0x{base:x} offset by 0x{offset:x} would overflow" -/
  | overflow (base offset : BitVec 64)
  /-- "address 0x{addr:x} is not aligned to {alignment:?}" -/
  | misaligned (addr : BitVec 64) (alignment : Nat)
  /-- "only used {completed} bytes in {expected} long buffer" -/
  | partialBuffer (expected completed : Nat)
  | ioError (kind : ErrorKind)
deriving DecidableEq, Repr

inductive GuestMemoryError
  | invalidGuestAddress (addr : GuestAddress)
  | partialBuffer (expected completed : Nat)
  | invalidBackendAddress
  | guestAddressOverflow
  | ioError (kind : ErrorKind)
deriving DecidableEq, Repr

def GuestMemoryError.ofVolatile : VolatileMemoryError → GuestMemoryError
  | .outOfBounds _ => .invalidBackendAddress
  | .overflow .. => .invalidBackendAddress
  | .misaligned .. => .invalidBackendAddress
  | .partialBuffer expected completed => .partialBuffer expected completed
  | .ioError kind => .ioError kind

def computeOffset (base offset : BitVec 64) : Except VolatileMemoryError (BitVec 64) :=
  match checkedAdd base offset with
  | none => .error (.overflow base offset)
  | some m => .ok m

namespace GuestRegionMmap

/-- The slice of the mapping, which starts in the bitmap where it starts in the mapping. -/
def getSlice (r : GuestRegionMmap) (offset count : BitVec 64) :
    Except VolatileMemoryError VolatileSlice :=
  match computeOffset offset count with
  | .error e => .error e
  | .ok stop =>
    if r.size < stop then .error (.outOfBounds stop) else .ok ⟨r.addr + offset, count, ⟨r, offset⟩⟩

theorem getSlice_of_le (r : GuestRegionMmap) {offset count : BitVec 64}
    (h : offset.toNat + count.toNat ≤ r.size.toNat) :
    r.getSlice offset count = .ok ⟨r.addr + offset, count, ⟨r, offset⟩⟩ := by
  have hsum : offset.toNat + count.toNat < 2 ^ 64 := Nat.lt_of_le_of_lt h r.size.isLt
  have hle : ¬ r.size < offset + count := by
    rw [BitVec.lt_def, BitVec.toNat_add_of_lt hsum]
    omega
  rw [getSlice, computeOffset, checkedAdd_of_lt hsum]
  exact if_neg hle

end GuestRegionMmap

namespace GuestRegionCollection

variable {c : GuestRegionCollection} {r : GuestRegionMmap} {addr count : BitVec 64}

theorem isSome_toRegionAddr (h : c.findRegion addr = some r) : (r.toRegionAddr addr).isSome := by
  rw [(r.toRegionAddr_eq (findRegion_eq_some_iff.mp h).2).1]
  rfl

/-- The region of an address and the offset into it: the offset is there, so nothing panics. -/
def toRegionAddr (c : GuestRegionCollection) (addr : GuestAddress) :
    Option (GuestRegionMmap × BitVec 64) :=
  match h : c.findRegion addr with
  | none => none
  | some r => some (r, (r.toRegionAddr addr).get (isSome_toRegionAddr h))

/-- The next address of an iteration and the bytes that are left. -/
structure GuestMemorySliceIterator where
  addr : GuestAddress
  count : BitVec 64
deriving DecidableEq, Repr

/-- The next slice; the address after it may be 2^64, which wraps to 0, but no more. -/
def doNext (c : GuestRegionCollection) (it : GuestMemorySliceIterator) :
    Option (Except GuestMemoryError VolatileSlice) × GuestMemorySliceIterator :=
  if it.count = 0 then (none, it)
  else match c.toRegionAddr it.addr with
    | none => (some (.error (.invalidGuestAddress it.addr)), it)
    | some (region, start) =>
      let cap := region.size - start
      let len := if cap ≤ it.count then cap else it.count
      if it.addr + len ≠ 0 ∧ 2 ^ 64 ≤ it.addr.toNat + len.toNat then
        (some (.error .guestAddressOverflow), { it with count := it.count - len })
      else
        (some ((region.getSlice start len).mapError .ofVolatile), ⟨it.addr + len, it.count - len⟩)

def next (c : GuestRegionCollection) (it : GuestMemorySliceIterator) :
    Option (Except GuestMemoryError VolatileSlice) × GuestMemorySliceIterator :=
  match c.doNext it with
  | (some (.ok slice), it') => (some (.ok slice), it')
  | (other, it') => (other, { it' with count := 0 })

/-- The items of an iteration, `n` of them at most. -/
def items (c : GuestRegionCollection) : Nat → GuestMemorySliceIterator →
    List (Except GuestMemoryError VolatileSlice)
  | 0, _ => []
  | n + 1, it => match c.next it with
    | (some item, it') => item :: c.items n it'
    | (none, _) => []

/-- The items, until there is none: an item takes a byte at least, or is the last. -/
def getSlices (c : GuestRegionCollection) (addr : GuestAddress) (count : BitVec 64) :
    List (Except GuestMemoryError VolatileSlice) := c.items (count.toNat + 1) ⟨addr, count⟩

def checkRange (c : GuestRegionCollection) (base : GuestAddress) (len : BitVec 64) : Bool :=
  (c.getSlices base len).all fun r => r.isOk

/-- The host's address of an address of the guest. -/
def getHostAddress (c : GuestRegionCollection) (addr : GuestAddress) :
    Except GuestMemoryError (BitVec 64) :=
  match c.toRegionAddr addr with
  | none => .error (.invalidGuestAddress addr)
  | some (region, start) => match region.checkAddress start with
    | none => .error .invalidBackendAddress
    | some start => .ok (region.addr + start)

/-! ## Addresses of the host -/

/-- The host's address of each address of the guest that is mapped. -/
def host (c : GuestRegionCollection) : Holed Nat := fun a =>
  if a < 2 ^ 64 then
    (c.findRegion (BitVec.ofNat 64 a)).map fun r => r.addr.toNat + (a - r.guestBase.toNat)
  else none

theorem host_eq_some_iff {a h : Nat} : c.host a = some h ↔
    ∃ r ∈ c.regions, r.span.Has a ∧ h = r.addr.toNat + (a - r.guestBase.toNat) := by
  unfold host
  split
  · rename_i ha
    have hmod := toNat_ofNat_of_lt ha
    simp only [Option.map_eq_some_iff, findRegion_eq_some_iff, hmod, and_assoc, eq_comm (b := h)]
  · rename_i ha
    refine ⟨nofun, fun ⟨r, _, ⟨_, hhi⟩, _⟩ => absurd ?_ ha⟩
    have hfits := r.fits
    have hhi : a < r.guestBase.toNat + r.size.toNat := hhi
    omega

theorem host_eq_none_iff {a : GuestAddress} : c.host a.toNat = none ↔ c.findRegion a = none := by
  rw [host, if_pos a.isLt, BitVec.ofNat_toNat, BitVec.setWidth_eq, Option.map_eq_none_iff]

/-- The addresses of a slice, in order. -/
def hostAddrs (s : VolatileSlice) : List Nat := (List.range s.size.toNat).map fun i => s.addr.toNat + i

/-- The slice is the bytes at `a`, in one of the regions. -/
structure Part (c : GuestRegionCollection) (a : Nat) (s : VolatileSlice) : Prop where
  mem : s.bitmap.inner ∈ c.regions
  at_offset : a = s.bitmap.inner.guestBase.toNat + s.bitmap.baseOffset.toNat
  addr_eq : s.addr.toNat = s.bitmap.inner.addr.toNat + s.bitmap.baseOffset.toNat
  within : s.bitmap.baseOffset.toNat + s.size.toNat ≤ s.bitmap.inner.size.toNat

/-- There is a byte in it. -/
structure Piece (c : GuestRegionCollection) (a : Nat) (s : VolatileSlice) : Prop
    extends c.Part a s where
  pos : 0 < s.size.toNat

/-- The slices are the bytes from `a` on. -/
def Pieces (c : GuestRegionCollection) : Nat → List VolatileSlice → Prop
  | _, [] => True
  | a, s :: l => c.Piece a s ∧ c.Pieces (a + s.size.toNat) l

variable {a n : Nat} {s : VolatileSlice} {l : List VolatileSlice} {it it' : GuestMemorySliceIterator}

theorem Part.host (h : c.Part a s) {i : Nat} (hi : i < s.size.toNat) :
    c.host (a + i) = some (s.addr.toNat + i) := by
  obtain ⟨hmem, hat, haddr, hwithin⟩ := h
  refine host_eq_some_iff.mpr ⟨_, hmem, ⟨?_, ?_⟩, ?_⟩
  · show s.bitmap.inner.guestBase.toNat ≤ a + i
    omega
  · show a + i < s.bitmap.inner.guestBase.toNat + s.bitmap.inner.size.toNat
    omega
  · omega

theorem Part.extent (h : c.Part a s) : c.host.extent a s.size.toNat = s.size.toNat :=
  Holed.extent_eq_iff.mpr ⟨le_rfl, fun i hi => by rw [h.host hi]; rfl, .inl rfl⟩

theorem Part.read (h : c.Part a s) : c.host.read a s.size.toNat = hostAddrs s := by
  refine List.ext_getElem? fun i => ?_
  by_cases hi : i < s.size.toNat
  · rw [Holed.getElem?_read (by rwa [h.extent]), h.host hi]
    simp [hostAddrs, hi]
  · rw [List.getElem?_eq_none, List.getElem?_eq_none]
    · simpa [hostAddrs] using hi
    · rw [Holed.length_read, h.extent]
      omega

theorem toRegionAddr_eq_none (h : c.findRegion addr = none) : c.toRegionAddr addr = none := by
  unfold toRegionAddr
  split
  · rfl
  · rename_i hr
    rw [h] at hr
    cases hr

theorem toRegionAddr_eq_some (h : c.findRegion addr = some r) :
    c.toRegionAddr addr = some (r, addr - r.guestBase) := by
  unfold toRegionAddr
  split
  · rename_i hr
    rw [h] at hr
    cases hr
  · rename_i x hr
    obtain rfl := Option.some.inj (h.symm.trans hr)
    have := (r.toRegionAddr_eq (findRegion_eq_some_iff.mp h).2).1
    simp [this]

theorem getHostAddress_eq (c : GuestRegionCollection) (addr : GuestAddress) :
    (c.getHostAddress addr).map BitVec.toNat = match c.host addr.toNat with
      | some h => .ok h
      | none => .error (.invalidGuestAddress addr) := by
  cases hf : c.findRegion addr with
  | none =>
    rw [getHostAddress, toRegionAddr_eq_none hf, host_eq_none_iff.mpr hf]
    rfl
  | some r =>
    obtain ⟨hmem, hhas⟩ := findRegion_eq_some_iff.mp hf
    obtain ⟨-, hstart⟩ := r.toRegionAddr_eq hhas
    have hhost := host_eq_some_iff.mpr ⟨r, hmem, hhas, rfl⟩
    have hlo : r.guestBase.toNat ≤ addr.toNat := hhas.1
    have hhi : addr.toNat < r.guestBase.toNat + r.size.toNat := hhas.2
    have hmapped := r.mapped
    have hlt : addr - r.guestBase < r.size := by
      rw [BitVec.lt_def, hstart]
      omega
    have hcheck : r.checkAddress (addr - r.guestBase) = some (addr - r.guestBase) := by
      rw [GuestRegionMmap.checkAddress, GuestRegionMmap.addressInRange, decide_eq_true hlt]
      rfl
    rw [hhost]
    simp only [getHostAddress, toRegionAddr_eq_some hf, hcheck]
    refine congrArg Except.ok ?_
    rw [← hstart]
    exact BitVec.toNat_add_of_lt (by omega)

/-- A step of the iteration, where there is a region: a piece, and what is left is behind it. -/
theorem next_mapped (it : GuestMemorySliceIterator) (hc : it.count ≠ 0) (h : c.findRegion it.addr = some r) :
    ∃ s, c.next it = (some (.ok s), ⟨it.addr + s.size, it.count - s.size⟩) ∧
      c.Piece it.addr.toNat s ∧ s.bitmap.inner = r ∧
      s.size.toNat = min (r.span.stop - it.addr.toNat) it.count.toNat ∧
      (it.addr + s.size).toNat = it.addr.toNat + s.size.toNat := by
  obtain ⟨hmem, hhas⟩ := findRegion_eq_some_iff.mp h
  obtain ⟨-, hstart⟩ := r.toRegionAddr_eq hhas
  obtain ⟨hlo, hhi⟩ := hhas
  have hlo : r.guestBase.toNat ≤ it.addr.toNat := hlo
  have hhi : it.addr.toNat < r.guestBase.toNat + r.size.toNat := hhi
  have hfits := r.fits
  have hmapped := r.mapped
  have hcount := BitVec.toNat_pos_of_ne_zero hc
  have hcap : (r.size - (it.addr - r.guestBase)).toNat =
      r.size.toNat - (it.addr.toNat - r.guestBase.toNat) := by
    rw [BitVec.toNat_sub_of_le (BitVec.le_def.mpr (by omega)), hstart]
  generalize hlen : (if r.size - (it.addr - r.guestBase) ≤ it.count then
    r.size - (it.addr - r.guestBase) else it.count) = len
  have hlen' : len.toNat = min (r.size.toNat - (it.addr.toNat - r.guestBase.toNat)) it.count.toNat := by
    rw [← hlen, ← hcap]
    split
    · exact (Nat.min_eq_left ‹_›).symm
    · exact (Nat.min_eq_right (Nat.le_of_not_le ‹_›)).symm
  have hadd : (it.addr + len).toNat = it.addr.toNat + len.toNat := BitVec.toNat_add_of_lt (by omega)
  have hslice : r.getSlice (it.addr - r.guestBase) len =
      .ok ⟨r.addr + (it.addr - r.guestBase), len, ⟨r, it.addr - r.guestBase⟩⟩ :=
    r.getSlice_of_le (by omega)
  refine ⟨⟨r.addr + (it.addr - r.guestBase), len, ⟨r, it.addr - r.guestBase⟩⟩, ?_, ?_, rfl, ?_,
    hadd⟩
  · have hover : ¬ (it.addr + len ≠ 0 ∧ 2 ^ 64 ≤ it.addr.toNat + len.toNat) := by omega
    have : c.doNext it = (some (.ok ⟨r.addr + (it.addr - r.guestBase), len, ⟨r, it.addr - r.guestBase⟩⟩),
        ⟨it.addr + len, it.count - len⟩) := by
      simp only [doNext, if_neg hc, toRegionAddr_eq_some h, hlen, if_neg hover, hslice]
      rfl
    rw [next, this]
  · refine ⟨⟨hmem, ?_, ?_, ?_⟩, ?_⟩
    · show it.addr.toNat = r.guestBase.toNat + (it.addr - r.guestBase).toNat
      omega
    · show (r.addr + (it.addr - r.guestBase)).toNat = r.addr.toNat + (it.addr - r.guestBase).toNat
      exact BitVec.toNat_add_of_lt (by omega)
    · show (it.addr - r.guestBase).toNat + len.toNat ≤ r.size.toNat
      omega
    · show 0 < len.toNat
      omega
  · show len.toNat = min (r.guestBase.toNat + r.size.toNat - it.addr.toNat) it.count.toNat
    omega

theorem next_unmapped (it : GuestMemorySliceIterator) (hc : it.count ≠ 0) (h : c.findRegion it.addr = none) :
    c.next it = (some (.error (.invalidGuestAddress it.addr)), { it with count := 0 }) := by
  have : c.doNext it = (some (.error (.invalidGuestAddress it.addr)), it) := by
    simp only [doNext, if_neg hc, toRegionAddr_eq_none h]
  rw [next, this]

theorem next_zero (hc : it.count = 0) : (c.next it).1 = none := by
  rw [next, doNext, if_pos hc]

/-- The bytes of slices together. -/
def total (l : List VolatileSlice) : Nat := (l.map fun s => s.size.toNat).sum

theorem Pieces.extent (h : c.Pieces a l) : c.host.extent a (total l) = total l := by
  induction l generalizing a with
  | nil => rfl
  | cons s l ih =>
    rw [total, List.map_cons, List.sum_cons, Holed.extent_add h.1.extent]
    exact congrArg (s.size.toNat + ·) (ih h.2)

/-- The slices are the addresses of the host that belong to the range. -/
theorem Pieces.read (h : c.Pieces a l) : l.flatMap hostAddrs = c.host.read a (total l) := by
  induction l generalizing a with
  | nil => rfl
  | cons s l ih =>
    rw [total, List.map_cons, List.sum_cons, Holed.read_add h.1.extent, h.1.read, List.flatMap_cons,
      ih h.2]
    rfl

/-- What comes after the slices: an error, if there is a hole. -/
def rest (c : GuestRegionCollection) (addr count : BitVec 64) :
    List (Except GuestMemoryError VolatileSlice) :=
  if c.host.extent addr.toNat count.toNat < count.toNat then
    [.error (.invalidGuestAddress (addr + BitVec.ofNat 64 (c.host.extent addr.toNat count.toNat)))]
  else []

theorem items_zero (hc : it.count = 0) (n : Nat) : c.items n it = [] := by
  cases n with
  | zero => rfl
  | succ n =>
    have hnext := next_zero (c := c) hc
    rw [items]
    generalize c.next it = x at hnext
    obtain ⟨_, it'⟩ := x
    obtain rfl := hnext
    rfl

/-- Behind a piece it goes on as from the start. -/
theorem rest_piece (h : c.Piece addr.toNat s) (hle : s.size.toNat ≤ count.toNat)
    (hadd : (addr + s.size).toNat = addr.toNat + s.size.toNat) :
    c.rest (addr + s.size) (count - s.size) = c.rest addr count ∧
      c.host.extent addr.toNat count.toNat =
        s.size.toNat + c.host.extent (addr + s.size).toNat (count - s.size).toNat := by
  have hsub : (count - s.size).toNat = count.toNat - s.size.toNat :=
    BitVec.toNat_sub_of_le (BitVec.le_def.mpr hle)
  have hextent : c.host.extent addr.toNat count.toNat =
      s.size.toNat + c.host.extent (addr + s.size).toNat (count - s.size).toNat := by
    rw [hsub, hadd, ← Holed.extent_add h.extent, Nat.add_sub_cancel' hle]
  refine ⟨?_, hextent⟩
  have hiff : c.host.extent (addr + s.size).toNat (count - s.size).toNat < (count - s.size).toNat ↔
      c.host.extent addr.toNat count.toNat < count.toNat := by omega
  rw [rest, rest, hextent, BitVec.ofNat_add, BitVec.ofNat_toNat, BitVec.setWidth_eq, ← BitVec.add_assoc]
  exact if_congr (by omega) rfl rfl

theorem items_eq (c : GuestRegionCollection) (it : GuestMemorySliceIterator) {n : Nat}
    (hn : it.count.toNat < n) : ∃ l, c.Pieces it.addr.toNat l ∧
      total l = c.host.extent it.addr.toNat it.count.toNat ∧
      c.items n it = l.map .ok ++ c.rest it.addr it.count := by
  induction n generalizing it with
  | zero => cases hn
  | succ n ih =>
    by_cases hc : it.count = 0
    · refine ⟨[], trivial, by rw [hc]; rfl, ?_⟩
      rw [items_zero hc, hc]
      rfl
    · cases hf : c.findRegion it.addr with
      | none =>
        have hcount := BitVec.toNat_pos_of_ne_zero hc
        have hextent : c.host.extent it.addr.toNat it.count.toNat = 0 :=
          Holed.extent_eq_iff.mpr ⟨Nat.zero_le _, nofun, .inr (host_eq_none_iff.mpr hf)⟩
        refine ⟨[], trivial, hextent.symm, ?_⟩
        rw [items, next_unmapped it hc hf, rest, hextent, if_pos hcount]
        show _ :: c.items n _ = _
        rw [items_zero rfl]
        simp
      | some r =>
        obtain ⟨s, hnext, hpiece, -, hsize, hadd⟩ := next_mapped it hc hf
        have hle : s.size.toNat ≤ it.count.toNat := hsize ▸ Nat.min_le_right _ _
        have hsub : (it.count - s.size).toNat = it.count.toNat - s.size.toNat :=
          BitVec.toNat_sub_of_le (BitVec.le_def.mpr hle)
        have hpos := hpiece.pos
        have hlt : (it.count - s.size).toNat < n := by omega
        obtain ⟨l, hl, htotal, hitems⟩ := ih ⟨it.addr + s.size, it.count - s.size⟩ hlt
        obtain ⟨hrest, hextent⟩ := rest_piece hpiece hle hadd
        refine ⟨s :: l, ⟨hpiece, hadd ▸ hl⟩, ?_, ?_⟩
        · rw [total, List.map_cons, List.sum_cons, hextent]
          exact congrArg (s.size.toNat + ·) htotal
        · rw [items, hnext, List.map_cons, List.cons_append, ← hrest]
          exact congrArg (List.cons (Except.ok s)) hitems

theorem getSlices_eq (c : GuestRegionCollection) (addr count : BitVec 64) :
    ∃ l, c.Pieces addr.toNat l ∧ total l = c.host.extent addr.toNat count.toNat ∧
      c.getSlices addr count = l.map .ok ++ c.rest addr count :=
  c.items_eq ⟨addr, count⟩ (Nat.lt_succ_self _)

/-- The last address is in no region, so what is mapped ends before it. -/
theorem addr_extent_lt (c : GuestRegionCollection) (addr : GuestAddress) (n : Nat) :
    addr.toNat + c.host.extent addr.toNat n < 2 ^ 64 := by
  cases hk : c.host.extent addr.toNat n with
  | zero => exact addr.isLt
  | succ k =>
    have hlt : k < c.host.extent addr.toNat n := by omega
    have hsome := Holed.isSome_of_lt_extent hlt
    obtain ⟨h, hh⟩ := Option.isSome_iff_exists.mp hsome
    obtain ⟨r, -, ⟨-, hhi⟩, -⟩ := host_eq_some_iff.mp hh
    have hfits := r.fits
    have hhi : addr.toNat + k < r.guestBase.toNat + r.size.toNat := hhi
    omega

/-- The slices of a range are each a part of one region, behind one another in the guest's memory from
the start of the range on, and the host's addresses of its bytes, in order and as far as they are
mapped; then there is an error with the first address that is not, or, if there is none, the end. So
the check of a range tells whether all of it is mapped. -/
theorem get_slices_cover (c : GuestRegionCollection) (addr count : BitVec 64) :
    ∃ l : List VolatileSlice, c.Pieces addr.toNat l ∧
      l.flatMap hostAddrs = c.host.read addr.toNat count.toNat ∧
      ((∀ i < count.toNat, (c.host (addr.toNat + i)).isSome) ∧ c.getSlices addr count = l.map .ok ∧
          c.checkRange addr count = true ∨
        ∃ hole : GuestAddress, addr.toNat ≤ hole.toNat ∧ hole.toNat < addr.toNat + count.toNat ∧
          (∀ a, addr.toNat ≤ a → a < hole.toNat → (c.host a).isSome) ∧ c.host hole.toNat = none ∧
          c.getSlices addr count = l.map .ok ++ [.error (.invalidGuestAddress hole)] ∧
          c.checkRange addr count = false) := by
  obtain ⟨l, hl, htotal, hitems⟩ := c.getSlices_eq addr count
  have hok : (l.map Except.ok : List (Except GuestMemoryError VolatileSlice)).all (·.isOk) = true := by
    simp [Except.isOk, Except.toBool]
  have hle := c.host.extent_le addr.toNat count.toNat
  obtain ⟨-, hsome, hend⟩ := Holed.extent_eq_iff.mp (rfl : c.host.extent addr.toNat count.toNat = _)
  refine ⟨l, hl, ?_, ?_⟩
  · rw [hl.read, htotal, Holed.read_extent]
  · by_cases hall : c.host.extent addr.toNat count.toNat < count.toNat
    · have hlt := addr_extent_lt c addr count.toNat
      have hhole : (addr + BitVec.ofNat 64 (c.host.extent addr.toNat count.toNat)).toNat =
          addr.toNat + c.host.extent addr.toNat count.toNat := by
        rw [BitVec.toNat_add, BitVec.toNat_ofNat]
        omega
      refine .inr ⟨addr + BitVec.ofNat 64 (c.host.extent addr.toNat count.toNat), ?_, ?_, ?_, ?_, ?_, ?_⟩
      · omega
      · omega
      · intro a hlo hhi
        have := hsome (a - addr.toNat) (by omega)
        rwa [Nat.add_sub_cancel' hlo] at this
      · rw [hhole]
        exact hend.resolve_left (Nat.ne_of_lt hall)
      · rw [hitems, rest, if_pos hall]
      · rw [checkRange, hitems, rest, if_pos hall, List.all_append, hok]
        rfl
    · have heq : c.host.extent addr.toNat count.toNat = count.toNat := by omega
      rw [rest, if_neg hall, List.append_nil] at hitems
      refine .inl ⟨fun i hi => hsome i (by omega), hitems, ?_⟩
      rw [checkRange, hitems, hok]

end GuestRegionCollection

end Whypa.VmMemory
