import Whypa.VmMemory.Bitmap
import Whypa.VmMemory.Slices

/-!
# Accesses to the guest's memory

Reads and writes of a collection of regions (`guest_memory.rs`), which go slice by
slice and as far as the range is mapped; a write marks the pages of what it has
written. If no two regions have the same memory of the host, a collection is a
memory with holes, whatever the accesses and the regions (`accesses_refine`).
-/

namespace Whypa.VmMemory

open Framework

/-- The memory of the host, and the dirty pages of each mapping. -/
structure State where
  mem : Mem
  bitmap : GuestRegionMmap → AtomicBitmap
  /-- A bitmap is made for the bytes of its mapping. -/
  byteSize_eq : ∀ r, (bitmap r).byteSize = r.size

def BaseSlice.markDirty (b : BaseSlice) (offset len : BitVec 64) (s : State) : State :=
  { s with
    bitmap := fun r =>
      if r = b.inner then (s.bitmap r).setAddrRange (b.baseOffset + offset) len else s.bitmap r
    byteSize_eq := fun r => by
      split
      · rw [AtomicBitmap.byteSize_setAddrRange, s.byteSize_eq]
      · exact s.byteSize_eq r }

namespace VolatileSlice

/-- The part of the slice from `count` on. -/
def offset (s : VolatileSlice) (count : BitVec 64) : Except VolatileMemoryError VolatileSlice :=
  match checkedAdd s.addr count with
  | none => .error (.overflow s.addr count)
  | some newAddr =>
    if s.size < count then .error (.outOfBounds newAddr)
    else .ok ⟨newAddr, s.size - count, ⟨s.bitmap.inner, s.bitmap.baseOffset + count⟩⟩

/-- The part of the slice at `offset`. -/
def subslice (s : VolatileSlice) (offset count : BitVec 64) :
    Except VolatileMemoryError VolatileSlice :=
  match computeOffset offset count with
  | .error e => .error e
  | .ok stop =>
    if s.size < stop then .error (.outOfBounds stop)
    else .ok ⟨s.addr + offset, count, ⟨s.bitmap.inner, s.bitmap.baseOffset + offset⟩⟩

def write (s : VolatileSlice) (buf : List Byte) (addr : BitVec 64) (st : State) :
    Except VolatileMemoryError Nat × State :=
  if buf = [] then (.ok 0, st)
  else if s.size ≤ addr then (.error (.outOfBounds addr), st)
  else match s.offset addr with
    | .error e => (.error e, st)
    | .ok slice =>
      let total := min slice.size.toNat buf.length
      (.ok total, slice.bitmap.markDirty 0 (BitVec.ofNat 64 total)
        { st with mem := st.mem.write slice.addr.toNat (buf.take total) })

/-- The bytes that the buffer has after it. -/
def read (s : VolatileSlice) (buf : List Byte) (addr : BitVec 64) (st : State) :
    Except VolatileMemoryError Nat × List Byte :=
  if buf = [] then (.ok 0, buf)
  else if s.size ≤ addr then (.error (.outOfBounds addr), buf)
  else match s.offset addr with
    | .error e => (.error e, buf)
    | .ok slice =>
      let total := min slice.size.toNat buf.length
      (.ok total, st.mem.read slice.addr.toNat total ++ buf.drop total)

end VolatileSlice

/-- The state after `bs` is stored at a slice. -/
def State.put (st : State) (s : VolatileSlice) (bs : List Byte) : State :=
  s.bitmap.markDirty 0 s.size { st with mem := st.mem.write s.addr.toNat bs }

/-! ## A memory with holes -/

/-- What a collection is to its users: the bytes, and the addresses that were written. -/
structure Flat where
  bytes : Holed Byte
  written : Set Nat

namespace Flat

def store (f : Flat) (a : Nat) (bs : List Byte) : Flat where
  bytes := f.bytes.write a bs
  written := {x | x ∈ f.written ∨ a ≤ x ∧ x < a + f.bytes.extent a bs.length}

/-- A write of what there is room for before the first hole. -/
def write (f : Flat) (buf : List Byte) (addr : GuestAddress) : Except GuestMemoryError Nat × Flat :=
  if f.bytes.extent addr.toNat buf.length = 0 ∧ buf ≠ [] then (.error (.invalidGuestAddress addr), f)
  else (.ok (f.bytes.extent addr.toNat buf.length), f.store addr.toNat buf)

def read (f : Flat) (buf : List Byte) (addr : GuestAddress) :
    Except GuestMemoryError Nat × List Byte :=
  if f.bytes.extent addr.toNat buf.length = 0 ∧ buf ≠ [] then
    (.error (.invalidGuestAddress addr), buf)
  else
    (.ok (f.bytes.extent addr.toNat buf.length),
      f.bytes.read addr.toNat buf.length ++ buf.drop (f.bytes.extent addr.toNat buf.length))

theorem store_nil (f : Flat) (a : Nat) : f.store a [] = f := by
  unfold store
  congr 1
  · funext x
    exact if_neg (by show ¬ (a ≤ x ∧ x < a + 0); omega)
  · refine Set.ext fun x => or_iff_left ?_
    show ¬ (a ≤ x ∧ x < a + 0)
    omega

theorem store_take (f : Flat) (a : Nat) (bs : List Byte) :
    f.store a (bs.take (f.bytes.extent a bs.length)) = f.store a bs := by
  have hle := f.bytes.extent_le a bs.length
  unfold store
  rw [Holed.write_take, List.length_take, Nat.min_eq_left hle, Holed.extent_extent]

theorem store_store {f : Flat} {a : Nat} {bs : List Byte}
    (h : f.bytes.extent a bs.length = bs.length) (cs : List Byte) :
    (f.store a bs).store (a + bs.length) cs = f.store a (bs ++ cs) := by
  have hadd := Holed.extent_add (n := cs.length) h
  unfold store
  congr 1
  · exact Holed.write_write h
  · refine Set.ext fun x => ?_
    show (x ∈ f.written ∨ a ≤ x ∧ x < a + f.bytes.extent a bs.length) ∨
      a + bs.length ≤ x ∧ x < a + bs.length + (f.bytes.write a bs).extent (a + bs.length) cs.length ↔
      x ∈ f.written ∨ a ≤ x ∧ x < a + f.bytes.extent a (bs ++ cs).length
    rw [Holed.extent_write, List.length_append, hadd, h, or_assoc]
    exact or_congr_right (by omega)

end Flat

namespace GuestRegionCollection

/-- The slices before the first error; the error, if there are none. -/
def stopOnError (items : List (Except GuestMemoryError VolatileSlice)) :
    Except GuestMemoryError (List VolatileSlice) :=
  match items with
  | .error e :: _ => .error e
  | _ => .ok (items.filterMap Except.toOption)

/-- The writes to the slices, of what is behind the `acc` bytes that are written. -/
def writeSlices (buf : List Byte) : List VolatileSlice → Nat → State →
    Except GuestMemoryError Nat × State
  | [], acc, st => (.ok acc, st)
  | s :: l, acc, st => match s.write (buf.drop acc) 0 st with
    | (.ok n, st) => writeSlices buf l (acc + n) st
    | (.error e, st) => (.error (.ofVolatile e), st)

def write (c : GuestRegionCollection) (buf : List Byte) (addr : GuestAddress) (st : State) :
    Except GuestMemoryError Nat × State :=
  match stopOnError (c.getSlices addr (BitVec.ofNat 64 buf.length)) with
  | .error e => (.error e, st)
  | .ok l => writeSlices buf l 0 st

/-- The reads from the slices, to what is behind the `acc` bytes that are read. -/
def readSlices (st : State) : List VolatileSlice → Nat → List Byte →
    Except GuestMemoryError Nat × List Byte
  | [], acc, buf => (.ok acc, buf)
  | s :: l, acc, buf => match s.read (buf.drop acc) 0 st with
    | (.ok n, bs) => readSlices st l (acc + n) (buf.take acc ++ bs)
    | (.error e, bs) => (.error (.ofVolatile e), buf.take acc ++ bs)

def read (c : GuestRegionCollection) (buf : List Byte) (addr : GuestAddress) (st : State) :
    Except GuestMemoryError Nat × List Byte :=
  match stopOnError (c.getSlices addr (BitVec.ofNat 64 buf.length)) with
  | .error e => (.error e, buf)
  | .ok l => readSlices st l 0 buf

/-- Less than the whole buffer is an error. -/
def whole (expected : Nat) : Except GuestMemoryError Nat → Except GuestMemoryError Unit
  | .error e => .error e
  | .ok res => if res ≠ expected then .error (.partialBuffer expected res) else .ok ()

def writeSlice (c : GuestRegionCollection) (buf : List Byte) (addr : GuestAddress) (st : State) :
    Except GuestMemoryError Unit × State :=
  let (res, st) := c.write buf addr st
  (whole buf.length res, st)

def readSlice (c : GuestRegionCollection) (buf : List Byte) (addr : GuestAddress) (st : State) :
    Except GuestMemoryError Unit × List Byte :=
  let (res, bs) := c.read buf addr st
  (whole buf.length res, bs)

/-! ## Accesses -/

/-- No two of the regions have the same memory of the host. -/
def Distinct (c : GuestRegionCollection) : Prop :=
  Span.Separate (fun r : GuestRegionMmap => ⟨r.addr.toNat, r.size.toNat⟩) c.regions

/-- The bytes of the guest. -/
def guest (c : GuestRegionCollection) (m : Mem) : Holed Byte := fun a => (c.host a).map fun h => m h

variable {c : GuestRegionCollection} {a b h : Nat} {s : VolatileSlice} {l : List VolatileSlice}
  {bs buf : List Byte} {m : Mem} {st st₀ st' : State} {f : Flat} {addr : GuestAddress}

/-- No two addresses of the guest have the same address of the host. -/
theorem Distinct.host_inj (hd : c.Distinct) (ha : c.host a = some h) (hb : c.host b = some h) :
    a = b := by
  obtain ⟨r, hr, ⟨hlo, hhi⟩, rfl⟩ := host_eq_some_iff.mp ha
  obtain ⟨r', hr', ⟨hlo', hhi'⟩, he⟩ := host_eq_some_iff.mp hb
  have hlo : r.guestBase.toNat ≤ a := hlo
  have hhi : a < r.guestBase.toNat + r.size.toNat := hhi
  have hlo' : r'.guestBase.toNat ≤ b := hlo'
  have hhi' : b < r'.guestBase.toNat + r'.size.toNat := hhi'
  have hin : a - r.guestBase.toNat < r.size.toNat := by omega
  have hin' : b - r'.guestBase.toNat < r'.size.toNat := by omega
  obtain rfl : r = r' := hd.unique hr hr' (a := r.addr.toNat + (a - r.guestBase.toNat))
    ⟨Nat.le_add_right _ _, Nat.add_lt_add_left hin _⟩
    (he ▸ ⟨Nat.le_add_right _ _, Nat.add_lt_add_left hin' _⟩)
  omega

theorem extent_guest (c : GuestRegionCollection) (m : Mem) (a n : Nat) :
    (c.guest m).extent a n = c.host.extent a n := by
  induction n generalizing a with
  | zero => rfl
  | succ n ih => rw [Holed.extent, Holed.extent, ih, guest, Option.isSome_map]

/-- A store to a piece is one to the guest's memory. -/
theorem guest_write (hd : c.Distinct) (hs : c.Part a s) (hl : bs.length = s.size.toNat) :
    c.guest (m.write s.addr.toNat bs) = (c.guest m).write a bs := by
  funext x
  rw [Holed.write, extent_guest, hl, hs.extent]
  split
  · rename_i hx
    have hhost := hs.host (i := x - a) (by omega)
    rw [Nat.add_sub_cancel' hx.1] at hhost
    have hlt : x - a < bs.length := by omega
    rw [guest, hhost, Option.map_some, Mem.write, if_pos (Nat.le_add_right _ _),
      Nat.add_sub_cancel_left, List.getD_eq_getElem?_getD, List.getElem?_eq_getElem hlt]
    rfl
  · rename_i hx
    rw [guest, guest]
    cases hh : c.host x with
    | none => rfl
    | some h =>
      rw [Option.map_some, Option.map_some, Mem.write]
      refine congrArg some ?_
      split
      · rename_i hle
        rw [List.getD_eq_getElem?_getD, List.getElem?_eq_none, Option.getD_none]
        by_contra hlt
        have hpiece := hs.host (i := h - s.addr.toNat) (by omega)
        rw [Nat.add_sub_cancel' hle] at hpiece
        have := hd.host_inj hh hpiece
        omega
      · rfl

theorem Part.read_guest (hs : c.Part a s) (m : Mem) :
    m.read s.addr.toNat s.size.toNat = (c.guest m).read a s.size.toNat := by
  refine List.ext_getElem? fun i => ?_
  have hextent : (c.guest m).extent a s.size.toNat = s.size.toNat := by rw [extent_guest, hs.extent]
  by_cases hi : i < s.size.toNat
  · rw [Holed.getElem?_read (by rwa [hextent]), guest, hs.host hi, Mem.read]
    simp [hi]
  · rw [List.getElem?_eq_none, List.getElem?_eq_none]
    · rw [Holed.length_read, hextent]
      omega
    · rw [Mem.length_read]
      omega

/-- The state has the bytes, and the pages are dirty that were so at `st₀` or have a written byte. -/
structure Related (c : GuestRegionCollection) (st₀ st : State) (f : Flat) : Prop where
  bytes : c.guest st.mem = f.bytes
  pageSize : ∀ r, (st.bitmap r).pageSize = (st₀.bitmap r).pageSize
  dirty : ∀ r ∈ c.regions, ∀ k, (st.bitmap r).isBitSet k = true ↔
    (st₀.bitmap r).isBitSet k = true ∨ ∃ x ∈ f.written, r.span.Has x ∧
      (x - r.guestBase.toNat) / (st₀.bitmap r).pageSize.toNat = k

/-- Where nothing is written yet. -/
theorem Related.start (c : GuestRegionCollection) (st : State) :
    c.Related st st ⟨c.guest st.mem, ∅⟩ :=
  ⟨rfl, fun _ => rfl, fun _ _ _ => ⟨.inl, fun h => h.resolve_right fun ⟨_, hx, _⟩ => hx⟩⟩

/-- A store to a piece dirties the pages of the region that have a byte of it. -/
theorem dirty_put (hs : c.Part a s) {r : GuestRegionMmap} (hr : r ∈ c.regions) (k : Nat) :
    ((st.put s bs).bitmap r).isBitSet k = true ↔ (st.bitmap r).isBitSet k = true ∨
      ∃ x, a ≤ x ∧ x < a + s.size.toNat ∧ r.span.Has x ∧
        (x - r.guestBase.toNat) / (st.bitmap r).pageSize.toNat = k := by
  obtain ⟨hmem, hat, haddr, hwithin⟩ := hs
  have hfits := s.bitmap.inner.fits
  show (AtomicBitmap.isBitSet (if r = s.bitmap.inner then
    (st.bitmap r).setAddrRange (s.bitmap.baseOffset + 0) s.size else st.bitmap r) k) = true ↔ _
  split
  · rename_i he
    subst he
    have hzero : s.bitmap.baseOffset + 0 = s.bitmap.baseOffset := BitVec.add_zero _
    rw [hzero, AtomicBitmap.isBitSet_setAddrRange, Bool.or_eq_true, decide_eq_true_eq,
      AtomicBitmap.mem_pagesOf]
    refine or_congr_right ⟨fun ⟨_, o, hlo, hhi, _, ho⟩ => ?_, fun ⟨x, hlo, hhi, _, hx⟩ => ?_⟩
    · refine ⟨s.bitmap.inner.guestBase.toNat + o, by omega, by omega, ⟨Nat.le_add_right _ _, ?_⟩, ?_⟩
      · show _ < s.bitmap.inner.guestBase.toNat + s.bitmap.inner.size.toNat
        omega
      · rw [Nat.add_sub_cancel_left]
        exact ho
    · refine ⟨?_, x - s.bitmap.inner.guestBase.toNat, by omega, by omega, by omega, hx⟩
      have hbytes := st.byteSize_eq s.bitmap.inner
      rw [← hx, (st.bitmap s.bitmap.inner).size_eq, hbytes]
      exact AtomicBitmap.page_lt (st.bitmap s.bitmap.inner).pageSize (by omega)
  · rename_i he
    refine ⟨.inl, fun h => h.resolve_right fun ⟨x, hlo, hhi, hx, _⟩ => he ?_⟩
    refine c.ordered.separate.unique hr hmem hx ⟨?_, ?_⟩
    · show s.bitmap.inner.guestBase.toNat ≤ x
      omega
    · show x < s.bitmap.inner.guestBase.toNat + s.bitmap.inner.size.toNat
      omega

theorem pageSize_put (st : State) (s : VolatileSlice) (bs : List Byte) (r : GuestRegionMmap) :
    ((st.put s bs).bitmap r).pageSize = (st.bitmap r).pageSize := by
  show (AtomicBitmap.pageSize (if r = s.bitmap.inner then
    (st.bitmap r).setAddrRange (s.bitmap.baseOffset + 0) s.size else st.bitmap r)) = _
  split
  · exact AtomicBitmap.pageSize_setAddrRange _ _ _
  · rfl

theorem Related.put (hd : c.Distinct) (h : c.Related st₀ st f) (hs : c.Part a s)
    (hl : bs.length = s.size.toNat) : c.Related st₀ (st.put s bs) (f.store a bs) := by
  obtain ⟨hbytes, hpage, hdirty⟩ := h
  refine ⟨?_, fun r => (pageSize_put st s bs r).trans (hpage r), fun r hr k => ?_⟩
  · show c.guest (st.mem.write s.addr.toNat bs) = f.bytes.write a bs
    rw [guest_write hd hs hl, hbytes]
  · have hextent : f.bytes.extent a bs.length = s.size.toNat := by
      rw [← hbytes, extent_guest, hl, hs.extent]
    rw [dirty_put hs hr, hdirty r hr, hpage, or_assoc]
    refine or_congr_right ?_
    constructor
    · rintro (⟨x, hx, hr⟩ | ⟨x, hlo, hhi, hr⟩)
      · exact ⟨x, .inl hx, hr⟩
      · exact ⟨x, .inr ⟨hlo, by omega⟩, hr⟩
    · rintro ⟨x, hx | ⟨hlo, hhi⟩, hr⟩
      · exact .inl ⟨x, hx, hr⟩
      · exact .inr ⟨x, hlo, by omega, hr⟩

theorem offset_zero (s : VolatileSlice) : s.offset 0 = .ok s := by
  have hsum : s.addr.toNat + (0 : BitVec 64).toNat < 2 ^ 64 := s.addr.isLt
  rw [VolatileSlice.offset, checkedAdd_of_lt hsum]
  simp

theorem subslice_of_le (s : VolatileSlice) {offset count : BitVec 64}
    (h : offset.toNat + count.toNat ≤ s.size.toNat) : s.subslice offset count =
      .ok ⟨s.addr + offset, count, ⟨s.bitmap.inner, s.bitmap.baseOffset + offset⟩⟩ := by
  have hsum : offset.toNat + count.toNat < 2 ^ 64 := Nat.lt_of_le_of_lt h s.size.isLt
  have hle : ¬ s.size < offset + count := by
    rw [BitVec.lt_def, BitVec.toNat_add_of_lt hsum]
    omega
  rw [VolatileSlice.subslice, computeOffset, checkedAdd_of_lt hsum]
  exact if_neg hle

theorem subslice_zero (s : VolatileSlice) {count : BitVec 64} (h : count.toNat ≤ s.size.toNat) :
    s.subslice 0 count = .ok { s with size := count } := by
  rw [subslice_of_le s (show 0 + count.toNat ≤ _ by omega)]
  simp

/-- The first bytes of a piece. -/
theorem Part.first (h : c.Part a s) {n : BitVec 64} (hn : n.toNat ≤ s.size.toNat) :
    c.Part a { s with size := n } :=
  ⟨h.mem, h.at_offset, h.addr_eq, Nat.le_trans (Nat.add_le_add_left hn _) h.within⟩

/-- A write of as many bytes as the slice has, or more. -/
theorem write_piece (hs : 0 < s.size.toNat) (hl : s.size.toNat ≤ buf.length) :
    s.write buf 0 st = (.ok s.size.toNat, st.put s (buf.take s.size.toNat)) := by
  have hbuf : buf ≠ [] := fun h => by
    rw [h] at hl
    exact absurd hl (Nat.not_le.mpr hs)
  have hsize : ¬ s.size ≤ 0 := Nat.not_le.mpr hs
  simp only [VolatileSlice.write, if_neg hbuf, if_neg hsize, offset_zero, Nat.min_eq_left hl,
    BitVec.ofNat_toNat, BitVec.setWidth_eq]
  rfl

theorem read_piece (hs : 0 < s.size.toNat) (hl : s.size.toNat ≤ buf.length) :
    s.read buf 0 st =
      (.ok s.size.toNat, st.mem.read s.addr.toNat s.size.toNat ++ buf.drop s.size.toNat) := by
  have hbuf : buf ≠ [] := fun h => by
    rw [h] at hl
    exact absurd hl (Nat.not_le.mpr hs)
  have hsize : ¬ s.size ≤ 0 := Nat.not_le.mpr hs
  simp only [VolatileSlice.read, if_neg hbuf, if_neg hsize, offset_zero, Nat.min_eq_left hl]

/-- The writes to pieces are one store. -/
theorem writeSlices_related (hd : c.Distinct) {acc : Nat} (h : c.Related st₀ st f)
    (hl : c.Pieces a l) (hbuf : acc + total l ≤ buf.length) :
    (writeSlices buf l acc st).1 = .ok (acc + total l) ∧
      c.Related st₀ (writeSlices buf l acc st).2 (f.store a ((buf.drop acc).take (total l))) := by
  induction l generalizing a acc st f with
  | nil =>
    rw [total, List.map_nil, List.sum_nil, List.take_zero, Flat.store_nil]
    exact ⟨rfl, h⟩
  | cons s l ih =>
    have htotal : total (s :: l) = s.size.toNat + total l := rfl
    have hdrop : (buf.drop acc).length = buf.length - acc := List.length_drop
    have hlen : ((buf.drop acc).take s.size.toNat).length = s.size.toNat := by
      rw [List.length_take]
      omega
    have hput := h.put hd hl.1.toPart hlen
    obtain ⟨hres, hrel⟩ := ih hput hl.2
      (show acc + s.size.toNat + total l ≤ buf.length by omega)
    rw [writeSlices, write_piece hl.1.pos (by omega)]
    refine ⟨hres.trans (by rw [htotal, Nat.add_assoc]), ?_⟩
    have hextent : f.bytes.extent a ((buf.drop acc).take s.size.toNat).length =
        ((buf.drop acc).take s.size.toNat).length := by
      rw [hlen, ← h.bytes, extent_guest, hl.1.extent]
    have hstore := Flat.store_store hextent ((buf.drop (acc + s.size.toNat)).take (total l))
    rw [hlen] at hstore
    rw [hstore] at hrel
    rw [htotal, List.take_add, List.drop_drop]
    exact hrel

theorem readSlices_eq (st : State) {acc : Nat} (hl : c.Pieces a l) (hbuf : acc + total l ≤ buf.length) :
    readSlices st l acc buf = (.ok (acc + total l),
      buf.take acc ++ (c.guest st.mem).read a (total l) ++ buf.drop (acc + total l)) := by
  induction l generalizing a acc buf with
  | nil =>
    show _ = (_, buf.take acc ++ [] ++ buf.drop acc)
    rw [List.append_nil, List.take_append_drop]
    rfl
  | cons s l ih =>
    have htotal : total (s :: l) = s.size.toNat + total l := rfl
    have hdrop : (buf.drop acc).length = buf.length - acc := List.length_drop
    have hextent : (c.guest st.mem).extent a s.size.toNat = s.size.toNat := by
      rw [extent_guest, hl.1.extent]
    have hread : (st.mem.read s.addr.toNat s.size.toNat).length = s.size.toNat := Mem.length_read ..
    have hlen : (buf.take acc ++ (st.mem.read s.addr.toNat s.size.toNat ++
        (buf.drop acc).drop s.size.toNat)).length = buf.length := by
      rw [List.length_append, List.length_append, hread, List.length_take, List.length_drop, hdrop]
      omega
    rw [readSlices, read_piece hl.1.pos (by omega)]
    show readSlices st l _ _ = _
    rw [ih hl.2 (by omega), htotal, Holed.read_add hextent, ← hl.1.read_guest]
    refine Prod.ext (by rw [Nat.add_assoc]) ?_
    have htake : (buf.take acc).length = acc := by
      rw [List.length_take]
      omega
    have hkept : (buf.take acc ++ (st.mem.read s.addr.toNat s.size.toNat ++
        (buf.drop acc).drop s.size.toNat)).take (acc + s.size.toNat) =
        buf.take acc ++ st.mem.read s.addr.toNat s.size.toNat := by
      rw [← List.append_assoc]
      refine List.take_left' ?_
      rw [List.length_append, htake, hread]
    have hleft : (buf.take acc ++ (st.mem.read s.addr.toNat s.size.toNat ++
        (buf.drop acc).drop s.size.toNat)).drop (acc + s.size.toNat + total l) =
        buf.drop (acc + (s.size.toNat + total l)) := by
      rw [← List.append_assoc, ← List.drop_drop, List.drop_left' (by rw [List.length_append, htake, hread]),
        List.drop_drop, List.drop_drop]
    rw [hkept, hleft]
    simp only [List.append_assoc]

theorem stopOnError_getSlices (c : GuestRegionCollection) (addr count : BitVec 64) :
    ∃ l, c.Pieces addr.toNat l ∧ total l = c.host.extent addr.toNat count.toNat ∧
      stopOnError (c.getSlices addr count) =
        if c.host.extent addr.toNat count.toNat = 0 ∧ count ≠ 0 then .error (.invalidGuestAddress addr)
        else .ok l := by
  obtain ⟨l, hl, htotal, hitems⟩ := c.getSlices_eq addr count
  have hle := c.host.extent_le addr.toNat count.toNat
  refine ⟨l, hl, htotal, ?_⟩
  rw [hitems]
  cases l with
  | nil =>
    have hextent : c.host.extent addr.toNat count.toNat = 0 := htotal.symm
    rw [List.map_nil, List.nil_append, rest, hextent]
    by_cases hc : count = 0
    · rw [if_neg (by rw [hc]; decide), if_neg (fun h => h.2 hc)]
      rfl
    · have hpos := BitVec.toNat_pos_of_ne_zero hc
      rw [if_pos hpos, if_pos ⟨rfl, hc⟩, stopOnError]
      simp
  | cons s l =>
    have htotal : s.size.toNat + total l = c.host.extent addr.toNat count.toNat := htotal
    have hpos := hl.1.pos
    have hsome : (c.rest addr count).filterMap Except.toOption = [] := by
      unfold rest
      split <;> rfl
    have hmap : ((s :: l).map (Except.ok : VolatileSlice → Except GuestMemoryError _)).filterMap
        Except.toOption = s :: l := by
      rw [List.filterMap_map]
      exact List.filterMap_some
    rw [if_neg (by omega)]
    show Except.ok (((s :: l).map Except.ok ++ c.rest addr count).filterMap Except.toOption) = _
    rw [List.filterMap_append, hmap, hsome, List.append_nil]

theorem toNat_length (hbuf : buf.length < 2 ^ 64) :
    (BitVec.ofNat 64 buf.length).toNat = buf.length ∧ (BitVec.ofNat 64 buf.length ≠ 0 ↔ buf ≠ []) := by
  have hmod := toNat_ofNat_of_lt hbuf
  refine ⟨hmod, not_congr ⟨fun h => ?_, fun h => by rw [h]; rfl⟩⟩
  rw [← List.length_eq_zero_iff, ← hmod, h]
  rfl

theorem stopOnError_buf (c : GuestRegionCollection) (addr : GuestAddress) (hbuf : buf.length < 2 ^ 64) :
    ∃ l, c.Pieces addr.toNat l ∧ total l = c.host.extent addr.toNat buf.length ∧
      stopOnError (c.getSlices addr (BitVec.ofNat 64 buf.length)) =
        if c.host.extent addr.toNat buf.length = 0 ∧ buf ≠ [] then .error (.invalidGuestAddress addr)
        else .ok l := by
  obtain ⟨hlen, hnil⟩ := toNat_length hbuf
  obtain ⟨l, hl, htotal, hitems⟩ := c.stopOnError_getSlices addr (BitVec.ofNat 64 buf.length)
  rw [hlen] at htotal hitems
  exact ⟨l, hl, htotal, hitems.trans (if_congr (and_congr_right fun _ => hnil) rfl rfl)⟩

theorem write_related (hd : c.Distinct) (h : c.Related st₀ st f) (hbuf : buf.length < 2 ^ 64)
    (addr : GuestAddress) :
    (c.write buf addr st).1 = (f.write buf addr).1 ∧
      c.Related st₀ (c.write buf addr st).2 (f.write buf addr).2 := by
  obtain ⟨l, hl, htotal, hitems⟩ := c.stopOnError_buf addr hbuf
  have hextent : f.bytes.extent addr.toNat buf.length = c.host.extent addr.toNat buf.length := by
    rw [← h.bytes, extent_guest]
  rw [write, hitems, Flat.write, hextent]
  by_cases hz : c.host.extent addr.toNat buf.length = 0 ∧ buf ≠ []
  · rw [if_pos hz, if_pos hz]
    exact ⟨rfl, h⟩
  · rw [if_neg hz, if_neg hz]
    have hle := c.host.extent_le addr.toNat buf.length
    obtain ⟨hres, hrel⟩ := writeSlices_related hd h hl
      (show 0 + total l ≤ buf.length by omega)
    rw [htotal, ← hextent, List.drop_zero, Flat.store_take] at hrel
    rw [htotal, Nat.zero_add] at hres
    exact ⟨hres, hrel⟩

theorem read_related (h : c.Related st₀ st f) (hbuf : buf.length < 2 ^ 64) (addr : GuestAddress) :
    c.read buf addr st = f.read buf addr := by
  obtain ⟨l, hl, htotal, hitems⟩ := c.stopOnError_buf addr hbuf
  have hextent : f.bytes.extent addr.toNat buf.length = c.host.extent addr.toNat buf.length := by
    rw [← h.bytes, extent_guest]
  rw [read, hitems, Flat.read, hextent]
  by_cases hz : c.host.extent addr.toNat buf.length = 0 ∧ buf ≠ []
  · rw [if_pos hz, if_pos hz]
  · rw [if_neg hz, if_neg hz]
    have hle := c.host.extent_le addr.toNat buf.length
    show readSlices st l 0 buf = _
    rw [readSlices_eq st hl (by omega), h.bytes, htotal, ← hextent, Holed.read_extent]
    simp

end GuestRegionCollection

/-! ## Runs -/

inductive Access
  | write (buf : List Byte) (addr : GuestAddress)
  | read (buf : List Byte) (addr : GuestAddress)
  | writeSlice (buf : List Byte) (addr : GuestAddress)
  | readSlice (buf : List Byte) (addr : GuestAddress)
deriving DecidableEq, Repr

def Access.buf : Access → List Byte
  | .write buf _ => buf
  | .read buf _ => buf
  | .writeSlice buf _ => buf
  | .readSlice buf _ => buf

/-- What the caller has after an access: what was returned, and the buffer. -/
abbrev Outcome := (Except GuestMemoryError Nat ⊕ Except GuestMemoryError Unit) × List Byte

def GuestRegionCollection.access (c : GuestRegionCollection) (st : State) : Access → Outcome × State
  | .write buf addr => ((.inl (c.write buf addr st).1, buf), (c.write buf addr st).2)
  | .read buf addr => ((.inl (c.read buf addr st).1, (c.read buf addr st).2), st)
  | .writeSlice buf addr => ((.inr (c.writeSlice buf addr st).1, buf), (c.writeSlice buf addr st).2)
  | .readSlice buf addr => ((.inr (c.readSlice buf addr st).1, (c.readSlice buf addr st).2), st)

/-- The access to a memory with holes. A slice with a hole in it is an error, but what comes before
the hole has been stored or read. -/
def Flat.access (f : Flat) : Access → Outcome × Flat
  | .write buf addr => ((.inl (f.write buf addr).1, buf), (f.write buf addr).2)
  | .read buf addr => ((.inl (f.read buf addr).1, (f.read buf addr).2), f)
  | .writeSlice buf addr =>
    ((.inr (GuestRegionCollection.whole buf.length (f.write buf addr).1), buf), (f.write buf addr).2)
  | .readSlice buf addr =>
    ((.inr (GuestRegionCollection.whole buf.length (f.read buf addr).1), (f.read buf addr).2), f)

/-- The outcomes of accesses, one after the other, and what is there after them. -/
def runAccesses {σ : Type} (access : σ → Access → Outcome × σ) : σ → List Access → List Outcome × σ
  | s, [] => ([], s)
  | s, o :: l => ((access s o).1 :: (runAccesses access (access s o).2 l).1,
      (runAccesses access (access s o).2 l).2)

namespace GuestRegionCollection

variable {c : GuestRegionCollection} {st st₀ : State} {f : Flat}

theorem access_related (hd : c.Distinct) (h : c.Related st₀ st f) {o : Access}
    (ho : o.buf.length < 2 ^ 64) : (c.access st o).1 = (f.access o).1 ∧
      c.Related st₀ (c.access st o).2 (f.access o).2 := by
  cases o with
  | write buf addr =>
    obtain ⟨hres, hrel⟩ := write_related hd h ho addr
    exact ⟨congrArg (fun x => (Sum.inl x, buf)) hres, hrel⟩
  | read buf addr =>
    have hres := read_related h ho addr
    exact ⟨congrArg (fun x => (Sum.inl x.1, x.2)) hres, h⟩
  | writeSlice buf addr =>
    obtain ⟨hres, hrel⟩ := write_related hd h ho addr
    exact ⟨congrArg (fun x => (Sum.inr (whole buf.length x), buf)) hres, hrel⟩
  | readSlice buf addr =>
    have hres := read_related h ho addr
    exact ⟨congrArg (fun x => (Sum.inr (whole buf.length x.1), x.2)) hres, h⟩

theorem run_related (hd : c.Distinct) (h : c.Related st₀ st f) {l : List Access}
    (hl : ∀ o ∈ l, o.buf.length < 2 ^ 64) :
    (runAccesses c.access st l).1 = (runAccesses Flat.access f l).1 ∧
      c.Related st₀ (runAccesses c.access st l).2 (runAccesses Flat.access f l).2 := by
  induction l generalizing st f with
  | nil => exact ⟨rfl, h⟩
  | cons o l ih =>
    obtain ⟨hres, hrel⟩ := access_related hd h (hl o List.mem_cons_self)
    obtain ⟨hres', hrel'⟩ := ih hrel fun x hx => hl x (List.mem_cons_of_mem o hx)
    exact ⟨by rw [runAccesses, runAccesses, hres, hres'], hrel'⟩

/-- If no two regions have the same memory of the host, then whatever the accesses, a collection is a
memory with holes: each access returns what it returns there, the guest's bytes are those, and the
pages that have become dirty are those of the bytes that were written. -/
theorem accesses_refine (c : GuestRegionCollection) (hd : c.Distinct) (st : State) (l : List Access)
    (hl : ∀ o ∈ l, o.buf.length < 2 ^ 64) :
    (runAccesses c.access st l).1 = (runAccesses Flat.access ⟨c.guest st.mem, ∅⟩ l).1 ∧
    c.guest (runAccesses c.access st l).2.mem =
      (runAccesses Flat.access ⟨c.guest st.mem, ∅⟩ l).2.bytes ∧
    ∀ r ∈ c.regions, ∀ k, ((runAccesses c.access st l).2.bitmap r).isBitSet k = true ↔
      (st.bitmap r).isBitSet k = true ∨
        ∃ x ∈ (runAccesses Flat.access ⟨c.guest st.mem, ∅⟩ l).2.written, r.span.Has x ∧
          (x - r.guestBase.toNat) / (st.bitmap r).pageSize.toNat = k := by
  obtain ⟨hres, hrel⟩ := run_related hd (Related.start c st) hl
  exact ⟨hres, hrel.bytes, hrel.dirty⟩

/-- Two regions, one behind the other for the guest but not for the host. -/
def besideRegion : GuestRegionMmap := ⟨highRegion.toMmapRegion, 0x1000, by decide⟩

def besideCollection : GuestRegionCollection :=
  ⟨[lowRegion, besideRegion], List.pairwise_pair.mpr (by decide)⟩

def freshState : State where
  mem := fun _ => 0
  bitmap := fun r => AtomicBitmap.new r.size ⟨0x1000, page_pos⟩
  byteSize_eq := fun _ => rfl

/-- A write over both, and a read of what was written and goes on beyond them. -/
theorem accesses_refine_beside :
    (runAccesses besideCollection.access freshState
      [.writeSlice [1, 2] 0xfff, .read [7, 7, 7] 0xfff, .readSlice [7, 7] 0x1fff]).1 =
      [(.inr (.ok ()), [1, 2]), (.inl (.ok 3), [1, 2, 0]),
        (.inr (.error (.partialBuffer 2 1)), [0, 7])] :=
  (accesses_refine besideCollection (List.pairwise_pair.mpr (by decide)) freshState _
    (by decide)).1.trans (by decide)

end GuestRegionCollection

end Whypa.VmMemory
