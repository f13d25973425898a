import Mathlib.Data.List.Induction
import Mathlib.Data.List.Nodup
import Mathlib.Data.Set.Basic
import Whypa.Framework.Arith
import Whypa.Framework.Sorted
import Whypa.Memory.Memory

/-!
# Collections of regions

The guest memory of the `vm-memory` crate: regions that the host maps
(`mmap/mod.rs`), in a collection that is kept in order (`region.rs`). A call returns
a new collection, or an error; whatever the calls, the collection has the regions
that a set with the same calls has, and a search by an address finds its owner
(`calls_refine`). The order of insertions does not matter (`insert_any_order`).
-/

namespace Whypa.VmMemory

open Framework

/-- A piece of the memory of the host, which the host has mapped below its last address. -/
structure MmapRegion where
  addr : BitVec 64
  size : BitVec 64
  size_pos : 0 < size.toNat
  mapped : addr.toNat + size.toNat < 2 ^ 64
deriving Repr

instance : DecidableEq MmapRegion := fun x y =>
  decidable_of_iff (x.addr = y.addr ∧ x.size = y.size) (by cases x; cases y; simp)

/-- A mapping that the guest has at `guestBase`. It ends within the addresses. -/
structure GuestRegionMmap extends MmapRegion where
  guestBase : BitVec 64
  fits : guestBase.toNat + size.toNat < 2 ^ 64
deriving DecidableEq, Repr

namespace GuestRegionMmap

def withArc (mapping : MmapRegion) (guestBase : BitVec 64) : Option GuestRegionMmap :=
  if h : guestBase.toNat + mapping.size.toNat < 2 ^ 64 then some ⟨mapping, guestBase, h⟩ else none

def lastAddr (r : GuestRegionMmap) : GuestAddress := r.guestBase + (r.size - 1)

def addressInRange (r : GuestRegionMmap) (addr : BitVec 64) : Bool := addr < r.size

def checkAddress (r : GuestRegionMmap) (addr : BitVec 64) : Option (BitVec 64) :=
  if r.addressInRange addr then some addr else none

/-- The offset of an address into the region. -/
def toRegionAddr (r : GuestRegionMmap) (addr : GuestAddress) : Option (BitVec 64) :=
  if r.guestBase.toNat ≤ addr.toNat then r.checkAddress (addr - r.guestBase) else none

def span (r : GuestRegionMmap) : Span := ⟨r.guestBase.toNat, r.size.toNat⟩

theorem toNat_lastAddr (r : GuestRegionMmap) : r.lastAddr.toNat = r.span.stop - 1 := by
  have hpos := r.size_pos
  have hfits := r.fits
  have hsub : (r.size - 1).toNat = r.size.toNat - 1 :=
    BitVec.toNat_sub_of_le (BitVec.le_def.mpr hpos)
  rw [lastAddr, BitVec.toNat_add, hsub]
  show _ = r.guestBase.toNat + r.size.toNat - 1
  omega

theorem le_lastAddr_iff (r : GuestRegionMmap) (addr : GuestAddress) :
    addr ≤ r.lastAddr ↔ addr.toNat < r.span.stop := by
  have hpos := r.size_pos
  rw [BitVec.le_def, toNat_lastAddr]
  show addr.toNat ≤ r.guestBase.toNat + r.size.toNat - 1 ↔ addr.toNat < r.guestBase.toNat + r.size.toNat
  omega

/-- The offset is there for the addresses of the region. -/
theorem toRegionAddr_eq (r : GuestRegionMmap) {addr : GuestAddress} (h : r.span.Has addr.toNat) :
    r.toRegionAddr addr = some (addr - r.guestBase) ∧
      (addr - r.guestBase).toNat = addr.toNat - r.guestBase.toNat := by
  obtain ⟨hlo, hhi⟩ := h
  have hlo : r.guestBase.toNat ≤ addr.toNat := hlo
  have hhi : addr.toNat < r.guestBase.toNat + r.size.toNat := hhi
  have hsub := BitVec.toNat_sub_of_le (BitVec.le_def.mpr hlo)
  refine ⟨?_, hsub⟩
  have hin : addr - r.guestBase < r.size := by
    rw [BitVec.lt_def, hsub]
    omega
  simp [toRegionAddr, checkAddress, addressInRange, hlo, hin]

end GuestRegionMmap

inductive GuestRegionCollectionError
  /-- "No memory region found" -/
  | noMemoryRegion
  /-- "Some of the memory regions intersect with each other" -/
  | memoryRegionOverlap
  /-- "The provided memory regions haven't been sorted" -/
  | unsortedMemoryRegions
deriving DecidableEq, Repr

/-- The first two neighbours that are not in order. -/
def checkWindows : List GuestRegionMmap → Option GuestRegionCollectionError
  | prev :: next :: rest =>
    if next.guestBase < prev.guestBase then some .unsortedMemoryRegions
    else if next.guestBase ≤ prev.lastAddr then some .memoryRegionOverlap
    else checkWindows (next :: rest)
  | _ => none

theorem checkWindows_eq_none {l : List GuestRegionMmap} :
    checkWindows l = none ↔ Span.Ordered GuestRegionMmap.span l := by
  let R : GuestRegionMmap → GuestRegionMmap → Prop := fun x y => x.span.stop ≤ y.span.lo
  have : Trans R R R :=
    ⟨fun {_ y _} hxy hyz => Nat.le_trans hxy (Nat.le_trans (Nat.le_add_right y.span.lo _) hyz)⟩
  show checkWindows l = none ↔ l.Pairwise R
  rw [← List.isChain_iff_pairwise]
  induction l with
  | nil => simp [checkWindows]
  | cons x l ih =>
    cases l with
    | nil => simp [checkWindows]
    | cons y l =>
      have hR : R x y ↔ ¬ y.guestBase ≤ x.lastAddr := by
        rw [x.le_lastAddr_iff]
        exact Nat.not_lt.symm
      have hlt : y.guestBase < x.guestBase → y.guestBase ≤ x.lastAddr := fun h => by
        rw [x.le_lastAddr_iff]
        exact Nat.lt_of_lt_of_le h (Nat.le_add_right _ _)
      rw [checkWindows, List.isChain_cons_cons, ← ih, hR]
      split
      · rename_i h
        simp [hlt h]
      · split
        · rename_i h
          simp [h]
        · rename_i h
          simp [h]

/-- The regions, each before the next. -/
structure GuestRegionCollection where
  regions : List GuestRegionMmap
  ordered : Span.Ordered GuestRegionMmap.span regions

namespace GuestRegionCollection

def new : GuestRegionCollection := ⟨[], .nil⟩

def fromArcRegions (regions : List GuestRegionMmap) :
    Except GuestRegionCollectionError GuestRegionCollection :=
  if regions = [] then .error .noMemoryRegion
  else match h : checkWindows regions with
    | some e => .error e
    | none => .ok ⟨regions, checkWindows_eq_none.mp h⟩

def insertRegion (c : GuestRegionCollection) (region : GuestRegionMmap) :
    Except GuestRegionCollectionError GuestRegionCollection :=
  fromArcRegions ((c.regions ++ [region]).insertionSort fun x y => x.guestBase ≤ y.guestBase)

def removeRegion (c : GuestRegionCollection) (base size : BitVec 64) :
    Except GuestRegionCollectionError (GuestRegionCollection × GuestRegionMmap) :=
  match binarySearchByKey (fun x => x.guestBase.toNat) base.toNat c.regions with
  | .error _ => .error .noMemoryRegion
  | .ok i =>
    match c.regions[i]? with
    | none => .error .noMemoryRegion
    | some region =>
      if region.size = size then
        .ok (⟨c.regions.eraseIdx i, c.ordered.sublist (List.eraseIdx_sublist ..)⟩, region)
      else .error .noMemoryRegion

def numRegions (c : GuestRegionCollection) : Nat := c.regions.length

def findRegion (c : GuestRegionCollection) (addr : GuestAddress) : Option GuestRegionMmap :=
  match binarySearchByKey (fun x => x.guestBase.toNat) addr.toNat c.regions with
  | .ok x => c.regions[x]?
  | .error x =>
    match c.regions[x - 1]? with
    | some r => if 0 < x ∧ addr ≤ r.lastAddr then some r else none
    | none => none

def lastAddr (c : GuestRegionCollection) : GuestAddress :=
  (c.regions.map GuestRegionMmap.lastAddr).foldl (fun a b => if a ≤ b then b else a) 0

def addressInRange (c : GuestRegionCollection) (addr : GuestAddress) : Bool := (c.findRegion addr).isSome

def checkAddress (c : GuestRegionCollection) (addr : GuestAddress) : Option GuestAddress :=
  (c.findRegion addr).map fun _ => addr

def checkedOffset (c : GuestRegionCollection) (base : GuestAddress) (offset : BitVec 64) :
    Option GuestAddress :=
  (checkedAdd base offset).bind c.checkAddress

/-! ## Searches -/

variable {c c' : GuestRegionCollection} {r : GuestRegionMmap} {addr : GuestAddress}

theorem findRegion_eq_search (c : GuestRegionCollection) (addr : GuestAddress) :
    c.findRegion addr = Span.search GuestRegionMmap.span addr.toNat c.regions := by
  have hkey : (fun x : GuestRegionMmap => x.span.lo) = fun x => x.guestBase.toNat := rfl
  unfold findRegion Span.search
  rw [hkey]
  cases binarySearchByKey (fun x => x.guestBase.toNat) addr.toNat c.regions with
  | ok i => rfl
  | error i => cases h : c.regions[i - 1]? <;> simp only [GuestRegionMmap.le_lastAddr_iff, h]

/-- A search finds the owner of an address. -/
theorem findRegion_eq_some_iff :
    c.findRegion addr = some r ↔ r ∈ c.regions ∧ r.span.Has addr.toNat := by
  rw [findRegion_eq_search]
  exact c.ordered.search_eq_some_iff fun x _ => x.size_pos

theorem ext_regions (h : c.regions = c'.regions) : c = c' := by
  cases c
  cases c'
  obtain rfl := h
  rfl

/-- A collection is its regions, whatever the calls that have made it. -/
theorem eq_of_perm (h : c.regions.Perm c'.regions) : c = c' :=
  ext_regions (c.ordered.eq_of_perm c'.ordered h fun x _ => x.size_pos)

/-! ## Calls -/

theorem fromArcRegions_eq_ok {l : List GuestRegionMmap} :
    fromArcRegions l = .ok c ↔ l ≠ [] ∧ c.regions = l := by
  unfold fromArcRegions
  split
  · rename_i hl
    simp [hl]
  · rename_i hl
    split
    · rename_i e he
      refine ⟨nofun, fun h => ?_⟩
      rw [← h.2, checkWindows_eq_none.mpr c.ordered] at he
      cases he
    · refine ⟨fun h => ?_, fun h => congrArg _ (ext_regions h.2.symm)⟩
      obtain rfl := Except.ok.inj h
      exact ⟨hl, rfl⟩

/-- The regions of a list with a new one, in the order of their first addresses. -/
theorem sorted_perm (c : GuestRegionCollection) (r : GuestRegionMmap) :
    ((c.regions ++ [r]).insertionSort fun x y => x.guestBase ≤ y.guestBase).Perm (r :: c.regions) :=
  (List.perm_insertionSort _ _).trans (List.perm_append_singleton r c.regions)

/-- An insertion succeeds if the region is apart from those that are there. -/
theorem insertRegion_eq_ok : c.insertRegion r = .ok c' ↔
    (∀ x ∈ c.regions, r.span.Apart x.span) ∧ c'.regions.Perm (r :: c.regions) := by
  have hp := c.sorted_perm r
  rw [insertRegion, fromArcRegions_eq_ok]
  constructor
  · rintro ⟨-, h⟩
    rw [← h] at hp
    have hs := c'.ordered.separate.perm hp.symm
    exact ⟨(List.pairwise_cons.mp hs).1, hp⟩
  · rintro ⟨hr, h⟩
    have hs : Span.Separate GuestRegionMmap.span (c.regions ++ [r]) :=
      Span.Separate.perm (List.pairwise_cons.mpr ⟨hr, c.ordered.separate⟩)
        (List.perm_append_singleton r c.regions)
    have ho := hs.ordered_sort fun x _ => x.size_pos
    refine ⟨fun hn => ?_, ?_⟩
    · rw [hn] at hp
      exact absurd hp.length_eq (by simp)
    · exact c'.ordered.eq_of_perm ho (h.trans hp.symm) fun x _ => x.size_pos

/-- What keeps a sorted list from being a collection is an overlap. -/
theorem checkWindows_sorted {l : List GuestRegionMmap} {e : GuestRegionCollectionError}
    (hs : l.Pairwise fun x y => x.guestBase ≤ y.guestBase) (h : checkWindows l = some e) :
    e = .memoryRegionOverlap := by
  induction l with
  | nil => cases h
  | cons x l ih =>
    cases l with
    | nil => cases h
    | cons y l =>
      obtain ⟨hx, hs⟩ := List.pairwise_cons.mp hs
      have hle : ¬ y.guestBase < x.guestBase := BitVec.not_lt.mpr (hx y List.mem_cons_self)
      rw [checkWindows, if_neg hle] at h
      split at h
      · exact (Option.some.inj h).symm
      · exact ih hs h

theorem insertRegion_error {e : GuestRegionCollectionError} (h : c.insertRegion r = .error e) :
    e = .memoryRegionOverlap := by
  have : Std.Total fun x y : GuestRegionMmap => x.guestBase ≤ y.guestBase :=
    ⟨fun x y => Nat.le_total x.guestBase.toNat y.guestBase.toNat⟩
  have : IsTrans GuestRegionMmap fun x y => x.guestBase ≤ y.guestBase := ⟨fun _ _ _ => Nat.le_trans⟩
  have hp := c.sorted_perm r
  unfold insertRegion fromArcRegions at h
  split at h
  · rename_i hn
    rw [hn] at hp
    exact absurd hp.length_eq (by simp)
  · split at h
    · rename_i e' he
      obtain rfl := Except.error.inj h
      exact checkWindows_sorted (List.pairwise_insertionSort _ _) he
    · cases h

/-- No two regions start at the same address. -/
theorem eq_of_guestBase {x y : GuestRegionMmap} (hx : x ∈ c.regions) (hy : y ∈ c.regions)
    (h : x.guestBase = y.guestBase) : x = y := by
  refine c.ordered.separate.unique hx hy (a := x.guestBase.toNat) ⟨le_rfl, ?_⟩ ⟨h ▸ le_rfl, ?_⟩
  · exact Nat.lt_add_of_pos_right x.size_pos
  · rw [h]
    exact Nat.lt_add_of_pos_right y.size_pos

theorem ascending (c : GuestRegionCollection) :
    c.regions.Pairwise fun x y => x.guestBase.toNat < y.guestBase.toNat :=
  c.ordered.imp fun {x _} h => Nat.lt_of_lt_of_le (Nat.lt_add_of_pos_right x.size_pos) h

theorem nodup (c : GuestRegionCollection) : c.regions.Nodup := c.ascending.imp fun h he => by
  rw [he] at h
  exact lt_irrefl _ h

theorem removeRegion_eq_ok {base size : BitVec 64} : c.removeRegion base size = .ok (c', r) ↔
    (r ∈ c.regions ∧ r.guestBase = base ∧ r.size = size) ∧ c'.regions = c.regions.erase r := by
  unfold removeRegion
  cases hb : binarySearchByKey (fun x => x.guestBase.toNat) base.toNat c.regions with
  | error i =>
    refine ⟨nofun, fun h => ?_⟩
    exact absurd (congrArg BitVec.toNat h.1.2.1) (of_binarySearchByKey_error c.ascending hb r h.1.1)
  | ok i =>
    obtain ⟨x, hx, hxb⟩ := of_binarySearchByKey_ok hb
    have hmem := List.mem_of_getElem? hx
    have hxb : x.guestBase = base := BitVec.eq_of_toNat_eq hxb
    have herase : c.regions.erase x = c.regions.eraseIdx i := by
      obtain ⟨hi, rfl⟩ := List.getElem?_eq_some_iff.mp hx
      exact c.nodup.erase_getElem i hi
    simp only [hx]
    split
    · rename_i hsize
      constructor
      · intro h
        obtain ⟨rfl, rfl⟩ := Prod.mk.inj (Except.ok.inj h)
        exact ⟨⟨hmem, hxb, hsize⟩, herase.symm⟩
      · rintro ⟨⟨hr, hrb, -⟩, hc⟩
        obtain rfl := eq_of_guestBase hr hmem (hrb.trans hxb.symm)
        exact congrArg _ (Prod.ext (ext_regions (herase.symm.trans hc.symm)) rfl)
    · rename_i hsize
      refine ⟨nofun, fun h => ?_⟩
      obtain rfl := eq_of_guestBase h.1.1 hmem (h.1.2.1.trans hxb.symm)
      exact absurd h.1.2.2 hsize

theorem removeRegion_error {base size : BitVec 64} {e : GuestRegionCollectionError}
    (h : c.removeRegion base size = .error e) : e = .noMemoryRegion := by
  unfold removeRegion at h
  split at h
  · exact (Except.error.inj h).symm
  · split at h
    · exact (Except.error.inj h).symm
    · split at h
      · cases h
      · exact (Except.error.inj h).symm

theorem exists_insertRegion (h : ∀ x ∈ c.regions, r.span.Apart x.span) :
    ∃ c', c.insertRegion r = .ok c' := by
  have hs : Span.Separate GuestRegionMmap.span (c.regions ++ [r]) :=
    Span.Separate.perm (List.pairwise_cons.mpr ⟨h, c.ordered.separate⟩)
      (List.perm_append_singleton r c.regions)
  have ho := hs.ordered_sort fun x _ => x.size_pos
  exact ⟨⟨_, ho⟩, insertRegion_eq_ok.mpr ⟨h, c.sorted_perm r⟩⟩

/-- A call that changes the collection, or fails. -/
inductive Call
  | insert (region : GuestRegionMmap)
  | remove (base size : BitVec 64)

/-- What the caller has after a call; after one that fails, what it had. -/
def call (c : GuestRegionCollection) : Call → GuestRegionCollection
  | .insert region => match c.insertRegion region with
    | .ok c' => c'
    | .error _ => c
  | .remove base size => match c.removeRegion base size with
    | .ok (c', _) => c'
    | .error _ => c

def calls (l : List Call) : GuestRegionCollection := l.foldl call new

/-- The call on a set of regions. -/
def Call.apply (s : Set GuestRegionMmap) : Call → Set GuestRegionMmap
  | .insert region => {x | x ∈ s ∨ x = region ∧ ∀ y ∈ s, region.span.Apart y.span}
  | .remove base size => {x | x ∈ s ∧ ¬ (x.guestBase = base ∧ x.size = size)}

def Call.applyAll (l : List Call) : Set GuestRegionMmap := l.foldl Call.apply ∅

theorem mem_call (o : Call) : {x | x ∈ (c.call o).regions} = o.apply {x | x ∈ c.regions} := by
  cases o with
  | insert region =>
    refine Set.ext fun x => ?_
    show x ∈ (c.call (.insert region)).regions ↔
      x ∈ c.regions ∨ x = region ∧ ∀ y ∈ c.regions, region.span.Apart y.span
    by_cases h : ∀ y ∈ c.regions, region.span.Apart y.span
    · obtain ⟨c', hc⟩ := exists_insertRegion h
      simp only [call, hc, (insertRegion_eq_ok.mp hc).2.mem_iff, List.mem_cons]
      tauto
    · cases hc : c.insertRegion region with
      | ok c' => exact absurd (insertRegion_eq_ok.mp hc).1 h
      | error e => simp [call, hc, h]
  | remove base size =>
    refine Set.ext fun x => ?_
    show x ∈ (c.call (.remove base size)).regions ↔
      x ∈ c.regions ∧ ¬ (x.guestBase = base ∧ x.size = size)
    cases hc : c.removeRegion base size with
    | ok p =>
      obtain ⟨⟨hr, rfl, rfl⟩, he⟩ :=
        removeRegion_eq_ok.mp (show c.removeRegion base size = .ok (p.1, p.2) from hc)
      simp only [call, hc, he, c.nodup.mem_erase_iff, and_comm (a := x ≠ p.2)]
      refine and_congr_right fun hx => not_congr ⟨fun h => by rw [h]; exact ⟨rfl, rfl⟩, fun h => ?_⟩
      exact eq_of_guestBase hx hr h.1
    | error e =>
      simp only [call, hc]
      refine ⟨fun hx => ⟨hx, fun h => ?_⟩, And.left⟩
      have hok : c.removeRegion base size =
          .ok (⟨c.regions.erase x, c.ordered.sublist List.erase_sublist⟩, x) :=
        removeRegion_eq_ok.mpr ⟨⟨hx, h⟩, rfl⟩
      rw [hok] at hc
      cases hc

theorem mem_calls (l : List Call) : {x | x ∈ (calls l).regions} = Call.applyAll l := by
  induction l using List.reverseRecOn with
  | nil => exact Set.ext fun x => by simp [calls, Call.applyAll, new]
  | append_singleton l o ih =>
    rw [calls, Call.applyAll, List.foldl_append, List.foldl_append, List.foldl_cons, List.foldl_cons,
      List.foldl_nil, List.foldl_nil, mem_call]
    exact congrArg o.apply ih

/-- After any calls the collection is the set of regions that the same calls make: a search by an
address finds the one that has it, an insertion succeeds if the region is apart from all of them and
fails as an overlap else, and what is removed is the region that is meant, if it is there. -/
theorem calls_refine (l : List Call) :
    (∀ r, r ∈ (calls l).regions ↔ r ∈ Call.applyAll l) ∧
    (∀ addr r, (calls l).findRegion addr = some r ↔
      r ∈ Call.applyAll l ∧ r.span.Has addr.toNat) ∧
    (∀ r, (∀ x ∈ Call.applyAll l, r.span.Apart x.span) ∧
        (∃ c', (calls l).insertRegion r = .ok c' ∧ c'.regions.Perm (r :: (calls l).regions)) ∨
      (∃ x ∈ Call.applyAll l, ¬ r.span.Apart x.span) ∧
        (calls l).insertRegion r = .error .memoryRegionOverlap) ∧
    (∀ base size, (∃ r ∈ Call.applyAll l, (r.guestBase = base ∧ r.size = size) ∧
        ∃ c', (calls l).removeRegion base size = .ok (c', r) ∧
          (calls l).regions.Perm (r :: c'.regions)) ∨
      (∀ r ∈ Call.applyAll l, ¬ (r.guestBase = base ∧ r.size = size)) ∧
        (calls l).removeRegion base size = .error .noMemoryRegion) := by
  have hm : ∀ r, r ∈ (calls l).regions ↔ r ∈ Call.applyAll l := fun r => Set.ext_iff.mp (mem_calls l) r
  refine ⟨hm, fun addr r => ?_, fun r => ?_, fun base size => ?_⟩
  · rw [findRegion_eq_some_iff, hm]
  · by_cases h : ∀ x ∈ Call.applyAll l, r.span.Apart x.span
    · obtain ⟨c', hc⟩ := exists_insertRegion fun x hx => h x ((hm x).mp hx)
      exact .inl ⟨h, c', hc, (insertRegion_eq_ok.mp hc).2⟩
    · refine .inr ⟨by simpa using h, ?_⟩
      cases hc : (calls l).insertRegion r with
      | ok c' => exact absurd (fun x hx => (insertRegion_eq_ok.mp hc).1 x ((hm x).mpr hx)) h
      | error e => rw [insertRegion_error hc]
  · by_cases h : ∃ r ∈ Call.applyAll l, r.guestBase = base ∧ r.size = size
    · obtain ⟨r, hr, hrb⟩ := h
      have hmem := (hm r).mpr hr
      refine .inl ⟨r, hr, hrb, ⟨(calls l).regions.erase r, (calls l).ordered.sublist
        List.erase_sublist⟩, removeRegion_eq_ok.mpr ⟨⟨hmem, hrb⟩, rfl⟩, ?_⟩
      exact List.perm_cons_erase hmem
    · refine .inr ⟨fun r hr hrb => h ⟨r, hr, hrb⟩, ?_⟩
      cases hc : (calls l).removeRegion base size with
      | ok p =>
        have hp := (removeRegion_eq_ok.mp (show (calls l).removeRegion base size = .ok (p.1, p.2) from hc)).1
        exact absurd ⟨p.2, (hm p.2).mp hp.1, hp.2⟩ h
      | error e => rw [removeRegion_error hc]

/-! ## Orders of insertions -/

/-- The insertions of a list of regions, until one fails. -/
def insertAll (l : List GuestRegionMmap) : Except GuestRegionCollectionError GuestRegionCollection :=
  l.foldlM insertRegion new

theorem insertAll_concat (l : List GuestRegionMmap) (r : GuestRegionMmap) :
    insertAll (l ++ [r]) = match insertAll l with
      | .ok c => c.insertRegion r
      | .error e => .error e := by
  have h : insertAll (l ++ [r]) = insertAll l >>= fun c => List.foldlM insertRegion c [r] :=
    List.foldlM_append
  rw [h]
  cases insertAll l with
  | ok c => exact bind_pure (c.insertRegion r)
  | error e => rfl

/-- Insertions succeed if the regions are apart, and make the collection of them. -/
theorem insertAll_eq_ok {l : List GuestRegionMmap} : insertAll l = .ok c ↔
    Span.Separate GuestRegionMmap.span l ∧ c.regions.Perm l := by
  induction l using List.reverseRecOn generalizing c with
  | nil =>
    refine ⟨fun h => ?_, fun h => congrArg _ (ext_regions h.2.eq_nil.symm)⟩
    obtain rfl := Except.ok.inj h
    exact ⟨.nil, .refl _⟩
  | append_singleton l r ih =>
    have hp := List.perm_append_singleton r l
    rw [insertAll_concat]
    constructor
    · intro h
      cases hl : insertAll l with
      | error e => simp [hl] at h
      | ok c₁ =>
        simp only [hl] at h
        obtain ⟨hs, hc₁⟩ := ih.mp hl
        obtain ⟨hr, hc⟩ := insertRegion_eq_ok.mp h
        refine ⟨Span.Separate.perm (List.pairwise_cons.mpr ⟨fun x hx => ?_, hs⟩) hp, ?_⟩
        · exact hr x (hc₁.mem_iff.mpr hx)
        · exact hc.trans ((hc₁.cons r).trans hp.symm)
    · rintro ⟨hs, hc⟩
      obtain ⟨hr, hs⟩ := List.pairwise_cons.mp (Span.Separate.perm hs hp.symm)
      have hs : Span.Separate GuestRegionMmap.span l := hs
      have hsort := List.perm_insertionSort (fun x y => x.span.lo ≤ y.span.lo) l
      obtain ⟨c₁, hc₁⟩ : ∃ c₁ : GuestRegionCollection, c₁.regions.Perm l :=
        ⟨⟨_, hs.ordered_sort fun x _ => x.size_pos⟩, hsort⟩
      rw [ih.mpr ⟨hs, hc₁⟩]
      refine insertRegion_eq_ok.mpr ⟨fun x hx => hr x (hc₁.mem_iff.mp hx), ?_⟩
      exact hc.trans (hp.trans (hc₁.symm.cons r))

theorem insertAll_error {l : List GuestRegionMmap} {e : GuestRegionCollectionError}
    (h : insertAll l = .error e) : e = .memoryRegionOverlap := by
  induction l using List.reverseRecOn with
  | nil => cases h
  | append_singleton l r ih =>
    rw [insertAll_concat] at h
    cases hl : insertAll l with
    | ok c =>
      rw [hl] at h
      exact insertRegion_error h
    | error e' =>
      rw [hl] at h
      obtain rfl := Except.error.inj h
      exact ih hl

/-- Regions may be inserted in any order: the collection is the same, or there is an overlap in each. -/
theorem insert_any_order {l l' : List GuestRegionMmap} (h : l.Perm l') : insertAll l = insertAll l' := by
  have hok : ∀ l l' : List GuestRegionMmap, l.Perm l' → ∀ c, insertAll l = .ok c →
      insertAll l' = .ok c := fun l l' h c hc => by
    obtain ⟨hs, hp⟩ := insertAll_eq_ok.mp hc
    exact insertAll_eq_ok.mpr ⟨hs.perm h.symm, hp.trans h⟩
  cases hl : insertAll l with
  | ok c => rw [hok l l' h c hl]
  | error e =>
    cases hl' : insertAll l' with
    | ok c =>
      have := hok l' l h.symm c hl'
      rw [hl] at this
      cases this
    | error e' => rw [insertAll_error hl, insertAll_error hl']

theorem page_pos : 0 < (0x1000 : BitVec 64).toNat := by decide

/-- Two regions with a hole between them. -/
def lowRegion : GuestRegionMmap := ⟨⟨0x10000, 0x1000, page_pos, by decide⟩, 0, by decide⟩
def highRegion : GuestRegionMmap := ⟨⟨0x40000, 0x1000, page_pos, by decide⟩, 0x100000, by decide⟩

theorem insert_any_order_two :
    insertAll [highRegion, lowRegion] = insertAll [lowRegion, highRegion] :=
  insert_any_order (.swap lowRegion highRegion [])

/-- What was inserted can be removed, and leaves what was there. -/
theorem remove_inserted (h : c.insertRegion r = .ok c') :
    c'.removeRegion r.guestBase r.size = .ok (c, r) := by
  obtain ⟨-, hp⟩ := insertRegion_eq_ok.mp h
  have hr : r ∈ c'.regions := hp.mem_iff.mpr List.mem_cons_self
  have herase : (c'.regions.erase r).Perm c.regions := by
    have := hp.erase r
    rwa [List.erase_cons_head] at this
  refine removeRegion_eq_ok.mpr ⟨⟨hr, rfl, rfl⟩, ?_⟩
  exact c.ordered.eq_of_perm (c'.ordered.sublist List.erase_sublist) herase.symm fun x _ => x.size_pos

theorem remove_inserted_low : ∃ c', new.insertRegion lowRegion = .ok c' ∧
    c'.removeRegion 0 0x1000 = .ok (new, lowRegion) := by
  obtain ⟨c', hc⟩ := exists_insertRegion (c := new) (r := lowRegion) nofun
  exact ⟨c', hc, remove_inserted hc⟩

end GuestRegionCollection

end Whypa.VmMemory
