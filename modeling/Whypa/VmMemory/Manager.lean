import Whypa.Memory.Memory
import Whypa.VmMemory.Atomics

/-!
# The memory manager and the regions of the crate

The program has its own table of regions beside those of the `vm-memory` crate. For
the same regions the two agree where both make an access (`manager_agrees`). They
differ in what they make: the manager makes no access to a byte string that ends
where its region ends or goes on behind it, and asks of an integer only that its
first byte is there.
-/

namespace Whypa.VmMemory

open Framework

def GuestRegionMmap.toMemoryRegion (r : GuestRegionMmap) : MemoryRegion :=
  ⟨r.guestBase, r.size, .RWX, some r.addr.toNat, r.size_pos, Nat.le_of_lt r.fits⟩

namespace GuestRegionCollection

/-- A manager with the regions of the collection. -/
def manager (c : GuestRegionCollection) : MemoryManager :=
  ⟨c.regions.map GuestRegionMmap.toMemoryRegion⟩

variable {c : GuestRegionCollection} {ck : Bool} {gpa : GuestAddress} {n h : Nat}
  {allowed : MemoryPerms → Bool} {denied : MemoryError} {st : State} {code buf : List Byte}

theorem contains_toMemoryRegion {r : GuestRegionMmap} :
    r.toMemoryRegion.contains gpa = true ↔ r.span.Has gpa.toNat := MemoryRegion.contains_iff

/-- The search through the table finds what the search by halves finds. -/
theorem findRegion_manager (c : GuestRegionCollection) (gpa : GuestAddress) :
    c.manager.findRegion gpa = (c.findRegion gpa).map GuestRegionMmap.toMemoryRegion := by
  rw [MemoryManager.findRegion, manager, List.find?_map]
  refine congrArg _ ?_
  cases hf : c.findRegion gpa with
  | none =>
    refine List.find?_eq_none.mpr fun r hr hc => ?_
    have := findRegion_eq_some_iff.mpr ⟨hr, contains_toMemoryRegion.mp hc⟩
    rw [hf] at this
    cases this
  | some r =>
    obtain ⟨hmem, hhas⟩ := findRegion_eq_some_iff.mp hf
    have hsome : (c.regions.find? fun r => r.toMemoryRegion.contains gpa).isSome :=
      List.find?_isSome.mpr ⟨r, hmem, contains_toMemoryRegion.mpr hhas⟩
    obtain ⟨r', hr'⟩ := Option.isSome_iff_exists.mp hsome
    have hhas' := contains_toMemoryRegion.mp
      (List.find?_some (p := fun r : GuestRegionMmap => r.toMemoryRegion.contains gpa) hr')
    obtain rfl := c.ordered.separate.unique (List.mem_of_find?_eq_some hr') hmem hhas' hhas
    exact hr'

/-- The manager makes the accesses that leave a byte of their region behind them. -/
theorem locate_manager (ha : allowed .RWX = true) (hn : gpa.toNat + n < 2 ^ 64) :
    c.manager.locate ck gpa n allowed denied = some (.ok h) ↔ c.Whole gpa.toNat (n + 1) h := by
  rw [MemoryManager.locate_eq_ok_of_lt hn, findRegion_manager]
  constructor
  · rintro ⟨r', hpa, hf, -, hh, rfl, hlt⟩
    obtain ⟨r, hr, rfl⟩ := Option.map_eq_some_iff.mp hf
    obtain ⟨hmem, hhas⟩ := findRegion_eq_some_iff.mp hr
    obtain rfl := Option.some.inj hh
    exact ⟨r, hmem, hhas.1, hlt, rfl⟩
  · rintro ⟨r, hmem, hlo, hhi, rfl⟩
    have hhas : r.span.Has gpa.toNat :=
      ⟨hlo, show gpa.toNat < r.guestBase.toNat + r.size.toNat by omega⟩
    have hf := findRegion_eq_some_iff.mpr ⟨hmem, hhas⟩
    exact ⟨r.toMemoryRegion, r.addr.toNat, by rw [hf]; rfl, ha, rfl, rfl, hhi⟩

theorem locateAtomic_manager (ha : allowed .RWX = true) :
    c.manager.locateAtomic gpa allowed denied = .ok h ↔ c.host gpa.toNat = some h := by
  rw [MemoryManager.locateAtomic_eq_ok, findRegion_manager, host_eq_some_iff]
  constructor
  · rintro ⟨r', hpa, hf, -, hh, rfl⟩
    obtain ⟨r, hr, rfl⟩ := Option.map_eq_some_iff.mp hf
    obtain ⟨hmem, hhas⟩ := findRegion_eq_some_iff.mp hr
    obtain rfl := Option.some.inj hh
    exact ⟨r, hmem, hhas, rfl⟩
  · rintro ⟨r, hmem, hhas, rfl⟩
    have hf := findRegion_eq_some_iff.mpr ⟨hmem, hhas⟩
    exact ⟨r.toMemoryRegion, r.addr.toNat, by rw [hf]; rfl, ha, rfl, rfl⟩

theorem writeGuestMemory_manager {m m' : Mem} (hn : gpa.toNat + code.length < 2 ^ 64) :
    c.manager.writeGuestMemory ck code gpa m = some (.ok (), m') ↔
      ∃ h, c.Whole gpa.toNat (code.length + 1) h ∧ m' = m.write h code := by
  rw [MemoryManager.writeGuestMemory, Option.map_eq_some_iff]
  constructor
  · rintro ⟨_ | h, hl, he⟩
    · cases he
    · exact ⟨h, (locate_manager rfl hn).mp hl, (Prod.mk.inj he).2.symm⟩
  · rintro ⟨h, hw, rfl⟩
    exact ⟨.ok h, (locate_manager rfl hn).mpr hw, rfl⟩

theorem readGuestMemory_manager {m : Mem} {bs : List Byte} (hn : gpa.toNat + n < 2 ^ 64) :
    c.manager.readGuestMemory ck gpa n m = some (.ok bs) ↔
      ∃ h, c.Whole gpa.toNat (n + 1) h ∧ bs = m.read h n := by
  rw [MemoryManager.readGuestMemory, Option.map_eq_some_iff]
  constructor
  · rintro ⟨_ | h, hl, he⟩
    · cases he
    · exact ⟨h, (locate_manager rfl hn).mp hl, (Except.ok.inj he).symm⟩
  · rintro ⟨h, hw, rfl⟩
    exact ⟨.ok h, (locate_manager rfl hn).mpr hw, rfl⟩

theorem Whole.left (hw : c.Whole gpa.toNat (n + 1) h) : c.Whole gpa.toNat n h := by
  obtain ⟨r, hr, hlo, hhi, he⟩ := hw
  exact ⟨r, hr, hlo, by omega, he⟩

theorem host_first {t : AtomicInteger} {v : VolatileSlice} (hpart : c.Part gpa.toNat v)
    (heq : v.size.toNat = t.size) : c.host gpa.toNat = some v.addr.toNat :=
  hpart.host (i := 0) (heq ▸ t.toNat_size.2)

/-- A range in one region has one slice. -/
theorem getSlices_whole {count : BitVec 64} (hc : count ≠ 0) (hw : c.Whole gpa.toNat count.toNat h) :
    ∃ v, c.Piece gpa.toNat v ∧ v.size = count ∧ v.addr.toNat = h ∧
      c.getSlices gpa count = [.ok v] := by
  obtain ⟨r, hmem, hlo, hhi, rfl⟩ := hw
  have hpos := BitVec.toNat_pos_of_ne_zero hc
  have hhas : r.span.Has gpa.toNat :=
    ⟨hlo, show gpa.toNat < r.guestBase.toNat + r.size.toNat by omega⟩
  have hf := findRegion_eq_some_iff.mpr ⟨hmem, hhas⟩
  obtain ⟨v, hnext, hpiece, rfl, hmin, -⟩ := next_mapped ⟨gpa, count⟩ hc hf
  have hmin : v.size.toNat = min (v.bitmap.inner.guestBase.toNat + v.bitmap.inner.size.toNat -
    gpa.toNat) count.toNat := hmin
  obtain rfl : v.size = count := BitVec.eq_of_toNat_eq (by omega)
  have hat : gpa.toNat = v.bitmap.inner.guestBase.toNat + v.bitmap.baseOffset.toNat := hpiece.at_offset
  have haddr := hpiece.addr_eq
  refine ⟨v, hpiece, rfl, by omega, ?_⟩
  rw [getSlices, items, hnext]
  exact congrArg (List.cons _) (items_zero (BitVec.sub_self _) _)

/-- The bytes of a range in one region are those from its address of the host on. -/
theorem writeSlice_whole (hbuf : code.length < 2 ^ 64) (hw : c.Whole gpa.toNat code.length h)
    (st : State) : ∃ st', c.writeSlice code gpa st = (.ok (), st') ∧ st'.mem = st.mem.write h code := by
  obtain ⟨hlen, hnil⟩ := toNat_length hbuf
  by_cases hc : code = []
  · subst hc
    refine ⟨st, ?_, (Mem.write_nil st.mem h).symm⟩
    rw [writeSlice, write, getSlices, items_zero rfl]
    rfl
  · rw [← hlen] at hw
    obtain ⟨v, hpiece, hsize, rfl, hslices⟩ := getSlices_whole (hnil.mpr hc) hw
    have hv : v.size.toNat = code.length := by rw [hsize, hlen]
    refine ⟨st.put v code, ?_, rfl⟩
    have hone : v.write code 0 st = _ := write_piece hpiece.pos (Nat.le_of_eq hv)
    rw [hv, List.take_length] at hone
    have hrun : writeSlices code [v] 0 st = (.ok code.length, st.put v code) := by
      simp only [writeSlices, List.drop_zero, hone, Nat.zero_add]
    rw [writeSlice, write, hslices]
    show (whole _ (writeSlices code [v] 0 st).1, (writeSlices code [v] 0 st).2) = _
    rw [hrun]
    exact Prod.ext (if_neg (not_not.mpr rfl)) rfl

theorem readSlice_whole (hbuf : buf.length < 2 ^ 64) (hw : c.Whole gpa.toNat buf.length h)
    (st : State) : c.readSlice buf gpa st = (.ok (), st.mem.read h buf.length) := by
  obtain ⟨hlen, hnil⟩ := toNat_length hbuf
  by_cases hc : buf = []
  · subst hc
    rw [readSlice, read, getSlices, items_zero rfl]
    rfl
  · rw [← hlen] at hw
    obtain ⟨v, hpiece, hsize, rfl, hslices⟩ := getSlices_whole (hnil.mpr hc) hw
    have hv : v.size.toNat = buf.length := by rw [hsize, hlen]
    have hone : v.read buf 0 st = _ := read_piece hpiece.pos (Nat.le_of_eq hv)
    rw [hv, List.drop_length, List.append_nil] at hone
    have hrun : readSlices st [v] 0 buf = (.ok buf.length, st.mem.read v.addr.toNat buf.length) := by
      simp only [readSlices, List.drop_zero, hone, Nat.zero_add]
      rfl
    rw [readSlice, read, hslices]
    show (whole _ (readSlices st [v] 0 buf).1, (readSlices st [v] 0 buf).2) = _
    rw [hrun]
    exact Prod.ext (if_neg (not_not.mpr rfl)) rfl

/-- For the same regions: the manager makes the accesses to byte strings behind which there is a byte
of the region, and then the crate makes them, with the same bytes; and where the crate makes an
access to an integer, the manager makes it, with the same value. -/
theorem manager_agrees (c : GuestRegionCollection) (ck : Bool) (gpa : GuestAddress) (st : State) :
    (∀ code : List Byte, gpa.toNat + code.length < 2 ^ 64 →
      ((∃ h, c.Whole gpa.toNat (code.length + 1) h) ↔
        ∃ m', c.manager.writeGuestMemory ck code gpa st.mem = some (.ok (), m')) ∧
      ∀ m', c.manager.writeGuestMemory ck code gpa st.mem = some (.ok (), m') →
        ∃ st', c.writeSlice code gpa st = (.ok (), st') ∧ st'.mem = m') ∧
    (∀ buf bs : List Byte, gpa.toNat + buf.length < 2 ^ 64 →
      c.manager.readGuestMemory ck gpa buf.length st.mem = some (.ok bs) →
        c.readSlice buf gpa st = (.ok (), bs)) ∧
    (∀ (t : AtomicInteger) (val : BitVec (8 * t.size)) (order : Ordering) (st' : State),
      c.store val gpa order st = some (.ok (), st') →
        c.manager.store val gpa st.mem = (.ok (), st'.mem)) ∧
    ∀ (t : AtomicInteger) (order : Ordering) (v : BitVec (8 * t.size)),
      c.load t gpa order st = some (.ok v) → c.manager.load (8 * t.size) gpa st.mem = .ok v := by
  refine ⟨fun code hn => ⟨?_, fun m' hm => ?_⟩, fun buf bs hn hr => ?_, fun t val order st' hs => ?_,
    fun t order v hl => ?_⟩
  · simp only [writeGuestMemory_manager hn]
    exact ⟨fun ⟨h, hw⟩ => ⟨_, h, hw, rfl⟩, fun ⟨_, h, hw, _⟩ => ⟨h, hw⟩⟩
  · obtain ⟨h, hw, rfl⟩ := (writeGuestMemory_manager hn).mp hm
    exact writeSlice_whole (by omega) hw.left st
  · obtain ⟨h, hw, rfl⟩ := (readGuestMemory_manager hn).mp hr
    exact readSlice_whole (by omega) hw.left st
  · obtain ⟨v, hpart, heq, -, -, hrun⟩ | ⟨-, e, -, hrun⟩ := c.atomic_cases t gpa
    · rw [(hrun order st).2] at hs
      obtain ⟨-, hs⟩ := Option.ite_none_right_eq_some.mp hs
      obtain ⟨-, rfl⟩ := Prod.mk.inj (Option.some.inj hs)
      have hlocate : c.manager.locateAtomic gpa MemoryPerms.write .readOnly = .ok v.addr.toNat :=
        (locateAtomic_manager rfl).mpr (host_first hpart heq)
      rw [MemoryManager.store, hlocate, mem_put]
    · rw [(hrun order st).2] at hs
      cases hs
  · obtain ⟨w, hpart, heq, -, -, hrun⟩ | ⟨-, e, -, hrun⟩ := c.atomic_cases t gpa
    · rw [(hrun order st).1] at hl
      obtain ⟨-, hl⟩ := Option.ite_none_right_eq_some.mp hl
      obtain rfl := Except.ok.inj (Option.some.inj hl)
      have hlocate : c.manager.locateAtomic gpa MemoryPerms.read .notReadable = .ok w.addr.toNat :=
        (locateAtomic_manager rfl).mpr (host_first hpart heq)
      rw [MemoryManager.load, hlocate]
    · rw [(hrun order st).1] at hl
      cases hl

theorem manager_agrees_beside : ∃ m',
    besideCollection.manager.writeGuestMemory true [1, 2] 0xf00 freshState.mem = some (.ok (), m') ∧
    ∃ st', besideCollection.writeSlice [1, 2] 0xf00 freshState = (.ok (), st') ∧ st'.mem = m' := by
  obtain ⟨haccept, hagree⟩ := (manager_agrees besideCollection true 0xf00 freshState).1 [1, 2] (by decide)
  obtain ⟨m', hm⟩ := haccept.mp ⟨_, lowRegion, List.mem_cons_self, by decide, by decide, rfl⟩
  exact ⟨m', hm, hagree m' hm⟩

end GuestRegionCollection

end Whypa.VmMemory
