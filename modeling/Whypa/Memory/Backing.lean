import Whypa.Memory.Memory

/-!
# Ranges of guest memory

`MemoryManager.Backs mm gpa len h`: the `len` guest addresses from `gpa` lie in
one readable and writable region, and their bytes are those at `h` in the
host's memory. Every access inside such a range goes to the host address its
offset gives (`Backs.load`, `Backs.store`, `Backs.read`, `Backs.write`),
whatever the memory holds. `MemoryManager.Readable mm gpa n` is what one read
of `n` bytes needs.
-/

namespace Whypa

open Framework

namespace MemoryManager

/-- The `len` addresses from `gpa` lie in one readable and writable region, and
are backed by the host's memory from `h`. -/
def Backs (mm : MemoryManager) (gpa : GuestAddress) (len h : Nat) : Prop :=
  ∃ r hpa, r.perms.read = true ∧ r.perms.write = true ∧ r.hpa = some hpa ∧
    h + r.gpa.toNat = hpa + gpa.toNat ∧ gpa.toNat + len ≤ r.gpa.toNat + r.size.toNat ∧
    ∀ a : GuestAddress, gpa.toNat ≤ a.toNat → a.toNat < gpa.toNat + len → mm.findRegion a = some r

namespace Backs

variable {mm : MemoryManager} {gpa a : GuestAddress} {len h off n : Nat}

theorem end_le (hb : mm.Backs gpa len h) : gpa.toNat + len ≤ 2 ^ 64 := by
  obtain ⟨r, -, -, -, -, -, hle, -⟩ := hb
  exact hle.trans r.fits

/-- A range inside the range. -/
theorem sub (hb : mm.Backs gpa len h) (ha : a.toNat = gpa.toNat + off) (hn : off + n ≤ len) :
    mm.Backs a n (h + off) := by
  obtain ⟨r, hpa, hr, hw, hp, hh, hle, hfind⟩ := hb
  exact ⟨r, hpa, hr, hw, hp, by omega, by omega, fun b h₁ h₂ => hfind b (by omega) (by omega)⟩

/-- The address `off` bytes into the range. -/
theorem toNat_add (hb : mm.Backs gpa len h) {o : BitVec 64} (ho : o.toNat < len) :
    (gpa + o).toNat = gpa.toNat + o.toNat :=
  BitVec.toNat_add_of_lt (by have := hb.end_le; omega)

theorem checkedAdd (hb : mm.Backs gpa len h) {o : BitVec 64} (ho : o.toNat < len) :
    checkedAdd gpa o = some (gpa + o) :=
  checkedAdd_of_lt (by have := hb.end_le; omega)

theorem locateAtomic_read (hb : mm.Backs gpa len h) (hl : 0 < len) :
    mm.locateAtomic gpa MemoryPerms.read .notReadable = .ok h := by
  obtain ⟨r, hpa, hr, -, hp, hh, -, hfind⟩ := hb
  have hf := hfind gpa (le_refl _) (by omega)
  have hc := findRegion_contains hf
  refine locateAtomic_eq_ok.mpr ⟨r, hpa, hf, hr, hp, ?_⟩
  unfold hostAddr
  omega

theorem locateAtomic_write (hb : mm.Backs gpa len h) (hl : 0 < len) :
    mm.locateAtomic gpa MemoryPerms.write .readOnly = .ok h := by
  obtain ⟨r, hpa, -, hw, hp, hh, -, hfind⟩ := hb
  have hf := hfind gpa (le_refl _) (by omega)
  have hc := findRegion_contains hf
  refine locateAtomic_eq_ok.mpr ⟨r, hpa, hf, hw, hp, ?_⟩
  unfold hostAddr
  omega

/-- A string of bytes that ends before the last byte of the range. -/
theorem locate {allowed : MemoryPerms → Bool} {denied : MemoryError} (ck : Bool)
    (hb : mm.Backs gpa len h) (hn : n < len)
    (hp : ∀ p : MemoryPerms, p.read = true → p.write = true → allowed p = true) :
    mm.locate ck gpa n allowed denied = some (.ok h) := by
  have hend := hb.end_le
  obtain ⟨r, hpa, hr, hw, hh, hh', hle, hfind⟩ := hb
  have hf := hfind gpa (le_refl _) (by omega)
  have hc := findRegion_contains hf
  refine (locate_eq_ok_of_lt (by omega)).mpr ⟨r, hpa, hf, hp r.perms hr hw, hh, ?_, by omega⟩
  unfold hostAddr
  omega

variable (ck : Bool)

theorem load (hb : mm.Backs gpa len h) (hl : 0 < len) (m : Mem) :
    mm.handler ck (.load gpa) m = some (.ok (m.word h 16), m) := by
  simp only [handler, MemoryManager.load, hb.locateAtomic_read hl]

theorem store (hb : mm.Backs gpa len h) (hl : 0 < len) (v : BitVec 16) (m : Mem) :
    mm.handler ck (.store v gpa) m = some (.ok (), m.putWord h v) := by
  simp only [handler, MemoryManager.store, hb.locateAtomic_write hl]

theorem read (hb : mm.Backs gpa len h) (hn : n < len) (m : Mem) :
    mm.handler ck (.read gpa n) m = some (.ok (m.read h n), m) := by
  simp only [handler, readGuestMemory, hb.locate ck hn fun p hr _ => hr, Option.map_some]

theorem write (hb : mm.Backs gpa len h) {bytes : List Byte} (hn : bytes.length < len) (m : Mem) :
    mm.handler ck (.write bytes gpa) m = some (.ok (), m.write h bytes) := by
  simp only [handler, writeGuestMemory, hb.locate ck hn fun p _ hw => hw, Option.map_some]

end Backs

/-- `gpa` and the `n` addresses after it lie in one readable region. -/
def Readable (mm : MemoryManager) (gpa : GuestAddress) (n : Nat) : Prop :=
  ∃ r hpa, mm.findRegion gpa = some r ∧ r.perms.read = true ∧ r.hpa = some hpa ∧
    gpa.toNat + n < r.gpa.toNat + r.size.toNat

namespace Readable

variable {mm : MemoryManager} {gpa : GuestAddress} {n : Nat}

theorem load (ck : Bool) (h : mm.Readable gpa n) :
    ∃ a, ∀ m, mm.handler ck (.load gpa) m = some (.ok (m.word a 16), m) := by
  obtain ⟨r, hpa, hf, hr, hh, -⟩ := h
  refine ⟨hostAddr r hpa gpa, fun m => ?_⟩
  have hl : mm.locateAtomic gpa MemoryPerms.read .notReadable = .ok (hostAddr r hpa gpa) :=
    locateAtomic_eq_ok.mpr ⟨r, hpa, hf, hr, hh, rfl⟩
  simp only [handler, MemoryManager.load, hl]

theorem read (ck : Bool) (h : mm.Readable gpa n) :
    ∃ a, ∀ m, mm.handler ck (.read gpa n) m = some (.ok (m.read a n), m) := by
  obtain ⟨r, hpa, hf, hr, hh, hlt⟩ := h
  have hfits := r.fits
  refine ⟨hostAddr r hpa gpa, fun m => ?_⟩
  have hl : mm.locate ck gpa n MemoryPerms.read .notReadable = some (.ok (hostAddr r hpa gpa)) :=
    (locate_eq_ok_of_lt (by omega)).mpr ⟨r, hpa, hf, hr, hh, rfl, hlt⟩
  simp only [handler, readGuestMemory, hl, Option.map_some]

end Readable

theorem Backs.readable {mm : MemoryManager} {gpa : GuestAddress} {len h n : Nat}
    (hb : mm.Backs gpa len h) (hn : n < len) : mm.Readable gpa n := by
  obtain ⟨r, hpa, hr, -, hp, -, hle, hfind⟩ := hb
  exact ⟨r, hpa, hfind gpa (le_refl _) (by omega), hr, hp, by omega⟩

/-- The RAM of a small guest. -/
theorem backs_allocated {total : BitVec 64} {source : Nat} {hpos : 0 < total.toNat}
    {hfits : 0x40000000 + total.toNat ≤ 2 ^ 64} (hs : total ≤ MEM_32BIT_RESERVED_START)
    {gpa : GuestAddress} {len : Nat} (hl : gpa.toNat + len ≤ total.toNat) :
    (allocateMemoryWithSize total source hpos hfits).Backs gpa len (source + gpa.toNat) := by
  rw [allocateMemoryWithSize, dif_pos hs]
  refine ⟨⟨0, total, .RWX, some source, hpos, by simpa using total.isLt.le⟩, source, rfl, rfl, rfl,
    Nat.add_zero _, ?_, fun a _ ha => ?_⟩
  · exact hl.trans (Nat.le_add_left _ _)
  · refine List.find?_cons_of_pos (MemoryRegion.contains_iff.mpr ⟨Nat.zero_le _, ?_⟩)
    show a.toNat < 0 + total.toNat
    omega

/-- The RAM of a large guest below its 32-bit devices. -/
theorem backs_allocated_low {total : BitVec 64} {source : Nat} {hpos : 0 < total.toNat}
    {hfits : 0x40000000 + total.toNat ≤ 2 ^ 64} (hs : ¬ total ≤ MEM_32BIT_RESERVED_START)
    {gpa : GuestAddress} {len : Nat} (hl : gpa.toNat + len ≤ MEM_32BIT_DEVICES_START.toNat) :
    (allocateMemoryWithSize total source hpos hfits).Backs gpa len (source + gpa.toNat) := by
  rw [allocateMemoryWithSize, dif_neg hs]
  refine ⟨⟨0, MEM_32BIT_DEVICES_START, .RWX, some source, by decide, by decide⟩, source, rfl, rfl, rfl,
    Nat.add_zero _, ?_, fun a _ ha => ?_⟩
  · exact hl.trans (Nat.le_add_left _ _)
  · refine List.find?_cons_of_pos (MemoryRegion.contains_iff.mpr ⟨Nat.zero_le _, ?_⟩)
    show a.toNat < 0 + MEM_32BIT_DEVICES_START.toNat
    omega

end MemoryManager

end Whypa
