import Whypa.Framework.Reach
import Whypa.Memory.Backing

/-!
# The guest's RAM as a flat byte store

`flat_store`: the regions that `allocateMemoryWithSize` registers map the guest's
addresses one to one to the bytes of the allocation, and over any accesses, what
is read at a guest address is the byte last written there.

The argument does not depend on the table: in a table of disjoint regions
(`MemoryManager.Disjoint`) whose host addresses are distinct
(`MemoryManager.Distinct`), the memory keeps holding what a flat store would
(`MemoryManager.Holds`).
-/

namespace Whypa

open Framework

namespace MemoryManager

variable {mm : MemoryManager} {r : MemoryRegion} {a gpa : GuestAddress} {h n : Nat}

/-! ## Regions and host addresses -/

/-- No two regions share an address. -/
def Disjoint (mm : MemoryManager) : Prop :=
  mm.regions.Pairwise fun r r' =>
    r.gpa.toNat + r.size.toNat ≤ r'.gpa.toNat ∨ r'.gpa.toNat + r'.size.toNat ≤ r.gpa.toNat

/-- The region of an address is the one that contains it. -/
theorem findRegion_of_mem (hd : mm.Disjoint) (hr : r ∈ mm.regions)
    (ha : r.gpa.toNat ≤ a.toNat ∧ a.toNat < r.gpa.toNat + r.size.toNat) :
    mm.findRegion a = some r := by
  unfold Disjoint at hd
  unfold findRegion
  generalize mm.regions = rs at hd hr ⊢
  induction rs with
  | nil => cases hr
  | cons r' rs ih =>
    obtain ⟨hd', hd⟩ := List.pairwise_cons.mp hd
    rcases List.mem_cons.mp hr with rfl | hr
    · exact List.find?_cons_of_pos (MemoryRegion.contains_iff.mpr ha)
    · rw [List.find?_cons_of_neg fun hc => ?_]
      · exact ih hd hr
      · have hc := MemoryRegion.contains_iff.mp hc
        have := hd' r hr
        omega

theorem mem_of_findRegion (hf : mm.findRegion a = some r) : r ∈ mm.regions :=
  List.mem_of_find?_eq_some hf

/-- The host address that backs the guest address. -/
def hostOf (mm : MemoryManager) (a : GuestAddress) : Option Nat :=
  (mm.findRegion a).bind fun r => r.hpa.map fun hpa => hostAddr r hpa a

/-- No two guest addresses share a host address. -/
def Distinct (mm : MemoryManager) : Prop :=
  ∀ a b h, mm.hostOf a = some h → mm.hostOf b = some h → a = b

/-- An access that is let through lies in the region of its first byte. -/
theorem locate_ok {ck : Bool} {allowed : MemoryPerms → Bool} {denied : MemoryError} (hn : n < 2 ^ 64)
    (hck : ck = false → gpa.toNat + n < 2 ^ 64)
    (hl : mm.locate ck gpa n allowed denied = some (.ok h)) :
    ∃ r hpa, mm.findRegion gpa = some r ∧ r.hpa = some hpa ∧ h = hostAddr r hpa gpa ∧
      gpa.toNat + n < r.gpa.toNat + r.size.toNat := by
  have hlt : gpa.toNat + n < 2 ^ 64 := by
    cases ck with
    | true => exact lt_of_locate_checked hn hl
    | false => exact hck rfl
  obtain ⟨r, hpa, hf, -, hh, he, hend⟩ := (locate_eq_ok_of_lt hlt).mp hl
  exact ⟨r, hpa, hf, hh, he, hend⟩

/-- An access whose end is an address is answered. -/
theorem exists_locate {ck : Bool} {allowed : MemoryPerms → Bool} {denied : MemoryError}
    (hlt : gpa.toNat + n < 2 ^ 64) : ∃ r, mm.locate ck gpa n allowed denied = some r := by
  have hn : (BitVec.ofNat 64 n).toNat = n := by
    rw [BitVec.toNat_ofNat, Nat.mod_eq_of_lt (by omega)]
  unfold locate
  cases mm.findRegion gpa with
  | none => exact ⟨_, rfl⟩
  | some r =>
    rw [plainAdd_of_lt ck (by omega)]
    dsimp only
    split
    · exact ⟨_, rfl⟩
    split
    · exact ⟨_, rfl⟩
    cases r.hpa <;> exact ⟨_, rfl⟩

theorem exists_writeGuestMemory {ck : Bool} {bs : List Byte} (m : Mem)
    (hlt : gpa.toNat + bs.length < 2 ^ 64) :
    ∃ r m', mm.writeGuestMemory ck bs gpa m = some (r, m') := by
  obtain ⟨r, hr⟩ := @exists_locate mm gpa bs.length ck MemoryPerms.write .readOnly hlt
  rw [writeGuestMemory, hr]
  exact ⟨_, _, rfl⟩

theorem findRegion_of_locate {ck : Bool} {allowed : MemoryPerms → Bool} {denied : MemoryError}
    (hl : mm.locate ck gpa n allowed denied = some (.ok h)) : (mm.findRegion gpa).isSome := by
  obtain ⟨r, -, -, hf, -⟩ := locate_eq_ok.mp hl
  rw [hf]
  rfl

/-- The bytes of the region follow each other in the host's memory. -/
theorem hostOf_add (hd : mm.Disjoint) {hpa i : Nat} (hf : mm.findRegion gpa = some r)
    (hh : r.hpa = some hpa) (hi : gpa.toNat + i < r.gpa.toNat + r.size.toNat) :
    (gpa + BitVec.ofNat 64 i).toNat = gpa.toNat + i ∧
      mm.hostOf (gpa + BitVec.ofNat 64 i) = some (hostAddr r hpa gpa + i) := by
  have hc := findRegion_contains hf
  have hfits := r.fits
  have hi' : (BitVec.ofNat 64 i).toNat = i := by
    rw [BitVec.toNat_ofNat, Nat.mod_eq_of_lt (by omega)]
  have ha : (gpa + BitVec.ofNat 64 i).toNat = gpa.toNat + i := by
    rw [BitVec.toNat_add_of_lt (by omega), hi']
  refine ⟨ha, ?_⟩
  have hf' := findRegion_of_mem hd (mem_of_findRegion hf) (a := gpa + BitVec.ofNat 64 i) (by omega)
  rw [hostOf, hf', Option.bind_some, hh, Option.map_some, hostAddr, hostAddr, ha]
  exact congrArg some (by omega)

/-! ## A flat store -/

/-- Every byte of guest memory holds what `flat` has at its address. -/
def Holds (mm : MemoryManager) (m flat : Mem) : Prop :=
  ∀ a h, mm.hostOf a = some h → m h = flat a.toNat

/-- A read that is let through returns the bytes of the flat store. -/
theorem Holds.read {m flat : Mem} {ck : Bool} {bs : List Byte} (hm : mm.Holds m flat)
    (hd : mm.Disjoint) (hn : n < 2 ^ 64) (hck : ck = false → gpa.toNat + n < 2 ^ 64)
    (hr : mm.readGuestMemory ck gpa n m = some (.ok bs)) : bs = flat.read gpa.toNat n := by
  obtain ⟨l, hl, e⟩ := Option.map_eq_some_iff.mp hr
  cases l with
  | error err => cases e
  | ok h =>
    obtain rfl := Except.ok.inj e
    obtain ⟨r, hpa, hf, hh, rfl, hlt⟩ := locate_ok hn hck hl
    refine List.map_congr_left fun i hi => ?_
    have hi := List.mem_range.mp hi
    obtain ⟨ha, hhost⟩ := hostOf_add (i := i) hd hf hh (by omega)
    rw [hm _ _ hhost, ha]

/-- A write that is let through changes the flat store at the same addresses. -/
theorem Holds.write {m m' flat : Mem} {ck : Bool} {bs : List Byte} (hm : mm.Holds m flat)
    (hd : mm.Disjoint) (hi : mm.Distinct) (hn : bs.length < 2 ^ 64)
    (hck : ck = false → gpa.toNat + bs.length < 2 ^ 64)
    (hw : mm.writeGuestMemory ck bs gpa m = some (.ok (), m')) :
    mm.Holds m' (flat.write gpa.toNat bs) := by
  obtain ⟨l, hl, e⟩ := Option.map_eq_some_iff.mp hw
  cases l with
  | error err => cases (Prod.mk.inj e).1
  | ok h =>
    obtain rfl := (Prod.mk.inj e).2
    obtain ⟨r, hpa, hf, hh, rfl, hlt⟩ := locate_ok hn hck hl
    intro a k hk
    by_cases hin : gpa.toNat ≤ a.toNat ∧ a.toNat < gpa.toNat + bs.length
    · obtain ⟨i, hi'⟩ := Nat.exists_eq_add_of_le hin.1
      have hib : i < bs.length := by omega
      obtain ⟨ha, hhost⟩ := hostOf_add (i := i) hd hf hh (by omega)
      obtain rfl : a = gpa + BitVec.ofNat 64 i := BitVec.eq_of_toNat_eq (by omega)
      rw [hhost] at hk
      rw [← Option.some.inj hk, ha, Mem.write_apply_in hib, Mem.write_apply_in hib]
    · rw [Mem.write_apply (m := flat) (by omega), ← hm a k hk]
      refine Mem.write_apply ?_
      by_contra hk'
      obtain ⟨i, hi'⟩ := Nat.exists_eq_add_of_le (show hostAddr r hpa gpa ≤ k by omega)
      obtain ⟨ha, hhost⟩ := hostOf_add (i := i) hd hf hh (by omega)
      have he := hi a _ k hk (hi' ▸ hhost)
      rw [he, ha] at hin
      omega

/-- What the guest sees at each address: zero where there is no memory. -/
def guest (mm : MemoryManager) (m : Mem) : Mem := fun x =>
  if x < 2 ^ 64 then ((mm.hostOf (BitVec.ofNat 64 x)).map m).getD 0 else 0

theorem holds_guest (mm : MemoryManager) (m : Mem) : mm.Holds m (mm.guest m) := by
  intro a h hh
  rw [guest, if_pos a.isLt, BitVec.ofNat_toNat, BitVec.setWidth_eq, hh]
  rfl

theorem Holds.guest_eq {m flat : Mem} (hm : mm.Holds m flat) {x : Nat} (hx : x < 2 ^ 64)
    (hb : (mm.hostOf (BitVec.ofNat 64 x)).isSome) : mm.guest m x = flat x := by
  obtain ⟨h, hh⟩ := Option.isSome_iff_exists.mp hb
  have he := hm _ h hh
  rw [BitVec.toNat_ofNat, Nat.mod_eq_of_lt hx] at he
  rw [guest, if_pos hx, hh, ← he]
  rfl

/-- A write that is let through changes what the guest sees at its addresses alone. -/
theorem guest_write {m m' : Mem} {ck : Bool} {bs : List Byte} (hd : mm.Disjoint) (hi : mm.Distinct)
    (hn : bs.length < 2 ^ 64) (hck : ck = false → gpa.toNat + bs.length < 2 ^ 64)
    (hw : mm.writeGuestMemory ck bs gpa m = some (.ok (), m')) :
    mm.guest m' = (mm.guest m).write gpa.toNat bs := by
  have hh := (holds_guest mm m).write hd hi hn hck hw
  obtain ⟨l, hl, e⟩ := Option.map_eq_some_iff.mp hw
  cases l with
  | error err => cases (Prod.mk.inj e).1
  | ok h =>
    obtain ⟨r, hpa, hf, hb, -, hlt⟩ := locate_ok hn hck hl
    have hfits := r.fits
    funext x
    by_cases hx : x < 2 ^ 64
    · cases hs : mm.hostOf (BitVec.ofNat 64 x) with
      | some k => exact hh.guest_eq hx (by rw [hs]; rfl)
      | none =>
        have hout : x < gpa.toNat ∨ gpa.toNat + bs.length ≤ x := by
          by_contra hin
          obtain ⟨i, rfl⟩ := Nat.exists_eq_add_of_le (show gpa.toNat ≤ x by omega)
          obtain ⟨ha, hhost⟩ := hostOf_add (i := i) hd hf hb (by omega)
          rw [← ha, BitVec.ofNat_toNat, BitVec.setWidth_eq, hhost] at hs
          cases hs
        rw [Mem.write_apply hout, guest, guest, if_pos hx, if_pos hx, hs]
        rfl
    · rw [Mem.write_apply (by omega), guest, guest, if_neg hx, if_neg hx]

/-! ## The guest's RAM -/

section
variable {total : BitVec 64} {source : Nat} {hpos : 0 < total.toNat}
  {hfits : 0x40000000 + total.toNat ≤ 2 ^ 64}

/-- The guest address of the byte `off` of the RAM: a large RAM leaves out the
addresses of the 32-bit devices. -/
def ramAddr (total off : Nat) : Nat :=
  if total ≤ 0xfec00000 ∨ off < 0xc0000000 then off else off + 0x40000000

theorem regions_small (hs : total ≤ MEM_32BIT_RESERVED_START) :
    (allocateMemoryWithSize total source hpos hfits).regions =
      [⟨0, total, .RWX, some source, hpos, by simpa using total.isLt.le⟩] := by
  rw [allocateMemoryWithSize, dif_pos hs]

/-- The second region of a large RAM. -/
theorem regions_large (source : Nat) (hpos : 0 < total.toNat)
    (hfits : 0x40000000 + total.toNat ≤ 2 ^ 64) (hs : ¬ total ≤ MEM_32BIT_RESERVED_START) :
    ∃ lowPos lowFits highPos highFits,
      (total - MEM_32BIT_DEVICES_START).toNat = total.toNat - 0xc0000000 ∧
      0xfec00000 < total.toNat ∧
      (allocateMemoryWithSize total source hpos hfits).regions =
        [⟨0, MEM_32BIT_DEVICES_START, .RWX, some source, lowPos, lowFits⟩,
          ⟨RAM_64BIT_START, total - MEM_32BIT_DEVICES_START, .RWX,
            some (source + MEM_32BIT_DEVICES_START.toNat), highPos, highFits⟩] := by
  have hlt : 0xfec00000 < total.toNat := by
    simpa [MEM_32BIT_RESERVED_START, BitVec.lt_def] using hs
  have hsub : (total - MEM_32BIT_DEVICES_START).toNat = total.toNat - 0xc0000000 :=
    BitVec.toNat_sub_of_le (by rw [BitVec.le_def]; exact (show 0xc0000000 ≤ total.toNat by omega))
  rw [allocateMemoryWithSize, dif_neg hs]
  exact ⟨_, _, _, _, hsub, hlt, rfl⟩

theorem disjoint_allocated : (allocateMemoryWithSize total source hpos hfits).Disjoint := by
  unfold Disjoint
  by_cases hs : total ≤ MEM_32BIT_RESERVED_START
  · rw [regions_small hs]
    exact List.pairwise_singleton ..
  · obtain ⟨lowPos, lowFits, highPos, highFits, hsub, hlt, e⟩ := regions_large source hpos hfits hs
    rw [e]
    exact List.pairwise_pair.mpr (.inl (show 0 + 0xc0000000 ≤ 0x100000000 by decide))

theorem sum_allocated :
    ((allocateMemoryWithSize total source hpos hfits).regions.map fun r => r.size.toNat).sum =
      total.toNat := by
  by_cases hs : total ≤ MEM_32BIT_RESERVED_START
  · rw [regions_small hs, List.map_singleton, List.sum_singleton]
  · obtain ⟨lowPos, lowFits, highPos, highFits, hsub, hlt, e⟩ := regions_large source hpos hfits hs
    have hdev : MEM_32BIT_DEVICES_START.toNat = 0xc0000000 := by decide
    rw [e, List.map_cons, List.map_singleton, List.sum_cons, List.sum_singleton, hsub, hdev]
    omega

/-- The RAM is the allocation, each byte at one guest address. -/
theorem hostOf_allocated :
    (allocateMemoryWithSize total source hpos hfits).hostOf a = some h ↔
      ∃ off < total.toNat, h = source + off ∧ a.toNat = ramAddr total.toNat off := by
  have hd : (allocateMemoryWithSize total source hpos hfits).Disjoint := disjoint_allocated
  have hres : MEM_32BIT_RESERVED_START.toNat = 0xfec00000 := by decide
  have hdev : MEM_32BIT_DEVICES_START.toNat = 0xc0000000 := by decide
  have h64 : RAM_64BIT_START.toNat = 0x100000000 := by decide
  have h0 : (0 : GuestAddress).toNat = 0 := rfl
  unfold ramAddr
  constructor
  · intro hh
    obtain ⟨r, hf, hh⟩ := Option.bind_eq_some_iff.mp hh
    obtain ⟨hpa, hp, rfl⟩ := Option.map_eq_some_iff.mp hh
    have hc := findRegion_contains hf
    have hr := mem_of_findRegion hf
    unfold hostAddr
    by_cases hs : total ≤ MEM_32BIT_RESERVED_START
    · rw [regions_small hs] at hr
      obtain rfl := List.mem_singleton.mp hr
      obtain rfl := Option.some.inj hp
      rw [BitVec.le_def, hres] at hs
      dsimp only at hc
      exact ⟨a.toNat, by omega, by rw [h0, Nat.sub_zero], by rw [if_pos (.inl hs)]⟩
    · obtain ⟨lowPos, lowFits, highPos, highFits, hsub, hlt, e⟩ :=
        regions_large source hpos hfits hs
      rw [e] at hr
      simp only [List.mem_cons, List.not_mem_nil, or_false] at hr
      rcases hr with rfl | rfl
      · obtain rfl := Option.some.inj hp
        dsimp only at hc
        exact ⟨a.toNat, by omega, by rw [h0, Nat.sub_zero], by rw [if_pos (.inr (by omega))]⟩
      · obtain rfl := Option.some.inj hp
        dsimp only at hc ⊢
        rw [hsub] at hc
        exact ⟨a.toNat - 0x40000000, by omega, by omega, by rw [if_neg (by omega)]; omega⟩
  · rintro ⟨off, hoff, rfl, ha⟩
    by_cases hs : total ≤ MEM_32BIT_RESERVED_START
    · have hr : _ ∈ (allocateMemoryWithSize total source hpos hfits).regions :=
        regions_small hs ▸ List.mem_singleton.mpr rfl
      rw [BitVec.le_def, hres] at hs
      rw [if_pos (.inl hs)] at ha
      have hf := findRegion_of_mem hd hr (a := a) (by dsimp only; omega)
      rw [hostOf, hf, Option.bind_some, Option.map_some, hostAddr, h0, ha, Nat.sub_zero]
    · obtain ⟨lowPos, lowFits, highPos, highFits, hsub, hlt, e⟩ :=
        regions_large source hpos hfits hs
      by_cases hlow : off < 0xc0000000
      · have hr : _ ∈ (allocateMemoryWithSize total source hpos hfits).regions :=
          e ▸ List.mem_cons_self
        rw [if_pos (.inr hlow)] at ha
        have hf := findRegion_of_mem hd hr (a := a) (by dsimp only; omega)
        rw [hostOf, hf, Option.bind_some, Option.map_some, hostAddr, h0, ha, Nat.sub_zero]
      · have hr : _ ∈ (allocateMemoryWithSize total source hpos hfits).regions :=
          e ▸ List.mem_cons_of_mem _ List.mem_cons_self
        rw [if_neg (by omega)] at ha
        have hf := findRegion_of_mem hd hr (a := a) (by dsimp only; omega)
        rw [hostOf, hf, Option.bind_some, Option.map_some, hostAddr]
        dsimp only
        exact congrArg some (by omega)

theorem distinct_allocated : (allocateMemoryWithSize total source hpos hfits).Distinct := by
  intro a b h ha hb
  obtain ⟨off, -, rfl, hoff⟩ := hostOf_allocated.mp ha
  obtain ⟨off', -, he, hoff'⟩ := hostOf_allocated.mp hb
  obtain rfl : off = off' := by omega
  exact BitVec.eq_of_toNat_eq (hoff.trans hoff'.symm)

/-- A write below the addresses of the devices is let through. -/
theorem write_low {ck : Bool} {bs : List Byte} (m : Mem)
    (h : gpa.toNat + bs.length < min total.toNat 0xc0000000) :
    ∃ m', (allocateMemoryWithSize total source hpos hfits).writeGuestMemory ck bs gpa m =
        some (.ok (), m') ∧
      (allocateMemoryWithSize total source hpos hfits).guest m' =
        ((allocateMemoryWithSize total source hpos hfits).guest m).write gpa.toNat bs := by
  have hres : MEM_32BIT_RESERVED_START.toNat = 0xfec00000 := by decide
  have hdev : MEM_32BIT_DEVICES_START.toNat = 0xc0000000 := by decide
  have hd : (allocateMemoryWithSize total source hpos hfits).Disjoint := disjoint_allocated
  obtain ⟨r, hr, hgpa, hsize, hperms, hhpa⟩ :
      ∃ r ∈ (allocateMemoryWithSize total source hpos hfits).regions, r.gpa = 0 ∧
        min total.toNat 0xc0000000 ≤ r.size.toNat ∧ r.perms = .RWX ∧ r.hpa = some source := by
    by_cases hs : total ≤ MEM_32BIT_RESERVED_START
    · rw [regions_small hs]
      exact ⟨_, List.mem_singleton_self _, rfl, Nat.min_le_left .., rfl, rfl⟩
    · obtain ⟨lowPos, lowFits, highPos, highFits, -, -, e⟩ := regions_large source hpos hfits hs
      rw [e]
      exact ⟨_, List.mem_cons_self, rfl, Nat.min_le_right .., rfl, rfl⟩
  have h0 : r.gpa.toNat = 0 := by rw [hgpa]; rfl
  have hf := findRegion_of_mem hd hr (a := gpa) (by omega)
  have hw : (allocateMemoryWithSize total source hpos hfits).writeGuestMemory ck bs gpa m =
      some (.ok (), m.write (hostAddr r source gpa) bs) := by
    have hl : (allocateMemoryWithSize total source hpos hfits).locate ck gpa bs.length
        MemoryPerms.write .readOnly = some (.ok (hostAddr r source gpa)) :=
      (locate_eq_ok_of_lt (by omega)).mpr ⟨r, source, hf, by rw [hperms]; rfl, hhpa, rfl, by omega⟩
    rw [writeGuestMemory, hl]
    rfl
  exact ⟨_, hw, guest_write hd distinct_allocated (by omega) (fun _ => by omega) hw⟩

/-- Every region is backed. -/
theorem hostOf_of_findRegion
    (hf : ((allocateMemoryWithSize total source hpos hfits).findRegion a).isSome) :
    ∃ h, (allocateMemoryWithSize total source hpos hfits).hostOf a = some h := by
  obtain ⟨r, hf⟩ := Option.isSome_iff_exists.mp hf
  have hr := mem_of_findRegion hf
  have hp : r.hpa.isSome := by
    by_cases hs : total ≤ MEM_32BIT_RESERVED_START
    · rw [regions_small hs] at hr
      obtain rfl := List.mem_singleton.mp hr
      rfl
    · obtain ⟨lowPos, lowFits, highPos, highFits, -, -, e⟩ :=
        regions_large source hpos hfits hs
      rw [e] at hr
      simp only [List.mem_cons, List.not_mem_nil, or_false] at hr
      rcases hr with rfl | rfl <;> rfl
  obtain ⟨hpa, hp⟩ := Option.isSome_iff_exists.mp hp
  exact ⟨hostAddr r hpa a, by rw [hostOf, hf, Option.bind_some, hp, Option.map_some]⟩

end

end MemoryManager

/-! ## Runs -/

namespace Ram

open MemoryManager

/-- The host's memory, and the byte last written to each guest address. -/
structure State where
  m : Mem
  flat : Mem

inductive Label
  | write (bytes : List Byte) (gpa : GuestAddress)
  | read (gpa : GuestAddress) (size : Nat)

/-- How many bytes the access is about. -/
def Label.size : Label → Nat
  | .write bytes _ => bytes.length
  | .read _ size => size

/-- An access to guest memory; what is written is recorded if it is let through. -/
def step (ck : Bool) (mm : MemoryManager) (s : State) : Label → Option State
  | .write bytes gpa => (mm.writeGuestMemory ck bytes gpa s.m).map fun
    | (.ok (), m) => ⟨m, s.flat.write gpa.toNat bytes⟩
    | (.error _, m) => ⟨m, s.flat⟩
  | .read gpa size => (mm.readGuestMemory ck gpa size s.m).map fun _ => s

/-- `n` is the size of an object of the process beside the `total` bytes of RAM.
The sum of an address and a size is not checked in every build, so it counts
that the two leave a gigabyte of the address space to the rest of the process. -/
def Beside (ck : Bool) (total n : Nat) : Prop :=
  n < 2 ^ 64 ∧ (ck = false → total + n + 0x40000000 ≤ 2 ^ 64)

instance (ck : Bool) (total n : Nat) : Decidable (Beside ck total n) :=
  inferInstanceAs (Decidable (_ ∧ _))

/-- Accesses to the regions `mm` of a RAM just allocated at `source`. -/
def system (ck : Bool) (mm : MemoryManager) (total source : Nat) : System State Label :=
  (System.ofStep (fun s => (∀ i < total, s.m (source + i) = 0) ∧ s.flat = fun _ => 0)
    (step ck mm)).under fun _ l => Beside ck total l.size

variable {ck : Bool} {total : BitVec 64} {source n : Nat} {hpos : 0 < total.toNat}
  {hfits : 0x40000000 + total.toNat ≤ 2 ^ 64} {gpa : GuestAddress} {s : State}

/-- The sum of an address of the RAM and a size that is beside it. -/
theorem add_lt {h : Nat} {allowed : MemoryPerms → Bool} {denied : MemoryError}
    (hn : Beside ck total.toNat n)
    (hl : (allocateMemoryWithSize total source hpos hfits).locate ck gpa n allowed denied =
      some (.ok h)) :
    ck = false → gpa.toNat + n < 2 ^ 64 := by
  intro hck
  obtain ⟨h, hg⟩ := hostOf_of_findRegion (findRegion_of_locate hl)
  obtain ⟨off, hoff, -, ha⟩ := hostOf_allocated.mp hg
  have := hn.2 hck
  unfold ramAddr at ha
  split at ha <;> omega

theorem read_eq {bs : List Byte} {m flat : Mem} (hn : Beside ck total.toNat n)
    (hm : (allocateMemoryWithSize total source hpos hfits).Holds m flat)
    (hr : (allocateMemoryWithSize total source hpos hfits).readGuestMemory ck gpa n m =
      some (.ok bs)) : bs = flat.read gpa.toNat n := by
  refine hm.read disjoint_allocated hn.1 ?_ hr
  obtain ⟨l, hl, e⟩ := Option.map_eq_some_iff.mp hr
  cases l with
  | error err => cases e
  | ok h => exact add_lt hn hl

theorem write_error {mm : MemoryManager} {bytes : List Byte} {m m' : Mem} {e : MemoryError}
    (hw : mm.writeGuestMemory ck bytes gpa m = some (.error e, m')) : m' = m := by
  obtain ⟨l, -, he⟩ := Option.map_eq_some_iff.mp hw
  cases l with
  | error err => exact (Prod.mk.inj he).2.symm
  | ok h => cases (Prod.mk.inj he).1

/-- Every access keeps what the flat store has. -/
theorem step_holds {s' : State} {l : Label} (hn : Beside ck total.toNat l.size)
    (hm : (allocateMemoryWithSize total source hpos hfits).Holds s.m s.flat)
    (hs : step ck (allocateMemoryWithSize total source hpos hfits) s l = some s') :
    (allocateMemoryWithSize total source hpos hfits).Holds s'.m s'.flat := by
  cases l with
  | write bytes gpa =>
    obtain ⟨⟨r, m⟩, hw, rfl⟩ := Option.map_eq_some_iff.mp hs
    cases r with
    | error e =>
      dsimp only
      rw [write_error hw]
      exact hm
    | ok u =>
      refine hm.write disjoint_allocated distinct_allocated hn.1 ?_ hw
      obtain ⟨l, hl, e⟩ := Option.map_eq_some_iff.mp hw
      cases l with
      | error err => cases (Prod.mk.inj e).1
      | ok h => exact add_lt hn hl
  | read gpa size =>
    obtain ⟨r, -, rfl⟩ := Option.map_eq_some_iff.mp hs
    exact hm

theorem holds_of_reachable
    (h : (system ck (allocateMemoryWithSize total source hpos hfits) total.toNat source).Reachable s) :
    (allocateMemoryWithSize total source hpos hfits).Holds s.m s.flat := by
  refine h.invariant (I := fun s => (allocateMemoryWithSize total source hpos hfits).Holds s.m s.flat)
    ?_ ?_
  · rintro s ⟨hm, hflat⟩ a k hk
    obtain ⟨off, hoff, rfl, -⟩ := hostOf_allocated.mp hk
    rw [hflat]
    exact hm off hoff
  · rintro s l s' hm ⟨hn, hs⟩
    exact step_holds hn hm hs

/-- `readObj` is a read of as many bytes as the type has. -/
theorem run_readObj {T : Type} [FromBytes T] {mm : MemoryManager} {m m' : Mem}
    {x : Except MemoryError T}
    (hr : Prog.run (mm.handler ck) (readObj T gpa) m = some (x, m')) :
    m' = m ∧ ∃ r, mm.readGuestMemory ck gpa (FromBytes.size T) m = some r ∧
      x = r.map FromBytes.ofBytes := by
  unfold readObj VProg.read at hr
  rw [Prog.run_bind, Prog.run_access] at hr
  obtain ⟨⟨r, m₁⟩, hr, he⟩ := Option.bind_eq_some_iff.mp hr
  obtain ⟨⟨r', m₂⟩, ha, hr⟩ := Option.bind_eq_some_iff.mp hr
  obtain ⟨r'', hread, e⟩ := Option.map_eq_some_iff.mp ha
  obtain ⟨rfl, rfl⟩ := Prod.mk.inj e
  obtain ⟨rfl, rfl⟩ := Prod.mk.inj (Option.some.inj hr)
  obtain ⟨hx, rfl⟩ := Prod.mk.inj (Option.some.inj he)
  exact ⟨rfl, r'', hread, hx.symm⟩

theorem fits_of_lt (h : total.toNat < 2 ^ 63) : 0x40000000 + total.toNat ≤ 2 ^ 64 := by omega

/-- For every size of the RAM: each guest address of the regions is backed by a
byte of the allocation, no two by the same, and the regions are as large as it.
Over any accesses, in every state reached, a read that is let through returns
for each address the byte last written there, zero if there is none; and one
that is rejected, as a write that is, changes nothing. -/
theorem flat_store (hpos : 0 < total.toNat) (hlt : total.toNat < 2 ^ 63) (source : Nat)
    {mm : MemoryManager} (hmm : mm = allocateMemoryWithSize total source hpos (fits_of_lt hlt)) :
    (∀ a, (mm.findRegion a).isSome → ∃ off < total.toNat, mm.hostOf a = some (source + off)) ∧
    (∀ a b h, mm.hostOf a = some h → mm.hostOf b = some h → a = b) ∧
    (mm.regions.map fun r => r.size.toNat).sum = total.toNat ∧
    ∀ ck s, (system ck mm total.toNat source).Reachable s →
      (∀ gpa n bs, Beside ck total.toNat n → mm.readGuestMemory ck gpa n s.m = some (.ok bs) →
        bs = s.flat.read gpa.toNat n) ∧
      (∀ (T : Type) [FromBytes T] (gpa : GuestAddress) (r : Except MemoryError T) (m' : Mem),
        Beside ck total.toNat (FromBytes.size T) →
        Prog.run (mm.handler ck) (readObj T gpa) s.m = some (r, m') → m' = s.m ∧
          ∀ x, r = .ok x → x = FromBytes.ofBytes (s.flat.read gpa.toNat (FromBytes.size T))) ∧
      (∀ bytes gpa e m', mm.writeGuestMemory ck bytes gpa s.m = some (.error e, m') → m' = s.m) ∧
      ∀ (T : Type) [AsBytes T] (obj : T) (gpa : GuestAddress),
        Prog.run (mm.handler ck) (writeObj obj gpa) s.m =
          mm.writeGuestMemory ck (AsBytes.bytes obj) gpa s.m := by
  subst hmm
  refine ⟨fun a hf => ?_, distinct_allocated, sum_allocated, fun ck s h => ?_⟩
  · obtain ⟨h, hh⟩ := hostOf_of_findRegion hf
    obtain ⟨off, hoff, rfl, -⟩ := hostOf_allocated.mp hh
    exact ⟨off, hoff, hh⟩
  have hm := holds_of_reachable h
  refine ⟨fun gpa n bs hn hr => read_eq hn hm hr, fun T _ gpa r m' hn hr => ?_,
    fun bytes gpa e m' hw => write_error hw, fun T _ obj gpa => ?_⟩
  · obtain ⟨hm', r', hread, rfl⟩ := run_readObj hr
    refine ⟨hm', fun x hx => ?_⟩
    cases r' with
    | error err => cases hx
    | ok bs =>
      rw [← Except.ok.inj hx, read_eq hn hm hread]
  · generalize allocateMemoryWithSize total source hpos (fits_of_lt hlt) = mm
    show ((mm.writeGuestMemory ck (AsBytes.bytes obj) gpa s.m).bind fun p => some (p.1, p.2)) = _
    cases mm.writeGuestMemory ck (AsBytes.bytes obj) gpa s.m <;> rfl

/-- A guest with 5 GiB of RAM, in which two bytes are written above the addresses
of the devices and read back. -/
theorem flat_store_high : ∃ s bs,
    (system true (allocateMemoryWithSize 0x140000000 0 (by decide) (by decide)) 0x140000000
      0).Reachable s ∧
    (allocateMemoryWithSize 0x140000000 0 (by decide) (by decide)).readGuestMemory true 0x100000000 2
      s.m = some (.ok bs) ∧ bs = [7, 8] := by
  have h0 : (system true (allocateMemoryWithSize 0x140000000 0 (by decide) (by decide)) 0x140000000
      0).Reachable ⟨fun _ => 0, fun _ => 0⟩ := .init ⟨fun _ _ => rfl, rfl⟩
  have hs : step true (allocateMemoryWithSize 0x140000000 0 (by decide) (by decide))
      ⟨fun _ => 0, fun _ => 0⟩ (.write [7, 8] 0x100000000) =
      some ⟨Mem.write (fun _ => 0) 0xc0000000 [7, 8], Mem.write (fun _ => 0) 0x100000000 [7, 8]⟩ := rfl
  have hb : Beside true 0x140000000 (Label.write [7, 8] 0x100000000).size := by decide
  have h := System.Reachable.step h0 (And.intro hb hs)
  refine ⟨_, _, h, rfl, ?_⟩
  have hf := (flat_store (by decide : 0 < (0x140000000 : BitVec 64).toNat) (by decide) 0 rfl).2.2.2 true _ h
  rw [hf.1 0x100000000 2 _ (by decide) rfl]
  exact Mem.read_write_self ..

end Ram

end Whypa
