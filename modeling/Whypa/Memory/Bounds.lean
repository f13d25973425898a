import Whypa.Memory.Flat
import Whypa.Virtio.DescriptorUtils
import Whypa.Virtio.Rings

/-!
# The bounds of an access to guest memory

Which accesses stay inside the region of their first byte
(`access_in_region_iff`): the paths for byte strings compare the end of the
access to the region's last address, and the atomic words are not compared to
anything. And which ranges the paths for byte strings and the buffers of a
chain accept (`paths_agree_iff`): the bound is exclusive for the buffers and
inclusive for the others.
-/

namespace Whypa

open Framework

/-- The integers that can be loaded and stored atomically. -/
inductive AtomicType
  | u8 | u16 | u32 | u64 | i8 | i16 | i32 | i64 | usize | isize
deriving DecidableEq, Repr

def AtomicType.bytes : AtomicType → Nat
  | .u8 | .i8 => 1
  | .u16 | .i16 => 2
  | .u32 | .i32 => 4
  | .u64 | .i64 | .usize | .isize => 8

theorem AtomicType.bytes_le (T : AtomicType) : T.bytes ≤ 8 := by cases T <;> decide

def AtomicType.bits (T : AtomicType) : Nat := 8 * T.bytes

/-- A string of bytes in the host's memory. No slice and no buffer has more
than `isize::MAX` of them. -/
structure Slice where
  bytes : List Byte
  fits : bytes.length < 2 ^ 63

/-- An access to guest memory. -/
inductive Path
  | readGuestMemory (gpa : GuestAddress) (size : Fin (2 ^ 63))
  | writeGuestMemory (code : Slice) (gpa : GuestAddress)
  /-- An object of a type of `size` bytes. -/
  | readObj (size : Fin (2 ^ 63)) (gpa : GuestAddress)
  | writeObj (obj : Slice) (gpa : GuestAddress)
  | load (T : AtomicType) (addr : GuestAddress)
  | store (T : AtomicType) (val : BitVec T.bits) (addr : GuestAddress)

namespace Path

/-- The guest address of the first byte. -/
def addr : Path → GuestAddress
  | readGuestMemory gpa _ | writeGuestMemory _ gpa | readObj _ gpa | writeObj _ gpa => gpa
  | load _ addr | store _ _ addr => addr

/-- The number of bytes read or written. -/
def count : Path → Nat
  | readGuestMemory _ size | readObj size _ => size
  | writeGuestMemory code _ | writeObj code _ => code.bytes.length
  | load T _ | store T _ _ => T.bytes

/-- Whether a region permits the access. -/
def allowed : Path → MemoryPerms → Bool
  | readGuestMemory .. | readObj .. | load .. => MemoryPerms.read
  | writeGuestMemory .. | writeObj .. | store .. => MemoryPerms.write

def isAtomic : Path → Bool
  | load .. | store .. => true
  | _ => false

/-- The host address of the first byte. -/
def located (ck : Bool) (mm : MemoryManager) (p : Path) : Option (Except MemoryError Nat) :=
  match p with
  | readGuestMemory gpa size | readObj size gpa => mm.locate ck gpa size MemoryPerms.read .notReadable
  | writeGuestMemory code gpa | writeObj code gpa =>
    mm.locate ck gpa code.bytes.length MemoryPerms.write .readOnly
  | load _ addr => some (mm.locateAtomic addr MemoryPerms.read .notReadable)
  | store _ _ addr => some (mm.locateAtomic addr MemoryPerms.write .readOnly)

/-- The bytes that the access reads, and the memory after it. -/
def run (ck : Bool) (mm : MemoryManager) (m : Mem) : Path → Option (Except MemoryError (List Byte) × Mem)
  | readGuestMemory gpa size | readObj size gpa =>
    (mm.readGuestMemory ck gpa size m).map fun r => (r, m)
  | writeGuestMemory code gpa | writeObj code gpa =>
    (mm.writeGuestMemory ck code.bytes gpa m).map fun r => (r.1.map fun _ => [], r.2)
  | load T addr => some ((mm.load T.bits addr m).map fun v => leBytes T.bytes v.toNat, m)
  | store _ val addr => some ((mm.store val addr m).1.map fun _ => [], (mm.store val addr m).2)

/-- The bytes that a write leaves in memory. -/
def written : Path → Option (List Byte)
  | writeGuestMemory code _ | writeObj code _ => some code.bytes
  | store T val _ => some (leBytes T.bytes val.toNat)
  | _ => none

/-- An access that is let through reads or writes the `count` bytes from where it is
located, and nothing else. -/
theorem run_eq (ck : Bool) (mm : MemoryManager) (m : Mem) (p : Path) :
    p.run ck mm m = (p.located ck mm).map fun
      | .ok h => match p.written with
        | none => (.ok (m.read h p.count), m)
        | some bs => (.ok [], m.write h bs)
      | .error e => (.error e, m) := by
  cases p with
  | readGuestMemory gpa size | readObj size gpa =>
    simp only [run, located, MemoryManager.readGuestMemory, Option.map_map]
    refine congrArg (Option.map · _) (funext fun r => ?_)
    cases r <;> rfl
  | writeGuestMemory code gpa | writeObj code gpa =>
    simp only [run, located, MemoryManager.writeGuestMemory, Option.map_map]
    refine congrArg (Option.map · _) (funext fun r => ?_)
    cases r <;> rfl
  | load T addr =>
    simp only [run, located, MemoryManager.load]
    cases mm.locateAtomic addr MemoryPerms.read .notReadable with
    | error e => rfl
    | ok h => exact congrArg (fun bs => some (Except.ok bs, m)) (Mem.leBytes_word m h T.bytes)
  | store T val addr =>
    simp only [run, located, MemoryManager.store]
    cases mm.locateAtomic addr MemoryPerms.write .readOnly with
    | error e => rfl
    | ok h =>
      have hn : T.bits / 8 = T.bytes := by unfold AtomicType.bits; omega
      simp only [Mem.putWord, hn]
      rfl

/-! ## Inside the region -/

/-- All bytes that the access reads or writes, if it is let through, belong to the
region that contains its start address. -/
def Inside (ck : Bool) (mm : MemoryManager) (p : Path) : Prop :=
  ∀ h, p.located ck mm = some (.ok h) → ∃ r hpa, mm.findRegion p.addr = some r ∧ r.hpa = some hpa ∧
    ∀ i < p.count, hpa ≤ h + i ∧ h + i < hpa + r.size.toNat

/-- The access ends in the region of its start address, if that serves the access; or
it is not one to a word, and the build checks for overflow or its end is an address. -/
def Bounded (ck : Bool) (mm : MemoryManager) (p : Path) : Prop :=
  ∀ r, mm.findRegion p.addr = some r → p.allowed r.perms = true → r.hpa.isSome →
    p.addr.toNat + p.count ≤ r.gpa.toNat + r.size.toNat ∨
      p.isAtomic = false ∧ (ck = true ∨ p.addr.toNat + p.count < 2 ^ 64)

end Path

namespace Path

open MemoryManager

variable {ck : Bool} {mm : MemoryManager} {p : Path}

theorem count_lt (p : Path) : p.count < 2 ^ 63 := by
  cases p with
  | readGuestMemory gpa size => exact size.isLt
  | readObj size gpa => exact size.isLt
  | writeGuestMemory code gpa => exact code.fits
  | writeObj obj gpa => exact obj.fits
  | load T addr => exact T.bytes_le.trans_lt (by decide)
  | store T val addr => exact T.bytes_le.trans_lt (by decide)

/-- An access to a byte string or an object is located by its end. -/
theorem located_bytes (ck : Bool) (mm : MemoryManager) (hp : p.isAtomic = false) : ∃ denied,
    p.located ck mm = mm.locate ck p.addr p.count p.allowed denied := by
  cases p with
  | load T addr => cases hp
  | store T val addr => cases hp
  | readGuestMemory gpa size | readObj size gpa => exact ⟨.notReadable, rfl⟩
  | writeGuestMemory code gpa | writeObj code gpa => exact ⟨.readOnly, rfl⟩

/-- An access to a word is located by its start. -/
theorem located_atomic (ck : Bool) (mm : MemoryManager) (hp : p.isAtomic = true) : ∃ denied,
    p.located ck mm = some (mm.locateAtomic p.addr p.allowed denied) := by
  cases p with
  | load T addr => exact ⟨.notReadable, rfl⟩
  | store T val addr => exact ⟨.readOnly, rfl⟩
  | _ => cases hp

/-- The first byte of an access that is let through goes to the region of its address. -/
theorem region_of_located {h : Nat} (hl : p.located ck mm = some (.ok h)) : ∃ r hpa,
    mm.findRegion p.addr = some r ∧ p.allowed r.perms = true ∧ r.hpa = some hpa ∧
      h = hostAddr r hpa p.addr := by
  cases hp : p.isAtomic with
  | true =>
    obtain ⟨denied, he⟩ := located_atomic ck mm hp
    exact locateAtomic_eq_ok.mp (Option.some.inj (he.symm.trans hl))
  | false =>
    obtain ⟨denied, he⟩ := located_bytes ck mm hp
    obtain ⟨r, hpa, last, hf, -, -, ha, hh, e⟩ := locate_eq_ok.mp (he.symm.trans hl)
    exact ⟨r, hpa, hf, ha, hh, e⟩

/-- In a region that serves the access, an atomic word is let through, and so is an
access whose end, as the build computes it, is not beyond the region. -/
theorem located_of {r : MemoryRegion} {hpa : Nat} (hf : mm.findRegion p.addr = some r)
    (ha : p.allowed r.perms = true) (hh : r.hpa = some hpa)
    (hw : p.isAtomic = true ∨ ck = false ∧ 2 ^ 64 ≤ p.addr.toNat + p.count) :
    p.located ck mm = some (.ok (hostAddr r hpa p.addr)) := by
  cases hp : p.isAtomic with
  | true =>
    obtain ⟨denied, he⟩ := located_atomic ck mm hp
    rw [he]
    exact congrArg some (locateAtomic_eq_ok.mpr ⟨r, hpa, hf, ha, hh, rfl⟩)
  | false =>
    obtain ⟨rfl, hov⟩ := hw.resolve_left (by simp [hp])
    obtain ⟨denied, he⟩ := located_bytes false mm hp
    rw [he]
    refine locate_eq_ok.mpr ⟨r, hpa, _, hf, if_pos (.inr rfl), ?_, ha, hh, rfl⟩
    have hc := findRegion_contains hf
    have hn := p.count_lt
    have := p.addr.isLt
    rw [BitVec.lt_def, r.toNat_lastAddr, BitVec.toNat_add, BitVec.toNat_ofNat]
    omega

/-- The bytes from the host address of the first one on lie in the region exactly if
its addresses do. -/
theorem range_iff {r : MemoryRegion} (hpa n : Nat) (hf : mm.findRegion p.addr = some r) :
    (∀ i < n, hpa ≤ hostAddr r hpa p.addr + i ∧ hostAddr r hpa p.addr + i < hpa + r.size.toNat) ↔
      p.addr.toNat + n ≤ r.gpa.toNat + r.size.toNat := by
  have hc := findRegion_contains hf
  unfold hostAddr
  constructor
  · intro h
    by_contra hlt
    have := h (r.gpa.toNat + r.size.toNat - p.addr.toNat) (by omega)
    omega
  · intro h i hi
    omega

/-- What an access that is let through reads or writes lies in the region of its start
address, if and only if the access is bounded. -/
theorem access_in_region_iff (ck : Bool) (mm : MemoryManager) (p : Path) :
    p.Inside ck mm ↔ p.Bounded ck mm := by
  constructor
  · intro hin r hf ha hs
    obtain ⟨hpa, hh⟩ := Option.isSome_iff_exists.mp hs
    by_contra hno
    obtain ⟨hle, hov⟩ := not_or.mp hno
    have hw : p.isAtomic = true ∨ ck = false ∧ 2 ^ 64 ≤ p.addr.toNat + p.count := by
      cases hp : p.isAtomic with
      | true => exact .inl rfl
      | false =>
        obtain ⟨hck, hlt⟩ := not_or.mp fun h => hov ⟨hp, h⟩
        exact .inr ⟨Bool.eq_false_iff.mpr hck, Nat.not_lt.mp hlt⟩
    obtain ⟨r', hpa', hf', hh', hi⟩ := hin _ (located_of hf ha hh hw)
    obtain rfl := Option.some.inj (hf.symm.trans hf')
    obtain rfl := Option.some.inj (hh.symm.trans hh')
    exact hle ((range_iff hpa p.count hf).mp hi)
  · intro hb h hl
    obtain ⟨r, hpa, hf, ha, hh, rfl⟩ := region_of_located hl
    refine ⟨r, hpa, hf, hh, (range_iff hpa p.count hf).mpr ?_⟩
    rcases hb r hf ha (by rw [hh]; rfl) with hle | ⟨hp, hov⟩
    · exact hle
    · obtain ⟨denied, he⟩ := located_bytes ck mm hp
      rw [he] at hl
      have hlt : p.addr.toNat + p.count < 2 ^ 64 := by
        rcases hov with rfl | hlt
        · exact lt_of_locate_checked (by have := p.count_lt; omega) hl
        · exact hlt
      obtain ⟨r', hpa', hf', -, -, -, hend⟩ := (locate_eq_ok_of_lt hlt).mp hl
      obtain rfl := Option.some.inj (hf.symm.trans hf')
      exact hend.le

end Path

/-- A queue whose available ring the guest has put at the end of the RAM, at an odd
address. -/
def endQueue : Queue := { smallQueue with availRing := 0xfffd }

/-- `avail_idx` loads the last byte of the RAM and the byte after it. -/
theorem access_outside : endQueue.availIdx = (do
      let r ← VProg.load 0xffff
      pure (Except.mapError QueueError.guestMemory r)) ∧
    smallRam.load 16 0xffff (fun a => if a = 0x10000 then 7 else 0) = .ok 0x700 ∧
    ¬ (Path.load .u16 0xffff).Inside true smallRam := by
  refine ⟨rfl, by decide +kernel, fun h => ?_⟩
  obtain ⟨r, hpa, hf, hh, hi⟩ := h 0xffff (by decide +kernel)
  have hr : (smallRam.findRegion 0xffff).map (fun r => (r.hpa, r.size)) = some (some 0, 0x10000) := by
    decide +kernel
  rw [show smallRam.findRegion 0xffff = some r from hf, Option.map_some] at hr
  obtain ⟨hr, hsize⟩ := Prod.mk.inj (Option.some.inj hr)
  obtain rfl := Option.some.inj (hh.symm.trans hr)
  have := (hi 1 (by decide)).2
  rw [hsize] at this
  exact absurd this (by decide)

/-! ## The ranges accepted -/

/-- Why `read_memory` of a partition fails. -/
inductive ReadError
  | memory (e : MemoryError)
  /-- A violation of the region's permissions by a read of `accessSize` bytes. -/
  | violation (gpa : GuestAddress) (accessSize : BitVec 32)
deriving DecidableEq, Repr

namespace MemoryManager

/-- `Partition::read_memory`. -/
def readMemory (ck : Bool) (mm : MemoryManager) (gpa : GuestAddress) (size : Nat) (m : Mem) :
    Option (Except ReadError (List Byte)) :=
  match mm.findRegion gpa with
  | none => some (.error (.memory .notAllocated))
  | some r =>
    match plainAdd ck gpa (BitVec.ofNat 64 size) with
    | none => none
    | some last =>
      if r.lastAddr < last then some (.error (.memory .exceeds))
      else if !r.perms.read then some (.error (.violation gpa (BitVec.ofNat 32 size)))
      else match r.hpa with
        | none => some (.error (.memory .noHostAddress))
        | some hpa => some (.ok (m.read (hostAddr r hpa gpa) size))

variable (ck : Bool) (mm : MemoryManager) (gpa : GuestAddress) (n : Nat)

def ReadAccepts : Prop := ∀ m, ∃ bs, mm.readGuestMemory ck gpa n m = some (.ok bs)

def WriteAccepts : Prop :=
  ∀ code : List Byte, code.length = n → ∀ m, ∃ m', mm.writeGuestMemory ck code gpa m = some (.ok (), m')

/-- The buffer of `n` bytes at `gpa`, as a descriptor's. -/
def SliceAccepts : Prop := ∃ r, mm.findRegion gpa = some r ∧
  ∃ vs, r.getSlice (gpa.toNat - r.startAddr.toNat) n = .ok vs

/-- The range lies in a region. -/
def Fits : Prop := ∃ r ∈ mm.regions, r.gpa.toNat ≤ gpa.toNat ∧
  gpa.toNat < r.gpa.toNat + r.size.toNat ∧ gpa.toNat + n ≤ r.gpa.toNat + r.size.toNat

/-- All regions are readable, writable and backed. -/
def Usable : Prop := ∀ r ∈ mm.regions, r.perms.read = true ∧ r.perms.write = true ∧ r.hpa.isSome

variable {ck mm gpa n}

/-- The bound of the paths for byte strings. -/
theorem locate_accepts_iff (hu : mm.Usable) (hn : gpa.toNat + n < 2 ^ 64)
    {allowed : MemoryPerms → Bool} {denied : MemoryError}
    (ha : ∀ p : MemoryPerms, p.read = true → p.write = true → allowed p = true) :
    (∃ h, mm.locate ck gpa n allowed denied = some (.ok h)) ↔
      ∃ r, mm.findRegion gpa = some r ∧ gpa.toNat + n < r.gpa.toNat + r.size.toNat := by
  constructor
  · rintro ⟨h, hl⟩
    obtain ⟨r, hpa, hf, -, -, -, hlt⟩ := (locate_eq_ok_of_lt hn).mp hl
    exact ⟨r, hf, hlt⟩
  · rintro ⟨r, hf, hlt⟩
    obtain ⟨hr, hw, hs⟩ := hu r (mem_of_findRegion hf)
    obtain ⟨hpa, hh⟩ := Option.isSome_iff_exists.mp hs
    exact ⟨_, (locate_eq_ok_of_lt hn).mpr ⟨r, hpa, hf, ha _ hr hw, hh, rfl, hlt⟩⟩

theorem readAccepts_iff (hu : mm.Usable) (hn : gpa.toNat + n < 2 ^ 64) : mm.ReadAccepts ck gpa n ↔
    ∃ r, mm.findRegion gpa = some r ∧ gpa.toNat + n < r.gpa.toNat + r.size.toNat := by
  rw [← locate_accepts_iff hu hn fun p hr _ => hr]
  constructor
  · intro h
    obtain ⟨bs, hb⟩ := h fun _ => 0
    obtain ⟨l, hl, e⟩ := Option.map_eq_some_iff.mp hb
    cases l with
    | error err => cases e
    | ok h => exact ⟨h, hl⟩
  · rintro ⟨h, hl⟩ m
    exact ⟨_, by rw [readGuestMemory, hl]; rfl⟩

theorem writeAccepts_iff (hu : mm.Usable) (hn : gpa.toNat + n < 2 ^ 64) : mm.WriteAccepts ck gpa n ↔
    ∃ r, mm.findRegion gpa = some r ∧ gpa.toNat + n < r.gpa.toNat + r.size.toNat := by
  rw [← locate_accepts_iff hu hn fun p _ hw => hw]
  constructor
  · intro h
    obtain ⟨m', hw⟩ := h (List.replicate n 0) List.length_replicate fun _ => 0
    obtain ⟨l, hl, e⟩ := Option.map_eq_some_iff.mp hw
    rw [List.length_replicate] at hl
    cases l with
    | error err => cases (Prod.mk.inj e).1
    | ok h => exact ⟨h, hl⟩
  · rintro ⟨h, hl⟩ code rfl m
    exact ⟨_, by rw [writeGuestMemory, hl]; rfl⟩

/-- The bound of the buffers. -/
theorem sliceAccepts_iff (hu : mm.Usable) : mm.SliceAccepts gpa n ↔
    ∃ r, mm.findRegion gpa = some r ∧ gpa.toNat + n ≤ r.gpa.toNat + r.size.toNat := by
  refine exists_congr fun r => and_congr_right fun hf => ?_
  have hc := findRegion_contains hf
  have hfits := r.fits
  obtain ⟨hpa, hh⟩ := Option.isSome_iff_exists.mp (hu r (mem_of_findRegion hf)).2.2
  unfold MemoryRegion.getSlice
  simp only [MemoryRegion.startAddr, MemoryRegion.len, hh]
  constructor
  · rintro ⟨vs, h⟩
    split at h
    · cases h
    split at h
    · cases h
    omega
  · intro h
    rw [if_neg (by omega), if_neg (by omega)]
    exact ⟨_, rfl⟩

theorem fits_iff (hd : mm.Disjoint) : mm.Fits gpa n ↔
    ∃ r, mm.findRegion gpa = some r ∧ gpa.toNat + n ≤ r.gpa.toNat + r.size.toNat := by
  refine exists_congr fun r => ⟨?_, ?_⟩
  · rintro ⟨hr, hlo, hhi, hle⟩
    exact ⟨findRegion_of_mem hd hr ⟨hlo, hhi⟩, hle⟩
  · rintro ⟨hf, hle⟩
    obtain ⟨hlo, hhi⟩ := findRegion_contains hf
    exact ⟨mem_of_findRegion hf, hlo, hhi, hle⟩

/-- The paths accept the same ranges, those that lie in a region, if and only if the
range does not end right at the end of the region it starts in. -/
theorem paths_agree_iff (hd : mm.Disjoint) (hu : mm.Usable) (hn : gpa.toNat + n < 2 ^ 64) :
    ((mm.ReadAccepts ck gpa n ↔ mm.WriteAccepts ck gpa n) ∧
      (mm.WriteAccepts ck gpa n ↔ mm.SliceAccepts gpa n) ∧ (mm.SliceAccepts gpa n ↔ mm.Fits gpa n)) ↔
    ∀ r, mm.findRegion gpa = some r → gpa.toNat + n ≠ r.gpa.toNat + r.size.toNat := by
  rw [readAccepts_iff hu hn, writeAccepts_iff hu hn, sliceAccepts_iff hu, fits_iff hd]
  constructor
  · rintro ⟨-, h, -⟩ r hf he
    obtain ⟨r', hf', hlt⟩ := h.mpr ⟨r, hf, he.le⟩
    obtain rfl := Option.some.inj (hf.symm.trans hf')
    exact hlt.ne he
  · intro h
    refine ⟨Iff.rfl, exists_congr fun r => and_congr_right fun hf => ?_, Iff.rfl⟩
    exact ⟨le_of_lt, fun hle => lt_of_le_of_ne hle (h r hf)⟩

/-- A partition reads what its memory manager reads. -/
theorem readMemory_eq_ok {m : Mem} {bs : List Byte} :
    mm.readMemory ck gpa n m = some (.ok bs) ↔ mm.readGuestMemory ck gpa n m = some (.ok bs) := by
  unfold readMemory readGuestMemory locate
  cases mm.findRegion gpa with
  | none => simp
  | some r =>
    cases plainAdd ck gpa (BitVec.ofNat 64 n) with
    | none => simp
    | some last =>
      simp only
      split
      · simp
      split
      · simp
      cases r.hpa with
      | none => simp
      | some hpa => simp

theorem usable_smallRam : smallRam.Usable := by
  intro r hr
  rw [show smallRam.regions = [_] from regions_small (by decide)] at hr
  obtain rfl := List.mem_singleton.mp hr
  exact ⟨rfl, rfl, rfl⟩

theorem disjoint_smallRam : smallRam.Disjoint := disjoint_allocated

theorem paths_agree_iff_inner : (smallRam.ReadAccepts true 0x1000 16 ↔ smallRam.WriteAccepts true 0x1000 16) ∧
    (smallRam.WriteAccepts true 0x1000 16 ↔ smallRam.SliceAccepts 0x1000 16) ∧
    (smallRam.SliceAccepts 0x1000 16 ↔ smallRam.Fits 0x1000 16) := by
  refine (paths_agree_iff disjoint_smallRam usable_smallRam (by decide)).mpr fun r hf he => ?_
  have hr : (smallRam.findRegion 0x1000).map (fun r => r.gpa.toNat + r.size.toNat) = some 0x10000 := by
    decide +kernel
  rw [hf, Option.map_some] at hr
  rw [Option.some.inj hr] at he
  exact absurd he (by decide)

/-- The last 16 bytes of the RAM: a buffer there is accepted, a read is not. -/
theorem paths_disagree : smallRam.SliceAccepts 0xfff0 16 ∧ ¬ smallRam.ReadAccepts true 0xfff0 16 ∧
    ¬ ((smallRam.ReadAccepts true 0xfff0 16 ↔ smallRam.WriteAccepts true 0xfff0 16) ∧
      (smallRam.WriteAccepts true 0xfff0 16 ↔ smallRam.SliceAccepts 0xfff0 16) ∧
      (smallRam.SliceAccepts 0xfff0 16 ↔ smallRam.Fits 0xfff0 16)) := by
  have hr : (smallRam.findRegion 0xfff0).map (fun r => r.gpa.toNat + r.size.toNat) = some 0x10000 := by
    decide +kernel
  obtain ⟨r, hf, hend⟩ := Option.map_eq_some_iff.mp hr
  have hs : smallRam.SliceAccepts 0xfff0 16 :=
    (sliceAccepts_iff usable_smallRam).mpr ⟨r, hf, by rw [hend]; decide⟩
  have hn : ¬ smallRam.ReadAccepts true 0xfff0 16 := by
    rw [readAccepts_iff usable_smallRam (by decide)]
    rintro ⟨r', hf', hlt⟩
    obtain rfl := Option.some.inj (hf.symm.trans hf')
    rw [hend] at hlt
    exact absurd hlt (by decide)
  exact ⟨hs, hn, fun h => hn (h.1.mpr (h.2.1.mpr hs))⟩

end MemoryManager

end Whypa
