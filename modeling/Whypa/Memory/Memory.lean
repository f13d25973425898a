import Whypa.Framework.Arith
import Whypa.Framework.Bytes
import Whypa.Framework.Prog

/-!
# Guest memory

`MemoryManager` maps guest physical addresses to host addresses through a table
of regions. The four ways to access guest memory of `memory.rs`
(`readGuestMemory`, `writeGuestMemory`, `load` and `store`) look the region up
by the first byte of the access; the byte strings must end before the region's
last byte, the atomic words are not checked against its end.

`Access` and `MemoryManager.handler` present these operations as accesses of a
program (`Framework.Prog`) to the host's memory.
-/

namespace Whypa

open Framework

/-- A guest physical address. -/
abbrev GuestAddress := BitVec 64

/-- The permission flags of a region. -/
structure MemoryPerms where
  read : Bool
  write : Bool
  execute : Bool
deriving DecidableEq, Repr

def MemoryPerms.RWX : MemoryPerms := ⟨true, true, true⟩

/-- A range of guest addresses and the host address that backs it. Only
non-empty ranges inside the address space are registered. -/
structure MemoryRegion where
  gpa : GuestAddress
  size : BitVec 64
  perms : MemoryPerms
  hpa : Option Nat
  size_pos : 0 < size.toNat
  fits : gpa.toNat + size.toNat ≤ 2 ^ 64

namespace MemoryRegion

def len (r : MemoryRegion) : BitVec 64 := r.size

def startAddr (r : MemoryRegion) : GuestAddress := r.gpa

def lastAddr (r : MemoryRegion) : GuestAddress := r.gpa + (r.size - 1)

theorem toNat_lastAddr (r : MemoryRegion) : r.lastAddr.toNat = r.gpa.toNat + r.size.toNat - 1 := by
  have h0 := r.size_pos
  have h1 := r.fits
  have hs : (r.size - 1).toNat = r.size.toNat - 1 :=
    BitVec.toNat_sub_of_le (by rw [BitVec.le_def]; exact h0)
  rw [lastAddr, BitVec.toNat_add_of_lt (by omega), hs]
  omega

/-- The region contains the address `gpa`. -/
def contains (r : MemoryRegion) (gpa : GuestAddress) : Bool :=
  r.startAddr ≤ gpa && gpa ≤ r.lastAddr

theorem contains_iff {r : MemoryRegion} {gpa : GuestAddress} :
    r.contains gpa ↔ r.gpa.toNat ≤ gpa.toNat ∧ gpa.toNat < r.gpa.toNat + r.size.toNat := by
  have h0 := r.size_pos
  simp only [contains, startAddr, Bool.and_eq_true, decide_eq_true_eq, BitVec.le_def,
    toNat_lastAddr]
  omega

end MemoryRegion

/-- Why an access to guest memory was rejected. -/
inductive MemoryError
  /-- "Memory not allocated" -/
  | notAllocated
  /-- "Code exceeds allocated memory", "Read exceeds allocated memory" -/
  | exceeds
  /-- "Memory is read-only" -/
  | readOnly
  /-- "Memory is not readable" -/
  | notReadable
  /-- "Region has no host physical address" -/
  | noHostAddress
deriving DecidableEq, Repr

/-- The table of guest memory regions. -/
structure MemoryManager where
  regions : List MemoryRegion

namespace MemoryManager

/-- The region that contains `gpa`. -/
def findRegion (mm : MemoryManager) (gpa : GuestAddress) : Option MemoryRegion :=
  mm.regions.find? fun r => r.contains gpa

def addressInRange (mm : MemoryManager) (addr : GuestAddress) : Bool := (mm.findRegion addr).isSome

theorem findRegion_contains {mm : MemoryManager} {gpa : GuestAddress} {r : MemoryRegion}
    (h : mm.findRegion gpa = some r) :
    r.gpa.toNat ≤ gpa.toNat ∧ gpa.toNat < r.gpa.toNat + r.size.toNat := by
  have hc := List.find?_some h
  exact MemoryRegion.contains_iff.mp hc

variable (ck : Bool) (mm : MemoryManager)

/-- The host address that backs `gpa` in the region `r`. -/
def hostAddr (r : MemoryRegion) (hpa : Nat) (gpa : GuestAddress) : Nat :=
  hpa + (gpa.toNat - r.gpa.toNat)

/-- The check common to reading and writing `n` bytes at `gpa`; `some (.ok h)`
is the host address of the first one. -/
def locate (gpa : GuestAddress) (n : Nat) (allowed : MemoryPerms → Bool) (denied : MemoryError) :
    Option (Except MemoryError Nat) :=
  match mm.findRegion gpa with
  | none => some (.error .notAllocated)
  | some r =>
    match plainAdd ck gpa (BitVec.ofNat 64 n) with
    | none => none
    | some last =>
      if r.lastAddr < last then some (.error .exceeds)
      else if !allowed r.perms then some (.error denied)
      else match r.hpa with
        | none => some (.error .noHostAddress)
        | some hpa => some (.ok (hostAddr r hpa gpa))

def writeGuestMemory (code : List Byte) (gpa : GuestAddress) (m : Mem) :
    Option (Except MemoryError Unit × Mem) :=
  (mm.locate ck gpa code.length MemoryPerms.write .readOnly).map fun
    | .ok h => (.ok (), m.write h code)
    | .error e => (.error e, m)

def readGuestMemory (gpa : GuestAddress) (size : Nat) (m : Mem) :
    Option (Except MemoryError (List Byte)) :=
  (mm.locate ck gpa size MemoryPerms.read .notReadable).map fun
    | .ok h => .ok (m.read h size)
    | .error e => .error e

/-- The host address an atomic access at `addr` goes to: only its first byte is
looked up. -/
def locateAtomic (addr : GuestAddress) (allowed : MemoryPerms → Bool) (denied : MemoryError) :
    Except MemoryError Nat :=
  match mm.findRegion addr with
  | none => .error .notAllocated
  | some r =>
    if !allowed r.perms then .error denied
    else match r.hpa with
      | none => .error .noHostAddress
      | some hpa => .ok (hostAddr r hpa addr)

/-- Store an integer of width `w` atomically. -/
def store {w : Nat} (val : BitVec w) (addr : GuestAddress) (m : Mem) : Except MemoryError Unit × Mem :=
  match mm.locateAtomic addr MemoryPerms.write .readOnly with
  | .ok h => (.ok (), m.putWord h val)
  | .error e => (.error e, m)

/-- Load an integer of width `w` atomically. -/
def load (w : Nat) (addr : GuestAddress) (m : Mem) : Except MemoryError (BitVec w) :=
  match mm.locateAtomic addr MemoryPerms.read .notReadable with
  | .ok h => .ok (m.word h w)
  | .error e => .error e

variable {ck mm} {gpa : GuestAddress} {n h : Nat} {allowed : MemoryPerms → Bool} {denied : MemoryError}

/-- What an access that is let through has passed. -/
theorem locate_eq_ok : mm.locate ck gpa n allowed denied = some (.ok h) ↔ ∃ r hpa last,
    mm.findRegion gpa = some r ∧ plainAdd ck gpa (BitVec.ofNat 64 n) = some last ∧
      ¬ r.lastAddr < last ∧ allowed r.perms = true ∧ r.hpa = some hpa ∧ h = hostAddr r hpa gpa := by
  constructor
  · intro hl
    unfold locate at hl
    split at hl
    · cases Option.some.inj hl
    rename_i r hf
    split at hl
    · cases hl
    rename_i last hlast
    split at hl
    · cases Option.some.inj hl
    rename_i hle
    split at hl
    · cases Option.some.inj hl
    rename_i ha
    split at hl
    · cases Option.some.inj hl
    rename_i hpa hh
    exact ⟨r, hpa, last, hf, hlast, hle, by simpa using ha, hh, (Except.ok.inj (Option.some.inj hl)).symm⟩
  · rintro ⟨r, hpa, last, hf, hlast, hle, ha, hh, rfl⟩
    simp only [locate, hf, hlast, hle, if_false, ha, hh]
    rfl

/-- What an access has passed whose end is an address. -/
theorem locate_eq_ok_of_lt (hn : gpa.toNat + n < 2 ^ 64) :
    mm.locate ck gpa n allowed denied = some (.ok h) ↔ ∃ r hpa, mm.findRegion gpa = some r ∧
      allowed r.perms = true ∧ r.hpa = some hpa ∧ h = hostAddr r hpa gpa ∧
      gpa.toNat + n < r.gpa.toNat + r.size.toNat := by
  have hn' : (BitVec.ofNat 64 n).toNat = n := by
    rw [BitVec.toNat_ofNat, Nat.mod_eq_of_lt (by omega)]
  have hadd : plainAdd ck gpa (BitVec.ofNat 64 n) = some (gpa + BitVec.ofNat 64 n) :=
    plainAdd_of_lt ck (by omega)
  have hle : ∀ r : MemoryRegion, ¬ r.lastAddr < gpa + BitVec.ofNat 64 n ↔
      gpa.toNat + n < r.gpa.toNat + r.size.toNat := fun r => by
    have := r.size_pos
    rw [BitVec.lt_def, BitVec.toNat_add_of_lt (by omega), r.toNat_lastAddr, hn']
    omega
  rw [locate_eq_ok]
  constructor
  · rintro ⟨r, hpa, last, hf, hlast, hl, ha, hh, he⟩
    rw [hadd] at hlast
    obtain rfl := Option.some.inj hlast
    exact ⟨r, hpa, hf, ha, hh, he, (hle r).mp hl⟩
  · rintro ⟨r, hpa, hf, ha, hh, he, hlt⟩
    exact ⟨r, hpa, _, hf, hadd, (hle r).mpr hlt, ha, hh, he⟩

/-- In a build that checks for overflow the end of an access is an address. -/
theorem lt_of_locate_checked (hn : n < 2 ^ 64) (hl : mm.locate true gpa n allowed denied = some (.ok h)) :
    gpa.toNat + n < 2 ^ 64 := by
  obtain ⟨r, hpa, last, -, hlast, -⟩ := locate_eq_ok.mp hl
  have := (plainAdd_eq_some hlast).1
  rwa [BitVec.toNat_ofNat, Nat.mod_eq_of_lt hn] at this

theorem locateAtomic_eq_ok : mm.locateAtomic gpa allowed denied = .ok h ↔ ∃ r hpa,
    mm.findRegion gpa = some r ∧ allowed r.perms = true ∧ r.hpa = some hpa ∧
      h = hostAddr r hpa gpa := by
  constructor
  · intro hl
    unfold locateAtomic at hl
    split at hl
    · cases hl
    rename_i r hf
    split at hl
    · cases hl
    rename_i ha
    split at hl
    · cases hl
    rename_i hpa hh
    exact ⟨r, hpa, hf, by simpa using ha, hh, (Except.ok.inj hl).symm⟩
  · rintro ⟨r, hpa, hf, ha, hh, rfl⟩
    simp only [locateAtomic, hf, ha, hh]
    rfl

end MemoryManager

/-! ## The guest's RAM -/

def MEM_32BIT_DEVICES_START : BitVec 64 := 0xc0000000
def MEM_32BIT_RESERVED_START : BitVec 64 := 0xfec00000
def RAM_64BIT_START : BitVec 64 := 0x100000000

/-- The regions registered for `total` bytes of RAM allocated at `source`: one
from address 0, and for a large RAM a second one above the 32-bit devices. -/
def allocateMemoryWithSize (total : BitVec 64) (source : Nat) (hpos : 0 < total.toNat)
    (hfits : 0x40000000 + total.toNat ≤ 2 ^ 64) : MemoryManager :=
  if h : total ≤ MEM_32BIT_RESERVED_START then
    ⟨[⟨0, total, .RWX, some source, hpos, by simpa using total.isLt.le⟩]⟩
  else
    have hlt : 0xfec00000 < total.toNat := by simpa [MEM_32BIT_RESERVED_START, BitVec.lt_def] using h
    have hsub : (total - MEM_32BIT_DEVICES_START).toNat = total.toNat - 0xc0000000 :=
      BitVec.toNat_sub_of_le (by rw [BitVec.le_def]; exact (show 0xc0000000 ≤ total.toNat by omega))
    ⟨[⟨0, MEM_32BIT_DEVICES_START, .RWX, some source, by decide, by decide⟩,
      ⟨RAM_64BIT_START, total - MEM_32BIT_DEVICES_START, .RWX,
        some (source + MEM_32BIT_DEVICES_START.toNat), by rw [hsub]; omega,
        by rw [hsub]; exact (show 0x100000000 + (total.toNat - 0xc0000000) ≤ 2 ^ 64 by omega)⟩]⟩

/-! ## Accesses of a program -/

/-- One access to guest memory, or an arithmetic overflow. -/
inductive Access
  | read (gpa : GuestAddress) (size : Nat)
  | write (bytes : List Byte) (gpa : GuestAddress)
  | load (addr : GuestAddress)
  | store (val : BitVec 16) (addr : GuestAddress)
  | overflow

/-- What each access answers. -/
abbrev Access.Answer : Access → Type
  | .read .. => Except MemoryError (List Byte)
  | .write .. => Except MemoryError Unit
  | .load _ => Except MemoryError (BitVec 16)
  | .store .. => Except MemoryError Unit
  | .overflow => Unit

/-- A program that accesses guest memory. -/
abbrev VProg := Prog Access Access.Answer

/-- What each access does to the host's memory; `ck` says whether the build
checks for overflow. -/
def MemoryManager.handler (ck : Bool) (mm : MemoryManager) : Handler Access Access.Answer Mem
  | .read gpa size, m => (mm.readGuestMemory ck gpa size m).map fun r => (r, m)
  | .write bytes gpa, m => mm.writeGuestMemory ck bytes gpa m
  | .load addr, m => some (mm.load 16 addr m, m)
  | .store val addr, m => some (mm.store val addr m)
  | .overflow, m => if ck then none else some ((), m)

namespace VProg

/-- `a + b` of the source. -/
def add {w : Nat} (a b : BitVec w) : VProg (BitVec w) :=
  if a.toNat + b.toNat < 2 ^ w then pure (a + b) else .access .overflow fun _ => pure (a + b)

/-- `a - b` of the source. -/
def sub {w : Nat} (a b : BitVec w) : VProg (BitVec w) :=
  if b ≤ a then pure (a - b) else .access .overflow fun _ => pure (a - b)

/-- `a * b` of the source. -/
def mul {w : Nat} (a b : BitVec w) : VProg (BitVec w) :=
  if a.toNat * b.toNat < 2 ^ w then pure (a * b) else .access .overflow fun _ => pure (a * b)

/-- `Result::unwrap`. -/
def unwrap {ε α : Type} : Except ε α → VProg α
  | .ok x => pure x
  | .error _ => .panic

def read (gpa : GuestAddress) (size : Nat) : VProg (Except MemoryError (List Byte)) :=
  Prog.access (Access.read gpa size) Prog.pure

def write (bytes : List Byte) (gpa : GuestAddress) : VProg (Except MemoryError Unit) :=
  Prog.access (Access.write bytes gpa) Prog.pure

def load (addr : GuestAddress) : VProg (Except MemoryError (BitVec 16)) :=
  Prog.access (Access.load addr) Prog.pure

def store (val : BitVec 16) (addr : GuestAddress) : VProg (Except MemoryError Unit) :=
  Prog.access (Access.store val addr) Prog.pure

theorem add_of_lt {w : Nat} {a b : BitVec w} (h : a.toNat + b.toNat < 2 ^ w) :
    add a b = pure (a + b) := if_pos h

theorem sub_of_le {w : Nat} {a b : BitVec w} (h : b ≤ a) : sub a b = pure (a - b) := if_pos h

theorem mul_of_lt {w : Nat} {a b : BitVec w} (h : a.toNat * b.toNat < 2 ^ w) :
    mul a b = pure (a * b) := if_pos h

@[simp] theorem unwrap_ok {ε α : Type} (x : α) : unwrap (.ok x : Except ε α) = pure x := rfl

end VProg

/-- Types with a fixed layout in memory, read back from their bytes. -/
class FromBytes (T : Type) where
  size : Nat
  ofBytes : List Byte → T

/-- Types with a fixed layout in memory, as their bytes. -/
class AsBytes (T : Type) where
  bytes : T → List Byte

instance : FromBytes (BitVec 16) := ⟨2, fun bs => BitVec.ofNat 16 (ofLE bs)⟩

def readObj (T : Type) [FromBytes T] (gpa : GuestAddress) : VProg (Except MemoryError T) := do
  let r ← VProg.read gpa (FromBytes.size T)
  pure (r.map FromBytes.ofBytes)

def writeObj {T : Type} [AsBytes T] (obj : T) (gpa : GuestAddress) : VProg (Except MemoryError Unit) :=
  VProg.write (AsBytes.bytes obj) gpa

end Whypa
