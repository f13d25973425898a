import Whypa.Framework.Splice
import Whypa.Memory.Memory

/-!
# System description tables

What the tables of the guest are built with: `SdtOps` is the builder of the
`acpi_tables` library, and `LawfulSdt` what the code relies on of it. The builder
keeps the length (bytes 4 to 7) and the checksum (byte 9) of a table by itself, so
that the laws are about the bytes from offset 10 on. `ByteSdt` is a builder that
keeps a table as its bytes.
-/

namespace Whypa

open Framework

/-- The bytes of an ASCII literal. -/
def ascii (s : String) : List Byte := s.toList.map fun c => BitVec.ofNat 8 c.toNat

instance {w : Nat} : AsBytes (BitVec w) := ⟨fun v => leBytes (w / 8) v.toNat⟩

@[simp] theorem length_bytes_bitVec {w : Nat} (v : BitVec w) : (AsBytes.bytes v).length = w / 8 :=
  length_leBytes ..

/-- A builder of tables. -/
class SdtOps (Sdt : Type) where
  new (signature : List Byte) (length : BitVec 32) (revision : Byte) (oemId oemTable : List Byte)
    (oemRevision : BitVec 32) : Sdt
  asSlice : Sdt → List Byte
  len : Sdt → Nat
  appendSlice : Sdt → List Byte → Sdt
  writeBytes : Sdt → Nat → List Byte → Sdt
  updateChecksum : Sdt → Sdt

namespace SdtOps

variable {Sdt : Type} [SdtOps Sdt] {T : Type} [AsBytes T]

/-- Appends the raw bytes of the value. -/
def append (t : Sdt) (value : T) : Sdt := appendSlice t (AsBytes.bytes value)

/-- Overwrites the bytes at the offset with the raw bytes of the value. -/
def write (t : Sdt) (offset : Nat) (value : T) : Sdt := writeBytes t offset (AsBytes.bytes value)

end SdtOps

open SdtOps

/-- What the code relies on of a builder. -/
class LawfulSdt (Sdt : Type) [SdtOps Sdt] : Prop where
  len_eq (t : Sdt) : len t = (asSlice t).length
  /-- A new table has the length asked for, with at least the header. -/
  length_new (signature : List Byte) (length : BitVec 32) (revision : Byte)
    (oemId oemTable : List Byte) (oemRevision : BitVec 32) (hsig : signature.length = 4)
    (hoem : oemId.length = 6) (htable : oemTable.length = 8) (hlen : 36 ≤ length.toNat) :
    (asSlice (new signature length revision oemId oemTable oemRevision : Sdt)).length = length.toNat
  length_appendSlice (t : Sdt) (bytes : List Byte) (h : 36 ≤ (asSlice t).length) :
    (asSlice (appendSlice t bytes)).length = (asSlice t).length + bytes.length
  drop_appendSlice (t : Sdt) (bytes : List Byte) (h : 36 ≤ (asSlice t).length) :
    (asSlice (appendSlice t bytes)).drop 10 = (asSlice t).drop 10 ++ bytes
  length_writeBytes (t : Sdt) (offset : Nat) (bytes : List Byte) (h10 : 10 ≤ offset)
    (h : offset + bytes.length ≤ (asSlice t).length) :
    (asSlice (writeBytes t offset bytes)).length = (asSlice t).length
  drop_writeBytes (t : Sdt) (offset : Nat) (bytes : List Byte) (h10 : 10 ≤ offset)
    (h : offset + bytes.length ≤ (asSlice t).length) :
    (asSlice (writeBytes t offset bytes)).drop 10 = (splice (asSlice t) offset bytes).drop 10
  length_updateChecksum (t : Sdt) (h : 36 ≤ (asSlice t).length) :
    (asSlice (updateChecksum t)).length = (asSlice t).length
  drop_updateChecksum (t : Sdt) (h : 36 ≤ (asSlice t).length) :
    (asSlice (updateChecksum t)).drop 10 = (asSlice t).drop 10

section
variable {Sdt : Type} [SdtOps Sdt] {t : Sdt} {n : Nat} {body : List Byte}

/-- The table is `n` bytes of header, and then `body`. -/
structure HasBody (t : Sdt) (n : Nat) (body : List Byte) : Prop where
  header : 36 ≤ n
  length : (asSlice t).length = n + body.length
  drop : (asSlice t).drop n = body

namespace HasBody

theorem of_length (hn : 36 ≤ n) (h : (asSlice t).length = n) : HasBody t n [] :=
  ⟨hn, h, List.drop_eq_nil_of_le h.le⟩

theorem slice_eq (h : HasBody t n body) (a k : Nat) : slice (asSlice t) (n + a) k = slice body a k := by
  rw [slice, ← List.drop_drop, h.drop, slice]

theorem drop_of_drop {t' : Sdt} {bytes : List Byte} (h : HasBody t n body)
    (hd : (asSlice t').drop 10 = (asSlice t).drop 10 ++ bytes) : (asSlice t').drop n = body ++ bytes := by
  have hn := h.header
  have hl := h.length
  rw [show n = 10 + (n - 10) by omega, ← List.drop_drop, hd, List.drop_append_of_le_length,
    List.drop_drop, show 10 + (n - 10) = n by omega, h.drop]
  rw [List.length_drop]
  omega

variable [LawfulSdt Sdt]

/-- What is appended comes at the end. -/
theorem appendSlice (h : HasBody t n body) (bytes : List Byte) :
    HasBody (SdtOps.appendSlice t bytes) n (body ++ bytes) := by
  have h36 : 36 ≤ (asSlice t).length := by rw [h.length]; exact h.header.trans (Nat.le_add_right ..)
  refine ⟨h.header, ?_, h.drop_of_drop (LawfulSdt.drop_appendSlice t bytes h36)⟩
  rw [LawfulSdt.length_appendSlice t bytes h36, h.length, List.length_append, Nat.add_assoc]

theorem append {T : Type} [AsBytes T] (h : HasBody t n body) (value : T) :
    HasBody (SdtOps.append t value) n (body ++ AsBytes.bytes value) := h.appendSlice _

theorem foldl_append {α T : Type} [AsBytes T] (f : α → T) (l : List α) (h : HasBody t n body) :
    HasBody (l.foldl (fun t x => SdtOps.append t (f x)) t) n
      (body ++ l.flatMap fun x => AsBytes.bytes (f x)) := by
  induction l generalizing t body with
  | nil => simpa using h
  | cons x l ih =>
    rw [List.foldl_cons, List.flatMap_cons, ← List.append_assoc]
    exact ih (h.append (f x))

theorem updateChecksum (h : HasBody t n body) : HasBody (SdtOps.updateChecksum t) n body := by
  have h36 : 36 ≤ (asSlice t).length := by rw [h.length]; exact h.header.trans (Nat.le_add_right ..)
  refine ⟨h.header, (LawfulSdt.length_updateChecksum t h36).trans h.length, ?_⟩
  have hd : (asSlice (SdtOps.updateChecksum t)).drop 10 = (asSlice t).drop 10 ++ [] := by
    rw [LawfulSdt.drop_updateChecksum t h36, List.append_nil]
  rw [h.drop_of_drop hd, List.append_nil]

end HasBody

namespace LawfulSdt

variable [LawfulSdt Sdt] {bytes : List Byte} {offset a k : Nat}

theorem slice_writeBytes_self (h10 : 10 ≤ offset)
    (h : offset + bytes.length ≤ (asSlice t).length) :
    slice (asSlice (writeBytes t offset bytes)) offset bytes.length = bytes := by
  rw [slice_congr (drop_writeBytes t offset bytes h10 h) h10, slice_splice_self h]

theorem slice_writeBytes_sep (h10 : 10 ≤ offset) (h : offset + bytes.length ≤ (asSlice t).length)
    (ha : 10 ≤ a) (hs : a + k ≤ offset ∨ offset + bytes.length ≤ a) :
    slice (asSlice (writeBytes t offset bytes)) a k = slice (asSlice t) a k := by
  rw [slice_congr (drop_writeBytes t offset bytes h10 h) ha, slice_splice_sep h hs]

theorem slice_updateChecksum (h : 36 ≤ (asSlice t).length) (ha : 10 ≤ a) :
    slice (asSlice (updateChecksum t)) a k = slice (asSlice t) a k :=
  slice_congr (drop_updateChecksum t h) ha

/-- Writes inside the table keep its length. -/
theorem length_foldl_writeBytes (ws : List (Nat × List Byte))
    (h : ∀ w ∈ ws, 10 ≤ w.1 ∧ w.1 + w.2.length ≤ (asSlice t).length) :
    (asSlice (ws.foldl (fun t w => writeBytes t w.1 w.2) t)).length = (asSlice t).length := by
  induction ws generalizing t with
  | nil => rfl
  | cons w ws ih =>
    obtain ⟨⟨h10, hw⟩, h⟩ := List.forall_mem_cons.mp h
    have hl := length_writeBytes t w.1 w.2 h10 hw
    rw [List.foldl_cons, ih (by rwa [hl]), hl]

end LawfulSdt

end

/-! ## Tables as bytes -/

/-- A table as its bytes. -/
structure ByteSdt where
  data : List Byte

namespace ByteSdt

/-- The byte that makes the sum of all bytes zero. -/
def generateChecksum (data : List Byte) : Byte := 0 - data.foldl (· + ·) 0

def setChecksum (data : List Byte) : List Byte :=
  (data.set 9 0).set 9 (generateChecksum (data.set 9 0))

def header (signature : List Byte) (length : BitVec 32) (revision : Byte) (oemId oemTable : List Byte)
    (oemRevision : BitVec 32) : List Byte :=
  signature ++ AsBytes.bytes length ++ [revision, 0] ++ oemId ++ oemTable ++
    AsBytes.bytes oemRevision ++ ascii "RVAT" ++ [0, 0, 0, 1]

instance : SdtOps ByteSdt where
  new signature length revision oemId oemTable oemRevision :=
    ⟨setChecksum (header signature length revision oemId oemTable oemRevision ++
      List.replicate (length.toNat - 36) 0)⟩
  asSlice t := t.data
  len t := t.data.length
  appendSlice t bytes := ⟨setChecksum (splice (t.data ++ bytes) 4
    (AsBytes.bytes (BitVec.ofNat 32 (t.data.length + bytes.length))))⟩
  writeBytes t offset bytes := ⟨setChecksum (splice t.data offset bytes)⟩
  updateChecksum t := ⟨setChecksum t.data⟩

@[simp] theorem length_setChecksum (data : List Byte) : (setChecksum data).length = data.length := by
  simp [setChecksum]

theorem drop_setChecksum (data : List Byte) : (setChecksum data).drop 10 = data.drop 10 := by
  rw [setChecksum, List.drop_set_of_lt (by omega), List.drop_set_of_lt (by omega)]

/-- The length field is in the header. -/
theorem lengthField_fits {t : ByteSdt} {bytes : List Byte} (h : 36 ≤ t.data.length) :
    4 + (AsBytes.bytes (BitVec.ofNat 32 (t.data.length + bytes.length))).length ≤
      (t.data ++ bytes).length := by
  rw [length_bytes_bitVec, List.length_append]
  omega

instance : LawfulSdt ByteSdt where
  len_eq _ := rfl
  length_new signature length revision oemId oemTable oemRevision hsig hoem htable hlen := by
    have hrvat : (ascii "RVAT").length = 4 := by decide
    simp only [asSlice, new, length_setChecksum, header, List.length_append, length_bytes_bitVec,
      List.length_cons, List.length_nil, List.length_replicate, hsig, hoem, htable, hrvat]
    omega
  length_appendSlice t bytes h := by
    simp only [asSlice, appendSlice, length_setChecksum]
    rw [length_splice (lengthField_fits h), List.length_append]
  drop_appendSlice t bytes h := by
    simp only [asSlice, appendSlice, drop_setChecksum]
    rw [drop_splice_of_le (lengthField_fits h) (by rw [length_bytes_bitVec]; decide)]
    exact List.drop_append_of_le_length (le_trans (by decide) h)
  length_writeBytes t offset bytes _ h := by
    simp only [asSlice, writeBytes, length_setChecksum]
    exact length_splice h
  drop_writeBytes t offset bytes _ _ := drop_setChecksum _
  length_updateChecksum t _ := length_setChecksum _
  drop_updateChecksum t _ := drop_setChecksum _

end ByteSdt

end Whypa
