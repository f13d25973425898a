import Whypa.Framework.Arith
import Whypa.Framework.Bits
import Whypa.Framework.Bytes

/-!
# Copies between slices and buffers

The copy loop of the `vm-memory` crate (`volatile_memory.rs`), which the guest may
look at while it runs: accesses of eight, four, two and one bytes, as large as the
alignment of both sides allows. It copies the bytes, with accesses that are aligned,
lie end to end and stay within them, and a value of eight, four or two bytes that
is aligned on both sides is copied whole (`copy_slice`).
-/

namespace Whypa.VmMemory

open Framework

/-- The largest value that the address is aligned to. -/
def alignment (ck : Bool) (addr : BitVec 64) : Option (BitVec 64) :=
  (plainAdd ck (~~~addr) 1).map fun x => addr &&& x

/-- A volatile read and a volatile write of one value. -/
structure Single where
  align : Nat
  src : BitVec 64
  dst : BitVec 64
deriving DecidableEq, Repr

/-- The state of a copy, with the accesses that were made. -/
structure Copy where
  mem : Mem
  dst : BitVec 64
  src : BitVec 64
  left : Nat
  singles : List Single

def copySingle (align : Nat) (s : Copy) : Copy :=
  { s with
    mem := s.mem.write s.dst.toNat (s.mem.read s.src.toNat align)
    singles := s.singles ++ [⟨align, s.src, s.dst⟩] }

/-- The pointers behind the access. A pointer that leaves the addresses is undefined (`none`). -/
def advance (minAlign : Nat) (s : Copy) : Option Copy := do
  let src ← checkedAdd s.src (BitVec.ofNat 64 minAlign)
  let dst ← checkedAdd s.dst (BitVec.ofNat 64 minAlign)
  some { s with src := src, dst := dst }

/-- The loop for one size. -/
def copyLoop (minAlign : Nat) : Nat → Copy → Option Copy
  | 0, s => some s
  | n + 1, s =>
    if minAlign ≤ s.left then
      let s := { copySingle minAlign s with left := s.left - minAlign }
      if s.left = 0 then some s else (advance minAlign s).bind (copyLoop minAlign n)
    else some s

/-- An iteration takes a byte at least, so there are `left` of them at most. -/
def copyAlignedSlice (align : BitVec 64) (minAlign : Nat) (s : Copy) : Option Copy :=
  if align.toNat < minAlign then some s else copyLoop minAlign s.left s

def copySliceVolatile (ck : Bool) (dst src : BitVec 64) (total : Nat) (m : Mem) : Option Copy := do
  let a ← alignment ck src
  let b ← alignment ck dst
  let align := if a ≤ b then a else b
  let s ← copyAlignedSlice align 8 ⟨m, dst, src, total, []⟩
  let s ← copyAlignedSlice align 4 s
  let s ← copyAlignedSlice align 2 s
  copyAlignedSlice align 1 s

/-- A copy: what a register holds goes through the loop, more is left to the library. -/
def copySlice (ck : Bool) (dst src : BitVec 64) (total : Nat) (m : Mem) : Option Mem :=
  if total ≤ 8 then (copySliceVolatile ck dst src total m).map Copy.mem
  else some (m.write dst.toNat (m.read src.toNat total))

/-- The accesses start at `src` and `dst`, and each begins where the one before ends. -/
def EndToEnd : Nat → Nat → List Single → Prop
  | _, _, [] => True
  | src, dst, x :: l => x.src.toNat = src ∧ x.dst.toNat = dst ∧
    EndToEnd (src + x.align) (dst + x.align) l

def copied (l : List Single) : Nat := (l.map Single.align).sum

theorem endToEnd_concat {src dst : Nat} {l : List Single} {x : Single} (h : EndToEnd src dst l)
    (hs : x.src.toNat = src + copied l) (hd : x.dst.toNat = dst + copied l) :
    EndToEnd src dst (l ++ [x]) := by
  induction l generalizing src dst with
  | nil => exact ⟨hs, hd, trivial⟩
  | cons y l ih =>
    have hsum : copied (y :: l) = y.align + copied l := rfl
    exact ⟨h.1, h.2.1, ih h.2.2 (by omega) (by omega)⟩

/-- The access is of a size that there is, and aligned on both sides. -/
def Single.Aligned (x : Single) : Prop :=
  x.align ∈ [8, 4, 2, 1] ∧ x.align ∣ x.src.toNat ∧ x.align ∣ x.dst.toNat

/-- The part of the bytes that is no longer left is copied. -/
structure Copy.Part (m : Mem) (dst src total : Nat) (s : Copy) : Prop where
  left_le : s.left ≤ total
  mem_eq : s.mem = m.write dst (m.read src (total - s.left))
  src_eq : 0 < s.left → s.src.toNat = src + (total - s.left)
  dst_eq : 0 < s.left → s.dst.toNat = dst + (total - s.left)
  endToEnd : EndToEnd src dst s.singles
  copied_eq : copied s.singles = total - s.left
  aligned : ∀ x ∈ s.singles, x.Aligned

section
variable {m : Mem} {dst src total k n : Nat} {s : Copy}

theorem advance_eq (s : Copy) (hs : s.src.toNat + (BitVec.ofNat 64 k).toNat < 2 ^ 64)
    (hd : s.dst.toNat + (BitVec.ofNat 64 k).toNat < 2 ^ 64) : advance k s =
      some { s with src := s.src + BitVec.ofNat 64 k, dst := s.dst + BitVec.ofNat 64 k } := by
  rw [advance, checkedAdd_of_lt hs, checkedAdd_of_lt hd]
  rfl

/-- An access copies the next bytes. -/
theorem copySingle_mem (h : s.Part m dst src total) (hk : k ≤ s.left) (hpos : 0 < k)
    (hapart : src + total ≤ dst ∨ dst + total ≤ src) :
    (copySingle k s).mem = m.write dst (m.read src (total - (s.left - k))) := by
  have hle := h.left_le
  have hsrc := h.src_eq (by omega)
  have hdst := h.dst_eq (by omega)
  have hdone : total - (s.left - k) = total - s.left + k := by omega
  have hread : s.mem.read s.src.toNat k = m.read (src + (total - s.left)) k := by
    rw [h.mem_eq, hsrc]
    exact Mem.read_congr (Mem.sameOn_write (by rw [Mem.length_read]; omega))
  show s.mem.write s.dst.toNat (s.mem.read s.src.toNat k) = _
  rw [hread, h.mem_eq, hdst, hdone, Mem.read_add, Mem.write_append, Mem.length_read]

theorem copySingle_singles (h : s.Part m dst src total) (hk : k ≤ s.left) (hpos : 0 < k)
    (hmem : k ∈ [8, 4, 2, 1]) (hs : k ∣ src) (hd : k ∣ dst) (hdone : k ∣ total - s.left) :
    EndToEnd src dst (copySingle k s).singles ∧
      copied (copySingle k s).singles = total - (s.left - k) ∧
      ∀ x ∈ (copySingle k s).singles, x.Aligned := by
  have hle := h.left_le
  have hsrc := h.src_eq (by omega)
  have hdst := h.dst_eq (by omega)
  refine ⟨endToEnd_concat h.endToEnd (by rw [h.copied_eq]; exact hsrc) (by rw [h.copied_eq]; exact hdst),
    ?_, fun x hx => ?_⟩
  · have : copied (s.singles ++ [⟨k, s.src, s.dst⟩]) = copied s.singles + k := by
      simp [copied]
    show copied (s.singles ++ [⟨k, s.src, s.dst⟩]) = _
    rw [this, h.copied_eq]
    omega
  · rcases List.mem_append.mp hx with hx | hx
    · exact h.aligned x hx
    · obtain rfl := List.mem_singleton.mp hx
      refine ⟨hmem, ?_, ?_⟩
      · show k ∣ s.src.toNat
        rw [hsrc]
        exact Nat.dvd_add hs hdone
      · show k ∣ s.dst.toNat
        rw [hdst]
        exact Nat.dvd_add hd hdone

/-- The loop goes on until less than an access is left, and no pointer leaves the addresses. -/
theorem copyLoop_part (hn : s.left ≤ n) (h : s.Part m dst src total)
    (hsrc : src + total ≤ 2 ^ 64) (hdst : dst + total ≤ 2 ^ 64)
    (hapart : src + total ≤ dst ∨ dst + total ≤ src) (hmem : k ∈ [8, 4, 2, 1])
    (hs : k ∣ src) (hd : k ∣ dst) (hdone : k ∣ total - s.left) :
    ∃ s', copyLoop k n s = some s' ∧ s'.Part m dst src total ∧ s'.left < k ∧ k ∣ total - s'.left := by
  have hpos : 0 < k := by
    rcases k with _ | k
    · simp at hmem
    · exact Nat.succ_pos k
  induction n generalizing s with
  | zero => exact ⟨s, rfl, h, by omega, hdone⟩
  | succ n ih =>
    rw [copyLoop]
    split
    · rename_i hk
      have hle := h.left_le
      obtain ⟨hend, hcopied, haligned⟩ := copySingle_singles h hk hpos hmem hs hd hdone
      have hmem' := copySingle_mem h hk hpos hapart
      have hsum : total - (s.left - k) = total - s.left + k := by omega
      have hdone' : k ∣ total - (s.left - k) := hsum ▸ Nat.dvd_add hdone (Nat.dvd_refl k)
      by_cases hzero : s.left - k = 0
      · refine ⟨{ copySingle k s with left := s.left - k }, if_pos hzero, ?_, ?_, hdone'⟩
        · exact ⟨by show s.left - k ≤ total; omega, hmem', fun hp => absurd hzero (Nat.ne_of_gt hp),
            fun hp => absurd hzero (Nat.ne_of_gt hp), hend, hcopied, haligned⟩
        · show s.left - k < k
          omega
      · have hk64 : (BitVec.ofNat 64 k).toNat = k := toNat_ofNat_of_lt (by omega)
        have hs' := h.src_eq (by omega)
        have hd' := h.dst_eq (by omega)
        have hsrc' : s.src.toNat + (BitVec.ofNat 64 k).toNat < 2 ^ 64 := by omega
        have hdst' : s.dst.toNat + (BitVec.ofNat 64 k).toNat < 2 ^ 64 := by omega
        have hpart : Copy.Part m dst src total { copySingle k s with
            left := s.left - k, src := s.src + BitVec.ofNat 64 k, dst := s.dst + BitVec.ofNat 64 k } := by
          refine ⟨?_, hmem', fun _ => ?_, fun _ => ?_, hend, hcopied, haligned⟩
          · show s.left - k ≤ total
            omega
          · show (s.src + BitVec.ofNat 64 k).toNat = src + (total - (s.left - k))
            rw [BitVec.toNat_add_of_lt hsrc', hk64]
            omega
          · show (s.dst + BitVec.ofNat 64 k).toNat = dst + (total - (s.left - k))
            rw [BitVec.toNat_add_of_lt hdst', hk64]
            omega
        have hfuel : s.left - k ≤ n := by omega
        obtain ⟨s', hloop, hs''⟩ := ih hfuel hpart hdone'
        have hadv := advance_eq { copySingle k s with left := s.left - k } hsrc' hdst'
        exact ⟨s', (if_neg hzero).trans ((congrArg (Option.bind · (copyLoop k n)) hadv).trans hloop), hs''⟩
    · rename_i hk
      exact ⟨s, rfl, h, by omega, hdone⟩

/-- A size is tried if both sides are aligned to it, and then less than it is left. -/
theorem copyAlignedSlice_part (align : BitVec 64) (h : s.Part m dst src total)
    (hsrc : src + total ≤ 2 ^ 64) (hdst : dst + total ≤ 2 ^ 64)
    (hapart : src + total ≤ dst ∨ dst + total ≤ src) (hmem : k ∈ [8, 4, 2, 1])
    (halign : k ≤ align.toNat → k ∣ src ∧ k ∣ dst) (hdone : k ∣ total - s.left) :
    ∃ s', copyAlignedSlice align k s = some s' ∧ s'.Part m dst src total ∧
      (k ≤ align.toNat → s'.left < k) ∧ k ∣ total - s'.left := by
  rw [copyAlignedSlice]
  split
  · rename_i hk
    exact ⟨s, rfl, h, fun hle => absurd hk (Nat.not_lt.mpr hle), hdone⟩
  · rename_i hk
    obtain ⟨hs, hd⟩ := halign (Nat.not_lt.mp hk)
    obtain ⟨s', hloop, hpart, hlt, hdvd⟩ := copyLoop_part le_rfl h hsrc hdst hapart hmem hs hd hdone
    exact ⟨s', hloop, hpart, fun _ => hlt, hdvd⟩

/-- Where nothing is left, or less than an access, nothing is done. -/
theorem copyAlignedSlice_of_lt {align : BitVec 64} (h : s.left < k) :
    copyAlignedSlice align k s = some s := by
  rw [copyAlignedSlice]
  split
  · rfl
  · cases hn : s.left with
    | zero => rfl
    | succ n => rw [copyLoop, if_neg (by omega)]

/-- A single value goes in one access. -/
theorem copyAlignedSlice_single {align : BitVec 64} (hk : k ≤ align.toNat) (hpos : 0 < k)
    (hl : s.left = k) : copyAlignedSlice align k s = some { copySingle k s with left := 0 } := by
  obtain ⟨n, rfl⟩ : ∃ n, k = n + 1 := ⟨k - 1, by omega⟩
  rw [copyAlignedSlice, if_neg (Nat.not_lt.mpr hk), hl, copyLoop, if_pos (Nat.le_of_eq hl.symm), hl,
    Nat.sub_self]
  exact if_pos rfl

theorem alignment_eq (ck : Bool) {addr : BitVec 64} (h : addr ≠ 0) : ∃ a, alignment ck addr = some a ∧
    ∀ j, 2 ^ j ≤ a.toNat ↔ 2 ^ j ∣ addr.toNat := by
  have hnot : (~~~addr).toNat + (1 : BitVec 64).toNat < 2 ^ 64 := by
    have hne : addr.toNat ≠ 0 := fun he => h (BitVec.eq_of_toNat_eq he)
    have hlt := addr.isLt
    rw [BitVec.toNat_not]
    show 2 ^ 64 - 1 - addr.toNat + 1 < 2 ^ 64
    omega
  refine ⟨addr &&& (~~~addr + 1), ?_, fun j => le_lowest_bit h⟩
  rw [alignment, plainAdd_of_lt ck hnot]
  rfl

/-- The sizes that are tried, with the smaller alignment of both sides. -/
theorem copySliceVolatile_eq (ck : Bool) (m : Mem) {dst src : BitVec 64} (total : Nat) (hs : src ≠ 0)
    (hd : dst ≠ 0) : ∃ align : BitVec 64,
      (∀ j, 2 ^ j ≤ align.toNat ↔ 2 ^ j ∣ src.toNat ∧ 2 ^ j ∣ dst.toNat) ∧
      copySliceVolatile ck dst src total m =
        ((copyAlignedSlice align 8 ⟨m, dst, src, total, []⟩).bind fun s =>
          (copyAlignedSlice align 4 s).bind fun s =>
            (copyAlignedSlice align 2 s).bind fun s => copyAlignedSlice align 1 s) := by
  obtain ⟨a, ha, hadvd⟩ := alignment_eq ck hs
  obtain ⟨b, hb, hbdvd⟩ := alignment_eq ck hd
  refine ⟨if a ≤ b then a else b, fun j => ?_, ?_⟩
  · rw [← hadvd, ← hbdvd]
    split
    · rename_i hle
      exact ⟨fun h => ⟨h, Nat.le_trans h hle⟩, And.left⟩
    · rename_i hle
      exact ⟨fun h => ⟨Nat.le_trans h (Nat.le_of_not_le hle), h⟩, And.right⟩
  · rw [copySliceVolatile, ha, hb]
    rfl

end

/-- A copy between places that are apart, and not at address zero, copies the bytes and stays within
them. Its accesses are aligned on both sides and lie end to end; a value of one, two, four or eight
bytes that is aligned on both sides is copied in a single one. -/
theorem copy_slice (ck : Bool) (m : Mem) {dst src : BitVec 64} {total : Nat} (hs : src ≠ 0) (hd : dst ≠ 0)
    (hsrc : src.toNat + total ≤ 2 ^ 64) (hdst : dst.toNat + total ≤ 2 ^ 64)
    (hapart : src.toNat + total ≤ dst.toNat ∨ dst.toNat + total ≤ src.toNat) :
    copySlice ck dst src total m = some (m.write dst.toNat (m.read src.toNat total)) ∧
    ∃ s, copySliceVolatile ck dst src total m = some s ∧
      s.mem = m.write dst.toNat (m.read src.toNat total) ∧
      EndToEnd src.toNat dst.toNat s.singles ∧ copied s.singles = total ∧
      (∀ x ∈ s.singles, x.Aligned) ∧
      (total ∈ [8, 4, 2, 1] → total ∣ src.toNat → total ∣ dst.toNat →
        s.singles = [⟨total, src, dst⟩]) := by
  obtain ⟨align, halign, heq⟩ := copySliceVolatile_eq ck m total hs hd
  have h8 : 8 ≤ align.toNat ↔ 8 ∣ src.toNat ∧ 8 ∣ dst.toNat := halign 3
  have h4 : 4 ≤ align.toNat ↔ 4 ∣ src.toNat ∧ 4 ∣ dst.toNat := halign 2
  have h2 : 2 ≤ align.toNat ↔ 2 ∣ src.toNat ∧ 2 ∣ dst.toNat := halign 1
  have h1 : 1 ≤ align.toNat ↔ 1 ∣ src.toNat ∧ 1 ∣ dst.toNat := halign 0
  have hstart : Copy.Part m dst.toNat src.toNat total ⟨m, dst, src, total, []⟩ := by
    have hzero : total - total = 0 := Nat.sub_self total
    refine ⟨le_rfl, ?_, fun _ => ?_, fun _ => ?_, trivial, hzero.symm, nofun⟩
    · show m = m.write dst.toNat (m.read src.toNat (total - total))
      rw [hzero]
      exact (Mem.write_nil m dst.toNat).symm
    · show src.toNat = src.toNat + (total - total)
      omega
    · show dst.toNat = dst.toNat + (total - total)
      omega
  have hnone : ∀ k, k ∣ total - (⟨m, dst, src, total, []⟩ : Copy).left := fun k => by
    show k ∣ total - total
    rw [Nat.sub_self]
    exact Nat.dvd_zero k
  obtain ⟨s₁, e₁, p₁, -, d₁⟩ := copyAlignedSlice_part align hstart hsrc hdst hapart
    (show 8 ∈ [8, 4, 2, 1] by decide) h8.mp (hnone 8)
  obtain ⟨s₂, e₂, p₂, -, d₂⟩ := copyAlignedSlice_part align p₁ hsrc hdst hapart
    (show 4 ∈ [8, 4, 2, 1] by decide) h4.mp (Nat.dvd_trans (by decide) d₁)
  obtain ⟨s₃, e₃, p₃, -, d₃⟩ := copyAlignedSlice_part align p₂ hsrc hdst hapart
    (show 2 ∈ [8, 4, 2, 1] by decide) h2.mp (Nat.dvd_trans (by decide) d₂)
  obtain ⟨s₄, e₄, p₄, hlt, -⟩ := copyAlignedSlice_part align p₃ hsrc hdst hapart
    (show 1 ∈ [8, 4, 2, 1] by decide) h1.mp (Nat.one_dvd _)
  have hrun : copySliceVolatile ck dst src total m = some s₄ := by
    rw [heq, e₁, Option.bind_some, e₂, Option.bind_some, e₃, Option.bind_some, e₄]
  have hleft : s₄.left = 0 := Nat.lt_one_iff.mp (hlt (h1.mpr ⟨Nat.one_dvd _, Nat.one_dvd _⟩))
  have hmem : s₄.mem = m.write dst.toNat (m.read src.toNat total) := by
    have := p₄.mem_eq
    rwa [hleft, Nat.sub_zero] at this
  have hcopied : copied s₄.singles = total := by
    have := p₄.copied_eq
    rwa [hleft, Nat.sub_zero] at this
  refine ⟨?_, s₄, hrun, hmem, p₄.endToEnd, hcopied, p₄.aligned, fun ht hts htd => ?_⟩
  · rw [copySlice, hrun]
    split
    · exact congrArg some hmem
    · rfl
  · have hsome : some s₄ = some { copySingle total ⟨m, dst, src, total, []⟩ with left := 0 } := by
      rw [← hrun, heq]
      have hskip : ∀ k (s : Copy), s.left < k → copyAlignedSlice align k s = some s :=
        fun _ _ => copyAlignedSlice_of_lt
      simp only [List.mem_cons, List.not_mem_nil, or_false] at ht
      rcases ht with rfl | rfl | rfl | rfl
      · rw [copyAlignedSlice_single (h8.mpr ⟨hts, htd⟩) (by decide) rfl]
        simp [hskip]
      · rw [hskip 8 _ (show 4 < 8 by decide), Option.bind_some,
          copyAlignedSlice_single (h4.mpr ⟨hts, htd⟩) (by decide) rfl]
        simp [hskip]
      · rw [hskip 8 _ (show 2 < 8 by decide), Option.bind_some,
          hskip 4 _ (show 2 < 4 by decide), Option.bind_some,
          copyAlignedSlice_single (h2.mpr ⟨hts, htd⟩) (by decide) rfl]
        simp [hskip]
      · rw [hskip 8 _ (show 1 < 8 by decide), Option.bind_some,
          hskip 4 _ (show 1 < 4 by decide), Option.bind_some,
          hskip 2 _ (show 1 < 2 by decide), Option.bind_some,
          copyAlignedSlice_single (h1.mpr ⟨hts, htd⟩) (by decide) rfl]
    rw [Option.some.inj hsome]
    rfl

/-- An index of two bytes in a ring. -/
theorem copy_slice_index : ∃ s, copySliceVolatile true 0x2002 0x1004 2 (fun _ => 0) = some s ∧
    s.singles = [⟨2, 0x1004, 0x2002⟩] := by
  obtain ⟨-, s, hs, -, -, -, -, hsingle⟩ := copy_slice true (fun _ => 0)
    (show (0x1004 : BitVec 64) ≠ 0 by decide) (show (0x2002 : BitVec 64) ≠ 0 by decide)
    (show _ + 2 ≤ _ by decide) (by decide) (.inl (by decide))
  exact ⟨s, hs, hsingle (by decide) (by decide) (by decide)⟩

end Whypa.VmMemory
