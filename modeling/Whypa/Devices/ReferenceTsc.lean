import Mathlib.Algebra.Order.Field.Rat
import Whypa.Framework.FixedPoint
import Whypa.Framework.Splice
import Whypa.Memory.Flat

/-!
# The reference time of the guest

The partition writes a page from which the guest computes the time since the start of the
machine, in units of 100 ns: it scales its counter and adds an offset (`vm.rs`). The time
is 0 at the start, never goes back, and is less than 2 units off (`reference_time_correct`).
-/

namespace Whypa

open Framework

namespace Partition

structure CpuidResult where
  eax : BitVec 32
  ebx : BitVec 32
  ecx : BitVec 32
  edx : BitVec 32
deriving DecidableEq, Repr

/-- The frequency of the counter, by the processor's `cpuid`. -/
def getTscFrequencyHz (cpuid : BitVec 32 → CpuidResult) : BitVec 64 :=
  let cpuid15 := cpuid 0x15
  if cpuid15.eax ≠ 0 ∧ cpuid15.ebx ≠ 0 ∧ cpuid15.ecx ≠ 0 then
    cpuid15.ecx.setWidth 64 * cpuid15.ebx.setWidth 64 / cpuid15.eax.setWidth 64
  else
    let cpuid16 := cpuid 0x16
    if cpuid16.eax ≠ 0 then cpuid16.eax.setWidth 64 * 1000000 else 2712000000

/-- `TscScale`: what converts ticks to units of 100 ns. -/
def tscScale (ck : Bool) (tscFreq : BitVec 64) : Option (BitVec 64) := do
  let n ← plainShl ck (10000000 : BitVec 128) 64
  let scale ← plainDiv n (tscFreq.setWidth 128)
  pure (scale.setWidth 64)

/-- `TscOffset`: what is added for the time to start at 0. -/
def tscOffset (ck : Bool) (vmStartTsc tscScale : BitVec 64) : Option (BitVec 64) := do
  let product ← plainMul ck (vmStartTsc.setWidth 128) (tscScale.setWidth 128)
  let start ← plainShr ck product 64
  plainNeg ck (start.setWidth 64)

/-- The page: a `TscSequence` that is valid, the scale and the offset. -/
def tscPage (tscScale tscOffset : BitVec 64) : Option (List Byte) := do
  let page := List.replicate 4096 0
  let page ← putSlice page 0 (leBytes 4 1)
  let page ← putSlice page 8 (leBytes 8 tscScale.toNat)
  putSlice page 16 (leBytes 8 tscOffset.toNat)

/-- `write_tsc_reference_page`, for a counter of the frequency `tscFreq`. -/
def writeTscReferencePageAt (ck : Bool) (mm : MemoryManager) (tscFreq vmStartTsc : BitVec 64)
    (gpa : GuestAddress) (m : Mem) : Option (Except MemoryError Unit × Mem) := do
  let tscScale ← tscScale ck tscFreq
  let tscOffset ← tscOffset ck vmStartTsc tscScale
  let page ← tscPage tscScale tscOffset
  mm.writeGuestMemory ck page gpa m

def writeTscReferencePage (ck : Bool) (mm : MemoryManager) (cpuid : BitVec 32 → CpuidResult)
    (vmStartTsc : BitVec 64) (gpa : GuestAddress) (m : Mem) : Option (Except MemoryError Unit × Mem) :=
  writeTscReferencePageAt ck mm (getTscFrequencyHz cpuid) vmStartTsc gpa m

/-! ## The page -/

/-- The page at the host address `h` is valid and has the scale and the offset. -/
structure TscPageAt (m : Mem) (h : Nat) (scale offset : BitVec 64) : Prop where
  sequence : m.word h 32 = 1
  scale : m.word (h + 8) 64 = scale
  offset : m.word (h + 16) 64 = offset

/-- The page has a place for each of them. -/
theorem tscPage_slices (scale offset : BitVec 64) : ∃ page, tscPage scale offset = some page ∧
    page.length = 4096 ∧ slice page 0 4 = leBytes 4 1 ∧ slice page 8 8 = leBytes 8 scale.toNat ∧
    slice page 16 8 = leBytes 8 offset.toNat := by
  obtain ⟨zeros, hz⟩ : ∃ zeros : List Byte, zeros = List.replicate 4096 0 := ⟨_, rfl⟩
  have h0 : zeros.length = 4096 := by rw [hz, List.length_replicate]
  have hin₁ : 0 + (leBytes 4 1).length ≤ zeros.length := by rw [length_leBytes, h0]; decide
  have h1 := (length_splice hin₁).trans h0
  have hin₂ : 8 + (leBytes 8 scale.toNat).length ≤ (splice zeros 0 (leBytes 4 1)).length := by
    rw [length_leBytes, h1]
    decide
  have h2 := (length_splice hin₂).trans h1
  have hin₃ : 16 + (leBytes 8 offset.toNat).length ≤
      (splice (splice zeros 0 (leBytes 4 1)) 8 (leBytes 8 scale.toNat)).length := by
    rw [length_leBytes, h2]
    decide
  have hself : ∀ {l : List Byte} {off n v : Nat}, off + (leBytes n v).length ≤ l.length →
      slice (splice l off (leBytes n v)) off n = leBytes n v := fun {l off n v} hin => by
    have h := slice_splice_self hin
    rwa [length_leBytes] at h
  refine ⟨splice (splice (splice zeros 0 (leBytes 4 1)) 8 (leBytes 8 scale.toNat)) 16
    (leBytes 8 offset.toNat), ?_, (length_splice hin₃).trans h2, ?_, ?_, hself hin₃⟩
  · rw [tscPage, ← hz, putSlice_of_le hin₁]
    simp only [Option.bind_eq_bind, Option.bind_some, putSlice_of_le hin₂, putSlice_of_le hin₃]
  · rw [slice_splice_sep hin₃ (.inl (by decide)), slice_splice_sep hin₂ (.inl (by decide)), hself hin₁]
  · rw [slice_splice_sep hin₃ (.inl (by decide)), hself hin₂]

/-- A call that succeeds has written the page. -/
theorem writeTscReferencePageAt_ok {ck : Bool} {mm : MemoryManager}
    {tscFreq vmStartTsc scale offset : BitVec 64} {gpa : GuestAddress} {m m' : Mem}
    (hs : tscScale ck tscFreq = some scale) (ho : tscOffset ck vmStartTsc scale = some offset)
    (hw : writeTscReferencePageAt ck mm tscFreq vmStartTsc gpa m = some (.ok (), m')) :
    ∃ h, mm.hostOf gpa = some h ∧ TscPageAt m' h scale offset := by
  obtain ⟨page, hp, hlen, hseq, hscale, hoffset⟩ := tscPage_slices scale offset
  simp only [writeTscReferencePageAt, hs, ho, hp, Option.bind_eq_bind, Option.bind_some] at hw
  obtain ⟨l, hl, he⟩ := Option.map_eq_some_iff.mp hw
  cases l with
  | error e => cases (Prod.mk.inj he).1
  | ok h =>
    obtain ⟨-, rfl⟩ := Prod.mk.inj he
    obtain ⟨r, hpa, last, hf, -, -, -, hh, rfl⟩ := MemoryManager.locate_eq_ok.mp hl
    have hread := Mem.read_write_self m (MemoryManager.hostAddr r hpa gpa) page
    refine ⟨_, by rw [MemoryManager.hostOf, hf, Option.bind_some, hh]; rfl, ?_, ?_, ?_⟩
    · exact @word_of_read 0 _ 4 _ page (1 : BitVec 32) hread (by rw [hlen]; decide) hseq
    · exact word_of_read (n := 8) hread (by rw [hlen]; decide) hscale
    · exact word_of_read (n := 8) hread (by rw [hlen]; decide) hoffset

/-! ## The time -/

/-- The scale is that of the rate, and neither the shift nor the cast loses bits of it. -/
theorem tscScale_eq (ck : Bool) {f : BitVec 64} (hf : 10000000 < f.toNat) :
    ∃ scale, tscScale ck f = some scale ∧ scale.toNat = rate 64 10000000 f.toNat := by
  have hn : ((10000000 : BitVec 128) <<< 64).toNat = 10000000 * 2 ^ 64 := by decide
  have hw : (f.setWidth 128).toNat = f.toNat := BitVec.toNat_setWidth_of_le (by decide)
  have h0 : f.setWidth 128 ≠ 0 := fun h => by
    rw [h] at hw
    exact absurd hf (by rw [← hw]; decide)
  refine ⟨((10000000 : BitVec 128) <<< 64 / f.setWidth 128).setWidth 64, ?_, ?_⟩
  · rw [tscScale, plainShl_of_lt ck _ (by decide), Option.bind_eq_bind, Option.bind_some, plainDiv, if_neg h0]
    rfl
  · rw [BitVec.toNat_setWidth, BitVec.toNat_udiv, hn, hw]
    exact Nat.mod_eq_of_lt (rate_lt hf)

/-- The high half of a product. -/
theorem toNat_high (a b : BitVec 64) :
    (a.setWidth 128).toNat * (b.setWidth 128).toNat < 2 ^ 128 ∧
      (((a.setWidth 128 * b.setWidth 128) >>> 64).setWidth 64).toNat = units 64 b.toNat a.toNat := by
  have ha : (a.setWidth 128).toNat = a.toNat := BitVec.toNat_setWidth_of_le (by decide)
  have hb : (b.setWidth 128).toNat = b.toNat := BitVec.toNat_setWidth_of_le (by decide)
  have hlt : a.toNat * b.toNat < 2 ^ 128 :=
    (Nat.mul_lt_mul'' a.isLt b.isLt).trans_eq (by decide)
  have hunits : units 64 b.toNat a.toNat < 2 ^ 64 := (units_le b.isLt.le a.toNat).trans_lt a.isLt
  rw [ha, hb]
  refine ⟨hlt, ?_⟩
  rw [BitVec.toNat_setWidth, BitVec.toNat_ushiftRight, BitVec.toNat_mul, ha, hb, Nat.mod_eq_of_lt hlt,
    Nat.shiftRight_eq_div_pow]
  exact Nat.mod_eq_of_lt hunits

/-- The time at the start, as a signed integer that is not the least one. -/
theorem tscOffset_eq (ck : Bool) {vmStartTsc : BitVec 64} (hS : vmStartTsc.toNat < 2 ^ 63)
    (scale : BitVec 64) :
    ∃ start, tscOffset ck vmStartTsc scale = some (-start) ∧
      start.toNat = units 64 scale.toNat vmStartTsc.toNat ∧ (-start).toInt = -(start.toNat : Int) := by
  obtain ⟨hmul, hstart⟩ := toNat_high vmStartTsc scale
  generalize hs : ((vmStartTsc.setWidth 128 * scale.setWidth 128) >>> 64).setWidth 64 = start at hstart
  have hlt : start.toNat < 2 ^ 63 := by
    rw [hstart]
    exact (units_le scale.isLt.le _).trans_lt hS
  have hmin : start ≠ BitVec.intMin 64 := fun h => by
    rw [h] at hlt
    exact absurd hlt (by decide)
  refine ⟨start, ?_, hstart, ?_⟩
  · rw [tscOffset, plainMul_of_lt ck hmul, Option.bind_eq_bind, Option.bind_some,
      plainShr_of_lt ck _ (by decide), Option.bind_some, hs, plainNeg, if_pos (.inl hmin)]
  · rw [BitVec.toInt_neg_of_ne_intMin hmin, BitVec.toInt_eq_toNat_of_lt (by omega)]

/-- What the guest makes of its counter, with 64-bit integers and the high half of a product. -/
def referenceTime (scale offset t : BitVec 64) : BitVec 64 :=
  ((t.setWidth 128 * scale.setWidth 128) >>> 64).setWidth 64 + offset

/-- The same formula, with integers of any size. -/
def formula (scale offset t : BitVec 64) : Int := (t.toNat * scale.toNat / 2 ^ 64 : Nat) + offset.toInt

/-- The scale and the offset are what the computation without bounds makes of them. -/
structure Untruncated (tscFreq vmStartTsc scale offset : BitVec 64) : Prop where
  scale_eq : scale.toNat = 10000000 * 2 ^ 64 / tscFreq.toNat
  offset_eq : offset.toInt = -((vmStartTsc.toNat * scale.toNat / 2 ^ 64 : Nat) : Int)

/-- From the start of the machine on, the guest's formula gives the time since then, in units of 100 ns. -/
structure GivesTime (tscFreq vmStartTsc scale offset : BitVec 64) : Prop where
  start : formula scale offset vmStartTsc = 0
  nonneg : ∀ t, vmStartTsc ≤ t → 0 ≤ formula scale offset t
  mono : ∀ t t', vmStartTsc ≤ t → t ≤ t' → formula scale offset t ≤ formula scale offset t'
  error : ∀ t, vmStartTsc ≤ t →
    |(formula scale offset t : ℚ) - (t.toNat - vmStartTsc.toNat) * 10000000 / tscFreq.toNat| < 2
  /-- 64 bits are enough for it. -/
  fits : ∀ t, vmStartTsc ≤ t → ((referenceTime scale offset t).toNat : Int) = formula scale offset t

/-- The guest's formula takes the units at the start from those at `t`. -/
theorem formula_eq {scale start vmStartTsc : BitVec 64}
    (hs : start.toNat = units 64 scale.toNat vmStartTsc.toNat) (hn : (-start).toInt = -(start.toNat : Int))
    (t : BitVec 64) : formula scale (-start) t =
      (units 64 scale.toNat t.toNat : Int) - units 64 scale.toNat vmStartTsc.toNat := by
  rw [formula, hn, hs]
  rfl

theorem givesTime_of_start {tscFreq vmStartTsc scale start : BitVec 64} (hf : 10000000 < tscFreq.toNat)
    (hr : scale.toNat = rate 64 10000000 tscFreq.toNat)
    (hs : start.toNat = units 64 scale.toNat vmStartTsc.toNat) (hn : (-start).toInt = -(start.toNat : Int)) :
    GivesTime tscFreq vmStartTsc scale (-start) := by
  have heq := formula_eq hs hn
  have hmono : ∀ {t t' : BitVec 64}, t ≤ t' → units 64 scale.toNat t.toNat ≤ units 64 scale.toNat t'.toNat :=
    fun h => units_mono (BitVec.le_def.mp h)
  constructor
  · rw [heq, Int.sub_self]
  · intro t ht
    rw [heq]
    have := hmono ht
    omega
  · intro t t' _ ht
    rw [heq, heq]
    have := hmono ht
    omega
  · intro t ht
    have hle := BitVec.le_def.mp ht
    have hw : t.toNat - vmStartTsc.toNat ≤ 2 ^ 64 := by
      have := t.isLt
      omega
    obtain ⟨hlow, hhigh⟩ := @elapsed_bounds 64 10000000 tscFreq.toNat _ _ ℚ _ _ _ (by omega) hle hw
    rw [← hr] at hlow hhigh
    rw [heq, abs_lt]
    push_cast at hlow hhigh ⊢
    constructor <;> linarith
  · intro t ht
    have hle := hmono ht
    obtain ⟨-, hhigh⟩ := toNat_high t scale
    rw [heq, referenceTime, ← BitVec.sub_eq_add_neg, BitVec.toNat_sub_of_le, hhigh, hs]
    · omega
    · rw [BitVec.le_def, hhigh, hs]
      exact hle

/-- For every frequency above 10 MHz the page gives the guest the time: no computation of the scale and
the offset panics or loses bits, and they are what the page has. -/
theorem reference_time_correct (ck : Bool) (mm : MemoryManager) {tscFreq vmStartTsc : BitVec 64}
    (hf : 10000000 < tscFreq.toNat) (hS : vmStartTsc.toNat < 2 ^ 63) :
    ∃ scale offset, tscScale ck tscFreq = some scale ∧ tscOffset ck vmStartTsc scale = some offset ∧
      Untruncated tscFreq vmStartTsc scale offset ∧ GivesTime tscFreq vmStartTsc scale offset ∧
      (∀ gpa m m', writeTscReferencePageAt ck mm tscFreq vmStartTsc gpa m = some (.ok (), m') →
        ∃ h, mm.hostOf gpa = some h ∧ TscPageAt m' h scale offset) ∧
      ∀ cpuid, getTscFrequencyHz cpuid = tscFreq → ∀ gpa m,
        writeTscReferencePage ck mm cpuid vmStartTsc gpa m =
          writeTscReferencePageAt ck mm tscFreq vmStartTsc gpa m := by
  obtain ⟨scale, hscale, hr⟩ := tscScale_eq ck hf
  obtain ⟨start, hoffset, hs, hn⟩ := tscOffset_eq ck hS scale
  refine ⟨scale, -start, hscale, hoffset, ⟨hr, ?_⟩, givesTime_of_start hf hr hs hn, ?_, ?_⟩
  · rw [hn, hs]
    rfl
  · exact fun gpa m m' hw => writeTscReferencePageAt_ok hscale hoffset hw
  · rintro cpuid rfl gpa m
    rfl

/-- A processor of 3 GHz that has the leaf 0x16 only. -/
def threeGHz (leaf : BitVec 32) : CpuidResult := if leaf = 0x16 then ⟨3000, 3000, 100, 0⟩ else ⟨0, 0, 0, 0⟩

def tscRam : MemoryManager := allocateMemoryWithSize 0x8000 0 (by decide) (by decide)

/-- A machine that was started at 6000000000 has the page at 0x1000, and a second later the guest has the
time. -/
theorem reference_time_second : ∃ scale offset m' h,
    writeTscReferencePage true tscRam threeGHz 6000000000 0x1000 (fun _ => 0) = some (.ok (), m') ∧
      TscPageAt m' h scale offset ∧ |(formula scale offset 9000000000 : ℚ) - 10000000| < 2 := by
  have hwrite : (writeTscReferencePage true tscRam threeGHz 6000000000 0x1000 (fun _ => 0)).map
      (fun r => r.1.isOk) = some true := by decide +kernel
  obtain ⟨⟨r, m'⟩, hw, hr⟩ := Option.map_eq_some_iff.mp hwrite
  obtain ⟨u, rfl⟩ : ∃ u, r = .ok u := by
    cases r with
    | error e => cases hr
    | ok u => exact ⟨u, rfl⟩
  have hf : 10000000 < (3000000000 : BitVec 64).toNat := by decide
  have hS : (6000000000 : BitVec 64).toNat < 2 ^ 63 := by decide
  obtain ⟨scale, offset, -, -, -, htime, hpage, hcpuid⟩ := reference_time_correct true tscRam hf hS
  have hfreq : getTscFrequencyHz threeGHz = 3000000000 := by decide
  obtain ⟨h, -, hat⟩ := hpage 0x1000 (fun _ => 0) m' ((hcpuid threeGHz hfreq 0x1000 fun _ => 0).symm.trans hw)
  refine ⟨scale, offset, m', h, hw, hat, ?_⟩
  have hsecond := htime.error 9000000000 (by decide)
  have hexact : (((9000000000 : BitVec 64).toNat : ℚ) - (6000000000 : BitVec 64).toNat) * 10000000 /
      (3000000000 : BitVec 64).toNat = 10000000 := by
    rw [show (9000000000 : BitVec 64).toNat = 9000000000 from rfl,
      show (6000000000 : BitVec 64).toNat = 6000000000 from rfl,
      show (3000000000 : BitVec 64).toNat = 3000000000 from rfl]
    norm_num
  rwa [hexact] at hsecond

end Partition

end Whypa
