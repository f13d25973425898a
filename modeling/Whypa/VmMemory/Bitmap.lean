import Mathlib.Data.List.Induction
import Whypa.Framework.Arith
import Whypa.Framework.Bits

/-!
# Dirty pages

The bitmap with which the `vm-memory` crate tracks writes
(`bitmap/backend/atomic_bitmap.rs`): a bit for each page, in words that are
changed atomically. A range of addresses dirties the pages that have one of them
(`setAddrRange_dirty`). Threads mark pages while others harvest the words, one by
one and in any order: a harvest reports exactly the pages that were marked since
the last harvest of their word (`harvest_exact`).
-/

namespace Whypa.VmMemory

open Framework

structure NonZeroUsize where
  get : BitVec 64
  pos : 0 < get.toNat
deriving DecidableEq, Repr

def NonZeroUsize.toNat (n : NonZeroUsize) : Nat := n.get.toNat

/-- The pages that hold `byteSize` bytes. -/
def numPages (byteSize : BitVec 64) (pageSize : NonZeroUsize) : Nat :=
  (byteSize.toNat + (pageSize.toNat - 1)) / pageSize.toNat

/-- A word for each 64 of the pages. -/
structure AtomicBitmap where
  map : List (BitVec 64)
  /-- The number of pages. -/
  size : Nat
  byteSize : BitVec 64
  pageSize : NonZeroUsize
  size_eq : size = numPages byteSize pageSize
  length_map : map.length = (size + 63) / 64
deriving DecidableEq, Repr

namespace AtomicBitmap

def new (byteSize : BitVec 64) (pageSize : NonZeroUsize) : AtomicBitmap where
  map := List.replicate ((numPages byteSize pageSize + 63) / 64) 0
  size := numPages byteSize pageSize
  byteSize := byteSize
  pageSize := pageSize
  size_eq := rfl
  length_map := List.length_replicate

/-- Bits for `additionalSize` more bytes; the sum of the sizes is a plain one. -/
def enlarge (ck : Bool) (b : AtomicBitmap) (additionalSize : BitVec 64) : Option AtomicBitmap :=
  (plainAdd ck b.byteSize additionalSize).map fun byteSize =>
    let mapSize := (numPages byteSize b.pageSize + 63) / 64
    { b with
      map := b.map.take mapSize ++ List.replicate (mapSize - b.map.length) 0
      size := numPages byteSize b.pageSize
      byteSize := byteSize
      size_eq := rfl
      length_map := by
        rw [List.length_append, List.length_take, List.length_replicate]
        omega }

/-- Whether the page is dirty. A page that the bitmap does not have never is. -/
def isBitSet (b : AtomicBitmap) (index : Nat) : Bool :=
  if index < b.size then b.map.getD (index / 64) 0 &&& (1#64 <<< (index % 64)) ≠ 0 else false

def isAddrSet (b : AtomicBitmap) (addr : BitVec 64) : Bool :=
  b.isBitSet (addr.toNat / b.pageSize.toNat)

/-- An atomic change of a word. -/
def update (b : AtomicBitmap) (i : Nat) (f : BitVec 64 → BitVec 64) : AtomicBitmap :=
  { b with
    map := b.map.modify i f
    length_map := by rw [List.length_modify, b.length_map] }

def setBit (b : AtomicBitmap) (index : Nat) : AtomicBitmap :=
  if b.size ≤ index then b else b.update (index / 64) fun w => w ||| (1#64 <<< (index % 64))

def resetBit (b : AtomicBitmap) (index : Nat) : AtomicBitmap :=
  if b.size ≤ index then b else b.update (index / 64) fun w => w &&& ~~~(1#64 <<< (index % 64))

/-- The pages of the range, in the order in which they are set or reset: the loop goes on to the last
page, or to the end of the bitmap. The address of the last byte saturates. -/
def pagesOf (b : AtomicBitmap) (startAddr len : BitVec 64) : List Nat :=
  if len = 0 then []
  else
    let firstBit := startAddr.toNat / b.pageSize.toNat
    let lastBit := min (startAddr.toNat + (len.toNat - 1)) (2 ^ 64 - 1) / b.pageSize.toNat
    List.range' firstBit (min (lastBit + 1) b.size - firstBit)

def setAddrRange (b : AtomicBitmap) (startAddr len : BitVec 64) : AtomicBitmap :=
  (b.pagesOf startAddr len).foldl setBit b

def resetAddrRange (b : AtomicBitmap) (startAddr len : BitVec 64) : AtomicBitmap :=
  (b.pagesOf startAddr len).foldl resetBit b

/-- The part of `get_and_reset` for one word: what it was. -/
def getAndResetWord (b : AtomicBitmap) (i : Nat) : BitVec 64 × AtomicBitmap :=
  (b.map.getD i 0, b.update i fun _ => 0)

/-- `get_and_reset`, if nobody else uses the bitmap. -/
def getAndReset (b : AtomicBitmap) : List (BitVec 64) × AtomicBitmap :=
  (b.map, { b with
    map := b.map.map fun _ => 0
    length_map := by rw [List.length_map, b.length_map] })

/-! ## Pages -/

section
variable {b : AtomicBitmap} {n k i : Nat}

theorem isBitSet_eq (b : AtomicBitmap) (n : Nat) :
    b.isBitSet n = (decide (n < b.size) && (b.map.getD (n / 64) 0).getLsbD (n % 64)) := by
  unfold isBitSet
  split
  · rename_i hn
    rw [decide_eq_true hn, Bool.true_and, Bool.eq_iff_iff, decide_eq_true_eq]
    exact and_bit_ne_zero (Nat.mod_lt n (by decide))
  · rename_i hn
    rw [decide_eq_false hn, Bool.false_and]

theorem word_lt (h : n < b.size) : n / 64 < b.map.length := by
  have := b.length_map
  omega

theorem getD_update (b : AtomicBitmap) (f : BitVec 64 → BitVec 64) (hi : i < b.map.length) (j : Nat) :
    (b.update i f).map.getD j 0 = if j = i then f (b.map.getD i 0) else b.map.getD j 0 := by
  show (b.map.modify i f).getD j 0 = _
  rw [List.getD_eq_getElem?_getD, List.getElem?_modify]
  by_cases hj : j = i
  · subst hj
    simp [hi]
  · simp [hj, Ne.symm hj]

@[simp] theorem size_setBit (b : AtomicBitmap) (n : Nat) : (b.setBit n).size = b.size := by
  unfold setBit
  split <;> rfl

@[simp] theorem size_resetBit (b : AtomicBitmap) (n : Nat) : (b.resetBit n).size = b.size := by
  unfold resetBit
  split <;> rfl

theorem isBitSet_setBit (b : AtomicBitmap) (n k : Nat) :
    (b.setBit n).isBitSet k = (b.isBitSet k || (decide (k = n) && decide (n < b.size))) := by
  rw [isBitSet_eq, size_setBit, isBitSet_eq]
  by_cases hn : n < b.size
  · have hlt : n % 64 < 64 := Nat.mod_lt n (by decide)
    rw [setBit, if_neg (by omega), getD_update b _ (word_lt hn)]
    by_cases hw : k / 64 = n / 64
    · rw [if_pos hw, getLsbD_or_bit, hw]
      by_cases hk : k = n
      · simp [hk, hn, hlt]
      · have : n % 64 ≠ k % 64 := by omega
        simp [hk, this]
    · have hk : k ≠ n := fun he => hw (by rw [he])
      simp [hw, hk]
  · rw [setBit, if_pos (by omega)]
    simp [hn]

theorem isBitSet_resetBit (b : AtomicBitmap) (n k : Nat) :
    (b.resetBit n).isBitSet k = (b.isBitSet k && !decide (k = n)) := by
  rw [isBitSet_eq, size_resetBit, isBitSet_eq]
  by_cases hn : n < b.size
  · rw [resetBit, if_neg (by omega), getD_update b _ (word_lt hn)]
    by_cases hw : k / 64 = n / 64
    · rw [if_pos hw, getLsbD_and_not_bit, hw]
      by_cases hk : k = n
      · simp [hk]
      · have : n % 64 ≠ k % 64 := by omega
        simp [hk, this]
    · have hk : k ≠ n := fun he => hw (by rw [he])
      simp [hw, hk]
  · rw [resetBit, if_pos (by omega)]
    by_cases hk : k = n
    · simp [hk, hn]
    · simp [hk]

theorem isBitSet_foldl_setBit (b : AtomicBitmap) (l : List Nat) (k : Nat) :
    (l.foldl setBit b).isBitSet k = (b.isBitSet k || (decide (k ∈ l) && decide (k < b.size))) := by
  induction l generalizing b with
  | nil => simp
  | cons n l ih =>
    rw [List.foldl_cons, ih, isBitSet_setBit, size_setBit]
    by_cases hk : k = n
    · subst hk
      cases b.isBitSet k <;> simp
    · simp [hk]

/-- The loop goes over the pages of the bitmap that have an address of the range. -/
theorem mem_pagesOf {startAddr len : BitVec 64} : k ∈ b.pagesOf startAddr len ↔
    k < b.size ∧ ∃ a, startAddr.toNat ≤ a ∧ a < startAddr.toNat + len.toNat ∧ a < 2 ^ 64 ∧
      a / b.pageSize.toNat = k := by
  have hp : 0 < b.pageSize.toNat := b.pageSize.pos
  have hs := startAddr.isLt
  unfold pagesOf
  split
  · rename_i hlen
    refine ⟨nofun, fun ⟨_, a, hlo, hhi, _⟩ => ?_⟩
    rw [hlen] at hhi
    exact absurd hhi (Nat.not_lt.mpr hlo)
  · rename_i hlen
    have hlen : 0 < len.toNat := Nat.pos_of_ne_zero fun h => hlen (BitVec.eq_of_toNat_eq h)
    rw [List.mem_range'_1]
    constructor
    · rintro ⟨hlo, hhi⟩
      have hlast : k ≤ min (startAddr.toNat + (len.toNat - 1)) (2 ^ 64 - 1) / b.pageSize.toNat := by omega
      have hlast := (Nat.le_div_iff_mul_le hp).mp hlast
      refine ⟨by omega, max startAddr.toNat (k * b.pageSize.toNat), by omega, by omega, by omega, ?_⟩
      have hstart := (Nat.div_lt_iff_lt_mul hp).mp (Nat.lt_succ_of_le hlo)
      refine Nat.div_eq_of_lt_le (Nat.le_max_right ..) ?_
      exact Nat.max_lt.mpr ⟨hstart, Nat.mul_lt_mul_of_pos_right (Nat.lt_succ_self k) hp⟩
    · rintro ⟨hk, a, hlo, hhi, ha, rfl⟩
      have hfirst : startAddr.toNat / b.pageSize.toNat ≤ a / b.pageSize.toNat :=
        Nat.div_le_div_right hlo
      have hlast : a / b.pageSize.toNat ≤
          min (startAddr.toNat + (len.toNat - 1)) (2 ^ 64 - 1) / b.pageSize.toNat :=
        Nat.div_le_div_right (by omega)
      omega

theorem isBitSet_setAddrRange (b : AtomicBitmap) (startAddr len : BitVec 64) (k : Nat) :
    (b.setAddrRange startAddr len).isBitSet k =
      (b.isBitSet k || decide (k ∈ b.pagesOf startAddr len)) := by
  rw [setAddrRange, isBitSet_foldl_setBit]
  by_cases hk : k ∈ b.pagesOf startAddr len
  · simp [hk, (mem_pagesOf.mp hk).1]
  · simp [hk]

end

/-! ## Threads -/

/-- An atomic step of a thread: of the loop of `set_addr_range`, of `reset_addr_range` or of
`get_and_reset`. -/
inductive Step
  | mark (page : Nat)
  | clear (page : Nat)
  | harvest (word : Nat)
deriving DecidableEq, Repr

/-- The step leaves the page clean. -/
def Step.Cleans (k : Nat) : Step → Prop
  | .mark _ => False
  | .clear page => page = k
  | .harvest word => word = k / 64

/-- The bitmap after a step, and what a harvest reports of its word. -/
def step (b : AtomicBitmap) : Step → AtomicBitmap × Option (Nat × BitVec 64)
  | .mark page => (b.setBit page, none)
  | .clear page => (b.resetBit page, none)
  | .harvest word => ((b.getAndResetWord word).2, some (word, (b.getAndResetWord word).1))

/-- The steps of the threads, in the order in which they are taken, with the reports. -/
def steps (b : AtomicBitmap) (l : List Step) : AtomicBitmap × List (Nat × BitVec 64) :=
  l.foldl (fun s o => ((s.1.step o).1, s.2 ++ (s.1.step o).2.toList)) (b, [])

/-- The page has been marked, and nothing has cleaned it since. -/
def Marked (k : Nat) (l : List Step) : Prop :=
  ∃ before after, l = before ++ .mark k :: after ∧ ∀ o ∈ after, ¬ o.Cleans k

/-- The words have no bits for pages that the bitmap does not have. -/
def Tidy (b : AtomicBitmap) : Prop :=
  ∀ i j, (b.map.getD i 0).getLsbD j = true → 64 * i + j < b.size

section
variable {b : AtomicBitmap} {n k i j : Nat} {l : List Step} {o : Step}

theorem marked_concat : Marked k (l ++ [o]) ↔ o = .mark k ∨ Marked k l ∧ ¬ o.Cleans k := by
  constructor
  · rintro ⟨before, after, he, ha⟩
    cases after using List.reverseRecOn with
    | nil => exact .inl (List.append_inj_right' he rfl |> List.cons.inj |>.1)
    | append_singleton after o' =>
      rw [← List.cons_append, ← List.append_assoc] at he
      obtain ⟨rfl, ho⟩ := List.append_inj' he rfl
      obtain rfl := (List.cons.inj ho).1
      refine .inr ⟨⟨before, after, rfl, fun x hx => ha x (List.mem_append_left _ hx)⟩, ?_⟩
      exact ha o (List.mem_append_right _ List.mem_cons_self)
  · rintro (rfl | ⟨⟨before, after, rfl, ha⟩, ho⟩)
    · exact ⟨l, [], rfl, nofun⟩
    · refine ⟨before, after ++ [o], by rw [List.append_assoc, List.cons_append], fun x hx => ?_⟩
      rcases List.mem_append.mp hx with hx | hx
      · exact ha x hx
      · rwa [List.mem_singleton.mp hx]

theorem isBitSet_getAndResetWord (b : AtomicBitmap) (i k : Nat) :
    (b.getAndResetWord i).2.isBitSet k = (b.isBitSet k && !decide (k / 64 = i)) := by
  show (b.update i fun _ => 0).isBitSet k = _
  rw [isBitSet_eq, isBitSet_eq]
  show (decide (k < b.size) && _) = _
  by_cases hk : k < b.size
  · by_cases hi : k / 64 = i
    · rw [getD_update b _ (hi ▸ word_lt hk), if_pos hi]
      simp [hi]
    · by_cases hlt : i < b.map.length
      · rw [getD_update b _ hlt, if_neg hi]
        simp [hi]
      · have : (b.update i fun _ => 0).map = b.map := List.modify_eq_self (Nat.not_lt.mp hlt)
        rw [this]
        simp [hi]
  · simp [hk]

theorem getD_new (byteSize : BitVec 64) (pageSize : NonZeroUsize) (i : Nat) :
    (new byteSize pageSize).map.getD i 0 = 0 := by
  show (List.replicate _ (0 : BitVec 64)).getD i 0 = 0
  rw [List.getD_eq_getElem?_getD, List.getElem?_replicate]
  split <;> rfl

theorem tidy_new (byteSize : BitVec 64) (pageSize : NonZeroUsize) :
    (new byteSize pageSize).Tidy := fun i j h => by
  rw [getD_new] at h
  simp at h

/-- A step that changes a word only at pages of the bitmap keeps it tidy. -/
theorem Tidy.update (hb : b.Tidy) {f : BitVec 64 → BitVec 64}
    (hf : ∀ w j, (f w).getLsbD j = true → w.getLsbD j = true ∨ 64 * i + j < b.size) :
    (b.update i f).Tidy := fun i' j h => by
  show 64 * i' + j < b.size
  by_cases hi : i < b.map.length
  · rw [getD_update b f hi] at h
    split at h
    · rename_i he
      subst he
      exact (hf _ j h).elim (hb i' j) id
    · exact hb i' j h
  · have : (b.update i f).map = b.map := List.modify_eq_self (Nat.not_lt.mp hi)
    rw [this] at h
    exact hb i' j h

theorem Tidy.step (hb : b.Tidy) (o : Step) : (b.step o).1.Tidy := by
  cases o with
  | mark page =>
    show (b.setBit page).Tidy
    unfold setBit
    split
    · exact hb
    · refine hb.update fun w j h => ?_
      rw [getLsbD_or_bit, Bool.or_eq_true, Bool.and_eq_true, decide_eq_true_eq, decide_eq_true_eq] at h
      exact h.imp_right fun h => by omega
  | clear page =>
    show (b.resetBit page).Tidy
    unfold resetBit
    split
    · exact hb
    · refine hb.update fun w j h => ?_
      rw [getLsbD_and_not_bit, Bool.and_eq_true] at h
      exact .inl h.1
  | harvest word =>
    refine hb.update fun w j h => ?_
    simp at h

/-- A step changes no more than words. -/
theorem step_sizes (b : AtomicBitmap) (o : Step) : (b.step o).1.size = b.size ∧
    (b.step o).1.byteSize = b.byteSize ∧ (b.step o).1.pageSize = b.pageSize := by
  cases o with
  | mark page =>
    show (b.setBit page).size = _ ∧ (b.setBit page).byteSize = _ ∧ (b.setBit page).pageSize = _
    unfold setBit
    split <;> exact ⟨rfl, rfl, rfl⟩
  | clear page =>
    show (b.resetBit page).size = _ ∧ (b.resetBit page).byteSize = _ ∧ (b.resetBit page).pageSize = _
    unfold resetBit
    split <;> exact ⟨rfl, rfl, rfl⟩
  | harvest word => exact ⟨rfl, rfl, rfl⟩

theorem isBitSet_step (b : AtomicBitmap) (o : Step) (k : Nat) :
    (b.step o).1.isBitSet k = true ↔
      (o = .mark k ∧ k < b.size) ∨ b.isBitSet k = true ∧ ¬ o.Cleans k := by
  cases o with
  | mark page =>
    show (b.setBit page).isBitSet k = true ↔ _
    rw [isBitSet_setBit]
    by_cases hk : k = page
    · subst hk
      simp [Step.Cleans, or_comm]
    · simp [Step.Cleans, hk, Ne.symm hk]
  | clear page =>
    show (b.resetBit page).isBitSet k = true ↔ _
    rw [isBitSet_resetBit]
    simp [Step.Cleans, eq_comm (a := page)]
  | harvest word =>
    show (b.getAndResetWord word).2.isBitSet k = true ↔ _
    rw [isBitSet_getAndResetWord]
    simp [Step.Cleans, eq_comm (a := word)]

theorem steps_concat (b : AtomicBitmap) (l : List Step) (o : Step) : b.steps (l ++ [o]) =
    (((b.steps l).1.step o).1, (b.steps l).2 ++ ((b.steps l).1.step o).2.toList) := by
  rw [steps, List.foldl_append]
  rfl

theorem steps_sizes (b : AtomicBitmap) (l : List Step) : (b.steps l).1.size = b.size ∧
    (b.steps l).1.byteSize = b.byteSize ∧ (b.steps l).1.pageSize = b.pageSize := by
  induction l using List.reverseRecOn with
  | nil => exact ⟨rfl, rfl, rfl⟩
  | append_singleton l o ih =>
    rw [steps_concat]
    obtain ⟨hsize, hbytes, hpage⟩ := (b.steps l).1.step_sizes o
    exact ⟨hsize.trans ih.1, hbytes.trans ih.2.1, hpage.trans ih.2.2⟩

/-- What a run of a fresh bitmap keeps: a page is dirty if it is marked since it was cleaned. -/
theorem steps_new (byteSize : BitVec 64) (pageSize : NonZeroUsize) (l : List Step) :
    ((new byteSize pageSize).steps l).1.Tidy ∧
    ∀ k, ((new byteSize pageSize).steps l).1.isBitSet k = true ↔
      k < numPages byteSize pageSize ∧ Marked k l := by
  induction l using List.reverseRecOn with
  | nil =>
    refine ⟨tidy_new byteSize pageSize, fun k => ?_⟩
    show (new byteSize pageSize).isBitSet k = true ↔ _
    rw [isBitSet_eq, getD_new]
    simp [Marked]
  | append_singleton l o ih =>
    obtain ⟨htidy, hbit⟩ := ih
    have hsize := ((new byteSize pageSize).steps_sizes l).1
    rw [steps_concat]
    refine ⟨htidy.step o, fun k => ?_⟩
    show (((new byteSize pageSize).steps l).1.step o).1.isBitSet k = true ↔ _
    rw [isBitSet_step, hbit, hsize, marked_concat]
    show (o = .mark k ∧ k < numPages byteSize pageSize) ∨ _ ↔ _
    tauto

/-- A loop over pages is a run of steps that nobody interrupts. -/
theorem steps_map (b : AtomicBitmap) (o : Nat → Step) (pages : List Nat) :
    (b.steps (pages.map o)).1 = pages.foldl (fun b page => (b.step (o page)).1) b := by
  induction pages using List.reverseRecOn with
  | nil => rfl
  | append_singleton pages n ih =>
    rw [List.map_append, List.map_singleton, steps_concat, ih, List.foldl_append]
    rfl

theorem setAddrRange_eq_steps (b : AtomicBitmap) (startAddr len : BitVec 64) :
    (b.steps ((b.pagesOf startAddr len).map .mark)).1 = b.setAddrRange startAddr len :=
  b.steps_map .mark _

theorem resetAddrRange_eq_steps (b : AtomicBitmap) (startAddr len : BitVec 64) :
    (b.steps ((b.pagesOf startAddr len).map .clear)).1 = b.resetAddrRange startAddr len :=
  b.steps_map .clear _

theorem steps_harvest (b : AtomicBitmap) {m : Nat} (hm : m ≤ b.map.length) :
    (b.steps ((List.range m).map .harvest)).1.map = List.replicate m 0 ++ b.map.drop m ∧
    (b.steps ((List.range m).map .harvest)).2 = (List.range m).map fun i => (i, b.map.getD i 0) := by
  induction m with
  | zero => exact ⟨rfl, rfl⟩
  | succ m ih =>
    obtain ⟨hmap, hreports⟩ := ih (Nat.le_of_succ_le hm)
    have hdrop : b.map.drop m = b.map.get ⟨m, hm⟩ :: b.map.drop (m + 1) := List.drop_eq_getElem_cons hm
    have hword : (b.steps ((List.range m).map .harvest)).1.map.getD m 0 = b.map.getD m 0 := by
      rw [hmap, List.getD_eq_getElem?_getD, List.getElem?_append_right (by simp), hdrop]
      simp [List.getElem?_eq_getElem hm]
    rw [List.range_succ, List.map_append, List.map_singleton, steps_concat]
    constructor
    · show (b.steps ((List.range m).map .harvest)).1.map.modify m (fun _ => 0) = _
      have hlt : m < (List.replicate m (0 : BitVec 64) ++ b.map.drop m).length := by
        rw [List.length_append, List.length_replicate, List.length_drop]
        omega
      rw [hmap, List.modify_eq_take_cons_drop hlt, List.replicate_succ', List.append_assoc]
      simp [List.drop_append]
    · show _ ++ [(m, (b.steps ((List.range m).map .harvest)).1.map.getD m 0)] = _
      rw [hreports, hword, List.map_append, List.map_singleton]

/-- Nobody else uses the bitmap: the call reports all the words, and leaves none dirty. -/
theorem getAndReset_eq_steps (b : AtomicBitmap) :
    (b.steps ((List.range b.map.length).map .harvest)).1.map = b.getAndReset.2.map ∧
    (b.steps ((List.range b.map.length).map .harvest)).2.map Prod.snd = b.getAndReset.1 := by
  obtain ⟨hmap, hreports⟩ := b.steps_harvest le_rfl
  constructor
  · rw [hmap, List.drop_length, List.append_nil]
    exact List.map_const'.symm
  · rw [hreports, List.map_map]
    refine List.ext_getElem (by simp [getAndReset]) fun i hi hi' => ?_
    have : i < b.map.length := hi'
    simp [getAndReset, this]

/-- Marking a range changes no more than words. -/
theorem byteSize_setAddrRange (b : AtomicBitmap) (startAddr len : BitVec 64) :
    (b.setAddrRange startAddr len).byteSize = b.byteSize := by
  rw [← setAddrRange_eq_steps]
  exact (b.steps_sizes _).2.1

theorem pageSize_setAddrRange (b : AtomicBitmap) (startAddr len : BitVec 64) :
    (b.setAddrRange startAddr len).pageSize = b.pageSize := by
  rw [← setAddrRange_eq_steps]
  exact (b.steps_sizes _).2.2

theorem getLsbD_word {byteSize : BitVec 64} {pageSize : NonZeroUsize} (l : List Step)
    (i j : Nat) (hj : j < 64) :
    ((((new byteSize pageSize).steps l).1.map.getD i 0).getLsbD j = true) ↔
      64 * i + j < numPages byteSize pageSize ∧ Marked (64 * i + j) l := by
  have hsize : ((new byteSize pageSize).steps l).1.size = numPages byteSize pageSize :=
    ((new byteSize pageSize).steps_sizes l).1
  obtain ⟨htidy, hbit⟩ := steps_new byteSize pageSize l
  have hdiv : (64 * i + j) / 64 = i := by omega
  have hmod : (64 * i + j) % 64 = j := by omega
  rw [← hbit, isBitSet_eq, hdiv, hmod, hsize, Bool.and_eq_true, decide_eq_true_eq]
  exact ⟨fun h => ⟨hsize ▸ htidy i j h, h⟩, And.right⟩

theorem mem_reports {i : Nat} {w : BitVec 64} : (i, w) ∈ (b.steps l).2 ↔
    ∃ before after, l = before ++ .harvest i :: after ∧ w = (b.steps before).1.map.getD i 0 := by
  induction l using List.reverseRecOn with
  | nil => simp [steps]
  | append_singleton l o ih =>
    rw [steps_concat, List.mem_append, ih]
    constructor
    · rintro (⟨before, after, rfl, hw⟩ | h)
      · exact ⟨before, after ++ [o], by rw [List.append_assoc, List.cons_append], hw⟩
      · cases o with
        | mark page => simp [step] at h
        | clear page => simp [step] at h
        | harvest word =>
          obtain ⟨rfl, rfl⟩ := Prod.mk.inj (List.mem_singleton.mp h)
          exact ⟨l, [], rfl, rfl⟩
    · rintro ⟨before, after, he, hw⟩
      cases after using List.reverseRecOn with
      | nil =>
        obtain ⟨rfl, ho⟩ := List.append_inj' he rfl
        obtain rfl := (List.cons.inj ho).1
        exact .inr (List.mem_singleton.mpr (congrArg _ hw))
      | append_singleton after o' =>
        rw [← List.cons_append, ← List.append_assoc] at he
        exact .inl ⟨before, after, (List.append_inj' he rfl).1, hw⟩

/-- A page that was marked is still so, or was cleaned since. -/
theorem marked_or_cleaned (h : .mark k ∈ l) :
    Marked k l ∨ ∃ before o after, l = before ++ o :: after ∧ o.Cleans k ∧ Marked k before := by
  induction l using List.reverseRecOn with
  | nil => cases h
  | append_singleton l o ih =>
    rcases List.mem_append.mp h with h | h
    · rcases ih h with h | ⟨before, o', after, rfl, ho, hb⟩
      · by_cases ho : o.Cleans k
        · exact .inr ⟨l, o, [], rfl, ho, h⟩
        · exact .inl (marked_concat.mpr (.inr ⟨h, ho⟩))
      · exact .inr ⟨before, o', after ++ [o], by rw [List.append_assoc, List.cons_append], ho, hb⟩
    · exact .inl (marked_concat.mpr (.inl (List.mem_singleton.mp h).symm))

theorem Marked.mem (h : Marked k l) : .mark k ∈ l := by
  obtain ⟨before, after, rfl, -⟩ := h
  exact List.mem_append_right _ List.mem_cons_self

/-- The pages of the bytes are in the bitmap. -/
theorem page_lt {byteSize : BitVec 64} {a : Nat} (pageSize : NonZeroUsize) (ha : a < byteSize.toNat) :
    a / pageSize.toNat < numPages byteSize pageSize := by
  have hp : 0 < pageSize.toNat := pageSize.pos
  have h : (a + pageSize.toNat) / pageSize.toNat ≤ numPages byteSize pageSize :=
    Nat.div_le_div_right (by omega)
  rw [Nat.add_div_right _ hp] at h
  exact h

/-- Whatever the steps and their order, a page is dirty if it was marked and not cleaned since, and a
harvest of a word reports the pages of the word that were: those that were marked since the last
harvest of the word. -/
theorem harvest_exact (byteSize : BitVec 64) (pageSize : NonZeroUsize) (l : List Step) :
    (∀ k, ((new byteSize pageSize).steps l).1.isBitSet k = true ↔
      k < numPages byteSize pageSize ∧ Marked k l) ∧
    (∀ i w, (i, w) ∈ ((new byteSize pageSize).steps l).2 ↔
      ∃ before after, l = before ++ .harvest i :: after ∧ ∀ j < 64, w.getLsbD j = true ↔
        64 * i + j < numPages byteSize pageSize ∧ Marked (64 * i + j) before) := by
  refine ⟨(steps_new byteSize pageSize l).2, fun i w => ?_⟩
  rw [mem_reports]
  refine exists_congr fun before => exists_congr fun after => and_congr_right fun _ => ?_
  constructor
  · rintro rfl j hj
    exact getLsbD_word before i j hj
  · intro h
    refine BitVec.eq_of_getLsbD_eq fun j hj => ?_
    rw [Bool.eq_iff_iff, h j hj, getLsbD_word before i j hj]

/-- No page is lost: if the steps of a call for a range are among those that were taken, and no page
is reset, a page of the range is dirty in the end, or in a report. And none is made up: what is dirty
or in a report was marked. -/
theorem range_reported (byteSize : BitVec 64) (pageSize : NonZeroUsize) (l : List Step) :
    ((∀ k, .clear k ∉ l) → ∀ startAddr len : BitVec 64,
      (((new byteSize pageSize).pagesOf startAddr len).map .mark).Sublist l →
      ∀ a : BitVec 64, startAddr.toNat ≤ a.toNat → a.toNat < startAddr.toNat + len.toNat →
        a.toNat < byteSize.toNat →
        ((new byteSize pageSize).steps l).1.isAddrSet a = true ∨
        ∃ w, (a.toNat / pageSize.toNat / 64, w) ∈ ((new byteSize pageSize).steps l).2 ∧
          w.getLsbD (a.toNat / pageSize.toNat % 64) = true) ∧
    (∀ a : BitVec 64, ((new byteSize pageSize).steps l).1.isAddrSet a = true →
      .mark (a.toNat / pageSize.toNat) ∈ l) ∧
    (∀ i w, (i, w) ∈ ((new byteSize pageSize).steps l).2 → ∀ j < 64, w.getLsbD j = true →
      .mark (64 * i + j) ∈ l) := by
  have hpage : ((new byteSize pageSize).steps l).1.pageSize = pageSize :=
    ((new byteSize pageSize).steps_sizes l).2.2
  have hbit := (steps_new byteSize pageSize l).2
  refine ⟨fun hl startAddr len hrange a hlo hhi ha => ?_, fun a h => ?_, fun i w h j hj hw => ?_⟩
  · have hk : a.toNat / pageSize.toNat < numPages byteSize pageSize := page_lt pageSize ha
    have hmem : a.toNat / pageSize.toNat ∈ (new byteSize pageSize).pagesOf startAddr len :=
      mem_pagesOf.mpr ⟨hk, a.toNat, hlo, hhi, a.isLt, rfl⟩
    rcases marked_or_cleaned (hrange.subset (List.mem_map_of_mem hmem)) with hm | h
    · refine .inl ?_
      rw [isAddrSet, hpage]
      exact (hbit _).mpr ⟨hk, hm⟩
    · obtain ⟨before, o, after, rfl, ho, hm⟩ := h
      cases o with
      | mark page => exact ho.elim
      | clear page => exact absurd (List.mem_append_right _ List.mem_cons_self) (hl page)
      | harvest word =>
        obtain rfl : word = a.toNat / pageSize.toNat / 64 := ho
        refine .inr ⟨_, mem_reports.mpr ⟨before, after, rfl, rfl⟩, ?_⟩
        rw [getLsbD_word before _ _ (Nat.mod_lt _ (by decide)), Nat.div_add_mod]
        exact ⟨hk, hm⟩
  · rw [isAddrSet, hpage] at h
    exact ((hbit _).mp h).2.mem
  · obtain ⟨before, after, rfl, rfl⟩ := mem_reports.mp h
    exact List.mem_append_left _ ((getLsbD_word before i j hj).mp hw).2.mem

def shortPage : NonZeroUsize := ⟨0x100, by decide⟩

/-- A write across two short pages, while another thread harvests. -/
theorem range_reported_split :
    ((new 0x200 shortPage).steps [.mark 0, .harvest 0, .mark 1]).1.isAddrSet 0xff = true ∨
      ∃ w, (0, w) ∈ ((new 0x200 shortPage).steps [.mark 0, .harvest 0, .mark 1]).2 ∧
        w.getLsbD 0 = true :=
  (range_reported 0x200 shortPage [.mark 0, .harvest 0, .mark 1]).1 (by simp) 0xfe 4
    (by decide) 0xff (by decide) (by decide) (by decide)

/-! ## More bytes -/

theorem numPages_mono {m n : BitVec 64} {p : NonZeroUsize} (h : m.toNat ≤ n.toNat) :
    numPages m p ≤ numPages n p :=
  Nat.div_le_div_right (by omega)

/-- A bitmap that is enlarged between steps has the dirty pages that it had, and no other. -/
theorem enlarge_dirty {byteSize additionalSize : BitVec 64} {pageSize : NonZeroUsize}
    {ck : Bool} {b' : AtomicBitmap} (hfit : byteSize.toNat + additionalSize.toNat < 2 ^ 64)
    (h : ((new byteSize pageSize).steps l).1.enlarge ck additionalSize = some b') :
    b'.size = numPages (byteSize + additionalSize) pageSize ∧
      ∀ k, b'.isBitSet k = ((new byteSize pageSize).steps l).1.isBitSet k := by
  have htidy := (steps_new byteSize pageSize l).1
  obtain ⟨-, hbytes, hpage⟩ := (new byteSize pageSize).steps_sizes l
  generalize ((new byteSize pageSize).steps l).1 = b at h htidy hbytes hpage
  have hbytes : b.byteSize = byteSize := hbytes
  have hpage : b.pageSize = pageSize := hpage
  rw [enlarge, hbytes, plainAdd_of_lt ck hfit] at h
  obtain rfl := Option.some.inj h
  have hsum : (byteSize + additionalSize).toNat = byteSize.toNat + additionalSize.toNat :=
    BitVec.toNat_add_of_lt hfit
  have hgrow : b.size ≤ numPages (byteSize + additionalSize) b.pageSize := by
    rw [b.size_eq, hbytes]
    exact numPages_mono (by omega)
  refine ⟨congrArg (numPages (byteSize + additionalSize)) hpage, fun k => ?_⟩
  have hlen : b.map.length ≤ (numPages (byteSize + additionalSize) b.pageSize + 63) / 64 := by
    have := b.length_map
    omega
  have hword : ∀ n, (b.map ++ List.replicate n (0 : BitVec 64)).getD (k / 64) 0 = b.map.getD (k / 64) 0 :=
    fun n => by
      rw [List.getD_eq_getElem?_getD, List.getD_eq_getElem?_getD, List.getElem?_append]
      split
      · rfl
      · rename_i hk
        rw [List.getElem?_eq_none (Nat.not_lt.mp hk), List.getElem?_replicate]
        split <;> rfl
  rw [isBitSet_eq, isBitSet_eq]
  simp only [List.take_of_length_le hlen, hword]
  cases hbit : (b.map.getD (k / 64) 0).getLsbD (k % 64) with
  | false => simp
  | true =>
    have := htidy _ _ hbit
    have hk : k < b.size := by omega
    simp [hk, Nat.lt_of_lt_of_le hk hgrow]

end

end AtomicBitmap

end Whypa.VmMemory
