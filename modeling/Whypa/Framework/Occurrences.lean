import Mathlib.Algebra.Ring.Nat
import Mathlib.Data.List.Basic
import Mathlib.Data.Nat.Find

/-!
# Removing the occurrences of a pattern

A scanner goes through a list once, skips what it recognises and keeps the rest
(`Matcher.strip`, `Matcher.count`). Its words all begin with a letter that they
have nowhere else, so that two occurrences never overlap, and a list can be
scanned in two pieces unless an occurrence straddles the cut
(`strip_append_iff`), and in any number of pieces (`flatMap_strip_iff`).

What is left is the list without its leftmost words (`removed_iff`).
-/

namespace Framework

/-- A scanner for words, by the length of the word at the front of a list. -/
structure Matcher (α : Type) where
  word : List α → Prop
  len : List α → Option Nat
  len_eq_some : ∀ {xs n}, len xs = some n ↔ n ≤ xs.length ∧ word (xs.take n)
  /-- The letter that begins a word. -/
  lead : α
  lead_once : ∀ {w}, word w → ∃ t, w = lead :: t ∧ lead ∉ t

/-- `ys` is `xs` without its first word, the first word of what follows that
one, and so on. -/
inductive Removed {α : Type} (W : List α → Prop) : List α → List α → Prop
  | none {xs : List α} (h : ∀ u w v, xs = u ++ w ++ v → ¬W w) : Removed W xs xs
  | next {u w v ys : List α} (hw : W w)
      (hfirst : ∀ u' w' v', u ++ w ++ v = u' ++ w' ++ v' → W w' → u.length ≤ u'.length)
      (h : Removed W v ys) : Removed W (u ++ w ++ v) (u ++ ys)

namespace Matcher

variable {α : Type} (m : Matcher α)

/-- The list without its words, after the next `k` letters. -/
def stripFrom : Nat → List α → List α
  | _, [] => []
  | k + 1, _ :: xs => stripFrom k xs
  | 0, x :: xs =>
    match m.len (x :: xs) with
    | some n => stripFrom (n - 1) xs
    | none => x :: stripFrom 0 xs

/-- How many words are found, after the next `k` letters. -/
def countFrom : Nat → List α → Nat
  | _, [] => 0
  | k + 1, _ :: xs => countFrom k xs
  | 0, x :: xs =>
    match m.len (x :: xs) with
    | some n => countFrom (n - 1) xs + 1
    | none => countFrom 0 xs

def strip (xs : List α) : List α := m.stripFrom 0 xs

def count (xs : List α) : Nat := m.countFrom 0 xs

/-- A word has a part in each of the two lists. -/
def Straddles (xs ys : List α) : Prop :=
  ∃ u v s t, xs = u ++ v ∧ ys = s ++ t ∧ v ≠ [] ∧ s ≠ [] ∧ m.word (v ++ s)

variable {m} {xs ys : List α} {n k : Nat}

/-! ## Words -/

theorem pos_of_len (h : m.len xs = some n) : 0 < n := by
  obtain ⟨-, hw⟩ := m.len_eq_some.mp h
  obtain ⟨t, ht, -⟩ := m.lead_once hw
  rcases Nat.eq_zero_or_pos n with rfl | hn
  · simp at ht
  · exact hn

theorem le_of_len (h : m.len xs = some n) : n ≤ xs.length := (m.len_eq_some.mp h).1

/-- A word is found whatever follows it. -/
theorem len_append (h : m.len xs = some n) (ys : List α) : m.len (xs ++ ys) = some n := by
  obtain ⟨hn, hw⟩ := m.len_eq_some.mp h
  refine m.len_eq_some.mpr ⟨by simp; omega, ?_⟩
  rwa [List.take_append_of_le_length hn]

theorem len_of_append (h : m.len (xs ++ ys) = some n) (hn : n ≤ xs.length) : m.len xs = some n := by
  obtain ⟨-, hw⟩ := m.len_eq_some.mp h
  refine m.len_eq_some.mpr ⟨hn, ?_⟩
  rwa [List.take_append_of_le_length hn] at hw

/-! ## One list -/

@[simp] theorem stripFrom_nil (k : Nat) : m.stripFrom k [] = [] := by cases k <;> rfl

@[simp] theorem countFrom_nil (k : Nat) : m.countFrom k [] = 0 := by cases k <;> rfl

theorem stripFrom_drop (k : Nat) (xs : List α) : m.stripFrom k xs = m.strip (xs.drop k) := by
  induction k generalizing xs with
  | zero => rfl
  | succ k ih =>
    cases xs with
    | nil => simp [strip]
    | cons x xs => exact ih xs

theorem countFrom_drop (k : Nat) (xs : List α) : m.countFrom k xs = m.count (xs.drop k) := by
  induction k generalizing xs with
  | zero => rfl
  | succ k ih =>
    cases xs with
    | nil => simp [count]
    | cons x xs => exact ih xs

theorem strip_of_len (h : m.len xs = some n) : m.strip xs = m.strip (xs.drop n) := by
  obtain ⟨n, rfl⟩ := Nat.exists_eq_add_of_lt (pos_of_len h)
  cases xs with
  | nil => exact absurd (le_of_len h) (by simp)
  | cons x xs =>
    rw [Nat.zero_add] at h ⊢
    rw [strip, stripFrom, h]
    exact stripFrom_drop n xs

theorem count_of_len (h : m.len xs = some n) : m.count xs = m.count (xs.drop n) + 1 := by
  obtain ⟨n, rfl⟩ := Nat.exists_eq_add_of_lt (pos_of_len h)
  cases xs with
  | nil => exact absurd (le_of_len h) (by simp)
  | cons x xs =>
    rw [Nat.zero_add] at h ⊢
    rw [count, countFrom, h]
    exact congrArg (· + 1) (countFrom_drop n xs)

theorem strip_cons {x : α} (h : m.len (x :: xs) = none) : m.strip (x :: xs) = x :: m.strip xs := by
  rw [strip, stripFrom, h]
  rfl

theorem count_cons {x : α} (h : m.len (x :: xs) = none) : m.count (x :: xs) = m.count xs := by
  rw [count, countFrom, h]
  rfl

theorem len_of_ne_lead {x : α} (h : m.lead ≠ x) (xs : List α) : m.len (x :: xs) = none := by
  rw [Option.eq_none_iff_forall_ne_some]
  intro n hn
  obtain ⟨t, ht, -⟩ := m.lead_once (m.len_eq_some.mp hn).2
  obtain ⟨n, rfl⟩ := Nat.exists_eq_add_of_lt (pos_of_len hn)
  rw [Nat.zero_add, List.take_succ_cons] at ht
  exact h (List.cons.inj ht).1.symm

/-- A list without the letter that begins words. -/
theorem strip_of_not_mem (h : m.lead ∉ xs) : m.strip xs = xs := by
  induction xs with
  | nil => rfl
  | cons x xs ih =>
    rw [List.mem_cons, not_or] at h
    rw [strip_cons (len_of_ne_lead h.1 xs), ih h.2]

/-! ## Two lists -/

theorem straddles_iff : m.Straddles xs ys ↔
    ∃ i n, i < xs.length ∧ xs.length < i + n ∧ m.len ((xs ++ ys).drop i) = some n := by
  constructor
  · rintro ⟨u, v, s, t, rfl, rfl, hv, hs, hw⟩
    have hv' := List.length_pos_iff.mpr hv
    have hs' := List.length_pos_iff.mpr hs
    have hd : (u ++ v ++ (s ++ t)).drop u.length = v ++ s ++ t := by
      rw [List.append_assoc, List.drop_left, List.append_assoc]
    refine ⟨u.length, v.length + s.length, by simp; omega, by simp; omega, ?_⟩
    rw [hd, ← List.length_append]
    exact m.len_eq_some.mpr ⟨by simp, by rwa [List.take_left]⟩
  · rintro ⟨i, n, hi, hn, h⟩
    obtain ⟨hle, hw⟩ := m.len_eq_some.mp h
    rw [List.length_drop, List.length_append] at hle
    rw [List.drop_append_of_le_length (Nat.le_of_lt hi), List.take_append, List.length_drop,
      List.take_of_length_le (by rw [List.length_drop]; omega)] at hw
    refine ⟨xs.take i, xs.drop i, ys.take (n - (xs.length - i)), ys.drop (n - (xs.length - i)),
      (List.take_append_drop ..).symm, (List.take_append_drop ..).symm, ?_, ?_, hw⟩
    · exact List.length_pos_iff.mp (by rw [List.length_drop]; omega)
    · exact List.length_pos_iff.mp (by rw [List.length_take]; omega)

theorem straddles_cons {x : α} (h : m.Straddles xs ys) : m.Straddles (x :: xs) ys := by
  obtain ⟨u, v, s, t, rfl, rfl, hv, hs, hw⟩ := h
  exact ⟨x :: u, v, s, t, rfl, rfl, hv, hs, hw⟩

/-- Lists with no word across the cut are scanned one after the other. -/
theorem scan_append (h : ¬m.Straddles xs ys) :
    m.strip (xs ++ ys) = m.strip xs ++ m.strip ys ∧ m.count (xs ++ ys) = m.count xs + m.count ys := by
  induction hl : xs.length using Nat.strong_induction_on generalizing xs with
  | _ l ih =>
    cases xs with
    | nil => exact ⟨rfl, (Nat.zero_add _).symm⟩
    | cons x xs =>
      cases hx : m.len (x :: xs ++ ys) with
      | none =>
        have hx' : m.len (x :: xs) = none := by
          rw [Option.eq_none_iff_forall_ne_some]
          intro n hn
          rw [len_append hn ys] at hx
          cases hx
        obtain ⟨hs, hc⟩ := ih xs.length (by simp at hl; omega) (fun hs => h (straddles_cons hs)) rfl
        rw [List.cons_append] at hx ⊢
        rw [strip_cons hx, strip_cons hx', count_cons hx, count_cons hx', hs, hc]
        exact ⟨rfl, rfl⟩
      | some n =>
        have hn : n ≤ (x :: xs).length := by
          by_contra hn
          exact h (straddles_iff.mpr ⟨0, n, by simp, by omega, by simpa using hx⟩)
        have hx' := len_of_append hx hn
        have hd : (x :: xs ++ ys).drop n = (x :: xs).drop n ++ ys := List.drop_append_of_le_length hn
        have hpos := pos_of_len hx
        have hnot : ¬m.Straddles ((x :: xs).drop n) ys := by
          rintro ⟨u, v, s, t, hu, rfl, hv, hs, hw⟩
          refine h ⟨(x :: xs).take n ++ u, v, s, t, ?_, rfl, hv, hs, hw⟩
          rw [List.append_assoc, ← hu, List.take_append_drop]
        obtain ⟨hs, hc⟩ := ih (l - n) (by simp at hl; omega) hnot (by rw [List.length_drop, hl])
        rw [strip_of_len hx, strip_of_len hx', count_of_len hx, count_of_len hx', hd, hs, hc]
        exact ⟨rfl, by omega⟩

/-- A word that begins where the second list does is in that list. -/
theorem not_straddles_lead (xs ys : List α) : ¬m.Straddles xs (m.lead :: ys) := by
  rintro ⟨u, v, s, t, -, hys, hv, hs, hw⟩
  obtain ⟨w, hw', hlead⟩ := m.lead_once hw
  cases v with
  | nil => exact hv rfl
  | cons b v =>
    cases s with
    | nil => exact hs rfl
    | cons a s =>
      obtain ⟨rfl, -⟩ := List.cons.inj hys
      obtain ⟨-, rfl⟩ := List.cons.inj hw'
      exact hlead (by simp)

theorem not_straddles_of_not_mem (h : m.lead ∉ xs) (ys : List α) : ¬m.Straddles xs ys := by
  rintro ⟨u, v, s, t, rfl, -, hv, -, hw⟩
  obtain ⟨w, hw', -⟩ := m.lead_once hw
  cases v with
  | nil => exact hv rfl
  | cons b v =>
    obtain ⟨rfl, -⟩ := List.cons.inj hw'
    exact h (by simp)

/-- A word across the cut is removed only from the two lists together. -/
theorem length_strip_lt (h : m.Straddles xs ys) :
    (m.strip (xs ++ ys)).length < (m.strip xs ++ m.strip ys).length := by
  obtain ⟨u, v, s, t, rfl, rfl, hv, hs, hw⟩ := h
  obtain ⟨w, hw', hlead⟩ := m.lead_once hw
  obtain ⟨v, rfl⟩ : ∃ v', v = m.lead :: v' := by
    cases v with
    | nil => exact absurd rfl hv
    | cons b v => exact ⟨v, by rw [(List.cons.inj hw').1]⟩
  obtain rfl : w = v ++ s := (List.cons.inj hw').2.symm
  rw [List.mem_append, not_or] at hlead
  have hlen : m.len (m.lead :: v ++ s ++ t) = some (m.lead :: v ++ s).length :=
    m.len_eq_some.mpr ⟨by simp, by rwa [List.take_left]⟩
  have hnone : m.len (m.lead :: v) = none := by
    rw [Option.eq_none_iff_forall_ne_some]
    intro n hn
    have happ := len_append hn (s ++ t)
    rw [← List.append_assoc, hlen, Option.some.injEq] at happ
    have hle := le_of_len hn
    have hs' := List.length_pos_iff.mpr hs
    rw [← happ, List.length_append] at hle
    omega
  have hall : u ++ m.lead :: v ++ (s ++ t) = u ++ (m.lead :: v ++ s ++ t) := by simp
  have hboth : m.strip (u ++ (m.lead :: v ++ s ++ t)) = m.strip u ++ m.strip t := by
    have h : m.strip (u ++ m.lead :: (v ++ s ++ t)) =
        m.strip u ++ m.strip (m.lead :: v ++ s ++ t) :=
      (scan_append (not_straddles_lead u (v ++ s ++ t))).1
    rwa [strip_of_len hlen, List.drop_left] at h
  have hfst : m.strip (u ++ m.lead :: v) = m.strip u ++ m.lead :: v := by
    rw [(scan_append (not_straddles_lead u v)).1, strip_cons hnone, strip_of_not_mem hlead.1]
  have hsnd : m.strip (s ++ t) = s ++ m.strip t := by
    rw [(scan_append (not_straddles_of_not_mem hlead.2 t)).1, strip_of_not_mem hlead.2]
  rw [hall, hboth, hfst, hsnd]
  simp only [List.length_append, List.length_cons]
  omega

theorem length_strip_append_le (xs ys : List α) :
    (m.strip (xs ++ ys)).length ≤ (m.strip xs ++ m.strip ys).length := by
  by_cases h : m.Straddles xs ys
  · exact Nat.le_of_lt (length_strip_lt h)
  · rw [(scan_append h).1]

theorem strip_append_iff : m.strip (xs ++ ys) = m.strip xs ++ m.strip ys ↔ ¬m.Straddles xs ys := by
  refine ⟨fun h hs => ?_, fun h => (scan_append h).1⟩
  have := length_strip_lt hs
  rw [h] at this
  exact Nat.lt_irrefl _ this

/-- A word is removed, and what is around it is scanned for itself. -/
theorem scan_word {u w v : List α} (h : m.word w) :
    m.strip (u ++ w ++ v) = m.strip u ++ m.strip v ∧
      m.count (u ++ w ++ v) = m.count u + m.count v + 1 := by
  obtain ⟨t, rfl, -⟩ := m.lead_once h
  have hlen : m.len (m.lead :: t ++ v) = some (m.lead :: t).length :=
    m.len_eq_some.mpr ⟨by simp, by rwa [List.take_left]⟩
  have hnot : ¬m.Straddles u (m.lead :: t ++ v) := not_straddles_lead u (t ++ v)
  rw [List.append_assoc, (scan_append hnot).1, (scan_append hnot).2, strip_of_len hlen,
    count_of_len hlen, List.drop_left]
  exact ⟨rfl, by omega⟩

/-- What is counted is there. -/
theorem exists_word_of_count (h : 0 < m.count xs) : ∃ u w v, xs = u ++ w ++ v ∧ m.word w := by
  induction xs with
  | nil => exact absurd h (Nat.lt_irrefl 0)
  | cons x xs ih =>
    cases hx : m.len (x :: xs) with
    | none =>
      rw [count_cons hx] at h
      obtain ⟨u, w, v, rfl, hw⟩ := ih h
      exact ⟨x :: u, w, v, rfl, hw⟩
    | some n =>
      obtain ⟨-, hw⟩ := m.len_eq_some.mp hx
      exact ⟨[], _, (x :: xs).drop n, (List.take_append_drop n _).symm, hw⟩

theorem two_le_count_iff : 2 ≤ m.count xs ↔
    ∃ x w y w' z, xs = x ++ w ++ y ++ w' ++ z ∧ m.word w ∧ m.word w' := by
  constructor
  · intro h
    obtain ⟨u, w, v, rfl, hw⟩ := exists_word_of_count (Nat.lt_of_lt_of_le Nat.zero_lt_two h)
    rw [(scan_word hw).2] at h
    rcases Nat.eq_zero_or_pos (m.count u) with hu | hu
    · obtain ⟨y, w', z, rfl, hw'⟩ := exists_word_of_count (show 0 < m.count v by omega)
      exact ⟨u, w, y, w', z, by simp, hw, hw'⟩
    · obtain ⟨x, w', y, rfl, hw'⟩ := exists_word_of_count hu
      exact ⟨x, w', y, w, v, rfl, hw', hw⟩
  · rintro ⟨x, w, y, w', z, rfl, hw, hw'⟩
    rw [(scan_word hw').2, (scan_word hw).2]
    omega

/-! ## Leftmost words -/

/-- If there are words, one of them begins first. -/
theorem exists_first {W : List α → Prop} (h : ∃ u w v, xs = u ++ w ++ v ∧ W w) :
    ∃ u w v, xs = u ++ w ++ v ∧ W w ∧
      ∀ u' w' v', xs = u' ++ w' ++ v' → W w' → u.length ≤ u'.length := by
  classical
  have hex : ∃ k u w v, u.length = k ∧ xs = u ++ w ++ v ∧ W w := by
    obtain ⟨u, w, v, h⟩ := h
    exact ⟨u.length, u, w, v, rfl, h⟩
  obtain ⟨u, w, v, hu, hxs, hw⟩ := Nat.find_spec hex
  refine ⟨u, w, v, hxs, hw, fun u' w' v' hxs' hw' => ?_⟩
  rw [hu]
  exact Nat.find_min' hex ⟨u', w', v', rfl, hxs', hw'⟩

theorem strip_of_no_word (h : ∀ u w v, xs = u ++ w ++ v → ¬m.word w) : m.strip xs = xs := by
  induction xs with
  | nil => rfl
  | cons x xs ih =>
    have hx : m.len (x :: xs) = none := by
      rw [Option.eq_none_iff_forall_ne_some]
      intro n hn
      exact h [] _ ((x :: xs).drop n) (List.take_append_drop n _).symm (m.len_eq_some.mp hn).2
    rw [strip_cons hx, ih fun u w v hxs => h (x :: u) w v (by rw [hxs]; rfl)]

/-- What comes before the first word is kept. -/
theorem strip_first {u w v : List α} (hw : m.word w)
    (hfirst : ∀ u' w' v', u ++ w ++ v = u' ++ w' ++ v' → m.word w' → u.length ≤ u'.length) :
    m.strip (u ++ w ++ v) = u ++ m.strip v := by
  have hu : m.strip u = u := by
    refine strip_of_no_word fun a w' b hab hw' => ?_
    obtain ⟨t, rfl, -⟩ := m.lead_once hw'
    have hle := hfirst a (m.lead :: t) (b ++ w ++ v) (by rw [hab]; simp) hw'
    rw [hab] at hle
    simp only [List.length_append, List.length_cons] at hle
    omega
  rw [(scan_word hw).1, hu]

/-- The scanner removes the leftmost words. -/
theorem removed_strip (xs : List α) : Removed m.word xs (m.strip xs) := by
  induction hl : xs.length using Nat.strong_induction_on generalizing xs with
  | _ l ih =>
    by_cases hex : ∃ u w v, xs = u ++ w ++ v ∧ m.word w
    · obtain ⟨u, w, v, rfl, hw, hfirst⟩ := exists_first hex
      have hv : v.length < l := by
        obtain ⟨t, rfl, -⟩ := m.lead_once hw
        simp only [List.length_append, List.length_cons] at hl
        omega
      rw [strip_first hw hfirst]
      exact .next hw hfirst (ih v.length hv v rfl)
    · have hno : ∀ u w v, xs = u ++ w ++ v → ¬m.word w := fun u w v hxs hw => hex ⟨u, w, v, hxs, hw⟩
      rw [strip_of_no_word hno]
      exact .none hno

theorem removed_iff : Removed m.word xs ys ↔ m.strip xs = ys := by
  constructor
  · intro h
    induction h with
    | none h => exact strip_of_no_word h
    | next hw hfirst _ ih => rw [strip_first hw hfirst, ih]
  · rintro rfl
    exact removed_strip xs

/-! ## Chunks -/

/-- A word has parts in two successive pieces of a list, or more. -/
def Severed (m : Matcher α) (chunks : List (List α)) : Prop :=
  ∃ pre post, chunks = pre ++ post ∧ m.Straddles pre.flatten post.flatten

theorem severed_cons {c : List α} {cs : List (List α)} :
    m.Severed (c :: cs) ↔ m.Straddles c cs.flatten ∨ m.Severed cs := by
  constructor
  · rintro ⟨pre, post, hcs, u, v, s, t, hu, ht, hv, hs, hw⟩
    cases pre with
    | nil => exact absurd (List.append_eq_nil_iff.mp hu.symm).2 hv
    | cons b pre =>
      obtain ⟨rfl, rfl⟩ := List.cons.inj hcs
      rw [List.flatten_cons] at hu
      rcases List.append_eq_append_iff.mp hu with ⟨a, rfl, ha⟩ | ⟨a, rfl, rfl⟩
      · exact .inr ⟨pre, post, rfl, a, v, s, t, ha, ht, hv, hs, hw⟩
      · by_cases ha : a = []
        · subst ha
          exact .inr ⟨pre, post, rfl, [], _, s, t, rfl, ht, hv, hs, hw⟩
        · refine .inl ⟨u, a, pre.flatten ++ s, t, rfl, ?_, ha, by simp [hs], ?_⟩
          · show (pre ++ post).flatten = _
            rw [List.flatten_append, ht, List.append_assoc]
          · rwa [← List.append_assoc]
  · rintro (h | ⟨pre, post, rfl, h⟩)
    · exact ⟨[c], cs, rfl, by simpa using h⟩
    · obtain ⟨u, v, s, t, hu, ht, hv, hs, hw⟩ := h
      exact ⟨c :: pre, post, rfl, c ++ u, v, s, t, by rw [List.flatten_cons, hu, List.append_assoc],
        ht, hv, hs, hw⟩

theorem length_strip_flatten_le (chunks : List (List α)) :
    (m.strip chunks.flatten).length ≤ (chunks.flatMap m.strip).length := by
  induction chunks with
  | nil => simp [strip]
  | cons c cs ih =>
    have hle := length_strip_append_le (m := m) c cs.flatten
    rw [List.flatten_cons, List.flatMap_cons]
    rw [List.length_append] at hle ⊢
    omega

/-- A list is scanned in pieces exactly if they sever no word. -/
theorem flatMap_strip_iff (chunks : List (List α)) :
    chunks.flatMap m.strip = m.strip chunks.flatten ↔ ¬m.Severed chunks := by
  induction chunks with
  | nil =>
    refine ⟨fun _ ⟨pre, post, h, u, v, s, t, hu, _, hv, _, _⟩ => ?_, fun _ => rfl⟩
    obtain ⟨rfl, rfl⟩ := List.append_eq_nil_iff.mp h.symm
    exact hv (List.append_eq_nil_iff.mp hu.symm).2
  | cons c cs ih =>
    rw [severed_cons, not_or, ← ih, ← strip_append_iff, List.flatten_cons, List.flatMap_cons]
    refine ⟨fun h => ?_, fun h => by rw [h.1, h.2]⟩
    have hle := length_strip_append_le (m := m) c cs.flatten
    have hle' := length_strip_flatten_le (m := m) cs
    have hlen := congrArg List.length h
    have hnot : ¬m.Straddles c cs.flatten := fun hs => by
      have hlt := length_strip_lt hs
      rw [List.length_append] at hlt hlen
      omega
    rw [(scan_append hnot).1] at h ⊢
    exact ⟨rfl, List.append_cancel_left h⟩

/-- The words of a list are those of its pieces, when they sever none. -/
theorem count_flatten {chunks : List (List α)} (h : ¬m.Severed chunks) :
    m.count chunks.flatten = (chunks.map m.count).sum := by
  induction chunks with
  | nil => rfl
  | cons c cs ih =>
    rw [severed_cons, not_or] at h
    rw [List.flatten_cons, (scan_append h.1).2, ih h.2, List.map_cons, List.sum_cons]

end Matcher

end Framework
