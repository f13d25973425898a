import Mathlib.Data.List.TakeWhile
import Whypa.Framework.Bytes
import Whypa.Framework.Occurrences

/-!
# The host's terminal

The thread that reads the terminal for the guest's console (`terminal.rs`): it
takes the bytes of one read at a time, strips the terminal's cursor position
reports from them, and pushes the rest into the buffer it shares with the
console. The escape key ends the machine.

A report that two reads share is not stripped (`pushed_iff`).
-/

namespace Whypa

open Framework

namespace Terminal

def ESC : Byte := 0x1b

/-- Ctrl+]. -/
def ESCAPE_KEY : Byte := 0x1d

/-- An ASCII digit or a semicolon. -/
def isParam (b : Byte) : Bool := 0x30 ≤ b && b ≤ 0x39 || b = 0x3b

/-- The inner loop: the index of the first byte from `j` on that is no parameter. -/
def paramsEnd (bytes : List Byte) (j : Nat) : Nat :=
  if h : j < bytes.length then
    if isParam bytes[j] then paramsEnd bytes (j + 1) else j
  else j
termination_by bytes.length - j

/-- The index after the report that starts at `i`, if one does. -/
def reportEnd (bytes : List Byte) (i : Nat) : Option Nat :=
  if bytes[i]? = some ESC ∧ i + 2 < bytes.length ∧ bytes[i + 1]? = some 0x5b then
    let j := paramsEnd bytes (i + 2)
    if i + 2 < j ∧ j < bytes.length ∧ bytes[j]? = some 0x52 then some (j + 1) else none
  else none

theorem lt_of_reportEnd {bytes : List Byte} {i k : Nat} (h : reportEnd bytes i = some k) : i < k := by
  unfold reportEnd at h
  simp only at h
  split at h
  · split at h
    · obtain rfl := Option.some.inj h
      omega
    · cases h
  · cases h

/-- The loop of `strip_cpr_responses`. -/
def stripLoop (bytes : List Byte) (i : Nat) (result : List Byte) : List Byte :=
  if h : i < bytes.length then
    match hr : reportEnd bytes i with
    | some k => stripLoop bytes k result
    | none => stripLoop bytes (i + 1) (result ++ [bytes[i]])
  else result
termination_by bytes.length - i
decreasing_by
  · have := lt_of_reportEnd hr
    omega
  · omega

def stripCprResponses (bytes : List Byte) : List Byte := stripLoop bytes 0 []

/-- What the thread has done. -/
structure StdinReader where
  /-- The bytes pushed into the shared buffer so far. -/
  pushed : List Byte
  signals : Nat
  shutdown : Bool
deriving DecidableEq, Repr

namespace StdinReader

def start : StdinReader := ⟨[], 0, false⟩

def stripResponseAndSignal (s : StdinReader) (bytes : List Byte) : StdinReader :=
  let filtered := stripCprResponses bytes
  if !filtered.isEmpty then { s with pushed := s.pushed ++ filtered, signals := s.signals + 1 } else s

/-- The thread's loop, by what the reads of the terminal return; an empty read
is the end of the input. -/
def readerLoop (s : StdinReader) : List (Option (List Byte)) → StdinReader
  | [] => s
  | none :: _ => s
  | some [] :: _ => s
  | some (b :: bs) :: reads =>
    match (b :: bs).findIdx? (· = ESCAPE_KEY) with
    | some pos =>
      let s := if 0 < pos then s.stripResponseAndSignal ((b :: bs).take pos) else s
      { s with shutdown := true }
    | none => readerLoop (s.stripResponseAndSignal (b :: bs)) reads

end StdinReader

/-! ## Reports -/

/-- A cursor position report: `ESC [`, parameters, `R`. -/
def Report (w : List Byte) : Prop :=
  ∃ ps, ps ≠ [] ∧ (∀ b ∈ ps, isParam b = true) ∧ w = ESC :: 0x5b :: ps ++ [0x52]

/-- The length of the report at the front. -/
def reportLen : List Byte → Option Nat
  | 0x1b#8 :: 0x5b#8 :: rest =>
    let ps := rest.takeWhile isParam
    if ps ≠ [] ∧ rest[ps.length]? = some 0x52 then some (ps.length + 3) else none
  | _ => none

theorem reportLen_cons (rest : List Byte) : reportLen (ESC :: 0x5b :: rest) =
    if rest.takeWhile isParam ≠ [] ∧ rest[(rest.takeWhile isParam).length]? = some 0x52 then
      some ((rest.takeWhile isParam).length + 3)
    else none := rfl

theorem takeWhile_params {ps : List Byte} (h : ∀ b ∈ ps, isParam b = true) (rest : List Byte) :
    (ps ++ 0x52 :: rest).takeWhile isParam = ps := by
  rw [List.takeWhile_append_of_pos h, List.takeWhile_cons_of_neg (by decide), List.append_nil]

theorem reportLen_eq_some {xs : List Byte} {n : Nat} :
    reportLen xs = some n ↔ n ≤ xs.length ∧ Report (xs.take n) := by
  constructor
  · intro h
    unfold reportLen at h
    split at h
    · rename_i rest
      simp only [Option.ite_none_right_eq_some, Option.some.injEq] at h
      obtain ⟨⟨hps, hR⟩, rfl⟩ := h
      generalize hps' : rest.takeWhile isParam = ps at hps hR
      have hall : ∀ b ∈ ps, isParam b = true := fun b hb => List.mem_takeWhile_imp (hps' ▸ hb)
      obtain ⟨tail, htail⟩ : ∃ tail, rest = ps ++ tail := ⟨_, by rw [← hps', List.takeWhile_append_dropWhile]⟩
      subst htail
      rw [List.getElem?_append_right (Nat.le_refl _), Nat.sub_self] at hR
      cases tail with
      | nil => cases hR
      | cons r tail =>
        obtain rfl := Option.some.inj hR
        refine ⟨by simp, ps, hps, hall, ?_⟩
        have hsplit : ESC :: 0x5b :: (ps ++ 0x52 :: tail) = (ESC :: 0x5b :: ps ++ [0x52]) ++ tail := by
          simp
        show (ESC :: 0x5b :: (ps ++ 0x52 :: tail)).take (ps.length + 3) = _
        rw [hsplit, List.take_left' (by simp)]
    · cases h
  · rintro ⟨hn, ps, hps, hall, hw⟩
    have hxs : xs = ESC :: 0x5b :: (ps ++ 0x52 :: xs.drop n) := by
      conv => lhs; rw [← List.take_append_drop n xs, hw]
      simp
    have hlen : n = ps.length + 3 := by
      have hl := congrArg List.length hw
      rw [List.length_take, Nat.min_eq_left hn] at hl
      simpa using hl
    rw [hxs, reportLen_cons, takeWhile_params hall, if_pos ⟨hps, by simp⟩, hlen]

theorem report_lead {w : List Byte} (h : Report w) : ∃ t, w = ESC :: t ∧ ESC ∉ t := by
  obtain ⟨ps, -, hps, rfl⟩ := h
  refine ⟨0x5b :: ps ++ [0x52], rfl, ?_⟩
  rw [List.mem_append, List.mem_cons, List.mem_singleton]
  rintro ((h | h) | h)
  · exact absurd h (by decide)
  · exact absurd (hps _ h) (by decide)
  · exact absurd h (by decide)

/-- The scanner for reports. -/
def report : Matcher Byte := ⟨Report, reportLen, reportLen_eq_some, ESC, report_lead⟩

theorem paramsEnd_eq (bytes : List Byte) (j : Nat) :
    paramsEnd bytes j = j + ((bytes.drop j).takeWhile isParam).length := by
  fun_induction paramsEnd bytes j with
  | case1 j h hp ih =>
    rw [ih, List.drop_eq_getElem_cons h, List.takeWhile_cons_of_pos hp, List.length_cons]
    omega
  | case2 j h hp =>
    rw [List.drop_eq_getElem_cons h, List.takeWhile_cons_of_neg hp]
    rfl
  | case3 j h =>
    rw [List.drop_of_length_le (by omega)]
    rfl

/-- Whether a list starts as a report does. -/
theorem reportLen_of_ne {xs : List Byte} (h : ¬(xs[0]? = some ESC ∧ xs[1]? = some 0x5b)) :
    reportLen xs = none := by
  unfold reportLen
  split
  · exact absurd ⟨rfl, rfl⟩ h
  · rfl

theorem reportEnd_eq (bytes : List Byte) (i : Nat) :
    reportEnd bytes i = (report.len (bytes.drop i)).map (i + ·) := by
  have hget : ∀ k, bytes[i + k]? = (bytes.drop i)[k]? := fun k => List.getElem?_drop.symm
  by_cases hstart : bytes[i]? = some ESC ∧ bytes[i + 1]? = some 0x5b
  · obtain ⟨hi, h0⟩ := List.getElem?_eq_some_iff.mp hstart.1
    obtain ⟨hi', h1⟩ := List.getElem?_eq_some_iff.mp hstart.2
    have hd : bytes.drop i = ESC :: 0x5b :: bytes.drop (i + 2) := by
      rw [List.drop_eq_getElem_cons hi, List.drop_eq_getElem_cons hi', h0, h1]
    have hps := paramsEnd_eq bytes (i + 2)
    have hl : report.len (bytes.drop i) = _ := (congrArg reportLen hd).trans (reportLen_cons _)
    rw [hl]
    generalize hps' : (bytes.drop (i + 2)).takeWhile isParam = ps at hps
    rw [List.getElem?_drop, reportEnd]
    simp only [hps]
    by_cases hc : ps ≠ [] ∧ bytes[i + 2 + ps.length]? = some 0x52
    · have hpos := List.length_pos_iff.mpr hc.1
      have hlt := (List.getElem?_eq_some_iff.mp hc.2).1
      rw [if_pos ⟨hstart.1, by omega, hstart.2⟩, if_pos ⟨by omega, hlt, hc.2⟩, if_pos hc]
      show some (i + 2 + ps.length + 1) = some (i + (ps.length + 3))
      rw [show i + 2 + ps.length + 1 = i + (ps.length + 3) by omega]
    · rw [if_neg hc]
      split
      · rw [if_neg fun h => hc ⟨List.length_pos_iff.mp (by omega), h.2.2⟩]
        rfl
      · rfl
  · have hnone : report.len (bytes.drop i) = none := by
      refine reportLen_of_ne fun h => hstart ⟨?_, ?_⟩
      · exact (hget 0).trans h.1
      · exact (hget 1).trans h.2
    rw [reportEnd, if_neg fun h => hstart ⟨h.1, h.2.2⟩, hnone]
    rfl

theorem stripLoop_eq (bytes : List Byte) (i : Nat) (result : List Byte) :
    stripLoop bytes i result = result ++ report.strip (bytes.drop i) := by
  fun_induction stripLoop bytes i result with
  | case1 i result h k hr ih =>
    rw [reportEnd_eq] at hr
    obtain ⟨n, hn, rfl⟩ := Option.map_eq_some_iff.mp hr
    rw [ih, Matcher.strip_of_len hn, List.drop_drop]
  | case2 i result h hr ih =>
    rw [reportEnd_eq, Option.map_eq_none_iff] at hr
    rw [List.drop_eq_getElem_cons h] at hr ⊢
    rw [ih, Matcher.strip_cons hr, List.append_assoc]
    rfl
  | case3 i result h =>
    rw [List.drop_of_length_le (by omega)]
    exact (List.append_nil result).symm

/-- The thread's filter removes the reports. -/
theorem stripCprResponses_eq (bytes : List Byte) : stripCprResponses bytes = report.strip bytes := by
  rw [stripCprResponses, stripLoop_eq, List.nil_append, List.drop_zero]

/-! ## Reads -/

namespace StdinReader

variable {s : StdinReader} {reads : List (List Byte)}

theorem pushed_stripResponseAndSignal (s : StdinReader) (bytes : List Byte) :
    (s.stripResponseAndSignal bytes).pushed = s.pushed ++ report.strip bytes := by
  unfold stripResponseAndSignal
  simp only [stripCprResponses_eq]
  split
  · rfl
  · rename_i h
    rw [Bool.not_eq_true', Bool.not_eq_false, List.isEmpty_iff] at h
    rw [h, List.append_nil]

/-- Without the escape key the thread strips each read for itself. -/
theorem pushed_readerLoop (hne : ∀ c ∈ reads, c ≠ []) (hesc : ∀ c ∈ reads, ESCAPE_KEY ∉ c) :
    (s.readerLoop (reads.map some)).pushed = s.pushed ++ reads.flatMap report.strip := by
  induction reads generalizing s with
  | nil => exact (List.append_nil _).symm
  | cons c reads ih =>
    cases c with
    | nil => exact absurd rfl (hne [] (by simp))
    | cons b bs =>
      have hc : ESCAPE_KEY ∉ b :: bs := hesc _ (by simp)
      have hnone : (b :: bs).findIdx? (· = ESCAPE_KEY) = none := by
        rw [List.findIdx?_eq_none_iff]
        intro x hx
        exact decide_eq_false fun h => hc (h ▸ hx)
      rw [List.map_cons, readerLoop, hnone]
      have h := ih (s := s.stripResponseAndSignal (b :: bs))
        (fun c hc => hne c (List.mem_cons_of_mem _ hc)) fun c hc => hesc c (List.mem_cons_of_mem _ hc)
      rw [h, pushed_stripResponseAndSignal, List.flatMap_cons, List.append_assoc]

/-- The reads `reads` of a terminal are pushed as if they were one, if and only
if no report is shared by a read and the ones after it. -/
theorem pushed_iff (hne : ∀ c ∈ reads, c ≠ []) (hesc : ∀ c ∈ reads, ESCAPE_KEY ∉ c) :
    (start.readerLoop (reads.map some)).pushed = stripCprResponses reads.flatten ↔
      ¬∃ before after u v s t, reads = before ++ after ∧ before.flatten = u ++ v ∧
        after.flatten = s ++ t ∧ v ≠ [] ∧ s ≠ [] ∧ Report (v ++ s) := by
  rw [pushed_readerLoop hne hesc, stripCprResponses_eq]
  refine (report.flatMap_strip_iff reads).trans (not_congr ?_)
  constructor
  · rintro ⟨before, after, hr, u, v, s, t, h⟩
    exact ⟨before, after, u, v, s, t, hr, h⟩
  · rintro ⟨before, after, u, v, s, t, hr, h⟩
    exact ⟨before, after, hr, u, v, s, t, h⟩

/-- No report is shared where each read has its own. -/
theorem pushed_iff_whole :
    (start.readerLoop [some [0x61, 0x1b, 0x5b, 0x31, 0x52], some [0x62]]).pushed =
        stripCprResponses [0x61, 0x1b, 0x5b, 0x31, 0x52, 0x62] ∧
      ¬∃ before after u v s t,
        [[(0x61 : Byte), 0x1b, 0x5b, 0x31, 0x52], [0x62]] = before ++ after ∧
          before.flatten = u ++ v ∧ after.flatten = s ++ t ∧ v ≠ [] ∧ s ≠ [] ∧ Report (v ++ s) := by
  have hne : ∀ c ∈ [[(0x61 : Byte), 0x1b, 0x5b, 0x31, 0x52], [0x62]], c ≠ [] := by decide
  have hesc : ∀ c ∈ [[(0x61 : Byte), 0x1b, 0x5b, 0x31, 0x52], [0x62]], ESCAPE_KEY ∉ c := by decide
  have h : (start.readerLoop [some [0x61, 0x1b, 0x5b, 0x31, 0x52], some [0x62]]).pushed =
      stripCprResponses [0x61, 0x1b, 0x5b, 0x31, 0x52, 0x62] := by
    refine (pushed_readerLoop hne hesc).trans ?_
    rw [stripCprResponses_eq]
    decide
  exact ⟨h, (pushed_iff hne hesc).mp h⟩

/-- The report `ESC[1;1R` in two reads reaches the guest. -/
theorem split_report :
    (start.readerLoop [some [0x1b, 0x5b, 0x31], some [0x3b, 0x31, 0x52]]).pushed =
        [0x1b, 0x5b, 0x31, 0x3b, 0x31, 0x52] ∧
      stripCprResponses [0x1b, 0x5b, 0x31, 0x3b, 0x31, 0x52] = [] := by
  have hne : ∀ c ∈ [[(0x1b : Byte), 0x5b, 0x31], [0x3b, 0x31, 0x52]], c ≠ [] := by decide
  have hesc : ∀ c ∈ [[(0x1b : Byte), 0x5b, 0x31], [0x3b, 0x31, 0x52]], ESCAPE_KEY ∉ c := by decide
  refine ⟨(pushed_readerLoop hne hesc).trans ?_, ?_⟩
  · decide
  · rw [stripCprResponses_eq]
    decide

end StdinReader

end Terminal

end Whypa
