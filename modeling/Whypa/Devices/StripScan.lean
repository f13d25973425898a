import Mathlib.Data.Prod.Lex
import Whypa.Devices.Terminal
import Whypa.Framework.Reach

/-!
# The scanner of cursor position reports

The loops of `strip_cpr_responses` turn by turn (`terminal.rs`), with the reads they make
of the input. No read is out of bounds, and what is returned is the input without its
leftmost reports (`strip_cpr_responses_exact`).
-/

namespace Whypa

open Framework

namespace Terminal

/-- The scan is before a turn of its outer loop, of its inner one, or has returned. -/
inductive Scan
  | outer (i : Nat) (result : List Byte)
  | inner (i j : Nat) (result : List Byte)
  | done (result : List Byte)
deriving DecidableEq, Repr

namespace Scan

/-- `bytes[i] == 0x1b && i + 2 < bytes.len() && bytes[i + 1] == b'['` -/
def opens (bytes : List Byte) (i : Nat) : Option Bool := do
  let b ← bytes[i]?
  if b = ESC ∧ i + 2 < bytes.length then
    let c ← bytes[i + 1]?
    pure (c = 0x5b)
  else pure false

/-- The condition of the inner loop. -/
def goesOn (bytes : List Byte) (j : Nat) : Option Bool :=
  if j < bytes.length then bytes[j]?.map isParam else some false

/-- `j > i + 2 && j < bytes.len() && bytes[j] == b'R'` -/
def closes (bytes : List Byte) (i j : Nat) : Option Bool :=
  if i + 2 < j ∧ j < bytes.length then bytes[j]?.map (· = 0x52) else some false

def push (bytes : List Byte) (i : Nat) (result : List Byte) : Option Scan := do
  let b ← bytes[i]?
  pure (outer (i + 1) (result ++ [b]))

/-- A turn of a loop; `none` is a read out of bounds, which panics. A slice has fewer than
`2 ^ 63` bytes, so that no index overflows. -/
def step (bytes : List Byte) : Scan → Option Scan
  | outer i result => do
    if i < bytes.length then
      if ← opens bytes i then pure (inner i (i + 2) result) else push bytes i result
    else pure (done result)
  | inner i j result => do
    if ← goesOn bytes j then pure (inner i (j + 1) result)
    else if ← closes bytes i j then pure (outer (j + 1) result)
    else push bytes i result
  | done result => pure (done result)

/-- The indices are in the input, or at its end. -/
def InBounds (bytes : List Byte) : Scan → Prop
  | outer i _ => i ≤ bytes.length
  | inner i j _ => i + 2 ≤ j ∧ j ≤ bytes.length
  | done _ => True

end Scan

/-- The scan of an input. -/
def scanning (bytes : List Byte) : System Scan Unit :=
  .ofStep (· = .outer 0 []) fun s _ => s.step bytes

/-! ## The rest of the scan -/

/-- What the inner loop, at the byte `j`, and the test after it find. -/
def innerEnd (bytes : List Byte) (i j : Nat) : Option Nat :=
  let j := paramsEnd bytes j
  if i + 2 < j ∧ j < bytes.length ∧ bytes[j]? = some 0x52 then some (j + 1) else none

/-- The outer loop after that. -/
def continueWith (bytes : List Byte) (i : Nat) (result : List Byte) : Option Nat → List Byte
  | some k => stripLoop bytes k result
  | none => stripLoop bytes (i + 1) (result ++ bytes[i]?.toList)

theorem stripLoop_of_lt {bytes : List Byte} {i : Nat} (h : i < bytes.length) (result : List Byte) :
    stripLoop bytes i result = continueWith bytes i result (reportEnd bytes i) := by
  rw [stripLoop, dif_pos h]
  split
  · rename_i k hr
    rw [hr]
    rfl
  · rename_i hr
    rw [hr, continueWith, List.getElem?_eq_getElem h]
    rfl

theorem stripLoop_of_le {bytes : List Byte} {i : Nat} (h : bytes.length ≤ i) (result : List Byte) :
    stripLoop bytes i result = result := by
  rw [stripLoop, dif_neg (Nat.not_lt.mpr h)]

theorem paramsEnd_of_any (bytes : List Byte) (j : Nat) : paramsEnd bytes j =
    if bytes[j]?.any isParam then paramsEnd bytes (j + 1) else j := by
  conv => lhs; unfold paramsEnd
  split
  · rename_i h
    rw [List.getElem?_eq_getElem h]
    rfl
  · rename_i h
    rw [List.getElem?_eq_none (Nat.not_lt.mp h)]
    rfl

theorem innerEnd_eq (bytes : List Byte) (i j : Nat) : innerEnd bytes i j =
    if bytes[j]?.any isParam then innerEnd bytes i (j + 1)
    else if i + 2 < j ∧ j < bytes.length ∧ bytes[j]? = some 0x52 then some (j + 1) else none := by
  rw [innerEnd, innerEnd, paramsEnd_of_any bytes j]
  split <;> rfl

namespace Scan

/-- What the rest of the scan returns. -/
def rest (bytes : List Byte) : Scan → List Byte
  | outer i result => stripLoop bytes i result
  | inner i j result => continueWith bytes i result (innerEnd bytes i j)
  | done result => result

/-- What is left to scan, for the outer loop and then for the inner one. -/
def left (bytes : List Byte) : Scan → Nat ×ₗ Nat
  | outer i _ => toLex (bytes.length - i, bytes.length + 1)
  | inner i j _ => toLex (bytes.length - i, bytes.length - j)
  | done _ => toLex (0, 0)

/-- A turn keeps the bounds and what the scan returns, and there is less left. -/
structure Turn (bytes : List Byte) (s s' : Scan) : Prop where
  inBounds : s'.InBounds bytes
  rest_eq : s'.rest bytes = s.rest bytes
  left_lt : (∃ result, s = done result) ∨ s'.left bytes < s.left bytes

variable {bytes : List Byte} {i j : Nat}

theorem opens_eq (h : i < bytes.length) : opens bytes i =
    some (decide (bytes[i]? = some ESC ∧ i + 2 < bytes.length ∧ bytes[i + 1]? = some 0x5b)) := by
  rw [opens, List.getElem?_eq_getElem h, Option.bind_eq_bind, Option.bind_some]
  split
  · rename_i hc
    rw [List.getElem?_eq_getElem (Nat.lt_of_succ_lt hc.2)]
    simp [hc]
  · rename_i hc
    exact congrArg some (decide_eq_false fun hc' => hc ⟨Option.some.inj hc'.1, hc'.2.1⟩).symm

theorem goesOn_eq (bytes : List Byte) (j : Nat) : goesOn bytes j = some (bytes[j]?.any isParam) := by
  rw [goesOn]
  split
  · rename_i h
    rw [List.getElem?_eq_getElem h]
    rfl
  · rename_i h
    rw [List.getElem?_eq_none (Nat.not_lt.mp h)]
    rfl

theorem closes_eq (bytes : List Byte) (i j : Nat) : closes bytes i j =
    some (decide (i + 2 < j ∧ j < bytes.length ∧ bytes[j]? = some 0x52)) := by
  rw [closes]
  split
  · rename_i h
    rw [List.getElem?_eq_getElem h.2]
    simp [h]
  · rename_i h
    exact congrArg some (decide_eq_false fun h' => h ⟨h'.1, h'.2.1⟩).symm

theorem push_eq (h : i < bytes.length) (result : List Byte) :
    push bytes i result = some (outer (i + 1) (result ++ bytes[i]?.toList)) := by
  rw [push, List.getElem?_eq_getElem h]
  rfl

theorem step_outer (h : i < bytes.length) (result : List Byte) : (outer i result).step bytes =
    if bytes[i]? = some ESC ∧ i + 2 < bytes.length ∧ bytes[i + 1]? = some 0x5b then
      some (inner i (i + 2) result)
    else some (outer (i + 1) (result ++ bytes[i]?.toList)) := by
  simp only [step, if_pos h, opens_eq h, push_eq h, Option.bind_eq_bind, Option.bind_some, decide_eq_true_eq]
  rfl

theorem step_inner (h : i < bytes.length) (j : Nat) (result : List Byte) : (inner i j result).step bytes =
    if bytes[j]?.any isParam then some (inner i (j + 1) result)
    else if i + 2 < j ∧ j < bytes.length ∧ bytes[j]? = some 0x52 then some (outer (j + 1) result)
    else some (outer (i + 1) (result ++ bytes[i]?.toList)) := by
  simp only [step, goesOn_eq, closes_eq, push_eq h, Option.bind_eq_bind, Option.bind_some, decide_eq_true_eq]
  rfl

theorem turn_outer (i : Nat) (result : List Byte) :
    ∃ s', (outer i result).step bytes = some s' ∧ Turn bytes (outer i result) s' := by
  by_cases h : i < bytes.length
  · have hloop := stripLoop_of_lt h result
    by_cases hc : bytes[i]? = some ESC ∧ i + 2 < bytes.length ∧ bytes[i + 1]? = some 0x5b
    · have hleft : bytes.length - (i + 2) < bytes.length + 1 := by omega
      rw [reportEnd, if_pos hc] at hloop
      refine ⟨inner i (i + 2) result, ?_, ⟨⟨Nat.le_refl _, Nat.le_of_lt hc.2.1⟩, hloop.symm, .inr ?_⟩⟩
      · rw [step_outer h, if_pos hc]
      · exact Prod.Lex.toLex_lt_toLex.mpr (.inr ⟨rfl, hleft⟩)
    · have hleft : bytes.length - (i + 1) < bytes.length - i := by omega
      rw [reportEnd, if_neg hc] at hloop
      refine ⟨outer (i + 1) (result ++ bytes[i]?.toList), ?_, ⟨h, hloop.symm, .inr ?_⟩⟩
      · rw [step_outer h, if_neg hc]
      · exact Prod.Lex.toLex_lt_toLex.mpr (.inl hleft)
  · have hle := Nat.not_lt.mp h
    refine ⟨done result, by simp [step, h], ⟨trivial, (stripLoop_of_le hle result).symm, .inr ?_⟩⟩
    exact Prod.Lex.toLex_lt_toLex.mpr (.inr ⟨(Nat.sub_eq_zero_of_le hle).symm, Nat.succ_pos _⟩)

theorem turn_inner (hij : i + 2 ≤ j) (hj : j ≤ bytes.length) (result : List Byte) :
    ∃ s', (inner i j result).step bytes = some s' ∧ Turn bytes (inner i j result) s' := by
  have hi : i < bytes.length := by omega
  have hend := innerEnd_eq bytes i j
  by_cases hp : bytes[j]?.any isParam = true
  · have hlt : j < bytes.length := by
      by_contra h
      rw [List.getElem?_eq_none (Nat.not_lt.mp h)] at hp
      cases hp
    have hleft : bytes.length - (j + 1) < bytes.length - j := by omega
    rw [if_pos hp] at hend
    refine ⟨inner i (j + 1) result, ?_, ⟨⟨by omega, hlt⟩, ?_, .inr ?_⟩⟩
    · rw [step_inner hi, if_pos hp]
    · exact congrArg (continueWith bytes i result) hend.symm
    · exact Prod.Lex.toLex_lt_toLex.mpr (.inr ⟨rfl, hleft⟩)
  · rw [if_neg hp] at hend
    by_cases hc : i + 2 < j ∧ j < bytes.length ∧ bytes[j]? = some 0x52
    · have hleft : bytes.length - (j + 1) < bytes.length - i := by omega
      rw [if_pos hc] at hend
      refine ⟨outer (j + 1) result, ?_, ⟨hc.2.1, ?_, .inr ?_⟩⟩
      · rw [step_inner hi, if_neg hp, if_pos hc]
      · exact congrArg (continueWith bytes i result) hend.symm
      · exact Prod.Lex.toLex_lt_toLex.mpr (.inl hleft)
    · have hleft : bytes.length - (i + 1) < bytes.length - i := by omega
      rw [if_neg hc] at hend
      refine ⟨outer (i + 1) (result ++ bytes[i]?.toList), ?_, ⟨hi, ?_, .inr ?_⟩⟩
      · rw [step_inner hi, if_neg hp, if_neg hc]
      · exact congrArg (continueWith bytes i result) hend.symm
      · exact Prod.Lex.toLex_lt_toLex.mpr (.inl hleft)

/-- From every state in bounds there is a turn. -/
theorem turn {s : Scan} (h : s.InBounds bytes) : ∃ s', s.step bytes = some s' ∧ Turn bytes s s' := by
  cases s with
  | outer i result => exact turn_outer i result
  | inner i j result => exact turn_inner h.1 h.2 result
  | done result => exact ⟨done result, rfl, ⟨trivial, rfl, .inl ⟨result, rfl⟩⟩⟩

end Scan

variable {bytes : List Byte}

/-- Every state of the scan is in bounds, and what is left of it returns what the scan does. -/
theorem scanning_reachable {s : Scan} (h : (scanning bytes).Reachable s) :
    s.InBounds bytes ∧ s.rest bytes = stripCprResponses bytes := by
  refine System.Reachable.invariant (I := fun s => s.InBounds bytes ∧ s.rest bytes = stripCprResponses bytes)
    ?_ ?_ h
  · rintro _ rfl
    exact ⟨Nat.zero_le _, rfl⟩
  · rintro s - s' ⟨hin, hrest⟩ (hs : s.step bytes = some s')
    obtain ⟨t, ht, hturn⟩ := Scan.turn hin
    obtain rfl := Option.some.inj (hs.symm.trans ht)
    exact ⟨hturn.inBounds, hturn.rest_eq.trans hrest⟩

/-- The scan ends, with the result of the function. -/
theorem scanning_done (bytes : List Byte) :
    (scanning bytes).Reachable (.done (stripCprResponses bytes)) := by
  have hturn : ∀ s : Scan, s.InBounds bytes → (∃ result, s = .done result) ∨
      ∃ l s', (scanning bytes).step s l s' ∧ s'.InBounds bytes ∧ s'.left bytes < s.left bytes := by
    intro s hin
    obtain ⟨s', hs', hturn⟩ := Scan.turn hin
    exact hturn.left_lt.imp_right fun hlt => ⟨(), s', hs', hturn.inBounds, hlt⟩
  obtain ⟨s, hs, result, rfl⟩ :=
    System.Reachable.exists_final (Scan.left bytes) hturn (.init rfl) (Nat.zero_le _)
  obtain rfl : result = stripCprResponses bytes := (scanning_reachable hs).2
  exact hs

/-- What is returned is the input without its leftmost reports, the input itself where there are none; the
scan never leaves the input, and this is all it can return. -/
theorem strip_cpr_responses_exact (bytes : List Byte) :
    (∀ ys, stripCprResponses bytes = ys ↔ Removed Report bytes ys) ∧
      ((∀ u w v, bytes = u ++ w ++ v → ¬Report w) → stripCprResponses bytes = bytes) ∧
      (∀ s, (scanning bytes).Reachable s → s.InBounds bytes ∧ (s.step bytes).isSome) ∧
      ∀ result, (scanning bytes).Reachable (.done result) ↔ result = stripCprResponses bytes := by
  refine ⟨fun ys => ?_, fun h => ?_, fun s hs => ?_, fun result => ⟨fun h => ?_, ?_⟩⟩
  · rw [stripCprResponses_eq]
    exact Matcher.removed_iff.symm
  · rw [stripCprResponses_eq]
    exact Matcher.strip_of_no_word h
  · have hin := (scanning_reachable hs).1
    obtain ⟨s', hs', -⟩ := Scan.turn hin
    exact ⟨hin, by rw [hs']; rfl⟩
  · exact (scanning_reachable h).2
  · rintro rfl
    exact scanning_done bytes

/-- Of two reports back to back, the second without its first parameter, and the start of a third one,
the start is left, and a byte that is no part of a report is kept. -/
theorem strip_cpr_responses_back_to_back :
    Removed Report [0x61, ESC, 0x5b, 0x31, 0x52, ESC, 0x5b, 0x3b, 0x35, 0x52, ESC, 0x5b, 0x31]
        [0x61, ESC, 0x5b, 0x31] ∧
      (scanning [0x61, ESC, 0x5b, 0x31, 0x52, ESC, 0x5b, 0x3b, 0x35, 0x52, ESC, 0x5b, 0x31]).Reachable
        (.done [0x61, ESC, 0x5b, 0x31]) ∧
      stripCprResponses [0x61, 0x62] = [0x61, 0x62] := by
  have hstrip : stripCprResponses
      [0x61, ESC, 0x5b, 0x31, 0x52, ESC, 0x5b, 0x3b, 0x35, 0x52, ESC, 0x5b, 0x31] =
        [0x61, ESC, 0x5b, 0x31] := by
    rw [stripCprResponses_eq]
    decide
  obtain ⟨hremoved, -, -, hdone⟩ := strip_cpr_responses_exact
    [0x61, ESC, 0x5b, 0x31, 0x52, ESC, 0x5b, 0x3b, 0x35, 0x52, ESC, 0x5b, 0x31]
  refine ⟨(hremoved _).mp hstrip, (hdone _).mpr hstrip.symm, ?_⟩
  refine (strip_cpr_responses_exact [0x61, 0x62]).2.1 fun u w v huwv hw => ?_
  obtain ⟨t, rfl, -⟩ := report_lead hw
  have hmem : ESC ∈ [(0x61 : Byte), 0x62] := by
    rw [huwv]
    simp
  exact absurd hmem (by decide)

end Terminal

end Whypa
