import Mathlib.Data.List.Sort
import Mathlib.Data.List.TakeWhile
import Whypa.Framework.Span

/-!
# Ranges in order

Ranges of addresses, each of which ends before the next starts (`Span.Ordered`).
They are apart, sorting ranges that are apart puts them in order
(`Separate.ordered_sort`), and there is but one order (`Ordered.eq_of_perm`). A
search for the first range that starts from an address on finds the range that
has the address, or stops right after it (`Ordered.search`).
-/

namespace Framework

/-- Where `b` is in a list in the order of its keys: at an index, or else before one. -/
def binarySearchByKey {α : Type} (key : α → Nat) (b : Nat) (l : List α) : Except Nat Nat :=
  let i := (l.takeWhile fun x => key x < b).length
  match l[i]? with
  | some x => if key x = b then .ok i else .error i
  | none => .error i

theorem of_binarySearchByKey_ok {α : Type} {key : α → Nat} {b i : Nat} {l : List α}
    (h : binarySearchByKey key b l = .ok i) : ∃ x, l[i]? = some x ∧ key x = b := by
  simp only [binarySearchByKey] at h
  split at h
  · rename_i x hx
    split at h
    · rename_i hk
      obtain rfl := Except.ok.inj h
      exact ⟨x, hx, hk⟩
    · cases h
  · cases h

/-- A search that stops before an index has found that no key is the one. -/
theorem of_binarySearchByKey_error {α : Type} {key : α → Nat} {b i : Nat} {l : List α}
    (hs : l.Pairwise fun x y => key x < key y) (h : binarySearchByKey key b l = .error i) :
    ∀ x ∈ l, key x ≠ b := by
  induction l generalizing i with
  | nil => nofun
  | cons y l ih =>
    obtain ⟨hy, hs⟩ := List.pairwise_cons.mp hs
    by_cases hlt : key y < b
    · have hl : ∃ j, binarySearchByKey key b l = .error j := by
        simp only [binarySearchByKey, List.takeWhile_cons, hlt, decide_true, if_true,
          List.length_cons, List.getElem?_cons_succ] at h ⊢
        cases hx : l[(l.takeWhile fun x => key x < b).length]? with
        | none => exact ⟨_, rfl⟩
        | some x =>
          by_cases hk : key x = b
          · simp [hx, hk] at h
          · exact ⟨_, if_neg hk⟩
      obtain ⟨j, hj⟩ := hl
      exact List.forall_mem_cons.mpr ⟨hlt.ne, ih hs hj⟩
    · have hne : key y ≠ b := fun he => by simp [binarySearchByKey, he] at h
      refine List.forall_mem_cons.mpr ⟨hne, fun x hx => ?_⟩
      have := hy x hx
      omega

namespace Span

variable {α : Type} {span : α → Span} {l l' : List α} {x : α} {a : Nat}

/-- Each range ends before the next ones start. -/
def Ordered (span : α → Span) (l : List α) : Prop := l.Pairwise fun x y => (span x).stop ≤ (span y).lo

theorem Ordered.separate (h : Ordered span l) : Separate span l := h.imp fun h => .inl h

/-- Ranges that are apart are in order when they are sorted by their first addresses. -/
theorem Separate.ordered (h : Separate span l) (hpos : ∀ x ∈ l, 0 < (span x).len)
    (hs : l.Pairwise fun x y => (span x).lo ≤ (span y).lo) : Ordered span l := by
  refine (h.and hs).imp_of_mem fun {x y} hx hy hxy => ?_
  have hlen := hpos y hy
  rcases hxy.1 with hl | hr
  · exact hl
  · have hlo := hxy.2
    unfold stop at hr
    omega

theorem Separate.ordered_sort (h : Separate span l) (hpos : ∀ x ∈ l, 0 < (span x).len) :
    Ordered span (l.insertionSort fun x y => (span x).lo ≤ (span y).lo) := by
  have hp := List.perm_insertionSort (fun x y => (span x).lo ≤ (span y).lo) l
  have : Std.Total fun x y : α => (span x).lo ≤ (span y).lo := ⟨fun x y => Nat.le_total _ _⟩
  have : IsTrans α fun x y => (span x).lo ≤ (span y).lo := ⟨fun _ _ _ => Nat.le_trans⟩
  exact (h.perm hp).ordered (fun x hx => hpos x (hp.mem_iff.mp hx)) (List.pairwise_insertionSort _ l)

/-- Ranges in order are in the only order they can be in. -/
theorem Ordered.eq_of_perm (h : Ordered span l) (h' : Ordered span l') (hp : l.Perm l')
    (hpos : ∀ x ∈ l, 0 < (span x).len) : l = l' := by
  refine hp.eq_of_pairwise (fun x y hx hy hxy hyx => ?_) h h'
  have hlx := hpos x hx
  unfold stop at hxy hyx
  omega

/-- The search splits the list: what starts before the address, and what starts from it on. -/
theorem Ordered.split (h : Ordered span l) (a : Nat) :
    ∃ pre post, l = pre ++ post ∧ pre = (l.takeWhile fun x => (span x).lo < a) ∧
      (∀ y ∈ pre, (span y).lo < a) ∧ ∀ y ∈ post, a ≤ (span y).lo := by
  refine ⟨l.takeWhile fun x => (span x).lo < a, l.dropWhile fun x => (span x).lo < a,
    (List.takeWhile_append_dropWhile ..).symm, rfl, fun y hy => ?_, fun y hy => ?_⟩
  · simpa using List.mem_takeWhile_imp hy
  · have hd : Ordered span (l.dropWhile fun x => (span x).lo < a) :=
      List.Pairwise.sublist (List.dropWhile_sublist _) h
    cases hp : l.dropWhile fun x => (span x).lo < a with
    | nil => simp [hp] at hy
    | cons z rest =>
      have hz : ¬ (span z).lo < a := by
        have := List.head?_dropWhile_not (fun x => decide ((span x).lo < a)) l
        rw [hp] at this
        simpa using this
      rw [hp] at hd hy
      rcases List.mem_cons.mp hy with rfl | hy
      · exact Nat.le_of_not_lt hz
      · have := (List.pairwise_cons.mp hd).1 y hy
        unfold stop at this
        omega

/-- The range that a search finds for an address: the one that starts there, or else the one before
if it goes on to the address. -/
def search (span : α → Span) (a : Nat) (l : List α) : Option α :=
  match binarySearchByKey (fun x => (span x).lo) a l with
  | .ok i => l[i]?
  | .error i =>
    match l[i - 1]? with
    | some x => if 0 < i ∧ a < (span x).stop then some x else none
    | none => none

theorem Ordered.search_eq_some_iff (h : Ordered span l) (hpos : ∀ x ∈ l, 0 < (span x).len) :
    search span a l = some x ↔ x ∈ l ∧ (span x).Has a := by
  obtain ⟨pre, post, hl, hi, hpre, hpost⟩ := h.split a
  have hfound : ∀ y ∈ l, (span y).Has a → (some y = some x ↔ x ∈ l ∧ (span x).Has a) :=
    fun y hy hya => by
      rw [Option.some.injEq]
      exact ⟨fun he => he ▸ ⟨hy, hya⟩, fun hx => h.separate.unique hy hx.1 hya hx.2⟩
  have hnone : (∀ y ∈ l, ¬ (span y).Has a) → (none = some x ↔ x ∈ l ∧ (span x).Has a) :=
    fun hn => ⟨nofun, fun hx => absurd hx.2 (hn x hx.1)⟩
  have hget : l[pre.length]? = post.head? := by
    rw [hl, List.getElem?_append_right le_rfl, Nat.sub_self, List.head?_eq_getElem?]
  have hbefore : (∀ y ∈ post, a < (span y).lo) →
      ((match l[pre.length - 1]? with
        | some x => if 0 < pre.length ∧ a < (span x).stop then some x else none
        | none => none) = some x ↔ x ∈ l ∧ (span x).Has a) := fun hafter => by
    rcases pre.eq_nil_or_concat' with rfl | ⟨init, y, rfl⟩
    · have hn := hnone fun y hy hya => by
        rw [hl] at hy
        exact absurd hya.1 (hafter y hy).not_ge
      simp only [List.length_nil, Nat.lt_irrefl, false_and, if_false]
      split <;> exact hn
    · have hy : l[(init ++ [y]).length - 1]? = some y := by
        rw [hl, List.length_append, List.length_singleton, Nat.add_sub_cancel, List.append_assoc,
          List.getElem?_append_right le_rfl, Nat.sub_self]
        rfl
      have hlo : (span y).lo < a := hpre y (by simp)
      rw [hy]
      simp only [List.length_append, List.length_singleton, Nat.succ_pos, true_and]
      by_cases hstop : a < (span y).stop
      · rw [if_pos hstop]
        exact hfound y (by simp [hl]) ⟨hlo.le, hstop⟩
      · rw [if_neg hstop]
        refine hnone fun z hz hza => ?_
        rw [hl, List.append_assoc] at hz h
        rcases List.mem_append.mp hz with hz | hz
        · have := (List.pairwise_append.mp h).2.2 z hz y (by simp)
          exact absurd hza.2 (by omega)
        · rcases List.mem_append.mp hz with hz | hz
          · obtain rfl := List.mem_singleton.mp hz
            exact hstop hza.2
          · exact absurd hza.1 (hafter z hz).not_ge
  simp only [search, binarySearchByKey, ← hi, hget]
  cases post with
  | nil => exact hbefore nofun
  | cons z rest =>
    have hz : z ∈ l := by simp [hl]
    by_cases hlo : (span z).lo = a
    · simp only [List.head?_cons, hlo, if_true, hget]
      refine hfound z hz ⟨hlo.le, ?_⟩
      have := hpos z hz
      unfold stop
      omega
    · simp only [List.head?_cons, hlo, if_false]
      refine hbefore fun y hy => ?_
      have hza : a ≤ (span z).lo := hpost z List.mem_cons_self
      rcases List.mem_cons.mp hy with rfl | hy
      · omega
      · rw [hl] at h
        have := (List.pairwise_cons.mp (List.pairwise_append.mp h).2.1).1 y hy
        unfold stop at this
        omega

end Span

end Framework
