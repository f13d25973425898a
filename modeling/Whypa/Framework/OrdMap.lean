import Mathlib.Data.List.Pairwise
import Mathlib.Order.Lattice

/-!
# Ordered maps

A map as the list of its entries in the order of their keys, where `ord` is what
keys are compared by. `insert` puts an entry in its place (`insert_of_forall_ne`),
and `lastLe` is the last entry up to a bound (`Ascending.of_lastLe_eq_some`).
-/

namespace Framework.OrdMap

variable {α β κ : Type} [LinearOrder κ] (ord : α → κ)

def Ascending (l : List (α × β)) : Prop := l.Pairwise fun x y => ord x.1 < ord y.1

/-- The map with `v` under the key `k`, and the value that was there. A key that is
there stays as it is. -/
def insert (k : α) (v : β) : List (α × β) → List (α × β) × Option β
  | [] => ([(k, v)], none)
  | e :: l =>
    if ord k < ord e.1 then ((k, v) :: e :: l, none)
    else if ord k = ord e.1 then ((e.1, v) :: l, some e.2)
    else (e :: (insert k v l).1, (insert k v l).2)

/-- The last entry whose key is at most `a`. -/
def lastLe (a : κ) (l : List (α × β)) : Option (α × β) := l.reverse.find? fun e => ord e.1 ≤ a

variable {ord} {l : List (α × β)} {e : α × β} {a : κ}

theorem Ascending.of_lastLe_eq_some (h : Ascending ord l) (he : lastLe ord a l = some e) :
    e ∈ l ∧ ord e.1 ≤ a ∧ ∀ x ∈ l, ord x.1 ≤ a → ord x.1 ≤ ord e.1 := by
  obtain ⟨hle, after, before, hl, hafter⟩ := List.find?_eq_some_iff_append.mp he
  have hl : l = before.reverse ++ e :: after.reverse := by
    have := congrArg List.reverse hl
    simpa using this
  rw [hl] at h ⊢
  refine ⟨by simp, by simpa using hle, fun x hx hxa => ?_⟩
  rcases List.mem_append.mp hx with hx | hx
  · exact le_of_lt ((List.pairwise_append.mp h).2.2 x hx e List.mem_cons_self)
  · rcases List.mem_cons.mp hx with rfl | hx
    · exact le_rfl
    · have := hafter x (List.mem_reverse.mp hx)
      simp [hxa] at this

theorem lt_of_lastLe_eq_none (h : lastLe ord a l = none) : ∀ x ∈ l, a < ord x.1 := fun x hx => by
  have := List.find?_eq_none.mp h x (List.mem_reverse.mpr hx)
  simpa using this

/-- What is at most `a` is at most the last entry that is. -/
theorem Ascending.exists_lastLe (h : Ascending ord l) (he : e ∈ l) (ha : ord e.1 ≤ a) :
    ∃ x, lastLe ord a l = some x ∧ ord e.1 ≤ ord x.1 := by
  cases hx : lastLe ord a l with
  | none => exact absurd ha (lt_of_lastLe_eq_none hx e he).not_ge
  | some x => exact ⟨x, rfl, (h.of_lastLe_eq_some hx).2.2 e he ha⟩

/-- A new key gets an entry of its own. -/
theorem insert_of_forall_ne (k : α) (v : β) (h : ∀ x ∈ l, ord k ≠ ord x.1) :
    (insert ord k v l).2 = none ∧ (insert ord k v l).1.Perm ((k, v) :: l) := by
  induction l with
  | nil => exact ⟨rfl, .refl _⟩
  | cons e l ih =>
    obtain ⟨he, h⟩ := List.forall_mem_cons.mp h
    obtain ⟨hnone, hp⟩ := ih h
    rw [insert, if_neg he]
    split
    · exact ⟨rfl, .refl _⟩
    · exact ⟨hnone, (hp.cons e).trans (.swap (k, v) e l)⟩

theorem Ascending.insert (k : α) (v : β) (hs : Ascending ord l) (h : ∀ x ∈ l, ord k ≠ ord x.1) :
    Ascending ord (OrdMap.insert ord k v l).1 := by
  induction l with
  | nil => exact List.pairwise_singleton ..
  | cons e l ih =>
    obtain ⟨he, h⟩ := List.forall_mem_cons.mp h
    obtain ⟨hhead, htail⟩ := List.pairwise_cons.mp hs
    rw [OrdMap.insert, if_neg he]
    split
    · rename_i hlt
      refine List.pairwise_cons.mpr ⟨fun x hx => ?_, hs⟩
      rcases List.mem_cons.mp hx with rfl | hx
      · exact hlt
      · exact lt_trans hlt (hhead x hx)
    · rename_i hlt
      refine List.pairwise_cons.mpr ⟨fun x hx => ?_, ih htail h⟩
      rcases List.mem_cons.mp ((insert_of_forall_ne k v h).2.mem_iff.mp hx) with rfl | hx
      · exact lt_of_le_of_ne (not_lt.mp hlt) (Ne.symm he)
      · exact hhead x hx

end Framework.OrdMap
