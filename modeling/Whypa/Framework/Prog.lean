import Mathlib.Logic.Basic

/-!
# Programs over shared state

A program (`Prog`) is a tree of accesses to a state it shares with others,
each followed by what the program does with the answer, and ending in a result
or a panic. A handler says what one access does. `Prog.run` performs a program
without interruption; `Prog.next` performs its first access only, so that
other parties can act between two accesses of the same program.

What holds of a program whatever the others do in between is a predicate on
its tree (`Prog.Always`): which accesses it makes, which results it can have,
and that no access is refused and no sequence of answers leads to a panic. What a
run did is the list of its accesses with their answers (`Prog.trace`).
-/

namespace Framework

/-- A program: accesses `a : A` answered by `R a`, and a result in `α`. -/
inductive Prog (A : Type) (R : A → Type) (α : Type) : Type
  | pure (x : α)
  | panic
  | access (a : A) (k : R a → Prog A R α)

/-- What an access does to the state and answers; `none` is a panic. -/
abbrev Handler (A : Type) (R : A → Type) (σ : Type) := (a : A) → σ → Option (R a × σ)

namespace Prog

variable {A : Type} {R : A → Type} {α β γ σ : Type}

protected def bind : Prog A R α → (α → Prog A R β) → Prog A R β
  | .pure x, f => f x
  | .panic, _ => .panic
  | .access a k, f => .access a fun r => (k r).bind f

instance : Monad (Prog A R) where
  pure := Prog.pure
  bind := Prog.bind

@[simp] theorem pure_bind' (x : α) (f : α → Prog A R β) : ((Prog.pure x : Prog A R α) >>= f) = f x := rfl
@[simp] theorem pure_bind (x : α) (f : α → Prog A R β) : ((Pure.pure x : Prog A R α) >>= f) = f x := rfl
@[simp] theorem panic_bind (f : α → Prog A R β) : ((Prog.panic : Prog A R α) >>= f) = .panic := rfl
@[simp] theorem access_bind (a : A) (k : R a → Prog A R α) (f : α → Prog A R β) :
    (Prog.access a k >>= f) = .access a fun r => k r >>= f := rfl
theorem pure_eq (x : α) : (Pure.pure x : Prog A R α) = .pure x := rfl

theorem bind_assoc (p : Prog A R α) (f : α → Prog A R β) (g : β → Prog A R γ) :
    (p >>= f >>= g) = p >>= fun x => f x >>= g := by
  induction p with
  | pure x => rfl
  | panic => rfl
  | access a k ih =>
    simp only [access_bind]
    exact congrArg (Prog.access a) (funext ih)

/-! ## Running a program -/

/-- The result and the state after all accesses of a program, in turn. -/
def run (h : Handler A R σ) : Prog A R α → σ → Option (α × σ)
  | .pure x, s => some (x, s)
  | .panic, _ => none
  | .access a k, s => (h a s).bind fun p => (k p.1).run h p.2

/-- The program and the state after the first access, if there is one. -/
def next (h : Handler A R σ) : Prog A R α → σ → Option (Prog A R α × σ)
  | .access a k, s => some <| match h a s with
    | some (r, s') => (k r, s')
    | none => (.panic, s)
  | _, _ => none

variable {h : Handler A R σ}

@[simp] theorem run_pure (x : α) (s : σ) : run h (.pure x) s = some (x, s) := rfl
@[simp] theorem run_panic (s : σ) : run h (.panic : Prog A R α) s = none := rfl
@[simp] theorem run_access (a : A) (k : R a → Prog A R α) (s : σ) :
    run h (.access a k) s = (h a s).bind fun p => (k p.1).run h p.2 := rfl

theorem eq_access_of_next {p : Prog A R α} {s : σ} {r : Prog A R α × σ} (hn : next h p s = some r) :
    ∃ a k, p = .access a k := by
  cases p with
  | pure x => cases hn
  | panic => cases hn
  | access a k => exact ⟨a, k, rfl⟩

/-- The first access of a program with something after it. -/
theorem next_bind {p : Prog A R α} {s : σ} {r : Prog A R α × σ} (hn : next h p s = some r)
    (f : α → Prog A R β) : next h (p >>= f) s = some (r.1 >>= f, r.2) := by
  obtain ⟨a, k, rfl⟩ := eq_access_of_next hn
  simp only [next] at hn
  obtain rfl := Option.some.inj hn
  rw [access_bind, next]
  cases h a s <;> rfl

theorem run_of_next {p p' : Prog A R α} {s s' : σ} (hn : next h p s = some (p', s')) :
    run h p s = run h p' s' := by
  obtain ⟨a, k, rfl⟩ := eq_access_of_next hn
  rw [run_access]
  simp only [next] at hn
  cases e : h a s with
  | none =>
    rw [e] at hn
    obtain ⟨rfl, -⟩ := Prod.mk.inj (Option.some.inj hn)
    rfl
  | some q =>
    rw [e] at hn
    obtain ⟨rfl, rfl⟩ := Prod.mk.inj (Option.some.inj hn)
    rfl

theorem run_unique {p : Prog A R α} {s s' s'' : σ} {x y : α} (hr : run h p s = some (x, s'))
    (hr' : run h p s = some (y, s'')) : x = y ∧ s' = s'' :=
  Prod.mk.inj (Option.some.inj (hr.symm.trans hr'))

theorem run_bind (p : Prog A R α) (f : α → Prog A R β) (s : σ) :
    run h (p >>= f) s = (run h p s).bind fun q => run h (f q.1) q.2 := by
  induction p generalizing s with
  | pure x => rfl
  | panic => rfl
  | access a k ih =>
    simp only [access_bind, run_access, Option.bind_assoc]
    exact congrArg _ (funext fun p => ih p.1 p.2)

/-- Every run that returns takes the states in `K` to states in `K`. -/
def Keeps (h : Handler A R σ) (K : σ → Prop) (p : Prog A R α) : Prop :=
  ∀ ⦃s x s'⦄, K s → run h p s = some (x, s') → K s'

section
variable {K : σ → Prop}

theorem Keeps.pure (x : α) : Keeps h K (Pure.pure x : Prog A R α) := by
  intro s y s' hs hr
  obtain ⟨-, rfl⟩ := Prod.mk.inj (Option.some.inj hr)
  exact hs

theorem Keeps.bind {p : Prog A R α} {f : α → Prog A R β} (hp : Keeps h K p)
    (hf : ∀ x, Keeps h K (f x)) : Keeps h K (p >>= f) := by
  intro s y s' hs hr
  rw [run_bind] at hr
  obtain ⟨⟨x, t⟩, hx, hr⟩ := Option.bind_eq_some_iff.mp hr
  exact hf x (hp hs hx) hr

end

/-! ## Which accesses a program makes -/

/-- Every access in the tree of `p` is in `P`, whatever is answered. -/
def Only (P : A → Prop) : Prog A R α → Prop
  | .pure _ => True
  | .panic => True
  | .access a k => P a ∧ ∀ r, Only P (k r)

section
variable {P : A → Prop}

theorem Only.bind {p : Prog A R α} {f : α → Prog A R β} (hp : Only P p) (hf : ∀ x, Only P (f x)) :
    Only P (p >>= f) := by
  induction p with
  | pure x => exact hf x
  | panic => trivial
  | access a k ih => exact ⟨hp.1, fun r => ih r (hp.2 r)⟩

/-- The first access is in `P` or refused, and so are the rest. -/
theorem Only.next {p p' : Prog A R α} {s s' : σ} (hp : Only P p)
    (hn : Prog.next h p s = some (p', s')) :
    Only P p' ∧ (s' = s ∨ ∃ a, P a ∧ ∃ r, h a s = some (r, s')) := by
  obtain ⟨a, k, rfl⟩ := eq_access_of_next hn
  simp only [Prog.next] at hn
  cases e : h a s with
  | none =>
    rw [e] at hn
    obtain ⟨rfl, rfl⟩ := Prod.mk.inj (Option.some.inj hn)
    exact ⟨trivial, .inl rfl⟩
  | some q =>
    rw [e] at hn
    obtain ⟨rfl, rfl⟩ := Prod.mk.inj (Option.some.inj hn)
    exact ⟨hp.2 q.1, .inr ⟨a, hp.1, q.1, e⟩⟩

end

/-! ## What holds of a program under interference -/

/-- Every access `p` can reach is in `P` and never refused, and every result it
can reach is in `Q`, whatever the state before each access. -/
def Always (h : Handler A R σ) (P : A → Prop) (Q : α → Prop) : Prog A R α → Prop
  | .pure x => Q x
  | .panic => False
  | .access a k => P a ∧ (∀ s, h a s ≠ none) ∧ ∀ s r s', h a s = some (r, s') → Always h P Q (k r)

variable {P : A → Prop} {Q : α → Prop}

theorem Always.mono {P' : A → Prop} {Q' : α → Prop} {p : Prog A R α} (hp : Always h P Q p)
    (hP : ∀ a, P a → P' a) (hQ : ∀ x, Q x → Q' x) : Always h P' Q' p := by
  induction p with
  | pure x => exact hQ x hp
  | panic => exact hp
  | access a k ih =>
    obtain ⟨ha, hn, hk⟩ := hp
    exact ⟨hP a ha, hn, fun s r s' e => ih r (hk s r s' e)⟩

theorem Always.bind {p : Prog A R α} {f : α → Prog A R β} {Q' : β → Prop}
    (hp : Always h P Q p) (hf : ∀ x, Q x → Always h P Q' (f x)) : Always h P Q' (p >>= f) := by
  induction p with
  | pure x => exact hf x hp
  | panic => exact hp
  | access a k ih =>
    obtain ⟨ha, hn, hk⟩ := hp
    exact ⟨ha, hn, fun s r s' e => ih r (hk s r s' e)⟩

/-- An uninterrupted run does not panic, and its result is in `Q`. -/
theorem Always.run {p : Prog A R α} (hp : Always h P Q p) (s : σ) :
    ∃ x s', Prog.run h p s = some (x, s') ∧ Q x := by
  induction p generalizing s with
  | pure x => exact ⟨x, s, rfl, hp⟩
  | panic => exact hp.elim
  | access a k ih =>
    obtain ⟨-, hn, hk⟩ := hp
    obtain ⟨⟨r, s'⟩, e⟩ := Option.ne_none_iff_exists'.mp (hn s)
    obtain ⟨x, s'', hr, hx⟩ := ih r (hk s r s' e) s'
    exact ⟨x, s'', by simp [e, hr], hx⟩

/-- One access is in `P` and is answered, and the same holds of the rest. -/
theorem Always.next {p p' : Prog A R α} {s s' : σ} (hp : Always h P Q p)
    (hs : Prog.next h p s = some (p', s')) :
    Always h P Q p' ∧ ∃ a, P a ∧ ∃ r, h a s = some (r, s') := by
  cases p with
  | pure x => cases hs
  | panic => cases hs
  | access a k =>
    obtain ⟨ha, hn, hk⟩ := hp
    obtain ⟨⟨r, t⟩, e⟩ := Option.ne_none_iff_exists'.mp (hn s)
    simp only [Prog.next, e, Option.some.injEq, Prod.mk.injEq] at hs
    obtain ⟨rfl, rfl⟩ := hs
    exact ⟨hk s r _ e, a, ha, r, e⟩

/-- What each access in `P` keeps of the state, an uninterrupted run keeps. -/
theorem Always.run_keeps {p : Prog A R α} {K : σ → σ → Prop} (hp : Always h P Q p)
    (hrefl : ∀ s, K s s) (htrans : ∀ s t u, K s t → K t u → K s u)
    (hK : ∀ a s r s', P a → h a s = some (r, s') → K s s') (s : σ) :
    ∃ x s', Prog.run h p s = some (x, s') ∧ Q x ∧ K s s' := by
  induction p generalizing s with
  | pure x => exact ⟨x, s, rfl, hp, hrefl s⟩
  | panic => exact hp.elim
  | access a k ih =>
    obtain ⟨ha, hn, hk⟩ := hp
    obtain ⟨⟨r, t⟩, e⟩ := Option.ne_none_iff_exists'.mp (hn s)
    obtain ⟨x, u, hr, hx, hu⟩ := ih r (hk s r t e) t
    exact ⟨x, u, by simp [e, hr], hx, htrans s t u (hK a s r t ha e) hu⟩

/-- A handler that refuses more accesses, and agrees on the others: a run under
it panics or is a run under the other. -/
theorem run_of_refuses {h' : Handler A R σ} (hh : ∀ a s, h a s = none ∨ h a s = h' a s)
    (p : Prog A R α) (s : σ) : Prog.run h p s = none ∨ Prog.run h p s = Prog.run h' p s := by
  induction p generalizing s with
  | pure x => exact .inr rfl
  | panic => exact .inl rfl
  | access a k ih =>
    rcases hh a s with e | e
    · exact .inl (by rw [run_access, e]; rfl)
    · rw [run_access, run_access, e]
      cases h' a s with
      | none => exact .inl rfl
      | some p => exact ih p.1 p.2

/-! ## The accesses of a run -/

/-- The accesses with their answers, in turn, up to the end of the program or to a panic. -/
def trace (h : Handler A R σ) : Prog A R α → σ → List ((a : A) × R a)
  | .pure _, _ => []
  | .panic, _ => []
  | .access a k, s => match h a s with
    | none => []
    | some (r, s') => ⟨a, r⟩ :: (k r).trace h s'

theorem trace_access {a : A} {k : R a → Prog A R α} {s s' : σ} {r : R a} (e : h a s = some (r, s')) :
    trace h (.access a k) s = ⟨a, r⟩ :: trace h (k r) s' := by
  rw [trace, e]

theorem trace_bind {p : Prog A R α} {x : α} {s s' : σ} (hr : run h p s = some (x, s'))
    (f : α → Prog A R β) : trace h (p >>= f) s = trace h p s ++ trace h (f x) s' := by
  induction p generalizing s with
  | pure y =>
    obtain ⟨rfl, rfl⟩ := Prod.mk.inj (Option.some.inj hr)
    rfl
  | panic => cases hr
  | access a k ih =>
    obtain ⟨⟨r, t⟩, e, hr⟩ := Option.bind_eq_some_iff.mp hr
    rw [access_bind, trace_access e, trace_access e, ih r hr, List.cons_append]

/-- A change of the result adds no access. -/
theorem trace_bind_pure (p : Prog A R α) (g : α → β) (s : σ) :
    trace h (p >>= fun x => Pure.pure (g x)) s = trace h p s := by
  induction p generalizing s with
  | pure x => rfl
  | panic => rfl
  | access a k ih =>
    rw [access_bind, trace, trace]
    cases h a s with
    | none => rfl
    | some r => exact congrArg _ (ih r.1 r.2)

/-- A handler that refuses more accesses has the same trace of a run that returns. -/
theorem trace_of_refuses {h' : Handler A R σ} (hh : ∀ a s, h a s = none ∨ h a s = h' a s)
    {p : Prog A R α} {s : σ} {y : α × σ} (hr : run h p s = some y) : trace h p s = trace h' p s := by
  induction p generalizing s with
  | pure x => rfl
  | panic => rfl
  | access a k ih =>
    obtain ⟨⟨r, t⟩, e, hr⟩ := Option.bind_eq_some_iff.mp hr
    rcases hh a s with hn | he
    · rw [e] at hn
      cases hn
    · rw [trace_access e, trace_access (he.symm.trans e), ih r hr]

/-- If the run from `s` returns, then `Q` holds of the result, the state and the trace. -/
def Runs (h : Handler A R σ) (Q : α → σ → List ((a : A) × R a) → Prop) (p : Prog A R α) (s : σ) : Prop :=
  ∀ x s', run h p s = some (x, s') → Q x s' (trace h p s)

section
variable {P : A → Prop} {Q : α → σ → List ((a : A) × R a) → Prop} {s : σ}

theorem Runs.pure {x : α} (hQ : Q x s []) : Runs h Q (Pure.pure x) s := by
  intro y s' hr
  obtain ⟨rfl, rfl⟩ := Prod.mk.inj (Option.some.inj hr)
  exact hQ

theorem Runs.mono {Q' : α → σ → List ((a : A) × R a) → Prop} {p : Prog A R α} (hp : Runs h Q p s)
    (hQ : ∀ x s' t, Q x s' t → Q' x s' t) : Runs h Q' p s :=
  fun x s' hr => hQ x s' _ (hp x s' hr)

theorem Runs.bind {Q' : β → σ → List ((a : A) × R a) → Prop} {p : Prog A R α} {f : α → Prog A R β}
    (hp : Runs h (fun x s' t => Runs h (fun y s'' t' => Q' y s'' (t ++ t')) (f x) s') p s) :
    Runs h Q' (p >>= f) s := by
  intro y s'' hr
  rw [run_bind] at hr
  obtain ⟨⟨x, s'⟩, hx, hr⟩ := Option.bind_eq_some_iff.mp hr
  rw [trace_bind hx]
  exact hp x s' hx y s'' hr

theorem Runs.access {a : A} {k : R a → Prog A R α}
    (hk : ∀ r s', h a s = some (r, s') → Runs h (fun x s'' t => Q x s'' (⟨a, r⟩ :: t)) (k r) s') :
    Runs h Q (.access a k) s := by
  intro x s'' hr
  obtain ⟨⟨r, s'⟩, e, hr⟩ := Option.bind_eq_some_iff.mp hr
  rw [trace_access e]
  exact hk r s' e x s'' hr

theorem Always.runs {q : α → Prop} {p : Prog A R α} (hp : Always h P q p) (s : σ) :
    Runs h (fun x _ t => q x ∧ ∀ d ∈ t, P d.1) p s := by
  induction p generalizing s with
  | pure x => exact .pure ⟨hp, List.forall_mem_nil _⟩
  | panic => exact hp.elim
  | access a k ih =>
    refine .access fun r s' e => (ih r (hp.2.2 s r s' e) s').mono fun _ _ _ ht => ?_
    exact ⟨ht.1, List.forall_mem_cons.mpr ⟨hp.1, ht.2⟩⟩

end

/-- Every access in the tree of `p` is in `P`, and every result in `Q`, whatever is answered; it
may panic. -/
def Partly (P : A → Prop) (Q : α → Prop) : Prog A R α → Prop
  | .pure x => Q x
  | .panic => True
  | .access a k => P a ∧ ∀ r, Partly P Q (k r)

section
variable {P : A → Prop} {Q : α → Prop}

theorem Partly.bind {Q' : β → Prop} {p : Prog A R α} {f : α → Prog A R β} (hp : Partly P Q p)
    (hf : ∀ x, Q x → Partly P Q' (f x)) : Partly P Q' (p >>= f) := by
  induction p with
  | pure x => exact hf x hp
  | panic => trivial
  | access a k ih => exact ⟨hp.1, fun r => ih r (hp.2 r)⟩

theorem Partly.runs {p : Prog A R α} (hp : Partly P Q p) (s : σ) :
    Runs h (fun x _ t => Q x ∧ ∀ d ∈ t, P d.1) p s := by
  induction p generalizing s with
  | pure x => exact .pure ⟨hp, List.forall_mem_nil _⟩
  | panic => exact fun _ _ hr => nomatch hr
  | access a k ih =>
    refine .access fun r s' _ => (ih r (hp.2 r) s').mono fun _ _ _ ht => ?_
    exact ⟨ht.1, List.forall_mem_cons.mpr ⟨hp.1, ht.2⟩⟩

end

end Prog

end Framework
