import Whypa.Virtio.Returned

/-!
# What a loop publishes

What a run of a loop over a queue puts into the used ring, read off the list of its actions
(`Prog.trace`): an element is published when the number of the elements is stored
(`publishes_addUsed`). A function that serves a chain accounts for what it publishes if
it then says so (`Accounting`), and a loop over such functions sets its flag
(`accounting_popLoop`).
-/

namespace Whypa

open Framework WProg

variable {ε : Type} {env : Env ε} {mm : MemoryManager} {ck : Bool}

/-! ## Actions -/

/-- An action of a worker with its answer. -/
abbrev Done := (a : Act) × a.Answer

/-- The number of the elements is stored in the used ring at `us`. -/
def Done.publishes (us : GuestAddress) : Done → Bool
  | ⟨.mem (.store _ addr), .ok ()⟩ => addr = us + 2
  | _ => false

def Act.IsStore : Act → Prop
  | .mem (.store ..) => True
  | _ => False

/-- Neither a write to guest memory, nor a copy into buffers. -/
def Act.Inert : Act → Prop
  | .mem a => a.isRead
  | .copyTo _ bytes => bytes = []
  | _ => True

/-- Neither a signal, nor a load of anything but the index of the available ring at `av`. -/
def Act.Quiet (av : GuestAddress) : Act → Prop
  | .mem (.load addr) => addr = av + 2
  | .io op => op ≠ .signal
  | _ => True

theorem Done.isStore_of_publishes {us : GuestAddress} {d : Done} (h : d.publishes us) : d.1.IsStore := by
  rcases d with ⟨a, r⟩
  cases a with
  | mem a =>
    cases a with
    | store v addr => trivial
    | _ => cases h
  | _ => cases h

theorem Act.Confined.not_isStore {S : Nat → Prop} {a : Act} (h : a.Confined S) : ¬ a.IsStore := by
  cases a with
  | mem a =>
    cases a with
    | store v addr => exact fun _ => h
    | _ => exact id
  | _ => exact id

theorem Act.Inert.not_isStore {a : Act} (h : a.Inert) : ¬ a.IsStore := by
  cases a with
  | mem a =>
    cases a with
    | store v addr => exact fun _ => h
    | _ => exact id
  | _ => exact id

namespace Queue

/-- `q'` is `q` after some elements were added and chains popped: as many are counted for the
notification as were added. -/
structure Steps (q q' : Queue) : Prop where
  config : q.SameConfig q'
  numAdded : q'.numAdded = q.numAdded + (q'.nextUsed - q.nextUsed)

variable {q q' q'' : Queue}

theorem Steps.refl (q : Queue) : q.Steps q := ⟨.refl q, by rw [BitVec.sub_self, BitVec.add_zero]⟩

theorem Steps.trans (h : q.Steps q') (h' : q'.Steps q'') : q.Steps q'' := by
  refine ⟨h.config.trans h'.config, ?_⟩
  rw [h'.numAdded, h.numAdded]
  grind

theorem Popped.steps {r : Option DescriptorChain × Queue} (h : q.Popped r) : q.Steps r.2 := by
  rcases h with ⟨-, h⟩ | ⟨-, h⟩
  · rw [h]
    exact .refl q
  · rw [h]
    exact ⟨⟨rfl, rfl, rfl, rfl, rfl, rfl, rfl⟩, (Steps.refl q).numAdded⟩

/-- The queue of a run from `q` to `q'` after its last element and before its notification. -/
def atEnd (q q' : Queue) : Queue := { q' with numAdded := q.numAdded + (q'.nextUsed - q.nextUsed) }

theorem Steps.atEnd (h : q.Steps q') : q.atEnd q' = q' := by rw [Queue.atEnd, ← h.numAdded]

/-- The accesses and the queue of `add_used`. -/
theorem partly_addUsed (q : Queue) (i : BitVec 16) (len : BitVec 32) :
    Prog.Partly (fun a => Act.Quiet q.availRing (.mem a)) (fun r => q.Steps r.2) (q.addUsed i len) := by
  have hstep : q.Steps { q with nextUsed := q.nextUsed + 1, numAdded := q.numAdded + 1 } := by
    refine ⟨⟨rfl, rfl, rfl, rfl, rfl, rfl, rfl⟩, ?_⟩
    show q.numAdded + 1 = q.numAdded + (q.nextUsed + 1 - q.nextUsed)
    grind
  unfold addUsed
  split
  · exact .refl q
  dsimp only
  split
  · exact .refl q
  refine ⟨trivial, fun _ => ?_⟩
  unfold publishUsed
  dsimp only
  split
  · exact hstep
  · exact ⟨trivial, fun _ => hstep⟩

/-- `pop` only reads; it may panic. -/
theorem partly_pop (q : Queue) :
    Prog.Partly (fun a => Act.Quiet q.availRing (.mem a) ∧ a.isRead) q.Popped q.pop := by
  have hlen : Prog.Partly (fun a => Act.Quiet q.availRing (.mem a) ∧ a.isRead) (fun _ => True) q.len := by
    have hidx : Prog.Partly (fun a => Act.Quiet q.availRing (.mem a) ∧ a.isRead) (fun _ => True)
        q.availIdx := by
      unfold availIdx
      split
      · trivial
      · rename_i addr hadd
        exact ⟨⟨(checkedAdd_eq_some.mp hadd).2, trivial⟩, fun _ => trivial⟩
    refine hidx.bind fun r _ => ?_
    cases r <;> trivial
  have hnew : ∀ i, Prog.Partly (fun a => Act.Quiet q.availRing (.mem a) ∧ a.isRead)
      (fun c => ∀ d ∈ c, d.index < q.actualSize) (DescriptorChain.checkedNew q.descTable q.actualSize i) := by
    intro i
    have hnone : ∀ d ∈ (none : Option DescriptorChain), d.index < q.actualSize :=
      fun d hd => absurd hd (Option.not_mem_none d)
    unfold DescriptorChain.checkedNew
    split
    · exact hnone
    rename_i hi
    split
    · exact hnone
    · refine ⟨⟨trivial, trivial⟩, fun r => ?_⟩
      cases r with
      | error e => exact hnone
      | ok bs =>
        intro d hd
        obtain ⟨-, hd⟩ := Option.ite_none_right_eq_some.mp hd
        obtain rfl := Option.some.inj hd
        exact BitVec.not_le.mp hi
  have harith : ∀ {w : Nat} {c : Prop} [Decidable c] (x : BitVec w),
      Prog.Partly (fun a => Act.Quiet q.availRing (.mem a) ∧ a.isRead) (fun _ => True)
        (if c then pure x else Prog.access Access.overflow fun _ => pure x : VProg (BitVec w)) := by
    intro w c _ x
    split
    · trivial
    · exact ⟨⟨trivial, trivial⟩, fun _ => trivial⟩
  refine hlen.bind fun pending _ => ?_
  unfold popHead
  split
  · exact .inl ⟨rfl, rfl⟩
  refine (harith _).bind fun _ _ => (harith _).bind fun _ _ => (harith _).bind fun _ _ => ?_
  refine ⟨⟨trivial, trivial⟩, fun r => ?_⟩
  cases r with
  | error e => trivial
  | ok bs =>
    refine (hnew _).bind fun chain hc => ?_
    cases chain with
    | none => exact .inl ⟨rfl, rfl⟩
    | some c => exact .inr ⟨⟨c, rfl, hc c rfl⟩, rfl⟩

end Queue

/-- `add_used` publishes exactly if it succeeds. -/
theorem publishes_addUsed (q : Queue) (i : BitVec 16) (len : BitVec 32) (w : World ε) :
    Prog.Runs (mm.world ck env) (fun r _ (t : List Done) => r.1 = .ok () ↔ ∃ d ∈ t, d.publishes q.usedRing)
      (lift (q.addUsed i len)) w := by
  unfold Queue.addUsed
  split
  · exact .pure (by simp)
  dsimp only
  split
  · exact .pure (by simp)
  refine .access fun r w₁ _ => ?_
  unfold Queue.publishUsed
  dsimp only
  split
  · exact .pure (by simp [Done.publishes])
  · rename_i addr hadd
    refine .access fun r w₂ _ => .pure ?_
    cases r <;> simp [Done.publishes, Except.mapError, (checkedAdd_eq_some.mp hadd).2]

/-! ## One chain -/

theorem partly_lift {α : Type} {P : Access → Prop} {P' : Act → Prop} {Q : α → Prop} {p : VProg α}
    (hp : Prog.Partly P Q p) (hP : ∀ a, P a → P' (.mem a)) : Prog.Partly P' Q (lift p) := by
  induction p with
  | pure x => exact hp
  | panic => trivial
  | access a k ih => exact ⟨hP a hp.1, fun r => ih r (hp.2 r)⟩

theorem partly_addUsed (q : Queue) (i : BitVec 16) (len : Nat) :
    Prog.Partly (Act.Quiet q.availRing) (fun q' => q.Steps q') (addUsed q i len) :=
  ⟨trivial, fun _ => (partly_lift (q.partly_addUsed i _) fun _ h => h).bind fun _ h => h⟩

theorem partly_popChain (q : Queue) :
    Prog.Partly (fun a => a.Quiet q.availRing ∧ a.Inert) q.Popped (popChain q) := by
  refine (partly_lift q.partly_pop fun _ h => h).bind fun r hr => ?_
  rcases r with ⟨_ | head, q'⟩
  · exact hr
  · exact ⟨⟨trivial, trivial⟩, fun _ => hr⟩

/-- What a run from `q` did to serve a chain: whatever it published, `used` says so. -/
structure Accounts (q q' : Queue) (used : Bool) (t : List Done) : Prop where
  steps : q.Steps q'
  used : (∃ d ∈ t, d.publishes q.usedRing) → used = true

/-- Runs of `p` from `q` account for what they publish; `flag` reads off what they say. -/
abbrev Accounting (mm : MemoryManager) (env : Env ε) {β : Type} (flag : β → Bool) (q : Queue)
    (p : WProg (Queue × β)) : Prop :=
  ∀ w, Prog.Runs (mm.world false env) (fun r _ t => Accounts q r.1 (flag r.2) t) p w

section
variable {α β : Type} {flag : β → Bool} {q : Queue} {y : β} {S : Nat → Prop}

theorem not_publishes {us : GuestAddress} {t : List Done} (h : ∀ d ∈ t, ¬ d.1.IsStore) :
    ¬ ∃ d ∈ t, d.publishes us := by
  rintro ⟨d, hd, hp⟩
  exact h d hd (Done.isStore_of_publishes hp)

theorem accounting_nothing : Accounting mm env flag q (pure (q, y)) := by
  intro w
  exact .pure ⟨.refl q, fun h => absurd h (not_publishes (List.forall_mem_nil _))⟩

theorem accounting_addUsed {i : BitVec 16} {len : Nat} (hy : flag y = true) :
    Accounting mm env flag q (addUsed q i len >>= fun q => pure (q, y)) := by
  intro w
  have hp : Prog.Partly (Act.Quiet q.availRing) (fun r => q.Steps r.1 ∧ r.2 = y)
      (addUsed q i len >>= fun q => pure (q, y)) :=
    (partly_addUsed q i len).bind fun q' h => ⟨h, rfl⟩
  refine (hp.runs w).mono fun r _ t h => ⟨h.1.1, fun _ => ?_⟩
  rw [h.1.2]
  exact hy

/-- Before that, nothing is stored. -/
theorem Accounting.bind {Q : α → Prop} {p : WProg α} {f : α → WProg (Queue × β)}
    (hp : Calm mm env S Q p) (hf : ∀ x, Q x → Accounting mm env flag q (f x)) :
    Accounting mm env flag q (p >>= f) := by
  intro w
  refine .bind ((Prog.Always.runs hp w).mono fun x w' t hx => ?_)
  refine (hf x hx.1 w').mono fun r _ t' h => ⟨h.steps, fun hpub => h.used ?_⟩
  obtain ⟨d, hd, hpub⟩ := hpub
  rcases List.mem_append.mp hd with hd | hd
  · exact absurd (Done.isStore_of_publishes hpub) (hx.2 d hd).not_isStore
  · exact ⟨d, hd, hpub⟩

/-- Serving a chain whose stream the worker opens, or that it drops. -/
theorem accounting_opened {σ : Type} {o : VProg (Except ChainError σ)}
    {p : Except ChainError σ → WProg (Queue × β)}
    (ho : Prog.Always (mm.handler false) Access.isRead (fun _ => True) o)
    (herr : ∀ e, Accounting mm env flag q (p (.error e)))
    (hok : ∀ s, Accounting mm env flag q (p (.ok s))) : Accounting mm env flag q (lift o >>= p) := by
  refine .bind (calm_lift (S := fun _ => True) ho) fun x _ => ?_
  cases x with
  | error e => exact herr e
  | ok s => exact hok s

end

theorem within_true (bufs : List VolatileSlice) : Within (fun _ => True) bufs := fun _ _ _ _ => trivial

theorem BlockWorker.accounting (disk : DiskProperties) (head : DescriptorChain) (q : Queue) :
    Accounting mm env id q (serve mm disk head q) := by
  refine accounting_opened (Reader.always_new mm head.tableFits_false)
    (fun _ => accounting_nothing) fun reader => ?_
  refine accounting_opened (Writer.always_new mm head.tableFits_false)
    (fun _ => accounting_nothing) fun writer => ?_
  refine .bind (Reader.calm_readObj (S := fun _ => True) RequestHeader reader) fun r _ => ?_
  rcases r with ⟨_ | header, reader⟩
  · exact accounting_nothing
  · refine .bind (calm_processRequest disk header (within_true _)) fun x _ => ?_
    exact .bind (Writer.calm_writeAll (within_true _) _) fun _ _ => accounting_addUsed rfl

theorem RngWorker.accounting (head : DescriptorChain) (q : Queue) :
    Accounting mm env id q (serve mm head q) := by
  refine accounting_opened (Writer.always_new mm head.tableFits_false)
    (fun _ => accounting_nothing) fun writer => ?_
  dsimp only
  split
  · exact accounting_addUsed rfl
  refine .bind (calm_io (S := fun _ => True) trivial _) fun buf _ => ?_
  cases buf with
  | none => exact accounting_addUsed rfl
  | some buf => exact .bind (Writer.calm_writeAll (within_true _) _) fun _ _ => accounting_addUsed rfl

theorem ConsoleWorker.accountingTx (head : DescriptorChain) (q : Queue) :
    Accounting mm env id q (serveTx mm head q) := by
  refine accounting_opened (Reader.always_new mm head.tableFits_false)
    (fun _ => accounting_nothing) fun reader => ?_
  exact .bind (calm_emit (fun _ => True) reader) fun _ _ => accounting_addUsed rfl

theorem ConsoleWorker.accountingRx (chunk : List Byte) (head : DescriptorChain) (q : Queue) :
    Accounting mm env Option.isSome q (serveRx mm chunk head q) := by
  refine accounting_opened (Writer.always_new mm head.tableFits_false)
    (fun _ => accounting_nothing) fun writer => ?_
  exact .bind (Writer.calm_writeAll (within_true _) _) fun _ _ => accounting_addUsed rfl

theorem NetWorker.accountingTx (head : DescriptorChain) (q : Queue) :
    Accounting mm env id q (serveTx mm head q) := by
  refine accounting_opened (Reader.always_new mm head.tableFits_false)
    (fun _ => accounting_nothing) fun reader => ?_
  exact .bind (calm_transmit (fun _ => True) reader) fun _ _ => accounting_addUsed rfl

/-! ## The loops -/

/-- What a loop from `q` with `used` did: the accounts of all its chains. -/
theorem Accounts.trans {q q' q'' : Queue} {used used' : Bool} {t t' : List Done} (h : Accounts q q' used t)
    (h' : Accounts q' q'' used' t') (hu : used = true → used' = true) : Accounts q q'' used' (t ++ t') := by
  refine ⟨h.steps.trans h'.steps, fun ⟨d, hd, hp⟩ => ?_⟩
  rcases List.mem_append.mp hd with hd | hd
  · exact hu (h.used ⟨d, hd, hp⟩)
  · rw [← h.steps.config.usedRing] at hp
    exact h'.used ⟨d, hd, hp⟩

/-- What a loop accounts for, if it comes to its end. -/
abbrev LoopAccounting (mm : MemoryManager) (env : Env ε) (q : Queue) (used : Bool)
    (p : WProg (Option (Queue × Bool))) : Prop :=
  ∀ w, Prog.Runs (mm.world false env) (fun r _ t => ∀ q' used', r = some (q', used') →
    Accounts q q' used' t ∧ (used = true → used' = true)) p w

/-- A loop pops a chain, serves it, and goes on. -/
theorem LoopAccounting.pop {β : Type} {flag : β → Bool} {q : Queue} {used : Bool}
    {f : Option DescriptorChain × Queue → WProg (Option (Queue × Bool))}
    {serve : DescriptorChain → Queue → WProg (Queue × β)} {g : Queue × β → WProg (Option (Queue × Bool))}
    (hs : ∀ c q, Accounting mm env flag q (serve c q)) (hnone : ∀ q, f (none, q) = pure (some (q, used)))
    (hsome : ∀ c q, f (some c, q) = serve c q >>= g)
    (hg : ∀ q x, ∃ used', LoopAccounting mm env q used' (g (q, x)) ∧
      (used = true → used' = true) ∧ (flag x = true → used' = true)) :
    LoopAccounting mm env q used (popChain q >>= f) := by
  intro w
  refine .bind (((partly_popChain q).runs w).mono fun r w₁ t h => ?_)
  rcases r with ⟨o, q₁⟩
  have hpop : ∀ used', Accounts q q₁ used' t :=
    fun used' => ⟨h.1.steps, fun hp => absurd hp (not_publishes fun d hd => (h.2 d hd).2.not_isStore)⟩
  cases o with
  | none =>
    rw [hnone]
    refine .pure fun q' used' he => ?_
    obtain ⟨rfl, rfl⟩ := Prod.mk.inj (Option.some.inj he)
    rw [List.append_nil]
    exact ⟨hpop _, id⟩
  | some c =>
    rw [hsome]
    refine .bind ((hs c q₁ w₁).mono fun x w₂ t₁ hx => ?_)
    obtain ⟨used₁, hloop, hu, hflag⟩ := hg x.1 x.2
    refine (hloop w₂).mono fun r w₃ t₂ hr q' used' he => ?_
    obtain ⟨hacc, hu'⟩ := hr q' used' he
    rw [← List.append_assoc]
    refine ⟨((hpop _).trans hx fun h => h).trans hacc fun h => hu' (hflag h), fun h => hu' (hu h)⟩

theorem accounting_popLoop {serve : DescriptorChain → Queue → WProg (Queue × Bool)}
    (hs : ∀ c q, Accounting mm env id q (serve c q)) (fuel : Nat) (q : Queue) (used : Bool) :
    LoopAccounting mm env q used (popLoop serve fuel q used) := by
  induction fuel generalizing q used with
  | zero => exact fun w => .pure nofun
  | succ fuel ih =>
    refine LoopAccounting.pop hs (fun q => rfl) (fun c q => rfl) fun q x => ⟨_, ih q (used || x), ?_, ?_⟩
    · exact fun h => by rw [h, Bool.true_or]
    · exact fun h => by rw [show x = true from h, Bool.or_true]

theorem ConsoleWorker.accounting_rxLoop (data : List Byte) (fuel offset : Nat) (q : Queue) (used : Bool) :
    LoopAccounting mm env q used (rxLoop mm data fuel offset q used) := by
  induction fuel generalizing offset q used with
  | zero => exact fun w => .pure fun _ _ h => absurd h (Option.some_ne_none _).symm
  | succ fuel ih =>
    unfold rxLoop
    split
    · intro w
      refine .pure fun q' used' he => ?_
      obtain ⟨rfl, rfl⟩ := Prod.mk.inj (Option.some.inj he)
      exact ⟨⟨.refl q, fun h => absurd h (not_publishes (List.forall_mem_nil _))⟩, id⟩
    · refine .pop (accountingRx (data.drop offset)) (fun q => rfl) (fun c q => rfl) fun q x => ?_
      cases x with
      | none => exact ⟨used, ih offset q used, id, fun h => absurd h Bool.false_ne_true⟩
      | some n => exact ⟨true, ih (offset + n) q true, fun _ => rfl, fun _ => rfl⟩

end Whypa
