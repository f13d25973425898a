import Whypa.Virtio.Accounts

/-!
# Published completions are announced

After the last element that a run publishes the worker is to signal the guest, or to be
told by `needs_notification` that it need not (`Decided`). `decided_iff` is the point of
this file: only the receive loop of the network device can do without, when none of the
frames meets a chain with room for it.
-/

namespace Whypa

open Framework WProg

variable {ε : Type} {env : Env ε} {mm : MemoryManager} {ck : Bool}

/-! ## The notification -/

/-- After the last element of a run from `q` to `q'` the worker has signalled, or it has called
`needs_notification` and been told no. -/
def Decided (ck : Bool) (mm : MemoryManager) (env : Env ε) (q q' : Queue) (t : List Done) : Prop :=
  ∃ t₁ t₂ t₃, t = t₁ ++ t₂ ++ t₃ ∧ (∀ d ∈ t₂ ++ t₃, ¬ Done.publishes q.usedRing d) ∧
    ((∃ r, t₂ = [⟨.io .signal, r⟩]) ∨
      ∃ q₂ w, Prog.run (mm.world ck env) (lift (q.atEnd q').needsNotification) w =
          some ((.ok false, q₂), w) ∧
        t₂ = Prog.trace (mm.world ck env) (lift (q.atEnd q').needsNotification) w)

/-- The driver's event is read, which is not the index of the available ring, and decides; without
an event the guest is to be signalled. -/
theorem needsNotification_eq (q : Queue) : q.needsNotification = pure (.ok true, q) ∨
    q.needsNotification = pure (.error .addressOverflow, q) ∨
    ∃ addr, addr ≠ q.availRing + 2 ∧ q.needsNotification = .access (.load addr) fun r =>
      match r with
      | .error e => .pure (.error (.guestMemory e), q)
      | .ok ev => .pure (.ok (q.eventPassed ev), { q with numAdded := 0 }) := by
  unfold Queue.needsNotification
  split
  · unfold Queue.usedEvent
    cases hadd : checkedAdd q.availRing
        (VIRTQ_AVAIL_RING_HEADER_SIZE + q.size.setWidth 64 * VIRTQ_AVAIL_ELEMENT_SIZE) with
    | none => exact .inr (.inl rfl)
    | some addr =>
      refine .inr (.inr ⟨addr, ?_, congrArg (Prog.access (Access.load addr)) (funext fun r => ?_)⟩)
      · obtain ⟨-, rfl⟩ := checkedAdd_eq_some.mp hadd
        have hsize := q.size.isLt
        unfold VIRTQ_AVAIL_RING_HEADER_SIZE VIRTQ_AVAIL_ELEMENT_SIZE
        bv_omega
      · cases r <;> rfl
  · exact .inl rfl

/-- No check for overflow is met. -/
theorem needsNotification_world (ck : Bool) (q : Queue) (w : World ε) :
    Prog.run (mm.world ck env) (lift q.needsNotification) w =
        Prog.run (mm.world false env) (lift q.needsNotification) w ∧
      Prog.trace (mm.world ck env) (lift q.needsNotification) w =
        Prog.trace (mm.world false env) (lift q.needsNotification) w := by
  rcases needsNotification_eq q with h | h | ⟨addr, -, h⟩
  · rw [h]
    exact ⟨rfl, rfl⟩
  · rw [h]
    exact ⟨rfl, rfl⟩
  · have hload : ∀ ck, mm.world ck env (.mem (.load addr)) w = some (mm.load 16 addr w.mem, w) := fun _ => rfl
    rw [h, lift, Prog.run_access, Prog.run_access, Prog.trace_access (hload ck),
      Prog.trace_access (hload false), hload ck, hload false]
    cases mm.load 16 addr w.mem <;> exact ⟨rfl, rfl⟩

theorem decided_world {q q' : Queue} {t : List Done} :
    Decided ck mm env q q' t ↔ Decided false mm env q q' t := by
  unfold Decided
  simp only [needsNotification_world ck]

/-- What `needs_notification` answers, and what it leaves alone. -/
theorem runs_needsNotification (q : Queue) (w : World ε) :
    Prog.Runs (mm.world false env) (fun r w' t => w' = w ∧ (∀ d ∈ t, ¬ d.1.IsStore) ∧
      (r.1 = .ok false → r.2 = { q with numAdded := 0 } ∧ ∃ d ∈ t, ¬ d.1.Quiet q.availRing))
      (lift q.needsNotification) w := by
  rcases needsNotification_eq q with h | h | ⟨addr, hne, h⟩
  · rw [h]
    exact .pure ⟨rfl, List.forall_mem_nil _, nofun⟩
  · rw [h]
    exact .pure ⟨rfl, List.forall_mem_nil _, nofun⟩
  · rw [h]
    refine .access fun r w' he => ?_
    obtain ⟨-, rfl⟩ := Prod.mk.inj (Option.some.inj he)
    cases r with
    | error e => exact .pure ⟨rfl, List.forall_mem_singleton.mpr id, nofun⟩
    | ok ev =>
      exact .pure ⟨rfl, List.forall_mem_singleton.mpr id,
        fun _ => ⟨rfl, _, List.mem_singleton.mpr rfl, hne⟩⟩

section
variable {q q₁ q' : Queue} {t₀ : List Done}

/-- With something published, the notification decides. -/
theorem decided_notifyUsed (t₀ : List Done) (hs : q.Steps q₁) (w : World ε) :
    Prog.Runs (mm.world false env) (fun q' _ t => Decided false mm env q q' (t₀ ++ t))
      (notifyUsed q₁ true) w := by
  intro q' w' hr
  rw [notifyUsed, if_pos rfl] at hr ⊢
  rw [Prog.run_bind] at hr
  obtain ⟨⟨⟨need, q₂⟩, w₂⟩, hneed, hr⟩ := Option.bind_eq_some_iff.mp hr
  obtain ⟨rfl, hstore, hfalse⟩ := runs_needsNotification q₁ w _ _ hneed
  rw [Prog.trace_bind hneed]
  cases need with
  | error e => cases hr
  | ok b =>
    cases b with
    | true =>
      obtain ⟨rfl, rfl⟩ := Prod.mk.inj (Option.some.inj hr)
      refine ⟨_, [⟨.io .signal, _⟩], [], (by rw [List.append_nil, List.append_assoc]; rfl), ?_, .inl ⟨_, rfl⟩⟩
      exact List.forall_mem_singleton.mpr nofun
    | false =>
      obtain ⟨rfl, rfl⟩ := Prod.mk.inj (Option.some.inj hr)
      obtain ⟨rfl, -⟩ := hfalse rfl
      have hend : q.atEnd { q₁ with numAdded := 0 } = q₁ := hs.atEnd
      refine ⟨t₀, Prog.trace (mm.world false env) (lift q₁.needsNotification) w₂, [],
        (List.append_assoc ..).symm, ?_, .inr ⟨{ q₁ with numAdded := 0 }, w₂, ?_, by rw [hend]⟩⟩
      swap
      · rw [hend]
        exact hneed
      rw [List.append_nil]
      exact fun d hd hp => hstore d hd (Done.isStore_of_publishes hp)

/-- A signal decides. -/
theorem decided_signalUsed (q q₁ : Queue) (t₀ : List Done) (w : World ε) :
    Prog.Runs (mm.world false env) (fun q' _ t => Decided false mm env q q' (t₀ ++ t))
      (signalUsed q₁ true) w := by
  refine .access fun r w' _ => .pure ?_
  exact ⟨t₀, [⟨.io .signal, r⟩], [], (List.append_nil _).symm, List.forall_mem_singleton.mpr nofun,
    .inl ⟨r, rfl⟩⟩

/-- Without a signal and without the driver's event nothing is decided. -/
theorem not_decided (hs : q.Steps q') (hq : ∀ d ∈ t₀, d.1.Quiet q.availRing) :
    ¬ Decided false mm env q q' t₀ := by
  rintro ⟨t₁, t₂, t₃, rfl, -, ⟨r, rfl⟩ | ⟨q₂, w, hr, rfl⟩⟩
  · exact hq ⟨.io .signal, r⟩ (by simp) rfl
  · obtain ⟨d, hd, hnot⟩ := ((runs_needsNotification _ w _ _ hr).2.2 rfl).2
    refine hnot ?_
    have hd : d ∈ t₁ ++ Prog.trace (mm.world false env) (lift (q.atEnd q').needsNotification) w ++ t₃ :=
      List.mem_append_left _ (List.mem_append_right _ hd)
    rw [show (q.atEnd q').availRing = q.availRing from hs.config.availRing]
    exact hq d hd

end

/-- The notification pops nothing. -/
theorem log_notifyUsed {q q' : Queue} {w w' : World ε} (used : Bool)
    (hr : Prog.run (mm.world false env) (notifyUsed q used) w = some (q', w')) : w'.log = w.log := by
  have hkeeps : Prog.Keeps (mm.world false env) (fun v => v.log = w.log) (notifyUsed q used) := by
    have hlift : ∀ {α : Type} (p : VProg α),
        Prog.Keeps (mm.world false env) (fun v => v.log = w.log) (lift p) :=
      fun p v x v' hv hr => (log_lift hr).trans hv
    unfold notifyUsed
    split
    · refine (hlift _).bind fun x => (hlift _).bind fun b => ?_
      split
      · refine Prog.Keeps.bind (fun v x v' hv hr => ?_) fun _ => .pure _
        obtain ⟨-, rfl⟩ := Prod.mk.inj (Option.some.inj hr)
        exact hv
      · exact .pure _
    · exact .pure _
  exact hkeeps rfl hr

/-! ## The receive loop of the network device -/

namespace NetWorker

/-- The chain, with the memory of the moment it was popped, has room for the frame. -/
def Fits (mm : MemoryManager) (frame : List Byte) (p : DescriptorChain × Mem) : Prop :=
  p.1.writableOk mm p.2 = true ∧ NET_HDR_SIZE + frame.length ≤ p.1.writableBytes mm p.2

/-- The streams of a chain are made by reading descriptors. -/
theorem partly_writerNew (av : GuestAddress) (c : DescriptorChain) :
    Prog.Partly (Act.Quiet av) (fun _ => True) (lift (Writer.new mm c)) := by
  have hnext : ∀ c : DescriptorChain, Prog.Partly (fun a => Act.Quiet av (.mem a)) (fun _ => True)
      c.nextDescriptor := by
    intro c
    unfold DescriptorChain.nextDescriptor
    split
    · unfold DescriptorChain.checkedNew
      split
      · trivial
      split
      · trivial
      · refine ⟨trivial, fun r => ?_⟩
        cases r <;> trivial
    · trivial
  have hiter : ∀ n c s, Prog.Partly (fun a => Act.Quiet av (.mem a)) (fun _ => True)
      (descIter (Collect.writable mm) n c s) := by
    intro n
    induction n with
    | zero => exact fun _ _ => trivial
    | succ n ih =>
      intro c s
      refine (hnext c).bind fun next _ => ?_
      cases next with
      | none => trivial
      | some d =>
        dsimp only
        split
        · exact ih d _
        · trivial
  exact partly_lift ((hiter ..).bind fun _ _ => trivial) fun _ h => h

/-- The flag is set exactly if the frame fits, and otherwise no more is done than to return the
chain. -/
theorem used_serveRx (frame : List Byte) (c : DescriptorChain) (q : Queue) (w : World ε) :
    Prog.Runs (mm.world false env) (fun r _ t => (r.2 = true ↔ Fits mm frame (c, w.mem)) ∧
      (r.2 = false → ∀ d ∈ t, d.1.Quiet q.availRing)) (serveRx mm frame c q) w := by
  obtain ⟨r, hnew, hs⟩ := run_writerNew env c.tableFits_false w
  refine .bind fun x w₁ hx => ?_
  have hquiet := ((partly_writerNew q.availRing c).runs w _ _ hx).2
  obtain ⟨rfl, rfl⟩ := Prog.run_unique hnew hx
  rcases hs with ⟨hok, rfl⟩ | ⟨ha, e, rfl⟩
  · obtain ⟨hb, hav⟩ := writer_of_writableOk hok
    have hhdr : defaultRxHeader.length = NET_HDR_SIZE := by decide
    dsimp only
    rw [hav]
    split
    · rename_i hlt
      refine .bind (((partly_addUsed q c.index 0).runs w).mono fun q' w' t h => .pure ⟨?_, fun _ => ?_⟩)
      · exact iff_of_false nofun fun h => absurd h.2 (Nat.not_le_of_lt hlt)
      · rw [List.append_nil]
        exact fun d hd => (List.mem_append.mp hd).elim (hquiet d) (h.2 d)
    · rename_i hle
      refine .bind fun x₁ w₁ hx₁ => ?_
      obtain ⟨y, wr, hrun, -, hiff⟩ := Writer.run_writeAll false mm env hb defaultRxHeader w
      obtain ⟨rfl, rfl⟩ := Prog.run_unique hrun hx₁
      obtain rfl := hiff.mpr (by rw [hhdr, hav]; omega)
      refine .bind fun x₂ w₂ _ => .bind fun q' w₃ _ => .pure ⟨?_, nofun⟩
      exact iff_of_true rfl ⟨hok, Nat.le_of_not_lt hle⟩
  · refine .pure ⟨iff_of_false nofun fun h => ?_, fun _ => ?_⟩
    · cases ha.symm.trans h.1
    · rw [List.append_nil]
      exact hquiet

theorem steps_serveRx (frame : List Byte) (head : DescriptorChain) (q : Queue) :
    Accounting mm env (fun _ => true) q (serveRx mm frame head q) := by
  refine accounting_opened (Writer.always_new mm head.tableFits_false)
    (fun _ => accounting_nothing) fun writer => ?_
  dsimp only
  split
  · exact accounting_addUsed rfl
  refine .bind (Writer.calm_writeAll (within_true _) _) fun x _ => ?_
  rcases x with ⟨_ | _, writer⟩
  · exact accounting_addUsed rfl
  · exact .bind (Writer.calm_writeAll (within_true _) _) fun _ _ => accounting_addUsed rfl

/-- One of the frames meets a chain with room for it. -/
def Delivers (mm : MemoryManager) (packets : List (List Byte)) (ps : List (DescriptorChain × Mem)) : Prop :=
  ∃ p ∈ (packets.filter fun frame => frame.length ≤ MAX_FRAME_SIZE).zip ps, Fits mm p.1 p.2

section
variable {frame : List Byte} {packets : List (List Byte)} {ps : List (DescriptorChain × Mem)}

/-- A frame that is too long is dropped before a chain is taken. -/
theorem delivers_long (h : MAX_FRAME_SIZE < frame.length) :
    Delivers mm (frame :: packets) ps ↔ Delivers mm packets ps := by
  unfold Delivers
  rw [List.filter_cons_of_neg (by simpa using h)]

theorem delivers_cons (h : frame.length ≤ MAX_FRAME_SIZE) (p : DescriptorChain × Mem) :
    Delivers mm (frame :: packets) (p :: ps) ↔ Fits mm frame p ∨ Delivers mm packets ps := by
  unfold Delivers
  rw [List.filter_cons_of_pos (by simpa using h), List.zip_cons_cons]
  simp only [List.mem_cons, exists_eq_or_imp]

end

theorem runs_rxLoop (packets : List (List Byte)) (q : Queue) (used : Bool) (w : World ε) :
    Prog.Runs (mm.world false env) (fun r w' t => q.Steps r.1 ∧ ∃ ps, pops w'.log = pops w.log ++ ps ∧
      (r.2 = true ↔ used = true ∨ Delivers mm packets ps) ∧
      (r.2 = false → ∀ d ∈ t, d.1.Quiet q.availRing)) (rxLoop mm packets q used) w := by
  induction packets generalizing q used w with
  | nil =>
    refine .pure ⟨.refl q, [], (List.append_nil _).symm, ?_, fun _ => List.forall_mem_nil _⟩
    simp [Delivers]
  | cons frame packets ih =>
    unfold rxLoop
    split
    · rename_i hlong
      simp only [delivers_long hlong]
      exact ih q used w
    · rename_i hshort
      refine .bind fun x w₁ hx => ?_
      obtain ⟨hpopped, hquiet⟩ := (partly_popChain q).runs w _ _ hx
      have hsteps := hpopped.steps
      rcases x with ⟨o, q₁⟩
      rcases log_popChain hx with ⟨rfl, hl⟩ | ⟨c, rfl, hl⟩
      · refine .bind (.access fun r w₂ he => .pure (.pure ⟨hsteps, [], ?_, ?_, fun _ => ?_⟩))
        · obtain ⟨-, rfl⟩ := Prod.mk.inj (Option.some.inj he)
          rw [List.append_nil]
          exact congrArg pops hl
        · simp [Delivers]
        · rw [List.append_nil]
          refine List.forall_mem_append.mpr ⟨fun d hd => (hquiet d hd).1, ?_⟩
          exact List.forall_mem_singleton.mpr (by simp [Act.Quiet])
      · refine .bind fun x w₂ hx₂ => ?_
        obtain ⟨q₂, used₂⟩ := x
        have hacc := (steps_serveRx frame c q₁ w₁ _ _ hx₂).steps
        obtain ⟨hused, hserve⟩ := used_serveRx frame c q₁ w₁ _ _ hx₂
        have hpops : pops w₂.log = pops w.log ++ [(c, w₁.mem)] := by
          rw [(servedRx frame c q₁ w₁).pops hx₂, hl]
          simp [pops, Event.pop?]
        refine (ih q₂ (used || used₂) w₂).mono fun r w₃ t h => ?_
        obtain ⟨hsteps₃, ps, hps, hiff, hquiet₃⟩ := h
        have hav₁ : q₁.availRing = q.availRing := hsteps.config.availRing
        have hav₂ : q₂.availRing = q₁.availRing := hacc.config.availRing
        refine ⟨(hsteps.trans hacc).trans hsteps₃, (c, w₁.mem) :: ps, ?_, ?_, fun hr => ?_⟩
        · rw [hps, hpops, List.append_assoc]
          rfl
        · have hdel := @delivers_cons mm frame packets ps (Nat.le_of_not_lt hshort) (c, w₁.mem)
          rw [hiff, hdel, Bool.or_eq_true, or_assoc, show used₂ = true ↔ _ from hused]
        · have hnot : used₂ = false := by
            cases used₂ with
            | false => rfl
            | true =>
              have := hiff.mpr (.inl (by rw [Bool.or_true]))
              rw [hr] at this
              cases this
          refine List.forall_mem_append.mpr ⟨fun d hd => (hquiet d hd).1, List.forall_mem_append.mpr ⟨?_, ?_⟩⟩
          · rw [← hav₁]
            exact hserve hnot
          · rw [← hav₁, ← hav₂]
            exact hquiet₃ hr

variable {q q' : Queue} {w w' : World ε}

/-- What is published is announced exactly if a frame met a chain with room for it. -/
theorem decided_processRxVirtioQueue (q : Queue) (w : World ε) :
    Prog.Runs (mm.world false env) (fun q' w' t => (∃ d ∈ t, Done.publishes q.usedRing d) →
      ∃ ps, pops w'.log = pops w.log ++ ps ∧
        (Decided false mm env q q' t ↔ Delivers mm (env .drainPending w.ext).1 ps))
      (processRxVirtioQueue mm q) w := by
  refine .access fun packets w₁ he => ?_
  obtain ⟨rfl, rfl⟩ := Prod.mk.inj (Option.some.inj he)
  have hdrain : Act.Quiet q.availRing (.io .drainPending) := nofun
  dsimp only [Prog.bind]
  split
  · refine .pure fun hp => absurd hp (not_publishes ?_)
    exact List.forall_mem_singleton.mpr id
  refine .bind ((runs_rxLoop _ q false _).mono fun r w₂ t h => ?_)
  obtain ⟨hsteps, ps, hps, hiff, hquiet⟩ := h
  obtain ⟨q₁, used⟩ := r
  cases used with
  | true =>
    intro q' w' hr _
    refine ⟨ps, by rw [log_notifyUsed true hr, hps], iff_of_true ?_ ((hiff.mp rfl).resolve_left nofun)⟩
    exact decided_notifyUsed (⟨.io .drainPending, _⟩ :: t) hsteps w₂ q' w' hr
  | false =>
    refine .pure fun _ => ⟨ps, hps, iff_of_false ?_ fun h => nomatch hiff.mpr (.inr h)⟩
    rw [List.append_nil]
    exact not_decided hsteps (List.forall_mem_cons.mpr ⟨hdrain, hquiet rfl⟩)

end NetWorker

namespace QueueLoop

/-- The loop announces what it publishes: that of the receive queue of the network does if one of
the frames pending meets a chain with room for it. -/
def Announces (mm : MemoryManager) : QueueLoop → List (List Byte) → List Event → Prop
  | netRx => fun packets log => NetWorker.Delivers mm packets (pops log)
  | _ => fun _ _ => True

section
variable {q : Queue} {w : World ε}

/-- The loops that set the flag for all they publish. -/
theorem decided_processWith {serve : DescriptorChain → Queue → WProg (Queue × Bool)}
    {notify : Queue → Bool → WProg Queue} (hs : ∀ c q, Accounting mm env id q (serve c q))
    (hn : ∀ (q₁ : Queue) (t₀ : List Done) (w : World ε), q.Steps q₁ → Prog.Runs (mm.world false env)
      (fun q' _ t => Decided false mm env q q' (t₀ ++ t)) (notify q₁ true) w)
    (hnot : ∀ q₁, notify q₁ false = pure q₁) (fuel : Nat) :
    Prog.Runs (mm.world false env) (fun r _ t => (∃ d ∈ t, Done.publishes q.usedRing d) →
      ∀ q', r = some q' → Decided false mm env q q' t) (processWith serve notify fuel q) w := by
  refine .bind ((accounting_popLoop hs fuel q false w).mono fun r w₁ t h => ?_)
  cases r with
  | none => exact .pure fun _ _ => nofun
  | some r =>
    obtain ⟨q₁, used⟩ := r
    obtain ⟨hacc, -⟩ := h q₁ used rfl
    dsimp only
    cases used with
    | false =>
      rw [hnot]
      refine .bind (.pure (.pure fun hp => ?_))
      rw [List.append_nil, List.append_nil] at hp
      exact absurd (hacc.used hp) nofun
    | true =>
      refine .bind ((hn q₁ t w₁ hacc.steps).mono fun q' w₂ t₁ hd => .pure fun _ q'' he => ?_)
      obtain rfl := Option.some.inj he
      rw [List.append_nil]
      exact hd

theorem decided_processRxInput (fuel : Nat) :
    Prog.Runs (mm.world false env) (fun r _ t => (∃ d ∈ t, Done.publishes q.usedRing d) →
      ∀ q', r = some q' → Decided false mm env q q' t) (ConsoleWorker.processRxInput mm fuel q) w := by
  refine .access fun data w₁ he => ?_
  dsimp only [Prog.bind]
  split
  · refine .pure fun hp => absurd hp (not_publishes ?_)
    exact List.forall_mem_singleton.mpr id
  refine .bind ((ConsoleWorker.accounting_rxLoop data fuel 0 q false w₁).mono fun r w₂ t h => ?_)
  cases r with
  | none => exact .pure fun _ _ => nofun
  | some r =>
    obtain ⟨q₁, used⟩ := r
    obtain ⟨hacc, -⟩ := h q₁ used rfl
    dsimp only
    cases used with
    | false =>
      refine .bind (.pure (.pure fun ⟨d, hd, hp⟩ => ?_))
      rw [List.append_nil, List.append_nil] at hd
      rcases List.mem_cons.mp hd with rfl | hd
      · cases hp
      · exact absurd (hacc.used ⟨d, hd, hp⟩) nofun
    | true =>
      refine .bind ((decided_notifyUsed (⟨.io .drainInput, data⟩ :: t) hacc.steps w₂).mono
        fun q' w₃ t₁ hd => .pure fun _ q'' he => ?_)
      obtain rfl := Option.some.inj he
      rw [List.append_nil]
      exact hd

end

theorem decided_netRx {fuel : Nat} {q q' : Queue} {m : Mem} {e : ε} {w : World ε}
    (hr : Prog.run (mm.world false env) (netRx.process mm fuel q) ⟨m, e, []⟩ = some (some q', w))
    (hp : ∃ d ∈ Prog.trace (mm.world false env) (netRx.process mm fuel q) ⟨m, e, []⟩,
      Done.publishes q.usedRing d) :
    Decided false mm env q q' (Prog.trace (mm.world false env) (netRx.process mm fuel q) ⟨m, e, []⟩) ↔
      NetWorker.Delivers mm (env .drainPending e).1 (pops w.log) := by
  have hruns : Prog.Runs (mm.world false env) (fun r w' t => (∃ d ∈ t, Done.publishes q.usedRing d) →
      ∀ q', r = some q' → (Decided false mm env q q' t ↔
        NetWorker.Delivers mm (env .drainPending e).1 (pops w'.log)))
      (netRx.process mm fuel q) ⟨m, e, []⟩ := by
    refine .bind ((NetWorker.decided_processRxVirtioQueue q ⟨m, e, []⟩).mono
      fun q₁ w₁ t h => .pure fun hp q'' he => ?_)
    rw [List.append_nil] at hp ⊢
    obtain rfl := Option.some.inj he
    obtain ⟨ps, hps, hiff⟩ := h hp
    rw [hps]
    exact hiff
  exact hruns _ _ hr hp q' rfl

/-- In a run that publishes an element and returns, the decision about the notification is made
after the last one: always in five of the loops, and in that of the receive queue of the network
exactly if one of the frames pending met a chain with room for it. -/
theorem decided_iff (ck : Bool) (l : QueueLoop) {fuel : Nat} {q q' : Queue} {m : Mem} {e : ε} {w : World ε}
    (hr : Prog.run (mm.world ck env) (l.process mm fuel q) ⟨m, e, []⟩ = some (some q', w))
    (hp : ∃ d ∈ Prog.trace (mm.world ck env) (l.process mm fuel q) ⟨m, e, []⟩,
      Done.publishes q.usedRing d) :
    Decided ck mm env q q' (Prog.trace (mm.world ck env) (l.process mm fuel q) ⟨m, e, []⟩) ↔
      l.Announces mm (env .drainPending e).1 w.log := by
  have ht : Prog.trace (mm.world ck env) (l.process mm fuel q) ⟨m, e, []⟩ =
      Prog.trace (mm.world false env) (l.process mm fuel q) ⟨m, e, []⟩ := trace_of_checked hr
  rw [decided_world, ht]
  rw [ht] at hp
  have hr := run_of_checked hr
  cases l with
  | block disk =>
    exact iff_of_true (decided_processWith (BlockWorker.accounting disk)
      (fun q₁ t₀ w hs => decided_notifyUsed t₀ hs w) (fun _ => rfl) fuel _ _ hr hp q' rfl) trivial
  | rng =>
    exact iff_of_true (decided_processWith RngWorker.accounting
      (fun q₁ t₀ w hs => decided_notifyUsed t₀ hs w) (fun _ => rfl) fuel _ _ hr hp q' rfl) trivial
  | consoleTx =>
    exact iff_of_true (decided_processWith ConsoleWorker.accountingTx
      (fun q₁ t₀ w _ => decided_signalUsed q q₁ t₀ w) (fun _ => rfl) fuel _ _ hr hp q' rfl) trivial
  | consoleRx => exact iff_of_true (decided_processRxInput fuel _ _ hr hp q' rfl) trivial
  | netTx =>
    exact iff_of_true (decided_processWith NetWorker.accountingTx
      (fun q₁ t₀ w _ => decided_signalUsed q q₁ t₀ w) (fun _ => rfl) fuel _ _ hr hp q' rfl) trivial
  | netRx =>
    exact decided_netRx hr hp

theorem decided_iff_console : ∃ q' w, Prog.run (smallRam.world true idleEnv)
      (consoleTx.process smallRam 2 smallQueue) ⟨oneChain 0 0x4000, (), []⟩ = some (some q', w) ∧
    Decided true smallRam idleEnv smallQueue q' (Prog.trace (smallRam.world true idleEnv)
      (consoleTx.process smallRam 2 smallQueue) ⟨oneChain 0 0x4000, (), []⟩) := by
  have hr : (Prog.run (smallRam.world true idleEnv) (consoleTx.process smallRam 2 smallQueue)
      ⟨oneChain 0 0x4000, (), []⟩).map (fun r => r.1.isSome) = some true := by decide +kernel
  have hp : (Prog.trace (smallRam.world true idleEnv) (consoleTx.process smallRam 2 smallQueue)
      ⟨oneChain 0 0x4000, (), []⟩).any (Done.publishes smallQueue.usedRing) = true := by decide +kernel
  obtain ⟨⟨o, w⟩, h, ho⟩ := Option.map_eq_some_iff.mp hr
  obtain ⟨q', rfl⟩ := Option.isSome_iff_exists.mp ho
  exact ⟨q', w, h, (decided_iff true consoleTx h (List.any_eq_true.mp hp)).mpr trivial⟩

/-- A frame of one byte is pending, and nothing else happens. -/
def frameEnv : Env Unit
  | .drainPending, _ => ([[0xaa]], ())
  | op, s => idleEnv op s

/-- Memory in which the driver of `smallQueue` has made one writable descriptor of 10 bytes
available. -/
def smallBuffer : Mem := ((oneChain 0 0x4000).putWord 0x1008 (10 : BitVec 32)).putWord 0x100c (2 : BitVec 16)

/-- The buffer is too small for the header: it is returned, and the guest is not told. -/
theorem not_announced : ∃ q' w, Prog.run (smallRam.world true frameEnv)
      (netRx.process smallRam 2 smallQueue) ⟨smallBuffer, (), []⟩ = some (some q', w) ∧
    (∃ d ∈ Prog.trace (smallRam.world true frameEnv) (netRx.process smallRam 2 smallQueue)
      ⟨smallBuffer, (), []⟩, Done.publishes smallQueue.usedRing d) ∧
    ¬ Decided true smallRam frameEnv smallQueue q' (Prog.trace (smallRam.world true frameEnv)
      (netRx.process smallRam 2 smallQueue) ⟨smallBuffer, (), []⟩) := by
  have hr : (Prog.run (smallRam.world true frameEnv) (netRx.process smallRam 2 smallQueue)
      ⟨smallBuffer, (), []⟩).map (fun r => (r.1.isSome, (pops r.2.log).map fun p =>
        p.1.writableBytes smallRam p.2)) = some (true, [10]) := by decide +kernel
  have hp : (Prog.trace (smallRam.world true frameEnv) (netRx.process smallRam 2 smallQueue)
      ⟨smallBuffer, (), []⟩).any (Done.publishes smallQueue.usedRing) = true := by decide +kernel
  obtain ⟨⟨o, w⟩, h, he⟩ := Option.map_eq_some_iff.mp hr
  obtain ⟨ho, hpops⟩ := Prod.mk.inj he
  obtain ⟨q', rfl⟩ := Option.isSome_iff_exists.mp ho
  refine ⟨q', w, h, List.any_eq_true.mp hp, fun hd => ?_⟩
  have hp := List.any_eq_true.mp hp
  rw [trace_of_checked h] at hp hd
  obtain ⟨p, hpw, hbytes⟩ := List.map_eq_singleton_iff.mp hpops
  obtain ⟨x, hx, hfits⟩ := (decided_netRx (run_of_checked h) hp).mp (decided_world.mp hd)
  rw [hpw] at hx
  obtain rfl := List.mem_singleton.mp (show x ∈ [([0xaa], p)] from hx)
  have := hfits.2
  rw [hbytes] at this
  exact absurd (show 12 + 1 ≤ 10 from this) (by decide)

end QueueLoop

end Whypa
