import Whypa.Irq.Pins

/-!
# When the IOAPIC injects

`never_sits`: the IOAPIC injects what it can at once. After any operations, a
pin that is requested and not masked is level-triggered and waits for the end of
its interrupt, and what was asserted while a pin was masked is injected by the
write that unmasks it.

`level_discipline`: between two interrupts of a level-triggered pin the guest
ends the first, and the end of an interrupt injects again for exactly the pins
that share its vector, wait, and are still requested.

Both are facts about a single pin (`Pin.step`), carried over by
`IoApic.apply_pin`.
-/

namespace Whypa

open Framework

namespace Pin

open IoApic

variable {p : Pin} {a : Action}

theorem serve_routing (p : Pin) : SameRouting p.entry p.serve.entry := by
  unfold serve
  split
  · split
    · exact .set _
    · exact .refl _
  · exact .refl _

theorem serve_sent (p : Pin) : p.serve.sent = p.sent +
    if p.requested && !masked p.entry && !(level p.entry && remoteIrr p.entry) then 1 else 0 := by
  unfold serve
  cases p.requested <;> cases masked p.entry <;> cases level p.entry <;>
    cases remoteIrr p.entry <;> rfl

theorem serve_of_masked (h : masked p.entry = true) : p.serve = p :=
  serve_idle (by rw [h, Bool.not_true, Bool.and_false])

theorem remoteIrr_serve (h : p.requested = true) (hm : masked p.entry = false)
    (hl : level p.entry = true) : remoteIrr p.serve.entry = true := by
  rw [serve_level h hm hl]
  exact remoteIrr_set _

/-- The bit is read-only. -/
theorem remoteIrr_writeHalf (e : BitVec 64) (upper : Bool) (val : BitVec 32) :
    remoteIrr (writeHalf e upper val) = remoteIrr e := by
  have hw : IOAPIC_RW_BITS.getLsbD IOAPIC_LVT_REMOTE_IRR_SHIFT = false := by decide
  have hr : IOAPIC_RO_BITS.getLsbD IOAPIC_LVT_REMOTE_IRR_SHIFT = true := by decide
  rw [remoteIrr, remoteIrr, writeHalf, BitVec.getLsbD_or, BitVec.getLsbD_and, BitVec.getLsbD_and,
    hw, hr, Bool.and_false, Bool.false_or, Bool.and_true]

theorem level_fixEdge (e : BitVec 64) : level (fixEdge e) = level e := by
  unfold fixEdge
  split
  · rfl
  · exact (SameRouting.clear e).level

theorem remoteIrr_fixEdge (e : BitVec 64) : remoteIrr (fixEdge e) = (level e && remoteIrr e) := by
  unfold fixEdge
  split
  · rename_i h
    rw [h, Bool.true_and]
  · rename_i h
    rw [remoteIrr_clear, Bool.eq_false_iff.mpr h, Bool.false_and]

theorem eoi_routing (v : BitVec 8) (p : Pin) : SameRouting p.entry (p.eoi v).entry := by
  unfold eoi
  split
  · simp only
    split
    · exact (SameRouting.clear _).trans (serve_routing _)
    · exact .clear _
  · exact .refl _

/-- Only a write to its entry unmasks a pin. -/
theorem route_of_unmasked (hm : masked p.entry = true) (hu : masked (p.step a).entry = false) :
    ∃ upper val, a = .route upper val := by
  have absurdity : SameRouting p.entry (p.step a).entry → False := fun h => by
    rw [h.masked, hm] at hu
    cases hu
  cases a with
  | none => exact (absurdity (.refl _)).elim
  | assert => exact (absurdity (serve_routing { p with requested := true })).elim
  | withdraw => exact (absurdity (.refl _)).elim
  | route upper val => exact ⟨upper, val, rfl⟩
  | eoi v => exact (absurdity (eoi_routing v p)).elim

/-- The write that unmasks a pin injects what is latched, if no interrupt waits
for its end then. -/
theorem unmask_sent (hm : masked p.entry = true) (hu : masked (p.step a).entry = false) :
    (p.step a).sent = p.sent +
      if p.requested && (!remoteIrr p.entry || !level (p.step a).entry) then 1 else 0 := by
  obtain ⟨upper, val, rfl⟩ := route_of_unmasked hm hu
  obtain ⟨e, he⟩ : ∃ e, writeHalf p.entry upper val = e := ⟨_, rfl⟩
  have hi : remoteIrr e = remoteIrr p.entry := he ▸ remoteIrr_writeHalf p.entry upper val
  have hr : SameRouting (fixEdge e) ({ p with entry := fixEdge e }.serve).entry :=
    serve_routing { p with entry := fixEdge e }
  simp only [step, he, hr.masked, hr.level] at hu ⊢
  rw [serve_sent]
  simp only [hu, level_fixEdge, remoteIrr_fixEdge, hi]
  cases p.requested <;> cases level e <;> cases remoteIrr p.entry <;> rfl

/-- While a pin is masked its request bit follows its line. -/
theorem masked_step (hm : masked p.entry = true) (hm' : masked (p.step a).entry = true) :
    (p.step a).sent = p.sent ∧
      (p.step a).requested = ((p.requested || a = .assert) && !decide (a = .withdraw)) := by
  cases a with
  | none => exact ⟨rfl, by simp [step]⟩
  | assert =>
    simp only [step]
    rw [serve_of_masked (p := { p with requested := true }) hm]
    simp
  | withdraw => simp [step]
  | route upper val =>
    have hr := serve_routing { p with entry := fixEdge (writeHalf p.entry upper val) }
    have hm'' := hr.masked.symm.trans hm'
    simp only [step]
    rw [serve_of_masked hm'']
    simp
  | eoi v =>
    simp only [step, eoi]
    split
    · split
      · rw [serve_of_masked (p := { p with entry := _ }) ((SameRouting.clear _).masked.trans hm)]
        simp
      · simp
    · simp

/-! ## Level-triggered pins -/

theorem serve_sent_le (p : Pin) : p.serve.sent ≤ p.sent + 1 := by
  rw [serve_sent]
  split <;> omega

theorem step_sent_le (p : Pin) (a : Action) : (p.step a).sent ≤ p.sent + 1 := by
  cases a with
  | none => exact Nat.le_succ _
  | assert => exact serve_sent_le _
  | withdraw => exact Nat.le_succ _
  | route upper val => exact serve_sent_le _
  | eoi v =>
    simp only [step, eoi]
    split
    · split
      · exact serve_sent_le _
      · exact Nat.le_succ _
    · exact Nat.le_succ _

/-- A level-triggered pin that a scan injects waits for the end. -/
theorem serve_waits (hs : p.sent < p.serve.sent) (hl : level p.serve.entry = true) :
    remoteIrr p.serve.entry = true := by
  rw [(serve_routing p).level] at hl
  have hc : (p.requested && !masked p.entry && !(level p.entry && remoteIrr p.entry)) = true := by
    by_contra hc
    rw [serve_sent, if_neg hc] at hs
    omega
  simp only [Bool.and_eq_true, Bool.not_eq_true'] at hc
  exact remoteIrr_serve hc.1.1 hc.1.2 hl

theorem step_waits (hs : p.sent < (p.step a).sent) (hl : level (p.step a).entry = true) :
    remoteIrr (p.step a).entry = true := by
  cases a with
  | none => exact absurd hs (lt_irrefl _)
  | assert => exact serve_waits (p := { p with requested := true }) hs hl
  | withdraw => exact absurd hs (lt_irrefl _)
  | route upper val =>
    exact serve_waits (p := { p with entry := fixEdge (writeHalf p.entry upper val) }) hs hl
  | eoi v =>
    simp only [step, eoi] at hs hl ⊢
    split at hs
    · rename_i hv
      rw [if_pos hv] at hl ⊢
      split at hs
      · rename_i hr
        rw [if_pos hr] at hl ⊢
        exact serve_waits (p := { p with entry := p.entry &&& ~~~IOAPIC_LVT_REMOTE_IRR }) hs hl
      · exact absurd hs (lt_irrefl _)
    · exact absurd hs (lt_irrefl _)

/-- A pin that waits stays so, and is not injected. -/
theorem serve_coalesces (hi : remoteIrr p.entry = true) (hl : level p.entry = true) :
    remoteIrr p.serve.entry = true ∧ p.serve.sent = p.sent := by
  refine ⟨?_, ?_⟩
  · unfold serve
    split
    · exact remoteIrr_set _
    · exact hi
  · rw [serve_sent, hi, hl, if_neg (by simp)]
    rfl

theorem step_coalesces (hi : remoteIrr p.entry = true) (hl : level p.entry = true)
    (hl' : level (p.step a).entry = true) (ha : a ≠ .eoi (vector p.entry)) :
    remoteIrr (p.step a).entry = true ∧ (p.step a).sent = p.sent := by
  cases a with
  | none => exact ⟨hi, rfl⟩
  | assert => exact serve_coalesces (p := { p with requested := true }) hi hl
  | withdraw => exact ⟨hi, rfl⟩
  | route upper val =>
    obtain ⟨e, he⟩ : ∃ e, writeHalf p.entry upper val = e := ⟨_, rfl⟩
    have hi' : remoteIrr e = true := he ▸ (remoteIrr_writeHalf p.entry upper val).trans hi
    simp only [step, he] at hl' ⊢
    rw [(serve_routing { p with entry := fixEdge e }).level] at hl'
    refine serve_coalesces (p := { p with entry := fixEdge e }) ?_ hl'
    show remoteIrr (fixEdge e) = true
    rw [remoteIrr_fixEdge, ← level_fixEdge e, hi']
    exact (Bool.and_true _).trans hl'
  | eoi v =>
    have hv : ¬ (vector p.entry = v ∧ remoteIrr p.entry = true) := fun h => ha (h.1 ▸ rfl)
    rw [show p.step (.eoi v) = p from if_neg hv]
    exact ⟨hi, rfl⟩

/-- The end of an interrupt injects the pins that wait for it and are still
requested. -/
theorem eoi_sent (h : p.Settled) (v : BitVec 8) : (p.eoi v).sent = p.sent +
    if vector p.entry = v ∧ remoteIrr p.entry = true ∧ p.requested = true ∧
      masked p.entry = false then 1 else 0 := by
  unfold eoi
  by_cases hv : vector p.entry = v ∧ remoteIrr p.entry = true
  · have hl : level p.entry = true := by
      by_contra hl
      rw [h.edge (Bool.eq_false_iff.mpr hl)] at hv
      exact absurd hv.2 (by decide)
    have hc := SameRouting.clear p.entry
    simp only [hv, true_and, if_true]
    split
    · rename_i hr
      rw [serve_sent]
      simp only [hc.masked, hc.level, remoteIrr_clear, hl, hr]
      cases masked p.entry <;> rfl
    · rename_i hr
      rw [if_neg fun h => hr h.1]
      rfl
  · rw [if_neg hv, if_neg fun h => hv ⟨h.1, h.2.1⟩]
    rfl

end Pin

namespace IoApic

variable {s : IoApic} {i j : Fin IOAPIC_NUM_PINS} {o : Op} {os : List Op}

/-- What the operations leave of the request of a masked pin. -/
def latched (i : Fin IOAPIC_NUM_PINS) (b : Bool) (os : List Op) : Bool :=
  os.foldl (fun b o => match o with
    | .setIrq irqLine => b || decide (irqLine = line i)
    | .clearIrq irqLine => b && !decide (irqLine = line i)
    | .write .. => b) b

theorem latched_cons (b : Bool) :
    latched i b (o :: os) =
      latched i ((b || decide (s.action i o = .assert)) && !decide (s.action i o = .withdraw)) os := by
  unfold latched
  rw [List.foldl_cons]
  congr 1
  cases o with
  | setIrq irqLine =>
    simp only [action]
    by_cases h : irqLine = line i <;> simp [h]
  | clearIrq irqLine =>
    simp only [action]
    by_cases h : irqLine = line i <;> simp [h]
  | write offset data =>
    have h : s.action i (.write offset data) ≠ .assert ∧
        s.action i (.write offset data) ≠ .withdraw := by
      simp only [action]
      refine ⟨?_, ?_⟩ <;> repeat' split
      all_goals exact fun h => by cases h
    simp [h.1, h.2]

/-- While the pin is masked nothing is injected for it, and its line is latched. -/
theorem masked_run (hs : s.Settled)
    (hm : ∀ k ≤ os.length, masked (((os.take k).foldl apply s).entry i) = true) :
    (os.foldl apply s).requested i = latched i (s.requested i) os ∧
      (os.foldl apply s).sent i = s.sent i := by
  induction os generalizing s with
  | nil => exact ⟨rfl, rfl⟩
  | cons o os ih =>
    have h0 : masked (s.entry i) = true := hm 0 (Nat.zero_le _)
    have h1 : masked ((s.apply o).entry i) = true := by
      have h := hm 1 (by simp)
      rwa [List.take_succ_cons, List.take_zero] at h
    have hp := apply_pin hs o i
    have h1' : masked ((s.pin i).step (s.action i o)).entry = true := by
      rw [← hp, pin_entry]
      exact h1
    obtain ⟨hsent, hreq⟩ := Pin.masked_step (p := s.pin i) h0 h1'
    rw [← hp, pin_sent, pin_sent] at hsent
    rw [← hp, pin_requested, pin_requested] at hreq
    obtain ⟨hr, hn⟩ := ih (hs.apply o) fun k hk => by
      have h := hm (k + 1) (by simpa using hk)
      rwa [List.take_succ_cons, List.foldl_cons] at h
    rw [List.foldl_cons, hr, hn, latched_cons (s := s), hreq, hsent]
    exact ⟨rfl, rfl⟩

/-- An assertion of an unmasked, edge-triggered pin. -/
theorem sent_setIrq (hs : s.Settled) (hm : masked (s.entry i) = false)
    (hl : level (s.entry i) = false) (j : Fin IOAPIC_NUM_PINS) :
    (s.setIrq (line i)).sent j = s.sent j + if j = i then 1 else 0 := by
  rw [← pin_sent, pin_setIrq hs]
  by_cases hij : j = i
  · subst hij
    rw [if_pos rfl, if_pos rfl]
    exact congrArg Pin.sent (Pin.serve_edge (p := { s.pin j with requested := true }) rfl hm hl)
  · rw [if_neg fun h => hij (line_inj h).symm, if_neg hij]
    rfl

/-- After any operations on a new IOAPIC, a pin that is requested and not masked
is level-triggered and waits for the end of its interrupt. An assertion of a pin
that is edge-triggered and not masked then injects one interrupt, for that pin.
And whatever is done while a pin is masked, the operation that unmasks it is the
first to inject for it, once, if its line was left latched and no interrupt of
it waits for its end then. -/
theorem never_sits (h : system.Reachable s) :
    (∀ i, s.requested i = true → masked (s.entry i) = false →
      level (s.entry i) = true ∧ remoteIrr (s.entry i) = true) ∧
    (∀ i, masked (s.entry i) = false → level (s.entry i) = false →
      ∀ j, (s.setIrq (line i)).sent j = s.sent j + if j = i then 1 else 0) ∧
    ∀ (i : Fin IOAPIC_NUM_PINS) (os : List Op) (o : Op),
      (∀ k ≤ os.length, masked (((os.take k).foldl apply s).entry i) = true) →
      masked (((os.foldl apply s).apply o).entry i) = false →
      ((os.foldl apply s).apply o).sent i = s.sent i +
        if latched i (s.requested i) os && (!remoteIrr ((os.foldl apply s).entry i) ||
          !level (((os.foldl apply s).apply o).entry i)) then 1 else 0 := by
  have hs := settled_of_reachable h
  refine ⟨fun i => (hs i).awaits, fun i hm hl j => sent_setIrq hs hm hl j, fun i os o hm hu => ?_⟩
  obtain ⟨hreq, hsent⟩ := masked_run hs hm
  have hm' : masked ((os.foldl apply s).entry i) = true := by
    have h := hm os.length le_rfl
    rwa [List.take_length] at h
  have hp := apply_pin (hs.run os) o i
  generalize os.foldl apply s = u at *
  rw [← pin_entry, hp] at hu
  have hu' := Pin.unmask_sent (p := u.pin i) hm' hu
  rw [← hp, pin_sent, pin_sent, pin_entry, pin_entry, pin_requested, hsent, hreq] at hu'
  exact hu'

theorem reachable_run (h : system.Reachable s) (os : List Op) :
    system.Reachable (os.foldl apply s) := by
  induction os generalizing s with
  | nil => exact h
  | cons o os ih => exact ih (h.step rfl)

/-- The guest writes the lower half of the pin's entry. -/
def routePin (i : Fin IOAPIC_NUM_PINS) (val : Nat) : List Op :=
  [.write IO_REG_SEL (leBytes 4 (0x10 + 2 * i.val)), .write IO_WIN (leBytes 4 val)]

theorem never_sits_edge : ∃ s, system.Reachable s ∧ s.sent 4 = 0 ∧ (s.setIrq (line 4)).sent 4 = 1 := by
  have hm : masked (((routePin 4 0x30).foldl apply .new).entry 4) = false := by decide +kernel
  have hl : level (((routePin 4 0x30).foldl apply .new).entry 4) = false := by decide +kernel
  have h0 : ((routePin 4 0x30).foldl apply .new).sent 4 = 0 := by decide +kernel
  have h := reachable_run (.init rfl) (routePin 4 0x30)
  refine ⟨_, h, h0, ?_⟩
  rw [(never_sits h).2.1 4 hm hl 4, h0]
  rfl

/-! ## Ends of interrupts -/

/-- The guest ends the interrupt with the vector of the pin. -/
def Ends (s : IoApic) (i : Fin IOAPIC_NUM_PINS) : Op → Prop
  | .write offset data => offset = IO_EOI ∧ data.length = 4 ∧
    (BitVec.ofNat 32 (ofLE data)).setWidth 8 = vector (s.entry i)
  | _ => False

theorem ends_of_action {v : BitVec 8} (h : s.action i o = .eoi v) (hv : v = vector (s.entry i)) :
    Ends s i o := by
  cases o with
  | setIrq irqLine =>
    simp only [action] at h
    split at h <;> cases h
  | clearIrq irqLine =>
    simp only [action] at h
    split at h <;> cases h
  | write offset data =>
    simp only [action] at h
    split at h
    · cases h
    rename_i hd
    split at h
    · split at h <;> cases h
    split at h
    · rename_i ho
      exact ⟨ho, not_not.mp hd, (Pin.Action.eoi.inj h).trans hv⟩
    · cases h

/-- A level-triggered pin that waits is not injected before its end. -/
theorem waits_run (hs : s.Settled) (hi : remoteIrr (s.entry i) = true)
    (hl : ∀ k ≤ os.length, level (((os.take k).foldl apply s).entry i) = true) :
    (os.foldl apply s).sent i = s.sent i ∨
      ∃ k o, os[k]? = some o ∧ Ends ((os.take k).foldl apply s) i o := by
  induction os generalizing s with
  | nil => exact .inl rfl
  | cons o os ih =>
    by_cases ho : Ends s i o
    · exact .inr ⟨0, o, rfl, ho⟩
    have h0 : level (s.entry i) = true := hl 0 (Nat.zero_le _)
    have h1 : level ((s.apply o).entry i) = true := by
      have h := hl 1 (by simp)
      rwa [List.take_succ_cons, List.take_zero] at h
    have hp := apply_pin hs o i
    have h1' : level ((s.pin i).step (s.action i o)).entry = true := by
      rw [← hp, pin_entry]
      exact h1
    obtain ⟨hi', hsent⟩ := Pin.step_coalesces (p := s.pin i) hi h0 h1'
      fun h => ho (ends_of_action h rfl)
    rw [← hp, pin_entry] at hi'
    rw [← hp, pin_sent, pin_sent] at hsent
    have hl' : ∀ k ≤ os.length, level (((os.take k).foldl apply (s.apply o)).entry i) = true := by
      intro k hk
      have h := hl (k + 1) (by simpa using hk)
      rwa [List.take_succ_cons, List.foldl_cons] at h
    rcases ih (hs.apply o) hi' hl' with h | ⟨k, o', hk, he⟩
    · exact .inl (h.trans hsent)
    · exact .inr ⟨k + 1, o', hk, he⟩

/-- After any operations on a new IOAPIC: an operation injects at most one
interrupt for a pin; between an operation that injects for a pin and a later one
that does, with the pin level-triggered all the while, the guest ends an
interrupt with the pin's vector; and the end of an interrupt injects one for
each pin that has its vector, waits for the end, and is requested and not
masked, and none for another pin. -/
theorem level_discipline (h : system.Reachable s) :
    (∀ o i, (s.apply o).sent i ≤ s.sent i + 1) ∧
    (∀ (i : Fin IOAPIC_NUM_PINS) (o : Op) (os : List Op), s.sent i < (s.apply o).sent i →
      (∀ k ≤ os.length, level (((os.take k).foldl apply (s.apply o)).entry i) = true) →
      (s.apply o).sent i < (os.foldl apply (s.apply o)).sent i →
      ∃ k o', os[k]? = some o' ∧ Ends ((os.take k).foldl apply (s.apply o)) i o') ∧
    ∀ data : List Byte, data.length = 4 → ∀ i,
      (s.apply (.write IO_EOI data)).sent i = s.sent i +
        if vector (s.entry i) = (BitVec.ofNat 32 (ofLE data)).setWidth 8 ∧
          remoteIrr (s.entry i) = true ∧ s.requested i = true ∧ masked (s.entry i) = false
        then 1 else 0 := by
  have hs := settled_of_reachable h
  refine ⟨fun o i => ?_, fun i o os hfirst hl hsecond => ?_, fun data hd i => ?_⟩
  · rw [← pin_sent, apply_pin hs]
    exact Pin.step_sent_le (s.pin i) _
  · have hp := apply_pin hs o i
    have hl0 : level ((s.apply o).entry i) = true := hl 0 (Nat.zero_le _)
    have hi : remoteIrr ((s.apply o).entry i) = true := by
      rw [← pin_entry, hp] at hl0 ⊢
      rw [← pin_sent, ← pin_sent, hp] at hfirst
      exact Pin.step_waits hfirst hl0
    rcases waits_run (hs.apply o) hi hl with h | h
    · rw [h] at hsecond
      exact absurd hsecond (lt_irrefl _)
    · exact h
  · have ha : s.action i (.write IO_EOI data) =
        .eoi ((BitVec.ofNat 32 (ofLE data)).setWidth 8) := by
      simp only [action]
      rw [if_neg (not_not.mpr hd), if_neg (by decide), if_pos trivial]
    rw [← pin_sent, apply_pin hs, ha]
    exact Pin.eoi_sent (hs i) _

/-- Two level-triggered pins with the same vector, both raised and injected. -/
theorem level_discipline_shared : ∃ s, system.Reachable s ∧ s.sent 4 = 1 ∧ s.sent 9 = 1 ∧
    (s.apply (.write IO_EOI (leBytes 4 0x30))).sent 4 = 2 ∧
    (s.apply (.write IO_EOI (leBytes 4 0x30))).sent 9 = 2 := by
  let os := routePin 4 0x8030 ++ routePin 9 0x8030 ++ [.setIrq (line 4), .setIrq (line 9)]
  have hpins : [4, 9].all (fun i => vector ((os.foldl apply .new).entry i) = 0x30 ∧
      remoteIrr ((os.foldl apply .new).entry i) = true ∧
      (os.foldl apply .new).requested i = true ∧
      masked ((os.foldl apply .new).entry i) = false ∧ (os.foldl apply .new).sent i = 1) = true := by
    decide +kernel
  have h := reachable_run (.init rfl) os
  have he : ∀ i ∈ [4, 9], (os.foldl apply .new).sent i = 1 ∧
      ((os.foldl apply .new).apply (.write IO_EOI (leBytes 4 0x30))).sent i = 2 := by
    intro i hi
    obtain ⟨hv, hr, hreq, hm, hs⟩ := of_decide_eq_true (List.all_eq_true.mp hpins i hi)
    refine ⟨hs, ?_⟩
    rw [(level_discipline h).2.2 _ rfl i, hs, if_pos ⟨hv, hr, hreq, hm⟩]
  exact ⟨_, h, (he 4 (by simp)).1, (he 9 (by simp)).1, (he 4 (by simp)).2, (he 9 (by simp)).2⟩

end IoApic

end Whypa
