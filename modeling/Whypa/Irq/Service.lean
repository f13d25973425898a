import Whypa.Irq.IoApic

/-!
# What the scan of the IOAPIC does

`IoApic.Serviced` says what a scan, or an end of interrupt, leaves alone: the
routing of every entry, the request bits of the level-triggered pins, and the
interrupts injected before. `service_delivers` and `eoi_delivers` say what it
does for a level-triggered pin that is requested.
-/

namespace Whypa

open Framework

namespace IoApic

variable {s s' : IoApic} {i j : Fin IOAPIC_NUM_PINS}

structure Serviced (s s' : IoApic) : Prop where
  routing : ∀ j : Fin IOAPIC_NUM_PINS, SameRouting (s.entry j) (s'.entry j)
  requested : ∀ j : Fin IOAPIC_NUM_PINS, level (s.entry j) = true → s'.requested j = s.requested j
  injected : s.injected <+: s'.injected

theorem Serviced.refl (s : IoApic) : Serviced s s :=
  ⟨fun _ => .refl _, fun _ _ => rfl, List.prefix_rfl⟩

theorem Serviced.trans {s'' : IoApic} (h : Serviced s s') (h' : Serviced s' s'') : Serviced s s'' :=
  ⟨fun j => (h.routing j).trans (h'.routing j),
    fun j hj => (h'.requested j ((h.routing j).level.trans hj)).trans (h.requested j hj),
    h.injected.trans h'.injected⟩

theorem serviced_foldl {f : IoApic → Fin IOAPIC_NUM_PINS → IoApic} (hf : ∀ s i, Serviced s (f s i))
    (l : List (Fin IOAPIC_NUM_PINS)) (s : IoApic) : Serviced s (l.foldl f s) := by
  induction l generalizing s with
  | nil => exact .refl s
  | cons i l ih => exact (hf s i).trans (ih (f s i))

/-- The entry of the pin is replaced by one that routes the same. -/
theorem serviced_set {e : BitVec 64} (he : SameRouting (s.entry i) e) {inj : List Injection}
    (hp : s.injected <+: inj) :
    Serviced s { s.setEntry i e with injected := inj } := by
  refine ⟨fun j => ?_, fun _ _ => rfl, hp⟩
  show SameRouting (s.entry j) ((s.setEntry i e).entry j)
  by_cases hij : i = j
  · subst hij
    rw [entry_setEntry_self]
    exact he
  · rw [entry_setEntry_ne s hij]
    exact .refl _

/-! ## One pin of the scan -/

theorem servicePin_of_not_requested (h : s.requested i = false) : s.servicePin i = s := by
  unfold servicePin
  exact if_neg (fun e => by rw [and_mask.mp e] at h; cases h)

theorem servicePin_of_masked (h : masked (s.entry i) = true) : s.servicePin i = s := by
  unfold servicePin
  simp only [parseEntry_masked, h, if_true]
  split <;> rfl

theorem servicePin_edge (hr : s.requested i = true) (hm : masked (s.entry i) = false)
    (hl : level (s.entry i) = false) :
    s.servicePin i = { s with
      irr := s.irr &&& ~~~(1#32 <<< i.val)
      injected := s.injected ++ [⟨i, injectInterrupt (parseEntry (s.entry i))⟩] } := by
  unfold servicePin
  rw [if_pos (and_mask.mpr hr)]
  simp only [parseEntry_masked, hm, Bool.false_eq_true, if_false]
  rw [if_pos ((parseEntry_trigMode _).mpr hl)]

theorem servicePin_level (hr : s.requested i = true) (hm : masked (s.entry i) = false)
    (hl : level (s.entry i) = true) :
    s.servicePin i = { s.setEntry i (s.entry i ||| IOAPIC_LVT_REMOTE_IRR) with
      injected := s.injected ++
        if remoteIrr (s.entry i) then []
        else [⟨i, injectInterrupt (parseEntry (s.entry i))⟩] } := by
  unfold servicePin
  rw [if_pos (and_mask.mpr hr)]
  simp only [parseEntry_masked, hm, Bool.false_eq_true, if_false]
  rw [if_neg (fun e => by rw [(parseEntry_trigMode _).mp e] at hl; cases hl)]
  by_cases h : remoteIrr (s.entry i) = true
  · rw [if_pos (and_remoteIrr.mpr h), if_pos h, List.append_nil]
    rfl
  · rw [if_neg (fun e => h (and_remoteIrr.mp e)), if_neg h]

theorem servicePin_serviced (s : IoApic) (i : Fin IOAPIC_NUM_PINS) : Serviced s (s.servicePin i) := by
  cases hr : s.requested i with
  | false => rw [servicePin_of_not_requested hr]; exact .refl s
  | true =>
    cases hm : masked (s.entry i) with
    | true => rw [servicePin_of_masked hm]; exact .refl s
    | false =>
      cases hl : level (s.entry i) with
      | true =>
        rw [servicePin_level hr hm hl]
        exact serviced_set (.set _) (List.prefix_append ..)
      | false =>
        rw [servicePin_edge hr hm hl]
        refine ⟨fun j => .refl _, fun j hj => ?_, List.prefix_append ..⟩
        have hne : i.val ≠ j.val := by
          intro h
          rw [show j = i from Fin.ext h.symm, hl] at hj
          cases hj
        simp only [IoApic.requested, getLsbD_and_not_bit]
        simp [hne]

/-- The scan at another pin leaves an entry as it is. -/
theorem servicePin_entry (hij : i ≠ j) : (s.servicePin i).entry j = s.entry j := by
  cases hr : s.requested i with
  | false => rw [servicePin_of_not_requested hr]
  | true =>
    cases hm : masked (s.entry i) with
    | true => rw [servicePin_of_masked hm]
    | false =>
      cases hl : level (s.entry i) with
      | true => rw [servicePin_level hr hm hl]; exact entry_setEntry_ne s hij _
      | false => rw [servicePin_edge hr hm hl]; rfl

theorem servicePin_remoteIrr (h : remoteIrr (s.entry j) = true) :
    remoteIrr ((s.servicePin i).entry j) = true := by
  by_cases hij : i = j
  · subst hij
    cases hr : s.requested i with
    | false => rw [servicePin_of_not_requested hr]; exact h
    | true =>
      cases hm : masked (s.entry i) with
      | true => rw [servicePin_of_masked hm]; exact h
      | false =>
        cases hl : level (s.entry i) with
        | true =>
          rw [servicePin_level hr hm hl]
          show remoteIrr ((s.setEntry i (s.entry i ||| IOAPIC_LVT_REMOTE_IRR)).entry i) = true
          rw [entry_setEntry_self, remoteIrr, IOAPIC_LVT_REMOTE_IRR, getLsbD_or_bit]
          simp [IOAPIC_LVT_REMOTE_IRR_SHIFT]
        | false => rw [servicePin_edge hr hm hl]; exact h
  · rw [servicePin_entry hij]
    exact h

/-! ## The whole scan -/

theorem service_serviced (s : IoApic) : Serviced s s.service :=
  serviced_foldl servicePin_serviced _ s

theorem service_remoteIrr (h : remoteIrr (s.entry j) = true) :
    remoteIrr (s.service.entry j) = true := by
  unfold service
  generalize List.finRange IOAPIC_NUM_PINS = l
  induction l generalizing s with
  | nil => exact h
  | cons i l ih => exact ih (servicePin_remoteIrr h)

/-- The pin is requested, level-triggered and not masked. -/
structure Raised (s : IoApic) (i : Fin IOAPIC_NUM_PINS) : Prop where
  requested : s.requested i = true
  level : level (s.entry i) = true
  unmasked : masked (s.entry i) = false

theorem Raised.serviced (h : s.Raised i) (hs : Serviced s s') : s'.Raised i :=
  ⟨(hs.requested i h.level).trans h.requested, (hs.routing i).level.trans h.level,
    (hs.routing i).masked.trans h.unmasked⟩

/-- Between `s` and `s'` an interrupt was injected for the pin. -/
def Delivered (s s' : IoApic) (i : Fin IOAPIC_NUM_PINS) : Prop :=
  ∃ pre c, s.injected <+: pre ∧ pre ++ [⟨i, c⟩] <+: s'.injected

theorem Delivered.mono {t t' : IoApic} (h : Delivered s s' i) (ht : t.injected <+: s.injected)
    (ht' : s'.injected <+: t'.injected) : Delivered t t' i := by
  obtain ⟨pre, c, h₁, h₂⟩ := h
  exact ⟨pre, c, ht.trans h₁, h₂.trans ht'⟩

/-- A scan delivers a raised pin whose last interrupt has ended. -/
theorem service_delivers (h : s.Raised i) (hr : remoteIrr (s.entry i) = false) :
    Delivered s s.service i := by
  unfold service
  have hmem : i ∈ List.finRange IOAPIC_NUM_PINS := List.mem_finRange i
  revert hmem
  generalize List.finRange IOAPIC_NUM_PINS = l
  intro hmem
  induction l generalizing s with
  | nil => cases hmem
  | cons j l ih =>
    by_cases hij : j = i
    · subst hij
      refine ⟨s.injected, injectInterrupt (parseEntry (s.entry j)), List.prefix_rfl, ?_⟩
      have hrest := (serviced_foldl servicePin_serviced l (s.servicePin j)).injected
      rw [servicePin_level h.requested h.unmasked h.level, hr] at hrest
      rw [List.foldl_cons, servicePin_level h.requested h.unmasked h.level, hr]
      exact hrest
    · have hmem' : i ∈ l := (List.mem_cons.mp hmem).resolve_left fun e => hij e.symm
      have hs := servicePin_serviced s j
      refine (ih (h.serviced hs) ?_ hmem').mono hs.injected List.prefix_rfl
      rw [servicePin_entry hij]
      exact hr

/-! ## The end of an interrupt -/

theorem eoiPin_serviced (v : BitVec 8) (s : IoApic) (i : Fin IOAPIC_NUM_PINS) :
    Serviced s (eoiPin v s i) := by
  have hc : Serviced s (s.setEntry i (s.entry i &&& ~~~IOAPIC_LVT_REMOTE_IRR)) :=
    serviced_set (.clear _) List.prefix_rfl
  unfold eoiPin
  simp only
  split
  · split
    · exact hc.trans (service_serviced _)
    · exact hc
  · exact .refl s

theorem eoi_serviced (s : IoApic) (v : BitVec 8) : Serviced s (s.eoi v) :=
  serviced_foldl (eoiPin_serviced v) _ s

/-- The end of the interrupt of a raised pin delivers it again. -/
theorem eoiPin_delivers (h : s.Raised i) (hr : remoteIrr (s.entry i) = true) :
    Delivered s (eoiPin (vector (s.entry i)) s i) i := by
  have hclear : remoteIrr (s.entry i &&& ~~~IOAPIC_LVT_REMOTE_IRR) = false := by
    rw [remoteIrr, IOAPIC_LVT_REMOTE_IRR, getLsbD_and_not_bit]
    simp
  have hc : Serviced s (s.setEntry i (s.entry i &&& ~~~IOAPIC_LVT_REMOTE_IRR)) :=
    serviced_set (.clear _) List.prefix_rfl
  have hmatch : (s.entry i &&& IOAPIC_VECTOR_MASK).setWidth 8 = vector (s.entry i) ∧
      s.entry i &&& IOAPIC_LVT_REMOTE_IRR ≠ 0#64 := ⟨rfl, and_remoteIrr.mpr hr⟩
  have hreq : s.irr &&& 1#32 <<< i.val ≠ 0#32 := and_mask.mpr h.requested
  have he : eoiPin (vector (s.entry i)) s i = service
      (s.setEntry i (s.entry i &&& ~~~IOAPIC_LVT_REMOTE_IRR)) :=
    (if_pos hmatch).trans (if_pos hreq)
  rw [he]
  exact (service_delivers (h.serviced hc) (by simpa using hclear)).mono hc.injected List.prefix_rfl

theorem eoi_delivers (h : s.Raised i) (hr : remoteIrr (s.entry i) = true) :
    Delivered s (s.eoi (vector (s.entry i))) i := by
  unfold eoi
  obtain ⟨v, hv⟩ : ∃ v, v = vector (s.entry i) := ⟨_, rfl⟩
  rw [← hv]
  have hmem : i ∈ List.finRange IOAPIC_NUM_PINS := List.mem_finRange i
  revert hmem
  generalize List.finRange IOAPIC_NUM_PINS = l
  intro hmem
  induction l generalizing s with
  | nil => cases hmem
  | cons j l ih =>
    by_cases hij : j = i
    · subst hij
      have hrest := (serviced_foldl (eoiPin_serviced v) l (eoiPin v s j)).injected
      rw [hv] at hrest ⊢
      exact (eoiPin_delivers h hr).mono List.prefix_rfl hrest
    · have hmem' : i ∈ l := (List.mem_cons.mp hmem).resolve_left fun e => hij e.symm
      have hs := eoiPin_serviced v s j
      refine (ih (h.serviced hs) ?_ ((hs.routing i).vector.symm ▸ hv) hmem').mono hs.injected
        List.prefix_rfl
      have hset : remoteIrr ((s.setEntry j (s.entry j &&& ~~~IOAPIC_LVT_REMOTE_IRR)).entry i) =
          true := by
        rw [entry_setEntry_ne s hij]
        exact hr
      unfold eoiPin
      simp only
      split
      · split
        · exact service_remoteIrr hset
        · exact hset
      · exact hr

/-! ## Writes and lines -/

theorem writeRedtbl_requested {val : BitVec 32}
    (hl : level ((s.writeRedtbl j val).entry i) = true) :
    (s.writeRedtbl j val).requested i = s.requested i := by
  unfold writeRedtbl at hl ⊢
  have hs := service_serviced (fixEdgeRemoteIrr
    (s.setEntry j (writeHalf (s.entry j) (decide (0 < s.ioregsel &&& 1)) val)) j)
  rw [hs.requested i ((hs.routing i).level.symm.trans hl)]
  unfold fixEdgeRemoteIrr
  split <;> rfl

/-- What a write to the IOAPIC does: it touches neither requests nor entries, or
it writes an entry, or it ends an interrupt. -/
theorem write_cases (s : IoApic) (offset : BitVec 64) (data : List Byte) :
    (∃ id sel, s.write offset data = { s with id := id, ioregsel := sel }) ∨
      (∃ j val, s.write offset data = s.writeRedtbl j val) ∨ ∃ v, s.write offset data = s.eoi v := by
  have hsame : ∃ id sel, s = { s with id := id, ioregsel := sel } := ⟨s.id, s.ioregsel, rfl⟩
  unfold write
  simp only
  split
  · exact .inl hsame
  split
  · exact .inl ⟨s.id, _, rfl⟩
  split
  · split
    · exact .inl ⟨_, s.ioregsel, rfl⟩
    split
    · exact .inl hsame
    split
    · exact .inl hsame
    split
    · exact .inr (.inl ⟨_, _, rfl⟩)
    · exact .inl hsame
  split
  · exact .inr (.inr ⟨_, rfl⟩)
  · exact .inl hsame

/-- A write to the IOAPIC that leaves the pin level-triggered keeps its request. -/
theorem write_requested {offset : BitVec 64} {data : List Byte} (hl : level (s.entry i) = true)
    (hl' : level ((s.write offset data).entry i) = true) :
    (s.write offset data).requested i = s.requested i := by
  rcases write_cases s offset data with ⟨id, sel, h⟩ | ⟨j, val, h⟩ | ⟨v, h⟩
  · rw [h]
    rfl
  · rw [h] at hl' ⊢
    exact writeRedtbl_requested hl'
  · rw [h]
    exact (eoi_serviced s v).requested i hl

/-- The line of the pin. -/
def line (i : Fin IOAPIC_NUM_PINS) : Option (BitVec 32) := some (BitVec.ofNat 32 i.val)

theorem line_toNat (i : Fin IOAPIC_NUM_PINS) : (BitVec.ofNat 32 i.val).toNat = i.val := by
  have := i.isLt
  have : IOAPIC_NUM_PINS < 2 ^ 32 := by decide
  rw [BitVec.toNat_ofNat, Nat.mod_eq_of_lt (by omega)]

theorem setIrq_line (s : IoApic) (i : Fin IOAPIC_NUM_PINS) :
    s.setIrq (line i) = { s with irr := s.irr ||| 1#32 <<< i.val }.service := by
  simp only [setIrq, line, line_toNat, i.isLt, if_true]

theorem clearIrq_line (s : IoApic) (i : Fin IOAPIC_NUM_PINS) :
    s.clearIrq (line i) = { s with irr := s.irr &&& ~~~(1#32 <<< i.val) } := by
  simp only [clearIrq, line, line_toNat, i.isLt, if_true]

theorem requested_or (s : IoApic) (i j : Fin IOAPIC_NUM_PINS) :
    requested { s with irr := s.irr ||| 1#32 <<< i.val } j = (s.requested j || decide (i = j)) := by
  have := i.isLt
  have : IOAPIC_NUM_PINS < 32 := by decide
  simp only [requested, getLsbD_or_bit, show i.val < 32 by omega, decide_true, Bool.true_and,
    Fin.ext_iff]

theorem requested_and_not (s : IoApic) (i j : Fin IOAPIC_NUM_PINS) :
    requested { s with irr := s.irr &&& ~~~(1#32 <<< i.val) } j =
      (s.requested j && !decide (i = j)) := by
  simp only [requested, getLsbD_and_not_bit, Fin.ext_iff]

end IoApic

end Whypa
