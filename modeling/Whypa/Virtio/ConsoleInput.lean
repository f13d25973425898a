import Whypa.Virtio.Drain
import Whypa.Virtio.Outbound
import Whypa.Virtio.Published

/-!
# Input for the guest

The console's worker fills the chains of its receive queue with the input, each before
the next, and returns each with the number of bytes in it. The guest gets all of the input
that there is room for, unless a chain is given as many bytes as its element cannot count
(`input_delivered_iff`).
-/

namespace Whypa

open Framework WProg

variable {ε : Type} {env : Env ε} {ck : Bool} {mm : MemoryManager}

/-! ## The loop -/

namespace ConsoleWorker

/-- Of the chains popped, those whose writable buffers lie in guest memory. -/
def valid (mm : MemoryManager) (ps : List (DescriptorChain × Mem)) : List (DescriptorChain × Mem) :=
  ps.filter fun p => p.1.writableOk mm p.2

/-- The numbers of their writable bytes. -/
def caps (mm : MemoryManager) (ps : List (DescriptorChain × Mem)) : List Nat :=
  (valid mm ps).map fun p => p.1.writableBytes mm p.2

/-- The addresses of these bytes. -/
def areas (mm : MemoryManager) (ps : List (DescriptorChain × Mem)) : List (List Nat) :=
  (valid mm ps).map fun p => p.1.writeAddrs mm p.2

/-- The elements that the chains are returned with, for the input `data`. -/
def elements (mm : MemoryManager) (ps : List (DescriptorChain × Mem)) (data : List Byte) :
    List VirtqUsedElem :=
  ((valid mm ps).zip ((caps mm ps).splitLengths data)).map fun x =>
    ⟨x.1.1.index.setWidth 32, BitVec.ofNat 32 x.2.length⟩

/-- Each of the chains was popped with input left. -/
def Needed (mm : MemoryManager) (ps : List (DescriptorChain × Mem)) (data : List Byte) : Prop :=
  ∀ before p after, ps = before ++ p :: after → (caps mm before).sum < data.length

theorem length_writeAddrs {m : Mem} {c : DescriptorChain} (h : c.writableOk mm m = true) :
    (c.writeAddrs mm m).length = c.writableBytes mm m :=
  (Writer.length_addrs _).trans (writer_of_writableOk h).2

theorem map_length_areas (ps : List (DescriptorChain × Mem)) :
    (areas mm ps).map List.length = caps mm ps := by
  rw [areas, caps, List.map_map]
  exact List.map_congr_left fun p hp => length_writeAddrs (List.mem_filter.mp hp).2

section
variable {p : DescriptorChain × Mem} {ps : List (DescriptorChain × Mem)} {data : List Byte}

theorem valid_cons_of_ok (h : p.1.writableOk mm p.2 = true) : valid mm (p :: ps) = p :: valid mm ps :=
  List.filter_cons_of_pos h

theorem valid_cons_of_not (h : p.1.writableOk mm p.2 = false) : valid mm (p :: ps) = valid mm ps :=
  List.filter_cons_of_neg (by rw [h]; exact Bool.false_ne_true)

theorem needed_nil (data : List Byte) : Needed mm [] data := by
  intro before p after he
  cases before <;> cases he

theorem needed_cons (h0 : 0 < data.length)
    (h : ∀ before q after, ps = before ++ q :: after → (caps mm (p :: before)).sum < data.length) :
    Needed mm (p :: ps) data := by
  intro before q after he
  cases before with
  | nil => exact h0
  | cons p' before =>
    obtain ⟨rfl, htail⟩ := List.cons.inj he
    exact h before q after htail

end

/-- A chain whose buffers are not all in guest memory is dropped; another one gets what it has room for. -/
theorem leaves_serveRx {q : Queue} {head : DescriptorChain} (hi : head.index < q.size) (chunk : List Byte)
    (w : World ε) :
    Prog.Runs (mm.world false env) (fun r w' t =>
      (head.writableOk mm w.mem = false ∧ r.2 = none ∧ Leaves mm q r.1 [] [] w w' t) ∨
        (head.writableOk mm w.mem = true ∧ r.2 = some (min chunk.length (head.writableBytes mm w.mem)) ∧
          Leaves mm q r.1 [⟨head.index.setWidth 32,
              BitVec.ofNat 32 (chunk.take (head.writableBytes mm w.mem)).length⟩]
            ((head.writeAddrs mm w.mem).zip chunk) w w' t)) (serveRx mm chunk head q) w := by
  obtain ⟨x, hnew, hx⟩ := run_writerNew env head.tableFits_false w
  refine .bind fun y w₁ hy => ?_
  have hcalm : Calm mm env (fun _ => False) (fun _ => True) (lift (Writer.new mm head)) :=
    calm_lift (Writer.always_new mm head.tableFits_false)
  have hnone : Leaves mm q q [] [] w w₁ (Prog.trace (mm.world false env) (lift (Writer.new mm head)) w) :=
    leaves_inert hy (fun d hd => ((Prog.Always.runs hcalm w y w₁ hy).2 d hd).inert) (.refl q) rfl
  obtain ⟨rfl, rfl⟩ := Prog.run_unique hnew hy
  rcases hx with ⟨hok, rfl⟩ | ⟨hno, e, rfl⟩
  · obtain ⟨hb, hav⟩ := writer_of_writableOk hok
    have hlen := length_writeAddrs hok
    have htake : chunk.take (min chunk.length (head.writer mm w.mem).availableBytes) =
        chunk.take (head.writableBytes mm w.mem) := by
      rw [hav, ← List.take_take]
      exact List.take_of_length_le (List.length_take_le' ..)
    have hcount : min chunk.length (head.writer mm w.mem).availableBytes =
        (chunk.take (head.writableBytes mm w.mem)).length := by
      rw [hav, List.length_take, min_comm]
    have hzip : (head.writeAddrs mm w.mem).zip (chunk.take (head.writableBytes mm w.mem)) =
        (head.writeAddrs mm w.mem).zip chunk := by
      rw [← hlen, zip_take_right]
    dsimp only
    rw [htake, hcount]
    refine .bind ((leaves_writeAll q hb (hav ▸ List.length_take_le ..) w).mono fun r w₁ t hw => ?_)
    obtain ⟨hr, hw⟩ := hw
    refine .bind ((leaves_addUsed hi _ w₁).mono fun q' w₂ t' ha => .pure (.inr ⟨hok, ?_, ?_⟩))
    · rw [hr, List.length_take, min_comm]
    · have hall := hnone.trans (hw.trans ha)
      rw [List.append_nil] at hall
      rw [List.append_nil, ← hzip]
      exact hall
  · refine .pure (.inl ⟨hno, rfl, ?_⟩)
    rw [List.append_nil]
    exact hnone

section
variable {q q' q'' : Queue} {c : DescriptorChain} {m : Mem} {ps : List (DescriptorChain × Mem)}
  {data : List Byte} {w w' w'' : World ε} {t t' : List Done}

theorem leaves_cons_of_not (h : c.writableOk mm m = false) (hs : Leaves mm q q' [] [] w w' t)
    (hl : Leaves mm q' q'' (elements mm ps data) ((areas mm ps).flatten.zip data) w' w'' t') :
    Leaves mm q q'' (elements mm ((c, m) :: ps) data) ((areas mm ((c, m) :: ps)).flatten.zip data) w w''
      (t ++ t') := by
  rw [elements, areas, caps, valid_cons_of_not h]
  exact hs.trans hl

theorem leaves_cons_of_ok (h : c.writableOk mm m = true)
    (hs : Leaves mm q q'
      [⟨c.index.setWidth 32, BitVec.ofNat 32 (data.take (c.writableBytes mm m)).length⟩]
      ((c.writeAddrs mm m).zip data) w w' t)
    (hl : Leaves mm q' q'' (elements mm ps (data.drop (c.writableBytes mm m)))
      ((areas mm ps).flatten.zip (data.drop (c.writableBytes mm m))) w' w'' t') :
    Leaves mm q q'' (elements mm ((c, m) :: ps) data) ((areas mm ((c, m) :: ps)).flatten.zip data) w w''
      (t ++ t') := by
  have hzip : (areas mm ((c, m) :: ps)).flatten.zip data = (c.writeAddrs mm m).zip data ++
      (areas mm ps).flatten.zip (data.drop (c.writableBytes mm m)) := by
    rw [← length_writeAddrs h, ← zip_append_left, areas, valid_cons_of_ok h]
    rfl
  rw [hzip, elements, caps, valid_cons_of_ok h, List.map_cons, List.splitLengths_cons, List.zip_cons_cons]
  exact hs.trans hl

end

theorem sum_caps_cons (p : DescriptorChain × Mem) (ps : List (DescriptorChain × Mem)) :
    (caps mm (p :: ps)).sum =
      (if p.1.writableOk mm p.2 then p.1.writableBytes mm p.2 else 0) + (caps mm ps).sum := by
  cases h : p.1.writableOk mm p.2 with
  | true =>
    rw [caps, valid_cons_of_ok h]
    exact List.sum_cons
  | false =>
    rw [caps, valid_cons_of_not h]
    exact (Nat.zero_add _).symm

theorem drop_min_length (xs : List Byte) (n : Nat) : xs.drop (min xs.length n) = xs.drop n := by
  rcases Nat.le_total xs.length n with h | h
  · rw [min_eq_left h, List.drop_length, List.drop_eq_nil_of_le h]
  · rw [min_eq_right h]

/-- A chain popped is one of the queue. -/
theorem index_of_popChain {q q' : Queue} {c : DescriptorChain} {w w' : World ε}
    (hr : Prog.run (mm.world false env) (popChain q) w = some ((some c, q'), w')) : c.index < q'.size := by
  obtain ⟨hpopped, -⟩ := (partly_popChain q).runs w _ w' hr
  rcases hpopped with ⟨h, -⟩ | ⟨⟨c', h, hlt⟩, rfl⟩
  · cases h
  · obtain rfl := Option.some.inj h
    exact BitVec.lt_def.mpr ((BitVec.lt_def.mp hlt).trans_le q.actualSize_le)

/-- What the loop leaves, from the byte at `offset`. -/
theorem leaves_rxLoop (data : List Byte) (fuel offset : Nat) (q : Queue) (used : Bool) (w : World ε) :
    Prog.Runs (mm.world false env) (fun r w' t => ∀ x ∈ r, ∃ ps, pops w'.log = pops w.log ++ ps ∧
      Leaves mm q x.1 (elements mm ps (data.drop offset)) ((areas mm ps).flatten.zip (data.drop offset))
        w w' t ∧
      Needed mm ps (data.drop offset)) (rxLoop mm data fuel offset q used) w := by
  induction fuel generalizing offset q used w with
  | zero => exact .pure fun x hx => by cases hx
  | succ fuel ih =>
    unfold rxLoop
    split
    · refine .pure fun x hx => ?_
      obtain rfl := Option.some.inj hx
      exact ⟨[], (List.append_nil _).symm, .of_inert (.refl q) rfl (List.forall_mem_nil _) rfl, needed_nil _⟩
    · rename_i hlt
      have h0 : 0 < (data.drop offset).length := by
        rw [List.length_drop]
        omega
      refine .bind fun x w₁ hx => ?_
      obtain ⟨hpopped, hinert⟩ := (partly_popChain q).runs w x w₁ hx
      have hpop : Leaves mm q x.2 [] [] w w₁ _ :=
        leaves_inert hx (fun d hd => (hinert d hd).2) hpopped.sameConfig hpopped.nextUsed
      rcases x with ⟨o, q₁⟩
      obtain ⟨-, hl⟩ := run_popChain_pops hx
      cases o with
      | none =>
        refine .pure fun x hx => ⟨[], hl, ?_, needed_nil _⟩
        obtain rfl := Option.some.inj hx
        rw [List.append_nil]
        exact hpop
      | some c =>
        refine .bind fun r w₂ hr => ?_
        have hserve := leaves_serveRx (index_of_popChain hx) (data.drop offset) w₁ r w₂ hr
        have hps : pops w₂.log = pops w.log ++ [(c, w₁.mem)] :=
          ((servedRx (data.drop offset) c q₁ w₁).pops hr).trans hl
        rcases r with ⟨q₂, o⟩
        rcases hserve with ⟨hno, rfl, hserve⟩ | ⟨hok, rfl, hserve⟩
        · refine (ih offset q₂ used w₂).mono fun r w₃ t h x hx => ?_
          obtain ⟨ps, hl₃, hleaves, hneed⟩ := h x hx
          refine ⟨(c, w₁.mem) :: ps, by rw [hl₃, hps, List.append_assoc]; rfl, ?_, ?_⟩
          · exact hpop.trans (leaves_cons_of_not hno hserve hleaves)
          · refine needed_cons h0 fun before p after he => ?_
            rw [sum_caps_cons, if_neg (by rw [hno]; exact Bool.false_ne_true), Nat.zero_add]
            exact hneed before p after he
        · refine (ih _ q₂ true w₂).mono fun r w₃ t h x hx => ?_
          obtain ⟨ps, hl₃, hleaves, hneed⟩ := h x hx
          rw [← List.drop_drop, drop_min_length] at hleaves hneed
          refine ⟨(c, w₁.mem) :: ps, by rw [hl₃, hps, List.append_assoc]; rfl, ?_, ?_⟩
          · exact hpop.trans (leaves_cons_of_ok hok hserve hleaves)
          · refine needed_cons h0 fun before p after he => ?_
            have hlt := hneed before p after he
            rw [List.length_drop] at hlt
            rw [sum_caps_cons, if_pos hok]
            show c.writableBytes mm w₁.mem + _ < _
            omega

/-- The signal at the end. -/
theorem partly_notifyUsed (q : Queue) (used : Bool) :
    Prog.Partly Act.Inert (fun _ => True) (notifyUsed q used) := by
  have hneed : Prog.Partly Access.isRead (fun _ => True) q.needsNotification := by
    rcases needsNotification_eq q with h | h | ⟨addr, -, h⟩
    · rw [h]
      trivial
    · rw [h]
      trivial
    · rw [h]
      refine ⟨trivial, fun r => ?_⟩
      cases r <;> trivial
  unfold notifyUsed
  split
  · refine (partly_lift hneed fun _ h => h).bind fun x _ => ?_
    rcases x with ⟨e | need, q'⟩
    · trivial
    · cases need with
      | true => exact ⟨trivial, fun _ => trivial⟩
      | false => trivial
  · trivial

/-- What a call leaves. -/
theorem leaves_processRxInput (fuel : Nat) (q : Queue) (w : World ε) :
    Prog.Runs (mm.world false env) (fun r w' t => r.isSome = true → ∃ q' ps,
      pops w'.log = pops w.log ++ ps ∧
      Leaves mm q q' (elements mm ps (env .drainInput w.ext).1)
        ((areas mm ps).flatten.zip (env .drainInput w.ext).1) w w' t ∧
      Needed mm ps (env .drainInput w.ext).1) (processRxInput mm fuel q) w := by
  refine .bind fun data w₁ hd => ?_
  have hio : Leaves mm q q [] [] w w₁ _ :=
    leaves_inert hd (List.forall_mem_singleton.mpr trivial) (.refl q) rfl
  obtain ⟨rfl, rfl⟩ := Prod.mk.inj (Option.some.inj hd)
  dsimp only
  split
  · refine .pure fun _ => ⟨q, [], (List.append_nil _).symm, ?_, needed_nil _⟩
    rw [List.append_nil]
    exact hio
  · refine .bind ((leaves_rxLoop _ fuel 0 q false _).mono fun r w₂ t h => ?_)
    cases r with
    | none => exact .pure fun h => absurd h Bool.false_ne_true
    | some r =>
      obtain ⟨ps, hl, hleaves, hneed⟩ := h r rfl
      refine .bind fun q' w₃ hn => .pure fun _ => ⟨r.1, ps, ?_, ?_, hneed⟩
      · rw [log_notifyUsed r.2 hn]
        exact hl
      · have hnotify : Leaves mm r.1 r.1 [] [] w₂ w₃ _ :=
          leaves_inert hn ((partly_notifyUsed r.1 r.2).runs w₂ q' w₃ hn).2 (.refl _) rfl
        have hall := hio.trans (hleaves.trans hnotify)
        rw [List.append_nil, List.append_nil] at hall
        rw [List.append_nil]
        exact hall

/-! ## What the guest gets -/

/-- For each element in turn, the first bytes of its chain's writable area, as many as it says. -/
def received (mm : MemoryManager) (es : List VirtqUsedElem) (ps : List (DescriptorChain × Mem)) (m : Mem) :
    List Byte :=
  ((es.zip (areas mm ps)).map fun x => (m.gather x.2).take x.1.len.toNat).flatten

/-- The elements `es` return the chains `ps`, but those that are not valid, and give the guest as much of
the input as there is room for in the memory `m`; no chain is popped after the end of the input. -/
structure Delivered (mm : MemoryManager) (data : List Byte) (ps : List (DescriptorChain × Mem))
    (es : List VirtqUsedElem) (m : Mem) : Prop where
  heads : es.map VirtqUsedElem.id = (valid mm ps).map fun p => p.1.index.setWidth 32
  bytes : received mm es ps m = data.take (min data.length (caps mm ps).sum)
  needed : Needed mm ps data

section
variable {ps : List (DescriptorChain × Mem)} {data : List Byte}

theorem length_pieces : ((caps mm ps).splitLengths data).length = (valid mm ps).length := by
  rw [List.length_splitLengths, caps, List.length_map]

theorem id_elements : (elements mm ps data).map VirtqUsedElem.id =
    (valid mm ps).map fun p => p.1.index.setWidth 32 := by
  have hfst := @List.map_fst_zip _ _ (valid mm ps) ((caps mm ps).splitLengths data) length_pieces.ge
  conv => rhs; rw [← hfst]
  rw [elements, List.map_map, List.map_map]
  rfl

theorem length_elements : (elements mm ps data).length = (valid mm ps).length := by
  rw [elements, List.length_map, List.length_zip, length_pieces, min_self]

theorem len_elements : (elements mm ps data).map (fun e => e.len.toNat) =
    ((caps mm ps).splitLengths data).map fun piece => piece.length % 2 ^ 32 := by
  have hsnd := @List.map_snd_zip _ _ (valid mm ps) ((caps mm ps).splitLengths data) length_pieces.le
  conv => rhs; rw [← hsnd]
  rw [elements, List.map_map, List.map_map]
  refine List.map_congr_left fun x _ => ?_
  exact BitVec.toNat_ofNat ..

/-- Each piece of the input is cut off at the length that its element gives. -/
theorem received_elements (h : (areas mm ps).flatten.Nodup) (m : Mem) :
    received mm (elements mm ps data) ps (m.put ((areas mm ps).flatten.zip data)) =
      (((caps mm ps).splitLengths data).map fun piece => piece.take (piece.length % 2 ^ 32)).flatten := by
  have hlen : ((caps mm ps).splitLengths data).length = (areas mm ps).length :=
    length_pieces.trans (List.length_map _).symm
  have hfst := @List.map_fst_zip _ _ ((caps mm ps).splitLengths data) (areas mm ps) hlen.le
  have hfill := Mem.gather_filled h m data
  rw [map_length_areas, ← Mem.put_zip] at hfill
  generalize m.put ((areas mm ps).flatten.zip data) = m' at hfill
  have hes : ((elements mm ps data).zip (areas mm ps)).map (fun x => (m'.gather x.2).take x.1.len.toNat) =
      ((((elements mm ps data).map fun e => e.len.toNat).zip (areas mm ps)).map
        fun x => (m'.gather x.2).take x.1) := by
    rw [List.zip_map_left, List.map_map]
    rfl
  rw [received, hes, len_elements, List.zip_map_left, List.map_map]
  refine congrArg List.flatten ?_
  conv => rhs; rw [← hfst]
  rw [List.map_map]
  refine List.map_congr_left fun x hx => ?_
  calc (m'.gather x.2).take (x.1.length % 2 ^ 32)
    _ = ((m'.gather x.2).take x.1.length).take (x.1.length % 2 ^ 32) := by
        rw [List.take_take, min_eq_left (Nat.mod_le ..)]
    _ = x.1.take (x.1.length % 2 ^ 32) := by rw [hfill x hx]

/-- The input is delivered exactly if no piece of it is too long for the length in its element. -/
theorem delivered_elements_iff (h : (areas mm ps).flatten.Nodup) (hn : Needed mm ps data) (m : Mem) :
    Delivered mm data ps (elements mm ps data) (m.put ((areas mm ps).flatten.zip data)) ↔
      ∀ piece ∈ (caps mm ps).splitLengths data, piece.length < 2 ^ 32 := by
  have hbytes : data.take (min data.length (caps mm ps).sum) = ((caps mm ps).splitLengths data).flatten := by
    rw [flatten_splitLengths, ← List.take_take]
    exact List.take_of_length_le (List.length_take_le' ..)
  rw [← flatten_take_mod_iff (Nat.two_pow_pos 32), ← received_elements h m, ← hbytes]
  exact ⟨Delivered.bytes, fun hb => ⟨id_elements, hb, hn⟩⟩

end

/-- A call delivers its input exactly if guest memory accepts an element for each chain and no piece is too
long. Outside the used ring, the bytes stored are what is in the memory at the end. -/
theorem delivered_iff {fuel : Nat} {q q' : Queue} {m : Mem} {e : ε} {w : World ε}
    (hr : Prog.run (mm.world ck env) (processRxInput mm fuel q) ⟨m, e, []⟩ = some (some q', w))
    (hd : (areas mm (pops w.log)).flatten.Nodup) :
    (Delivered mm (env .drainInput e).1 (pops w.log)
        (published q (Prog.trace (mm.world ck env) (processRxInput mm fuel q) ⟨m, e, []⟩))
        (m.put (stores (Prog.trace (mm.world ck env) (processRxInput mm fuel q) ⟨m, e, []⟩))) ↔
      q.Accepts mm (valid mm (pops w.log)).length ∧
        ∀ piece ∈ (caps mm (pops w.log)).splitLengths (env .drainInput e).1, piece.length < 2 ^ 32) ∧
    ∀ us, mm.Backs q.usedRing (6 + 8 * q.size.toNat) us → ∀ x, (x < us ∨ us + (6 + 8 * q.size.toNat) ≤ x) →
      w.mem x = m.put (stores (Prog.trace (mm.world ck env) (processRxInput mm fuel q) ⟨m, e, []⟩)) x := by
  rw [trace_of_checked hr]
  have hr' := run_of_checked hr
  obtain ⟨q₁, ps, hps, hleaves, hneed⟩ := leaves_processRxInput fuel q ⟨m, e, []⟩ _ w hr' rfl
  obtain rfl : pops w.log = ps := hps
  obtain ⟨hlen, hall⟩ := published_spec hr' hleaves
  rw [length_elements] at hlen hall
  rw [hleaves.stores]
  refine ⟨⟨fun h => ?_, fun ⟨hacc, hpieces⟩ => ?_⟩, hleaves.mem⟩
  · have hacc := hlen (by
      have := congrArg List.length h.heads
      rwa [List.length_map, List.length_map] at this)
    rw [hall hacc] at h
    exact ⟨hacc, (delivered_elements_iff hd hneed m).mp h⟩
  · rw [hall hacc]
    exact (delivered_elements_iff hd hneed m).mpr hpieces

/-! ## The chains of the driver -/

/-- The memory that serving a chain may write, besides the used ring. -/
def rxWrites (mm : MemoryManager) (m : Mem) (c : DescriptorChain) (x : Nat) : Prop :=
  c.writableOk mm m = true ∧ c.InBuffers mm m x

theorem serves_serveRx (chunk : List Byte) (head : DescriptorChain) (q : Queue) (w : World ε) :
    Serves mm env (rxWrites mm w.mem head) (head.writableOk mm w.mem) head q (serveRx mm chunk head q) w := by
  rw [← Bool.and_true (head.writableOk mm w.mem)]
  refine serves_opened (run_writerNew env head.tableFits_false w)
    (fun e => serves_nothing none) fun hwr => ?_
  have hw : Within (rxWrites mm w.mem head) ((head.writable mm w.mem).map (buffer mm)) :=
    fun vs hvs i hi => ⟨hwr, DescriptorChain.within_inBuffers mm w.mem head vs hvs i hi⟩
  exact Serves.bind (Writer.calm_writeAll hw _) fun _ _ _ => serves_addUsed _ _

section
variable {q₀ : Queue} {m₀ : Mem} {dt av us k : Nat}

theorem clear_rx (hL : q₀.Layout mm dt av us) (hA : Apart q₀ mm dt av m₀ (rxWrites mm)) :
    Clear q₀ mm dt av m₀ (rxWrites mm) := by
  refine ⟨hA, fun m c hs hc => ?_⟩
  unfold rxWrites DescriptorChain.writableOk DescriptorChain.InBuffers
  rw [DescriptorChain.writable_congr hL hs hc]

/-- The loop pops the heads in turn, each with the buffers it was submitted with, until there is no head
or no input left. -/
theorem run_rxLoop (hL : q₀.Layout mm dt av us) (hA : Apart q₀ mm dt av m₀ (rxWrites mm)) (env : Env ε)
    (data : List Byte) {fuel : Nat} (hf : q₀.pending av m₀ - k < fuel) (offset : Nat) {q : Queue}
    (used : Bool) {w : World ε} (hat : q₀.At dt av m₀ k q w.mem) :
    ∃ q' used' w' ps, Prog.run (mm.world false env) (rxLoop mm data fuel offset q used) w =
        some (some (q', used'), w') ∧ q₀.SameConfig q' ∧ pops w'.log = pops w.log ++ ps ∧
      ps.map Prod.fst <+: q₀.acceptedFrom mm av m₀ (q₀.pending av m₀ - k) k ∧
      (∀ p ∈ ps, p.1.index < q₀.size ∧ p.1.writable mm p.2 = p.1.writable mm m₀) ∧
      (ps.map Prod.fst = q₀.acceptedFrom mm av m₀ (q₀.pending av m₀ - k) k ∨
        data.length ≤ offset + (caps mm ps).sum) := by
  induction fuel generalizing k offset q used w with
  | zero => omega
  | succ fuel ih =>
    unfold rxLoop
    split
    · rename_i hle
      exact ⟨q, used, w, [], rfl, hat.config, (List.append_nil _).symm, List.nil_prefix, by simp, .inr hle⟩
    · rename_i hlt
      rw [Prog.run_bind]
      rcases run_popChain_at hL env hat with ⟨c, w₁, hk, hc, hm, hp⟩ | ⟨hstop, hp⟩
      · have hat₁ : q₀.At dt av m₀ (k + 1) { q with nextAvail := q.nextAvail + 1 } w₁.mem :=
          hm ▸ hat.pop hk
        have hct := (Queue.run_headChain mm q₀ m₀ (q₀.headAt av m₀ k)).2 c hc
        have hclear := clear_rx hL hA
        have hserves : Serves mm env (rxWrites mm w₁.mem c) _ c { q with nextAvail := q.nextAvail + 1 }
          (serveRx mm (data.drop offset) c { q with nextAvail := q.nextAvail + 1 }) w₁ := serves_serveRx ..
        obtain ⟨q₂, o, w₂, hr₂, hs⟩ := id hserves
        have hat₂ := at_served hL hclear hk hc hat₁ hs
        have hps : pops w₂.log = pops w.log ++ [(c, w₁.mem)] :=
          (hserves.pops hr₂).trans (run_popChain_pops hp).2
        have hi := index_of_popChain hp
        have hflag := leaves_serveRx hi (data.drop offset) w₁ _ w₂ hr₂
        have hwr : c.index < q₀.size ∧ c.writable mm w₁.mem = c.writable mm m₀ :=
          ⟨hat₁.config.size ▸ hi, DescriptorChain.writable_congr hL hat₁.steady hct⟩
        rw [hp, Option.bind_some]
        dsimp only
        rw [Prog.run_bind, hr₂, Option.bind_some, Queue.acceptedFrom_of_accepted hk hc]
        rcases hflag with ⟨hno, rfl, -⟩ | ⟨hok, rfl, -⟩
        · obtain ⟨q', used', w', ps, hr, hconf, hl, hpre, hsame, hend⟩ :=
            ih (k := k + 1) (by omega) offset used hat₂
          refine ⟨q', used', w', (c, w₁.mem) :: ps, hr, hconf, by rw [hl, hps, List.append_assoc]; rfl,
            List.cons_prefix_cons.mpr ⟨rfl, hpre⟩, List.forall_mem_cons.mpr ⟨hwr, hsame⟩, ?_⟩
          rw [sum_caps_cons, if_neg (by rw [hno]; exact Bool.false_ne_true), Nat.zero_add]
          exact hend.imp_left (congrArg (c :: ·))
        · obtain ⟨q', used', w', ps, hr, hconf, hl, hpre, hsame, hend⟩ :=
            ih (k := k + 1) (by omega) _ true hat₂
          refine ⟨q', used', w', (c, w₁.mem) :: ps, hr, hconf, by rw [hl, hps, List.append_assoc]; rfl,
            List.cons_prefix_cons.mpr ⟨rfl, hpre⟩, List.forall_mem_cons.mpr ⟨hwr, hsame⟩, ?_⟩
          rw [sum_caps_cons, if_pos hok]
          refine hend.imp (congrArg (c :: ·)) fun h => ?_
          show data.length ≤ offset + (c.writableBytes mm w₁.mem + _)
          omega
      · rw [hp, Option.bind_some]
        rw [Queue.acceptedFrom_of_stop hstop]
        exact ⟨q, used, w, [], rfl, hat.config, (List.append_nil _).symm, List.nil_prefix, by simp, .inl rfl⟩

/-- A call returns, and it has popped the first of the chains submitted: all, or enough for the input. -/
theorem run_processRxInput (hL : q₀.Layout mm dt av us) (hA : Apart q₀ mm dt av m₀ (rxWrites mm))
    (env : Env ε) (e : ε) {fuel : Nat} (hf : q₀.pending av m₀ < fuel) :
    ∃ q' w, Prog.run (mm.world false env) (processRxInput mm fuel q₀) ⟨m₀, e, []⟩ = some (some q', w) ∧
      (pops w.log).map Prod.fst <+: q₀.submitted mm av m₀ ∧
      (∀ p ∈ pops w.log, p.1.index < q₀.size ∧ p.1.writable mm p.2 = p.1.writable mm m₀) ∧
      ((pops w.log).map Prod.fst = q₀.submitted mm av m₀ ∨
        (env .drainInput e).1.length ≤ (caps mm (pops w.log)).sum) := by
  have hio : Prog.run (mm.world false env) (io .drainInput) ⟨m₀, e, []⟩ =
      some ((env .drainInput e).1, ⟨m₀, (env .drainInput e).2, []⟩) := rfl
  rw [processRxInput, Prog.run_bind, hio, Option.bind_some]
  dsimp only
  split
  · rename_i hempty
    refine ⟨q₀, _, rfl, List.nil_prefix, List.forall_mem_nil _, .inr ?_⟩
    rw [List.isEmpty_iff.mp hempty]
    exact Nat.zero_le _
  · have hat : q₀.At dt av m₀ 0 q₀ m₀ := ⟨.refl q₀, (Counter.ahead_zero _).symm, .refl .., Nat.zero_le _⟩
    obtain ⟨q₁, used, w₁, ps, hr, hconf, hps, hpre, hsame, hend⟩ :=
      run_rxLoop (w := ⟨m₀, (env .drainInput e).2, []⟩) hL hA env (env .drainInput e).1
        (show q₀.pending av m₀ - 0 < fuel from hf) 0 false hat
    have hnotify : Notifies mm env notifyUsed := notifies_notifyUsed
    obtain ⟨q', w, hn, -⟩ := hnotify used w₁ (hL.placed.config hconf)
    have hlog : pops w.log = ps := (congrArg pops (log_notifyUsed used hn)).trans hps
    rw [Nat.zero_add] at hend
    refine ⟨q', w, ?_, hlog ▸ hpre, hlog ▸ hsame, hlog ▸ hend⟩
    rw [Prog.run_bind, hr, Option.bind_some]
    dsimp only
    rw [Prog.run_bind, hn]
    rfl

end

/-! ## All calls -/

/-- The chains submitted, in the memory in which a call finds them. -/
def offered (mm : MemoryManager) (q : Queue) (av : Nat) (m : Mem) : List (DescriptorChain × Mem) :=
  (q.submitted mm av m).map fun c => (c, m)

section
variable {ps rest : List (DescriptorChain × Mem)} {m : Mem} {data : List Byte}

theorem caps_append (ps rest : List (DescriptorChain × Mem)) :
    caps mm (ps ++ rest) = caps mm ps ++ caps mm rest := by
  rw [caps, valid, List.filter_append, List.map_append]
  rfl

theorem areas_append (ps rest : List (DescriptorChain × Mem)) :
    areas mm (ps ++ rest) = areas mm ps ++ areas mm rest := by
  rw [areas, valid, List.filter_append, List.map_append]
  rfl

/-- What depends on the writable descriptors of the chains only. -/
theorem map_valid_congr {β : Type} (f : DescriptorChain × Mem → β)
    (hf : ∀ p : DescriptorChain × Mem, p.1.writable mm p.2 = p.1.writable mm m → f p = f (p.1, m))
    (h : ∀ p ∈ ps, p.1.writable mm p.2 = p.1.writable mm m) :
    (valid mm ps).map f = (valid mm (ps.map fun p => (p.1, m))).map f := by
  have hvalid : valid mm ps = ps.filter ((fun p => p.1.writableOk mm p.2) ∘ fun p => (p.1, m)) :=
    List.filter_congr fun p hp => congrArg (fun ds => ds.all (mapped mm)) (h p hp)
  rw [hvalid, valid, List.filter_map, List.map_map]
  exact List.map_congr_left fun p hp => hf p (h p (List.mem_filter.mp hp).1)

theorem caps_congr (h : ∀ p ∈ ps, p.1.writable mm p.2 = p.1.writable mm m) :
    caps mm ps = caps mm (ps.map fun p => (p.1, m)) :=
  map_valid_congr _ (fun _ hp => congrArg (fun ds => (ds.map fun d => d.len.toNat).sum) hp) h

theorem areas_congr (h : ∀ p ∈ ps, p.1.writable mm p.2 = p.1.writable mm m) :
    areas mm ps = areas mm (ps.map fun p => (p.1, m)) :=
  map_valid_congr _ (fun _ hp => by rw [DescriptorChain.writeAddrs, DescriptorChain.writer, hp]; rfl) h

/-- The chains that are left when the input has ended get nothing. -/
theorem pieces_append_iff (h : rest = [] ∨ data.length ≤ (caps mm ps).sum) :
    (∀ piece ∈ (caps mm (ps ++ rest)).splitLengths data, piece.length < 2 ^ 32) ↔
      ∀ piece ∈ (caps mm ps).splitLengths data, piece.length < 2 ^ 32 := by
  rw [caps_append, splitLengths_append, List.forall_mem_append]
  refine and_iff_left fun piece hp => ?_
  rcases h with rfl | h
  · cases hp
  · have hle := length_le_of_mem_splitLengths hp
    rw [List.drop_eq_nil_of_le h] at hle
    exact hle.trans_lt (Nat.two_pow_pos 32)

end

/-- A call of `processRxInput` that ends in the world `w` gives the guest its input, in the memory with the
bytes that it stores in the chains. -/
def InputDelivered (mm : MemoryManager) (env : Env ε) (ck : Bool) (fuel : Nat) (q : Queue) (m : Mem) (e : ε)
    (w : World ε) : Prop :=
  Delivered mm (env .drainInput e).1 (pops w.log)
    (published q (Prog.trace (mm.world ck env) (processRxInput mm fuel q) ⟨m, e, []⟩))
    (m.put (stores (Prog.trace (mm.world ck env) (processRxInput mm fuel q) ⟨m, e, []⟩)))

/-- With the rings in guest memory it is a condition on the chains submitted. -/
theorem delivered_offered_iff (env : Env ε) {q : Queue} {dt av us : Nat} {m : Mem} (hL : q.Layout mm dt av us)
    (hA : Apart q mm dt av m (rxWrites mm)) (e : ε) {fuel : Nat} (hf : q.pending av m < fuel)
    (hd : (areas mm (offered mm q av m)).flatten.Nodup) :
    ∃ q' w, Prog.run (mm.world false env) (processRxInput mm fuel q) ⟨m, e, []⟩ = some (some q', w) ∧
      (pops w.log).map Prod.fst <+: q.submitted mm av m ∧
      (InputDelivered mm env false fuel q m e w ↔
        ∀ piece ∈ (caps mm (offered mm q av m)).splitLengths (env .drainInput e).1,
          piece.length < 2 ^ 32) := by
  obtain ⟨q', w, hr, hpre, hsame, hend⟩ := run_processRxInput hL hA env e hf
  refine ⟨q', w, hr, hpre, ?_⟩
  obtain ⟨rest, hrest⟩ := hpre
  have hsplit : offered mm q av m = (pops w.log).map (fun p => (p.1, m)) ++ rest.map fun c => (c, m) := by
    rw [offered, ← hrest, List.map_append, List.map_map]
    rfl
  have hsame' : ∀ p ∈ pops w.log, p.1.writable mm p.2 = p.1.writable mm m := fun p hp => (hsame p hp).2
  have hpieces : rest.map (fun c => (c, m)) = [] ∨ (env .drainInput e).1.length ≤
      (caps mm ((pops w.log).map fun p => (p.1, m))).sum := by
    rw [← caps_congr hsame']
    refine hend.imp_left fun h => ?_
    rw [← hrest, List.self_eq_append_right] at h
    rw [h]
    rfl
  rw [hsplit, areas_append, List.flatten_append, ← areas_congr hsame'] at hd
  rw [InputDelivered, (delivered_iff hr hd.of_append_left).1, hsplit, pieces_append_iff hpieces,
    ← caps_congr hsame']
  refine and_iff_right (Queue.accepts_of_backs hL.rings.used fun h0 => ?_)
  obtain ⟨p, hp⟩ := List.exists_mem_of_length_pos h0
  have hi := BitVec.lt_def.mp (hsame p (List.mem_filter.mp hp).1).1
  omega

/-- A call gives the guest its input exactly if guest memory accepts an element for each chain, and no chain
is given as many bytes as its element cannot count; what it stores outside the used ring is what is there
at the end. With the rings in guest memory and the buffers apart from them, a call returns, and what decides
are the chains submitted. -/
theorem input_delivered_iff (mm : MemoryManager) (env : Env ε) :
    (∀ ck fuel q q' m e w,
      Prog.run (mm.world ck env) (processRxInput mm fuel q) ⟨m, e, []⟩ = some (some q', w) →
      (areas mm (pops w.log)).flatten.Nodup →
      (InputDelivered mm env ck fuel q m e w ↔
        q.Accepts mm (valid mm (pops w.log)).length ∧
          ∀ piece ∈ (caps mm (pops w.log)).splitLengths (env .drainInput e).1, piece.length < 2 ^ 32) ∧
      ∀ us, mm.Backs q.usedRing (6 + 8 * q.size.toNat) us →
        ∀ x, (x < us ∨ us + (6 + 8 * q.size.toNat) ≤ x) →
        w.mem x = m.put (stores (Prog.trace (mm.world ck env) (processRxInput mm fuel q) ⟨m, e, []⟩)) x) ∧
    ∀ q m e dt av us fuel, q.Layout mm dt av us → Apart q mm dt av m (rxWrites mm) → q.pending av m < fuel →
      (areas mm (offered mm q av m)).flatten.Nodup →
      ∃ q' w, Prog.run (mm.world false env) (processRxInput mm fuel q) ⟨m, e, []⟩ = some (some q', w) ∧
        (pops w.log).map Prod.fst <+: q.submitted mm av m ∧
        (InputDelivered mm env false fuel q m e w ↔
          ∀ piece ∈ (caps mm (offered mm q av m)).splitLengths (env .drainInput e).1,
            piece.length < 2 ^ 32) :=
  ⟨fun _ _ _ _ _ _ _ hr hd => delivered_iff hr hd,
    fun _ _ e _ _ _ _ hL hA hf hd => delivered_offered_iff env hL hA e hf hd⟩

/-- Only input is pending. -/
def inputEnv (bytes : List Byte) : Env Unit
  | .drainInput, _ => (bytes, ())
  | op, s => idleEnv op s

/-- Buffers above the rings. -/
theorem apart_of_above {q : Queue} {dt av : Nat} {m : Mem}
    (h : ∀ k < q.pending av m, ∀ c ∈ q.accepted mm av m k, ∀ d ∈ c.writable mm m,
      dt + 16 * q.size.toNat ≤ (buffer mm d).host ∧ av + (6 + 2 * q.size.toNat) ≤ (buffer mm d).host) :
    Apart q mm dt av m (rxWrites mm) := by
  constructor
  · rintro k hk c hc x ⟨-, d, hd, i, -, rfl⟩
    exact .inr ((h k hk c hc d hd).1.trans (Nat.le_add_right ..))
  · rintro k hk c hc x ⟨-, d, hd, i, -, rfl⟩
    exact .inr ((h k hk c hc d hd).2.trans (Nat.le_add_right ..))

/-- Three bytes. -/
def smallInput : Env Unit := inputEnv [0x6c, 0x73, 0x0a]

/-- They are delivered to a buffer of ten, in both builds. -/
theorem input_delivered_iff_small :
    (∃ q' w, Prog.run (smallRam.world true smallInput)
        (processRxInput smallRam 2 smallQueue) ⟨QueueLoop.smallBuffer, (), []⟩ = some (some q', w) ∧
      InputDelivered smallRam smallInput true 2 smallQueue QueueLoop.smallBuffer () w) ∧
    ∃ q' w, Prog.run (smallRam.world false smallInput)
        (processRxInput smallRam 2 smallQueue) ⟨QueueLoop.smallBuffer, (), []⟩ = some (some q', w) ∧
      (pops w.log).map Prod.fst <+: smallQueue.submitted smallRam 0x2000 QueueLoop.smallBuffer ∧
      InputDelivered smallRam smallInput false 2 smallQueue QueueLoop.smallBuffer () w := by
  have hshort : ∀ piece ∈ [10].splitLengths (smallInput .drainInput ()).1, piece.length < 2 ^ 32 := by
    decide +kernel
  constructor
  · have hrun : (Prog.run (smallRam.world true smallInput)
        (processRxInput smallRam 2 smallQueue) ⟨QueueLoop.smallBuffer, (), []⟩).map (fun r =>
          (r.1.isSome, decide (areas smallRam (pops r.2.log)).flatten.Nodup, caps smallRam (pops r.2.log))) =
        some (true, true, [10]) := by decide +kernel
    obtain ⟨⟨o, w⟩, hr, he⟩ := Option.map_eq_some_iff.mp hrun
    obtain ⟨ho, he⟩ := Prod.mk.inj he
    obtain ⟨hd, hcaps⟩ := Prod.mk.inj he
    obtain ⟨q', rfl⟩ := Option.isSome_iff_exists.mp ho
    have hiff := ((input_delivered_iff smallRam smallInput).1 true 2 smallQueue q'
      QueueLoop.smallBuffer () w hr (of_decide_eq_true hd)).1
    refine ⟨q', w, hr, hiff.mpr ⟨Queue.accepts_of_backs Drainer.smallQueue_layout.rings.used fun _ => ?_, ?_⟩⟩
    · exact Nat.zero_lt_two
    · dsimp only at hcaps
      rw [hcaps]
      exact hshort
  · have hA : Apart smallQueue smallRam 0x1000 0x2000 QueueLoop.smallBuffer (rxWrites smallRam) :=
      apart_of_above (by decide +kernel)
    have hf : smallQueue.pending 0x2000 QueueLoop.smallBuffer < 2 := by decide +kernel
    have hd : (areas smallRam (offered smallRam smallQueue 0x2000 QueueLoop.smallBuffer)).flatten.Nodup := by
      decide +kernel
    have hcaps : caps smallRam (offered smallRam smallQueue 0x2000 QueueLoop.smallBuffer) = [10] := by
      decide +kernel
    obtain ⟨q', w, hr, hpre, hiff⟩ := (input_delivered_iff smallRam smallInput).2 smallQueue
      QueueLoop.smallBuffer () 0x1000 0x2000 0x3000 2 Drainer.smallQueue_layout hA hf hd
    refine ⟨q', w, hr, hpre, hiff.mpr ?_⟩
    rw [hcaps]
    exact hshort

/-- The RAM of a guest with 12 GiB. -/
def bigRam : MemoryManager := allocateMemoryWithSize 0x300000000 0 (by decide) (by decide)

theorem bigRam_backs {gpa : GuestAddress} {len : Nat} (h : gpa.toNat + len ≤ MEM_32BIT_DEVICES_START.toNat) :
    bigRam.Backs gpa len gpa.toNat := by
  have hb : bigRam.Backs gpa len (0 + gpa.toNat) := MemoryManager.backs_allocated_low (by decide) h
  rwa [Nat.zero_add] at hb

theorem smallQueue_bigRam : smallQueue.Layout bigRam 0x1000 0x2000 0x3000 :=
  ⟨⟨by decide, bigRam_backs (by decide), bigRam_backs (by decide), .inl (by decide)⟩,
    bigRam_backs (by decide), .inl (by decide), by decide⟩

/-- One chain of two writable descriptors of 2 GiB each. -/
def bigChain : Mem :=
  ((((((oneChain 0 0x100000000).putWord 0x1008 (0x80000000 : BitVec 32)).putWord 0x100c
    (3 : BitVec 16)).putWord 0x100e (1 : BitVec 16)).putWord 0x1010 (0x180000000 : BitVec 64)).putWord 0x1018
      (0x80000000 : BitVec 32)).putWord 0x101c (2 : BitVec 16)

/-- Adjacent buffers. -/
theorem nodup_addrs_adjacent (a n k : Nat) : (addrs [⟨a, n⟩, ⟨a + n, k⟩]).Nodup := by
  have haddrs : addrs [⟨a, n⟩, ⟨a + n, k⟩] = List.range' a (n + k) := by
    rw [addrs_cons, addrs_cons, ← List.range'_eq_map_range, ← List.range'_eq_map_range,
      ← List.range'_append_1]
    exact congrArg _ (List.append_nil _)
  rw [haddrs]
  exact List.nodup_range'

/-- The chain has room for `2 ^ 32` bytes of input, and is returned with the length 0. -/
theorem input_lost : (areas bigRam (offered bigRam smallQueue 0x2000 bigChain)).flatten.Nodup ∧
    ∃ q' w, Prog.run (bigRam.world false (inputEnv (List.replicate (2 ^ 32) 0x61)))
        (processRxInput bigRam 2 smallQueue) ⟨bigChain, (), []⟩ = some (some q', w) ∧
      ¬ InputDelivered bigRam (inputEnv (List.replicate (2 ^ 32) 0x61)) false 2 smallQueue bigChain () w := by
  have hsub : (smallQueue.submitted bigRam 0x2000 bigChain).map (fun c => (c.writableOk bigRam bigChain,
      (c.writable bigRam bigChain).map (buffer bigRam), c.writableBytes bigRam bigChain)) =
      [(true, [⟨0xc0000000, 0x80000000⟩, ⟨0xc0000000 + 0x80000000, 0x80000000⟩], 2 ^ 32)] := by
    decide +kernel
  have hA : Apart smallQueue bigRam 0x1000 0x2000 bigChain (rxWrites bigRam) :=
    apart_of_above (by decide +kernel)
  have hf : smallQueue.pending 0x2000 bigChain < 2 := by decide +kernel
  obtain ⟨c, hc, he⟩ := List.map_eq_singleton_iff.mp hsub
  obtain ⟨hok, he⟩ := Prod.mk.inj he
  obtain ⟨hbufs, hbytes⟩ := Prod.mk.inj he
  have hvalid : valid bigRam (offered bigRam smallQueue 0x2000 bigChain) = [(c, bigChain)] := by
    rw [offered, hc]
    exact valid_cons_of_ok hok
  have hd : (areas bigRam (offered bigRam smallQueue 0x2000 bigChain)).flatten.Nodup := by
    rw [areas, hvalid, List.map_singleton, List.flatten_singleton, DescriptorChain.writeAddrs,
      DescriptorChain.writer, hbufs]
    exact nodup_addrs_adjacent _ _ _
  have hcaps : caps bigRam (offered bigRam smallQueue 0x2000 bigChain) = [2 ^ 32] := by
    rw [caps, hvalid, List.map_singleton, hbytes]
  have hlong : ∀ data : List Byte, data.length = 2 ^ 32 →
      ∃ q' w, Prog.run (bigRam.world false (inputEnv data)) (processRxInput bigRam 2 smallQueue)
        ⟨bigChain, (), []⟩ = some (some q', w) ∧
        ¬ InputDelivered bigRam (inputEnv data) false 2 smallQueue bigChain () w := by
    intro data hlen
    obtain ⟨q', w, hr, -, hiff⟩ := delivered_offered_iff (inputEnv data) smallQueue_bigRam hA () hf hd
    refine ⟨q', w, hr, fun h => ?_⟩
    have hall := hiff.mp h
    rw [hcaps, List.splitLengths_cons] at hall
    have hlt := hall (data.take (2 ^ 32)) List.mem_cons_self
    rw [List.length_take, hlen, min_self] at hlt
    exact Nat.lt_irrefl _ hlt
  exact ⟨hd, hlong _ List.length_replicate⟩

end ConsoleWorker

end Whypa
