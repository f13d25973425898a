import Whypa.Virtio.Streams

/-!
# How much is consumed, and where a stream is split

`consume` hands its callback whole buffers, so that the callback is handed what was asked for
only if no buffer straddles the count (`consume_exact_iff`); the loops `read_exact_to` and
`write_all_from`, which subtract what was transferred from what is left to transfer, rely on
that. `split_at` gives the bytes after the split to both sides, so that it is right only if no
buffer straddles the offset (`split_exact_iff`).
-/

namespace Whypa

open Framework WProg Framework.Lengths

namespace DescriptorChainConsumer

/-! ## What the callback is handed -/

/-- The slices are the next `count` bytes of `c`, or all that are left. -/
def Hands (c : DescriptorChainConsumer) (count : Nat) (bufs : List VolatileSlice) : Prop :=
  addrs bufs <+: addrs c.buffers ∧ (addrs bufs).length = min count c.availableBytes

instance (c : DescriptorChainConsumer) (count : Nat) (bufs : List VolatileSlice) :
    Decidable (c.Hands count bufs) :=
  inferInstanceAs (Decidable (_ ∧ _))

variable {c : DescriptorChainConsumer} {count : Nat}

theorem hands_takeBufs_iff : c.Hands count (takeBufs count c.buffers) ↔ Cut count c.lens := by
  have hpre := addrs_takeBufs_prefix count c.buffers
  rw [Hands, and_iff_right hpre]
  exact length_takeBufs_iff

variable {ε : Type} {ck : Bool} {mm : MemoryManager} {env : Env ε}

/-- The callback returns, and reports at most the bytes that it was given. -/
def Honest (ck : Bool) (mm : MemoryManager) (env : Env ε)
    (f : List VolatileSlice → WProg (Except IoError Nat)) : Prop :=
  ∀ bufs w, ∃ x w', Prog.run (mm.world ck env) (f bufs) w = some (x, w') ∧
    ∀ n, x = .ok n → n ≤ (addrs bufs).length

/-- What consuming by an honest callback does. A failure consumes nothing. -/
theorem run_consume_honest {f : List VolatileSlice → WProg (Except IoError Nat)}
    (hf : Honest ck mm env f) (c : DescriptorChainConsumer) (count : Nat) (w : World ε) :
    ∃ x c' w', Prog.run (mm.world ck env) (c.consume id 0 count f) w = some ((x, c'), w') ∧
      ((∃ e, x = .error e ∧ c' = c) ∨ (x = .ok 0 ∧ c' = c) ∨
        ∃ k, x = .ok k ∧ k ≤ (takeTotal count c.lens).sum ∧ c' = c.after k) := by
  unfold consume
  by_cases h : takeBufs count c.buffers = []
  · simp only [h, List.isEmpty_nil, if_true]
    exact ⟨_, _, _, rfl, .inr (.inl ⟨rfl, rfl⟩)⟩
  obtain ⟨x, w', hr, hle⟩ := hf (takeBufs count c.buffers) w
  simp only [List.isEmpty_iff, h, if_false, Prog.run_bind, hr, Option.bind_some]
  cases x with
  | error e => exact ⟨_, _, _, rfl, .inl ⟨e, rfl, rfl⟩⟩
  | ok k =>
    dsimp only
    split
    · exact ⟨_, _, _, rfl, .inl ⟨_, rfl, rfl⟩⟩
    · have hk := hle k rfl
      rw [length_addrs_takeBufs] at hk
      exact ⟨_, _, _, rfl, .inr (.inr ⟨k, rfl, hk, rfl⟩)⟩

end DescriptorChainConsumer

open DescriptorChainConsumer

section
variable {ε : Type} {mm : MemoryManager} {env : Env ε} {σ : Type}

/-- The loop over `transfer` subtracts no more than is left, if the count is where a buffer ends. -/
theorem run_transferAll_ne_none {interrupted : IoError → Bool} {eof : IoError}
    {transfer : Nat → σ → WProg (Except IoError Nat × σ)} (buffer : σ → DescriptorChainConsumer)
    (ht : ∀ n s w, ∃ x s' w', Prog.run (mm.world true env) (transfer n s) w = some ((x, s'), w') ∧
      ((∃ e, x = .error e ∧ buffer s' = buffer s) ∨ (x = .ok 0 ∧ buffer s' = buffer s) ∨
        ∃ k, x = .ok k ∧ k ≤ (takeTotal n (buffer s).lens).sum ∧ buffer s' = (buffer s).after k))
    (fuel : Nat) {count : BitVec 64} {s : σ} (hc : Cut count.toNat (buffer s).lens) (w : World ε) :
    Prog.run (mm.world true env) (transferAll interrupted eof transfer fuel count s) w ≠ none := by
  induction fuel generalizing count s w with
  | zero => exact Option.some_ne_none _
  | succ fuel ih =>
    unfold transferAll
    split
    · exact Option.some_ne_none _
    obtain ⟨x, s', w', hr, hx⟩ := ht count.toNat s w
    rw [Prog.run_bind, hr, Option.bind_some]
    rcases hx with ⟨e, rfl, hb⟩ | ⟨rfl, -⟩ | ⟨k, rfl, hk, hb⟩
    · dsimp only
      split
      · exact ih (by rw [hb]; exact hc) w'
      · exact Option.some_ne_none _
    · exact Option.some_ne_none _
    · have hle : k ≤ count.toNat := by
        rw [sum_takeTotal_eq_iff.mpr hc] at hk
        omega
      cases k with
      | zero => exact Option.some_ne_none _
      | succ k =>
        have hlt := count.isLt
        have hof : (BitVec.ofNat 64 (k + 1)).toNat = k + 1 := by
          rw [BitVec.toNat_ofNat, Nat.mod_eq_of_lt (by omega)]
        have hsub : BitVec.ofNat 64 (k + 1) ≤ count := by
          rw [BitVec.le_def, hof]
          exact hle
        show Prog.run (mm.world true env) (lift (VProg.sub count (BitVec.ofNat 64 (k + 1))) >>=
          fun count => transferAll interrupted eof transfer fuel count s') w' ≠ none
        rw [VProg.sub_of_le hsub]
        refine ih ?_ w'
        rw [BitVec.toNat_sub_of_le hsub, hof, hb, lens_after]
        exact hc.dropTotal hle

end

namespace DescriptorChainConsumer

/-- The guarantee of `consume` for a count, and what its callers make of it. -/
structure ConsumesExactly (c : DescriptorChainConsumer) (count : BitVec 64) : Prop where
  /-- It makes no difference if the callback panics unless it is handed the next `count` bytes, or
  all that are left. -/
  handed : ∀ {α : Type} (size : α → Nat) (empty : α) (f : List VolatileSlice → WProg (Except IoError α)),
    c.consume size empty count.toNat f =
      c.consume size empty count.toNat fun bufs => if c.Hands count.toNat bufs then f bufs else .panic
  /-- No more is consumed. -/
  returned : ∀ {ε : Type} (ck : Bool) (mm : MemoryManager) (env : Env ε)
    (f : List VolatileSlice → WProg (Except IoError Nat)), Honest ck mm env f → ∀ w n c' w',
      Prog.run (mm.world ck env) (c.consume id 0 count.toNat f) w = some ((.ok n, c'), w') →
      n ≤ count.toNat
  /-- No subtraction underflows. -/
  readExactTo : ∀ {ε : Type} (mm : MemoryManager) (env : Env ε) (interrupted : IoError → Bool)
    (dst : List VolatileSlice → WProg (Except IoError Nat)), Honest true mm env dst → ∀ fuel w,
      Prog.run (mm.world true env) (Reader.readExactTo ⟨c⟩ interrupted dst count fuel) w ≠ none
  writeAllFrom : ∀ {ε : Type} (mm : MemoryManager) (env : Env ε) (interrupted : IoError → Bool)
    (src : List VolatileSlice → WProg (Except IoError Nat)), Honest true mm env src → ∀ fuel w,
      Prog.run (mm.world true env) (Writer.writeAllFrom ⟨c⟩ interrupted src count fuel) w ≠ none

variable {c : DescriptorChainConsumer}

/-- If no buffers are taken, then none straddles the count. -/
theorem cut_of_takeBufs_nil {n : Nat} (h : takeBufs n c.buffers = []) : Cut n c.lens := by
  refine length_takeBufs_iff.mp ?_
  have h0 := addrs_of_takeBufs_nil h
  rw [length_addrs] at h0
  rw [h, h0]
  rfl

/-- A callback that panics on other slices makes no difference exactly if it is handed the right ones. -/
theorem guarded_iff {n : Nat} : (∀ {α : Type} (size : α → Nat) (empty : α)
    (f : List VolatileSlice → WProg (Except IoError α)), c.consume size empty n f =
      c.consume size empty n fun bufs => if c.Hands n bufs then f bufs else .panic) ↔ Cut n c.lens := by
  constructor
  · intro h
    by_contra hc
    have hnil : ¬ (takeBufs n c.buffers).isEmpty := fun h =>
      hc (cut_of_takeBufs_nil (List.isEmpty_iff.mp h))
    have hcon := h (fun n : Nat => n) 0 fun _ => pure (.ok 0)
    simp only [consume, if_neg hnil, if_neg (mt hands_takeBufs_iff.mp hc), Prog.panic_bind,
      Prog.pure_bind] at hcon
    split at hcon
    · cases hcon
    · cases hcon
  · intro hc α size empty f
    simp only [consume, if_pos (hands_takeBufs_iff.mpr hc)]

/-- The slices that `consume` hands its callback are what was asked for exactly if no buffer straddles
the count. -/
theorem consume_exact_iff (c : DescriptorChainConsumer) (count : BitVec 64) :
    c.ConsumesExactly count ↔ Cut count.toNat c.lens := by
  refine ⟨fun h => guarded_iff.mp h.handed, fun hc => ⟨guarded_iff.mpr hc, ?_, ?_, ?_⟩⟩
  · intro ε ck mm env f hf w n c' w' hr
    obtain ⟨x, c'', w'', hr', hx⟩ := run_consume_honest hf c count.toNat w
    rw [hr'] at hr
    obtain ⟨hxc, -⟩ := Prod.mk.inj (Option.some.inj hr)
    obtain ⟨rfl, rfl⟩ := Prod.mk.inj hxc
    rcases hx with ⟨e, he, -⟩ | ⟨h0, -⟩ | ⟨k, hk, hle, -⟩
    · cases he
    · cases h0
      exact Nat.zero_le _
    · cases hk
      rw [sum_takeTotal_eq_iff.mpr hc] at hle
      omega
  · intro ε mm env interrupted dst hf fuel w
    refine run_transferAll_ne_none Reader.buffer (fun n r w => ?_) fuel hc w
    obtain ⟨x, c', w', hr, hx⟩ := run_consume_honest hf r.buffer n w
    exact ⟨x, ⟨c'⟩, w', by rw [Reader.readTo, Prog.run_bind, hr]; rfl, hx⟩
  · intro ε mm env interrupted src hf fuel w
    refine run_transferAll_ne_none Writer.buffer (fun n r w => ?_) fuel hc w
    obtain ⟨x, c', w', hr, hx⟩ := run_consume_honest hf r.buffer n w
    exact ⟨x, ⟨c'⟩, w', by rw [Writer.writeFrom, Prog.run_bind, hr]; rfl, hx⟩

/-- One byte of a buffer of 4 is asked for, and the whole buffer is handed over: a callback that takes
all that it is given consumes 4 bytes, and in a build that checks for overflow `read_exact_to`
panics. -/
theorem consume_hands_more :
    (∀ (mm : MemoryManager) (env : Env Unit) (w : World Unit),
      Prog.run (mm.world true env)
        (consume id 0 ⟨[⟨0x4000, 4⟩], 0⟩ 1 fun bufs => pure (.ok (addrs bufs).length)) w =
        some ((.ok 4, ⟨[], 4⟩), w) ∧
      Prog.run (mm.world true env) (Reader.readExactTo ⟨⟨[⟨0x4000, 4⟩], 0⟩⟩ (fun _ => false)
        (fun bufs => pure (.ok (addrs bufs).length)) 1 1) w = none) ∧
    ¬ ConsumesExactly ⟨[⟨0x4000, 4⟩], 0⟩ 1 :=
  ⟨fun _ _ _ => ⟨rfl, rfl⟩, fun h => absurd (guarded_iff.mp h.handed) (by decide)⟩

end DescriptorChainConsumer

/-! ## Splitting a stream -/

namespace DescriptorChainConsumer

/-- Where `position` ends: in a buffer, or past the last one. -/
theorem position_spec (offset : Nat) (bufs : List VolatileSlice) :
    (∃ i rem front rest, position offset bufs = (some i, rem) ∧ bufs.drop i = front :: rest ∧
      rem < front.len ∧ (addrs (bufs.take i)).length + rem = offset ∧
      (Cut offset (bufs.map VolatileSlice.len) ↔ rem = 0)) ∨
    ∃ rem, position offset bufs = (none, rem) ∧ (addrs bufs).length + rem = offset ∧
      Cut offset (bufs.map VolatileSlice.len) := by
  induction bufs generalizing offset with
  | nil => exact .inr ⟨offset, rfl, Nat.zero_add _, trivial⟩
  | cons vs bufs ih =>
    have hlen : ∀ bufs', (addrs (vs :: bufs')).length = vs.len + (addrs bufs').length := fun bufs' => by
      rw [addrs_cons, List.length_append, List.length_map, List.length_range]
    rw [position, List.map_cons, Cut]
    split
    · rename_i h
      exact .inl ⟨0, offset, vs, bufs, rfl, rfl, h, Nat.zero_add _, by omega⟩
    · rename_i h
      have hcut : offset = 0 ∨ vs.len ≤ offset ∧ Cut (offset - vs.len) (bufs.map VolatileSlice.len) ↔
          Cut (offset - vs.len) (bufs.map VolatileSlice.len) := by
        refine ⟨fun hc => hc.elim (fun h0 => ?_) And.right, fun hc => .inr ⟨Nat.le_of_not_lt h, hc⟩⟩
        rw [h0, Nat.zero_sub]
        exact cut_zero _
      rw [hcut]
      rcases ih (offset - vs.len) with ⟨i, rem, front, rest, hp, hd, hlt, hs, hc⟩ | ⟨rem, hp, hs, hc⟩
      · refine .inl ⟨i + 1, rem, front, rest, by rw [hp]; rfl, hd, hlt, ?_, hc⟩
        rw [List.take_succ_cons, hlen]
        omega
      · refine .inr ⟨rem, by rw [hp]; rfl, ?_, hc⟩
        rw [hlen]
        omega

end DescriptorChainConsumer

/-- What `split_at` is to do to a stream: it keeps the bytes before the offset and splits off the
others. A failure changes nothing. -/
def SplitsExactly {S : Type} (addrs : S → List Nat)
    (splitAt : S → Nat → Option (Except SplitError S × S)) (s : S) (offset : Nat) : Prop :=
  (offset ≤ (addrs s).length → ∃ other s', splitAt s offset = some (.ok other, s') ∧
    addrs s' = (addrs s).take offset ∧ addrs other = (addrs s).drop offset) ∧
  ((addrs s).length < offset → splitAt s offset = some (.error (.splitOutOfBounds offset), s))

namespace DescriptorChainConsumer

/-- The end of a buffer is not its start. -/
theorem addrs_tail_ne {vs : VolatileSlice} {rem : Nat} (h0 : rem ≠ 0) (hlt : rem < vs.len) :
    addrs [⟨vs.host + rem, vs.len - rem⟩] ≠ ((List.range vs.len).map fun i => vs.host + i).take rem := by
  intro h
  have hmem : vs.host ∈ ((List.range vs.len).map fun i => vs.host + i).take rem := by
    rw [← List.map_take, List.take_range, min_eq_left hlt.le]
    exact List.mem_map.mpr ⟨0, List.mem_range.mpr (Nat.pos_of_ne_zero h0), rfl⟩
  rw [← h, addrs_cons, show addrs [] = [] from rfl, List.append_nil] at hmem
  obtain ⟨i, -, hi⟩ := List.mem_map.mp hmem
  dsimp only at hi
  omega

theorem splitsExactly_iff (c : DescriptorChainConsumer) (offset : Nat) :
    SplitsExactly (fun c => addrs c.buffers) splitAt c offset ↔ Cut offset c.lens := by
  rcases position_spec offset c.buffers with ⟨i, rem, front, rest, hp, hd, hlt, hs, hc⟩ | ⟨rem, hp, hs, hc⟩
  · have hsplit : addrs c.buffers = addrs (c.buffers.take i) ++ addrs (front :: rest) := by
      rw [← hd, addrs, addrs, addrs, ← List.flatMap_append, List.take_append_drop]
    have hfront : ((List.range front.len).map fun i => front.host + i).length = front.len := by simp
    have hle : offset ≤ (addrs c.buffers).length := by
      rw [hsplit, List.length_append, addrs_cons, List.length_append, hfront]
      omega
    have htake : (addrs c.buffers).take offset =
        addrs (c.buffers.take i) ++ ((List.range front.len).map fun i => front.host + i).take rem := by
      rw [hsplit, addrs_cons, List.take_append, List.take_of_length_le (by omega),
        show offset - (addrs (c.buffers.take i)).length = rem by omega,
        List.take_append_of_le_length (by omega)]
    refine Iff.trans ?_ hc.symm
    by_cases h0 : rem = 0
    · subst h0
      refine iff_of_true ⟨fun _ => ⟨⟨front :: rest, 0⟩, ⟨c.buffers.take i, c.bytesConsumed⟩, ?_, ?_, ?_⟩,
        fun h => absurd h hle.not_gt⟩ rfl
      · rw [splitAt, hp, ← hd]
        rfl
      · rw [htake, List.take_zero, List.append_nil]
      · show addrs (front :: rest) = (addrs c.buffers).drop offset
        rw [hsplit, List.drop_append_of_le_length (by omega), List.drop_of_length_le (by omega),
          List.nil_append]
    · refine iff_of_false (fun h => ?_) h0
      obtain ⟨other, c', hr, ha, -⟩ := h.1 hle
      rw [splitAt, hp] at hr
      simp only [if_pos (Nat.pos_of_ne_zero h0), hd, VolatileSlice.offset, if_pos hlt.le, Option.some.injEq,
        Prod.mk.injEq] at hr
      obtain ⟨-, rfl⟩ := hr
      rw [htake] at ha
      have htail := List.append_cancel_left ((addrs_append (c.buffers.take i) _).symm.trans ha)
      exact addrs_tail_ne h0 hlt htail
  · have hlen : offset = (addrs c.buffers).length + rem := hs.symm
    refine iff_of_true ⟨fun h => ?_, fun h => ?_⟩ hc
    · have hle : offset ≤ (addrs c.buffers).length := h
      obtain rfl : rem = 0 := by omega
      have hend : (addrs c.buffers).length ≤ offset := hlen.ge
      refine ⟨⟨[], 0⟩, c, ?_, (List.take_of_length_le hend).symm, (List.drop_of_length_le hend).symm⟩
      rw [splitAt, hp]
      rfl
    · have hgt : (addrs c.buffers).length < offset := h
      rw [splitAt, hp]
      exact if_neg (by omega)

end DescriptorChainConsumer

/-- A stream that is a consumer with another name is split as the consumer is. -/
theorem splitsExactly_mk {S : Type} {mk : DescriptorChainConsumer → S} (hmk : mk.Injective)
    {addrs : S → List Nat} {splitAt : S → Nat → Option (Except SplitError S × S)}
    (ha : ∀ c, addrs (mk c) = Whypa.addrs c.buffers)
    (hs : ∀ c offset, splitAt (mk c) offset = (c.splitAt offset).map fun x => (x.1.map mk, mk x.2))
    (c : DescriptorChainConsumer) (offset : Nat) : SplitsExactly addrs splitAt (mk c) offset ↔
      SplitsExactly (fun c => Whypa.addrs c.buffers) DescriptorChainConsumer.splitAt c offset := by
  unfold SplitsExactly
  rw [ha, hs]
  refine and_congr (imp_congr_right fun _ => ⟨?_, ?_⟩) (imp_congr_right fun _ => ⟨fun h => ?_, fun h => ?_⟩)
  · rintro ⟨other, s', hr, ha', hother⟩
    obtain ⟨⟨x, c'⟩, hx, he⟩ := Option.map_eq_some_iff.mp hr
    obtain ⟨hx1, rfl⟩ := Prod.mk.inj he
    cases x with
    | error e => cases hx1
    | ok other =>
      obtain rfl := Except.ok.inj hx1
      rw [ha] at ha' hother
      exact ⟨other, c', hx, ha', hother⟩
  · rintro ⟨other, c', hr, ha', hother⟩
    exact ⟨mk other, mk c', by rw [hr]; rfl, by rw [ha]; exact ha', by rw [ha]; exact hother⟩
  · obtain ⟨⟨x, c'⟩, hx, he⟩ := Option.map_eq_some_iff.mp h
    obtain ⟨hx1, hc⟩ := Prod.mk.inj he
    cases x with
    | error e =>
      obtain rfl := Except.error.inj hx1
      rw [hx, show c' = c from hmk hc]
    | ok other => cases hx1
  · rw [h]
    rfl

/-- A reader or a writer is split exactly if no buffer straddles the offset. -/
theorem split_exact_iff (c : DescriptorChainConsumer) (offset : Nat) :
    (SplitsExactly Reader.addrs Reader.splitAt ⟨c⟩ offset ↔ Cut offset c.lens) ∧
      (SplitsExactly Writer.addrs Writer.splitAt ⟨c⟩ offset ↔ Cut offset c.lens) :=
  ⟨(splitsExactly_mk (fun _ _ => congrArg Reader.buffer) (fun _ => rfl) (fun _ _ => rfl) c offset).trans
      (c.splitsExactly_iff offset),
    (splitsExactly_mk (fun _ _ => congrArg Writer.buffer) (fun _ => rfl) (fun _ _ => rfl) c offset).trans
      (c.splitsExactly_iff offset)⟩

/-- A reader of one buffer of 4 bytes is split after the first of them, and keeps the last 3. -/
theorem split_gives_twice :
    Reader.splitAt ⟨⟨[⟨0x4000, 4⟩], 0⟩⟩ 1 =
      some (.ok ⟨⟨[⟨0x4001, 3⟩], 0⟩⟩, ⟨⟨[⟨0x4001, 3⟩], 0⟩⟩) ∧
    ¬ SplitsExactly Reader.addrs Reader.splitAt ⟨⟨[⟨0x4000, 4⟩], 0⟩⟩ 1 := by
  refine ⟨rfl, fun ⟨h, _⟩ => ?_⟩
  obtain ⟨other, r, hr, ha, -⟩ := h (by decide)
  obtain ⟨-, rfl⟩ := Prod.mk.inj (Option.some.inj hr)
  exact absurd ha (by decide)

end Whypa
