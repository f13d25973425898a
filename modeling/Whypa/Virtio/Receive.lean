import Whypa.Framework.Framing
import Whypa.Virtio.Workers

/-!
# Reading frames from the proxy

The reader thread of the network device (`read_frame` and `rx_reader_loop`):
it reads frames from the proxy's output, each after its length, and pushes them
into `rx_pending`, in batches. A frame that is too long is rejected after its
length is read, and its bytes are left in the stream; `receive_in_step_iff` is
the point of this file: the reader stays in step with the stream exactly if it
holds no such frame.
-/

namespace Whypa

open Framework Framing

namespace NetWorker

/-- The number of frames of a batch. -/
def BATCH_SIZE : Nat := 32

/-- What the reader does that the worker sees. -/
inductive ReaderEvent
  | push (frame : List Byte)
  | signal
deriving DecidableEq, Repr

structure RxReader where
  /-- What is left of the proxy's output. -/
  stdout : List Byte
  /-- How many bytes of it were read. -/
  consumed : Nat
  /-- The calls of `PeekNamedPipe`. -/
  peeks : Nat
  events : List ReaderEvent
  /-- Where the lengths were read. -/
  prefixes : List Nat
deriving DecidableEq, Repr

namespace RxReader

def start (stdout : List Byte) : RxReader := ⟨stdout, 0, 0, [], []⟩

/-- Read `n` bytes, or what is left and then the end of the file. -/
def readExact (n : Nat) (s : RxReader) : Except IoError (List Byte) × RxReader :=
  if n ≤ s.stdout.length then
    (.ok (s.stdout.take n), { s with stdout := s.stdout.drop n, consumed := s.consumed + n })
  else
    (.error .unexpectedEof, { s with stdout := [], consumed := s.consumed + s.stdout.length })

def readFrame (s : RxReader) : Except IoError (List Byte) × RxReader :=
  match s.readExact 2 with
  | (.error e, s') => (.error e, s')
  | (.ok lenBuf, s') =>
    let s' := { s' with prefixes := s'.prefixes ++ [s.consumed] }
    let len := ofLE lenBuf
    if len = 0 ∨ MAX_FRAME_SIZE < len then (.error .invalidData, s')
    else s'.readExact len

def emit (e : ReaderEvent) (s : RxReader) : RxReader := { s with events := s.events ++ [e] }

/-- The answer to a peek overwrites the variable; a failed one leaves it. -/
def peekNamedPipe (peek : Nat → Option (BitVec 32)) (bytesAvailable : BitVec 32) (s : RxReader) :
    BitVec 32 × RxReader :=
  ((peek s.peeks).getD bytesAvailable, { s with peeks := s.peeks + 1 })

/-- The frames pushed, in order. -/
def pushed (s : RxReader) : List (List Byte) :=
  s.events.filterMap fun
    | .push frame => some frame
    | .signal => none

end RxReader

open RxReader

section
variable (peek : Nat → Option (BitVec 32))

/-- The inner loop: read on while there is something to read. -/
def batchLoop : Nat → Nat → BitVec 32 → RxReader → Option RxReader
  | 0, _, _, _ => none
  | fuel + 1, nFrame, bytesAvailable, s =>
    let (bytesAvailable, s) := s.peekNamedPipe peek bytesAvailable
    if bytesAvailable = 0 ∨ BATCH_SIZE ≤ nFrame then some s
    else match s.readFrame with
      | (.error e, s) =>
        if e = .unexpectedEof then some s else batchLoop fuel nFrame bytesAvailable s
      | (.ok frame, s) => batchLoop fuel (nFrame + 1) 0 (s.emit (.push frame))

/-- The outer loop; it ends at the end of the file. -/
def rxReaderLoop : Nat → RxReader → Option RxReader
  | 0, _ => none
  | fuel + 1, s =>
    match s.readFrame with
    | (.error e, s) => if e = .unexpectedEof then some s else rxReaderLoop fuel s
    | (.ok frame, s) =>
      match batchLoop peek fuel 1 0 (s.emit (.push frame)) with
      | none => none
      | some s => rxReaderLoop fuel (s.emit .signal)

end

/-! ## One frame -/

namespace RxReader

variable {s s' : RxReader} {frame bs : List Byte}

theorem readExact_of_le {n : Nat} (h : n ≤ s.stdout.length) : s.readExact n =
    (.ok (s.stdout.take n), { s with stdout := s.stdout.drop n, consumed := s.consumed + n }) :=
  if_pos h

theorem readExact_of_lt {n : Nat} (h : s.stdout.length < n) : s.readExact n =
    (.error .unexpectedEof, { s with stdout := [], consumed := s.consumed + s.stdout.length }) :=
  if_neg (by omega)

/-- The state after the length of a frame was read. -/
def afterLength (s : RxReader) : RxReader :=
  { s with
    stdout := s.stdout.drop 2
    consumed := s.consumed + 2
    prefixes := s.prefixes ++ [s.consumed] }

theorem readFrame_of_lt (h : s.stdout.length < 2) : s.readFrame =
    (.error .unexpectedEof, { s with stdout := [], consumed := s.consumed + s.stdout.length }) := by
  rw [readFrame, readExact_of_lt h]

theorem readFrame_of_le (h : 2 ≤ s.stdout.length) : s.readFrame =
    if ofLE (s.stdout.take 2) = 0 ∨ MAX_FRAME_SIZE < ofLE (s.stdout.take 2) then
      (.error .invalidData, s.afterLength)
    else s.afterLength.readExact (ofLE (s.stdout.take 2)) := by
  rw [readFrame, readExact_of_le h]
  rfl

/-- A frame of the stream is next. -/
theorem afterLength_encode (h : s.stdout = encode 2 frame ++ bs) (hf : frame.length < 2 ^ 16) :
    2 ≤ s.stdout.length ∧ ofLE (s.stdout.take 2) = frame.length ∧
      s.afterLength.stdout = frame ++ bs := by
  refine ⟨?_, ?_, ?_⟩
  · rw [h, List.length_append, length_encode]
    omega
  · rw [h, take_encode, ofLE_leBytes]
    exact Nat.mod_eq_of_lt hf
  · rw [afterLength, h, drop_encode]

/-- A frame that is too long is rejected without its bytes being read. -/
theorem readFrame_big (h : s.stdout = encode 2 frame ++ bs) (hf : frame.length < 2 ^ 16)
    (hb : MAX_FRAME_SIZE < frame.length) : s.readFrame = (.error .invalidData, s.afterLength) := by
  obtain ⟨h2, hlen, -⟩ := afterLength_encode h hf
  rw [readFrame_of_le h2, hlen, if_pos (.inr hb)]

/-- Another frame is read as a whole; an empty one is an error nevertheless. -/
theorem readFrame_small (h : s.stdout = encode 2 frame ++ bs) (hf : frame.length ≤ MAX_FRAME_SIZE) :
    s.readFrame = (if frame = [] then .error .invalidData else .ok frame, { s.afterLength with
      stdout := bs
      consumed := s.consumed + (2 + frame.length) }) := by
  obtain ⟨h2, hlen, hrest⟩ := afterLength_encode h (hf.trans_lt (by decide))
  rw [readFrame_of_le h2, hlen]
  by_cases h0 : frame = []
  · subst h0
    rw [if_pos (.inl rfl), if_pos rfl, ← show s.afterLength.stdout = bs from hrest]
    rfl
  · have hpos := List.length_pos_iff.mpr h0
    rw [if_neg (by omega), if_neg h0, readExact_of_le (by rw [hrest, List.length_append]; omega),
      hrest, List.take_left, List.drop_left]
    simp only [afterLength, Nat.add_assoc]

/-- A call that does not come to the end of the file consumes the length. -/
theorem length_readFrame {r : Except IoError (List Byte)} (h : s.readFrame = (r, s')) :
    s'.stdout.length ≤ s.stdout.length ∧
      (r ≠ .error .unexpectedEof → s'.stdout.length + 2 ≤ s.stdout.length) := by
  by_cases h2 : 2 ≤ s.stdout.length
  · have hd : s.afterLength.stdout.length + 2 = s.stdout.length := by
      rw [afterLength, List.length_drop]
      omega
    rw [readFrame_of_le h2] at h
    split at h
    · obtain ⟨rfl, rfl⟩ := Prod.mk.inj h
      exact ⟨by omega, fun _ => by omega⟩
    · by_cases hle : ofLE (s.stdout.take 2) ≤ s.afterLength.stdout.length
      · rw [readExact_of_le hle] at h
        obtain ⟨rfl, rfl⟩ := Prod.mk.inj h
        simp only [List.length_drop]
        exact ⟨by omega, fun _ => by omega⟩
      · rw [readExact_of_lt (by omega)] at h
        obtain ⟨rfl, rfl⟩ := Prod.mk.inj h
        exact ⟨Nat.zero_le _, fun hr => absurd rfl hr⟩
  · rw [readFrame_of_lt (by omega)] at h
    obtain ⟨rfl, rfl⟩ := Prod.mk.inj h
    exact ⟨Nat.zero_le _, fun hr => absurd rfl hr⟩

/-- A length read is noted, and stays so. -/
theorem prefixes_readFrame : s.prefixes ⊆ s.readFrame.2.prefixes ∧
    (2 ≤ s.stdout.length → s.consumed ∈ s.readFrame.2.prefixes) := by
  by_cases h2 : 2 ≤ s.stdout.length
  · have hp : s.readFrame.2.prefixes = s.prefixes ++ [s.consumed] := by
      rw [readFrame_of_le h2]
      split
      · rfl
      · rw [readExact]
        split <;> rfl
    rw [hp]
    exact ⟨List.subset_append_left .., fun _ => List.mem_append_right _ List.mem_cons_self⟩
  · rw [readFrame_of_lt (by omega)]
    exact ⟨List.Subset.refl _, fun h => absurd h h2⟩

theorem events_readFrame : s.readFrame.2.events = s.events := by
  by_cases h2 : 2 ≤ s.stdout.length
  · rw [readFrame_of_le h2]
    split
    · rfl
    · rw [readExact]
      split <;> rfl
  · rw [readFrame_of_lt (by omega)]

theorem peekNamedPipe_snd (peek : Nat → Option (BitVec 32)) (bytesAvailable : BitVec 32) :
    (s.peekNamedPipe peek bytesAvailable).2 = { s with peeks := s.peeks + 1 } := rfl

@[simp] theorem pushed_push : (s.emit (.push frame)).pushed = s.pushed ++ [frame] := by
  simp [pushed, emit]

@[simp] theorem pushed_signal : (s.emit .signal).pushed = s.pushed := by
  simp [pushed, emit]

end RxReader

/-! ## The loops -/

/-- What the steps of the reader keep: `I` at the head of the outer loop, and `J`
in a batch. -/
structure ReaderKeeps (I J : RxReader → Prop) : Prop where
  failed : ∀ s e s', I s → s.readFrame = (.error e, s') → I s'
  received : ∀ s frame s', I s → s.readFrame = (.ok frame, s') → J (s'.emit (.push frame))
  peeked : ∀ s n, J s → J { s with peeks := n }
  batchFailed : ∀ s e s', J s → s.readFrame = (.error e, s') → J s'
  batchReceived : ∀ s frame s', J s → s.readFrame = (.ok frame, s') → J (s'.emit (.push frame))
  signalled : ∀ s, J s → I (s.emit .signal)

section
variable {peek : Nat → Option (BitVec 32)} {I J : RxReader → Prop} {s s' : RxReader}

/-- The same in both loops. -/
theorem ReaderKeeps.same (hp : ∀ s n, I s → I { s with peeks := n })
    (hs : ∀ s, I s → I (s.emit .signal))
    (hf : ∀ s e s', I s → s.readFrame = (.error e, s') → I s')
    (hr : ∀ s frame s', I s → s.readFrame = (.ok frame, s') → I (s'.emit (.push frame))) :
    ReaderKeeps I I :=
  ⟨hf, hr, hp, hf, hr, hs⟩

theorem ReaderKeeps.batchLoop (hI : ReaderKeeps I J) {fuel nFrame : Nat}
    {bytesAvailable : BitVec 32} (hs : J s)
    (hr : batchLoop peek fuel nFrame bytesAvailable s = some s') : J s' := by
  induction fuel generalizing nFrame bytesAvailable s with
  | zero => cases hr
  | succ fuel ih =>
    rw [NetWorker.batchLoop] at hr
    have hp := hI.peeked s (s.peeks + 1) hs
    rw [← peekNamedPipe_snd peek bytesAvailable] at hp
    generalize s.peekNamedPipe peek bytesAvailable = p at hr hp
    obtain ⟨avail, u⟩ := p
    simp only at hr hp
    split at hr
    · exact Option.some.inj hr ▸ hp
    · split at hr
      · rename_i e t ht
        have ht := hI.batchFailed _ e t hp ht
        split at hr
        · exact Option.some.inj hr ▸ ht
        · exact ih ht hr
      · rename_i frame t ht
        exact ih (hI.batchReceived _ frame t hp ht) hr

/-- The reader ends with a call that comes to the end of the file. -/
theorem ReaderKeeps.rxReaderLoop (hI : ReaderKeeps I J) {fuel : Nat} (hs : I s)
    (hr : rxReaderLoop peek fuel s = some s') :
    ∃ t, I t ∧ t.readFrame = (.error .unexpectedEof, s') := by
  induction fuel generalizing s with
  | zero => cases hr
  | succ fuel ih =>
    rw [NetWorker.rxReaderLoop] at hr
    split at hr
    · rename_i e t ht
      split at hr
      · rename_i he
        obtain rfl := Option.some.inj hr
        exact ⟨s, hs, he ▸ ht⟩
      · exact ih (hI.failed s e t hs ht) hr
    · rename_i frame t ht
      split at hr
      · cases hr
      · rename_i u hu
        have hu := hI.batchLoop (hI.received s frame t hs ht) hu
        exact ih (hI.signalled u hu) hr

theorem batchLoop_ends {fuel nFrame : Nat} {bytesAvailable : BitVec 32}
    (hf : s.stdout.length < fuel) : ∃ s', batchLoop peek fuel nFrame bytesAvailable s = some s' ∧
      s'.stdout.length ≤ s.stdout.length := by
  induction fuel generalizing nFrame bytesAvailable s with
  | zero => cases hf
  | succ fuel ih =>
    rw [batchLoop]
    have hp : (s.peekNamedPipe peek bytesAvailable).2.stdout = s.stdout := rfl
    generalize s.peekNamedPipe peek bytesAvailable = p at hp ⊢
    obtain ⟨avail, u⟩ := p
    simp only at hp ⊢
    rw [← hp] at hf ⊢
    split
    · exact ⟨u, rfl, le_rfl⟩
    · split
      · rename_i e t ht
        obtain ⟨hle, hlt⟩ := length_readFrame ht
        split
        · exact ⟨t, rfl, hle⟩
        · rename_i he
          have hlt := hlt fun h => he (Except.error.inj h)
          obtain ⟨v, hv, hvt⟩ := ih (s := t) (by omega)
          exact ⟨v, hv, hvt.trans hle⟩
      · rename_i frame t ht
        obtain ⟨hle, hlt⟩ := length_readFrame ht
        have hlt := hlt nofun
        obtain ⟨v, hv, hvt⟩ := ih (s := t.emit (.push frame)) (show t.stdout.length < fuel by omega)
        exact ⟨v, hv, hvt.trans hle⟩

theorem rxReaderLoop_ends {fuel : Nat} (hf : s.stdout.length < fuel) :
    ∃ s', rxReaderLoop peek fuel s = some s' := by
  induction fuel generalizing s with
  | zero => cases hf
  | succ fuel ih =>
    rw [rxReaderLoop]
    split
    · rename_i e t ht
      split
      · exact ⟨t, rfl⟩
      · rename_i he
        have hlt := (length_readFrame ht).2 fun h => he (Except.error.inj h)
        exact ih (by omega)
    · rename_i frame t ht
      have hlt := (length_readFrame ht).2 nofun
      obtain ⟨u, hu, hle⟩ : ∃ u, batchLoop peek fuel 1 0 (t.emit (.push frame)) = some u ∧
          u.stdout.length ≤ t.stdout.length :=
        batchLoop_ends (show t.stdout.length < fuel by omega)
      rw [hu]
      exact ih (show u.stdout.length < fuel by omega)

end

/-! ## Staying in step -/

/-- What the reader did agrees with a stream of `frames`: it pushed frames of the
stream, in order and of a size that is allowed, and it read a length only where
a frame starts. -/
structure InStep (frames : List (List Byte)) (s : RxReader) : Prop where
  pushed : s.pushed.Sublist frames
  sizes : ∀ f ∈ s.pushed, 1 ≤ f.length ∧ f.length ≤ MAX_FRAME_SIZE
  prefixes : ∀ o ∈ s.prefixes, Boundary 2 frames o

/-- The reader is between two frames of the stream, and has pushed all before
but the empty ones. -/
structure Between (frames : List (List Byte)) (s : RxReader) (done rest : List (List Byte)) :
    Prop where
  stream : frames = done ++ rest
  stdout : s.stdout = encodeAll 2 rest
  consumed : s.consumed = (encodeAll 2 done).length
  pushed : s.pushed = done.filter (!·.isEmpty)
  prefixes : ∀ o ∈ s.prefixes, Boundary 2 frames o

section
variable {frames done rest : List (List Byte)} {s s' : RxReader}

theorem Between.inStep (h : Between frames s done rest)
    (hm : ∀ f ∈ frames, f.length ≤ MAX_FRAME_SIZE) : InStep frames s := by
  have hs : s.pushed.Sublist frames := by
    rw [h.pushed, h.stream]
    exact List.filter_sublist.trans (List.sublist_append_left ..)
  refine ⟨hs, fun f hf => ⟨?_, hm f (hs.subset hf)⟩, h.prefixes⟩
  rw [h.pushed] at hf
  have hne := (List.mem_filter.mp hf).2
  simpa [Nat.one_le_iff_ne_zero] using hne

/-- The next frame is pushed, or it is empty and skipped. -/
theorem Between.next {f : List Byte} (h : Between frames s done (f :: rest))
    (hf : f.length ≤ MAX_FRAME_SIZE) :
    (∃ s', s.readFrame = (.error .invalidData, s') ∧ Between frames s' (done ++ [f]) rest) ∨
      ∃ s', s.readFrame = (.ok f, s') ∧ Between frames (s'.emit (.push f)) (done ++ [f]) rest := by
  have hstream : frames = (done ++ [f]) ++ rest := by
    rw [h.stream, List.append_assoc, List.singleton_append]
  have hcon : s.consumed + (2 + f.length) = (encodeAll 2 (done ++ [f])).length := by
    simp [h.consumed]
  have hpre : ∀ o ∈ s.afterLength.prefixes, Boundary 2 frames o := by
    intro o ho
    rcases List.mem_append.mp ho with ho | ho
    · exact h.prefixes o ho
    · exact ⟨done, f, rest, h.stream, (List.mem_singleton.mp ho).trans h.consumed⟩
  have hr := readFrame_small (h.stdout.trans (encodeAll_cons f rest)) hf
  by_cases h0 : f = []
  · rw [if_pos h0] at hr
    refine .inl ⟨_, hr, hstream, rfl, hcon, ?_, hpre⟩
    show s.pushed = _
    simp [h.pushed, h0]
  · rw [if_neg h0] at hr
    refine .inr ⟨_, hr, hstream, rfl, hcon, ?_, hpre⟩
    rw [pushed_push]
    show s.pushed ++ [f] = _
    simp [h.pushed, h0]

theorem keeps_between (hm : ∀ f ∈ frames, f.length ≤ MAX_FRAME_SIZE) :
    ReaderKeeps (fun s => ∃ done rest, Between frames s done rest)
      (fun s => ∃ done rest, Between frames s done rest) := by
  apply ReaderKeeps.same
  · rintro s n ⟨done, rest, h⟩
    exact ⟨done, rest, h.stream, h.stdout, h.consumed, h.pushed, h.prefixes⟩
  · rintro s ⟨done, rest, h⟩
    exact ⟨done, rest, h.stream, h.stdout, h.consumed, pushed_signal.trans h.pushed, h.prefixes⟩
  · rintro s e s' ⟨done, rest, h⟩ hr
    cases rest with
    | nil =>
      rw [readFrame_of_lt (by rw [h.stdout]; decide)] at hr
      obtain ⟨-, rfl⟩ := Prod.mk.inj hr
      refine ⟨done, [], h.stream, rfl, ?_, h.pushed, h.prefixes⟩
      rw [← h.consumed, h.stdout]
      rfl
    | cons f rest =>
      rcases h.next (hm f (by rw [h.stream]; simp)) with ⟨t, ht, hb⟩ | ⟨t, ht, -⟩
      · rw [ht] at hr
        obtain ⟨-, rfl⟩ := Prod.mk.inj hr
        exact ⟨_, _, hb⟩
      · rw [ht] at hr
        cases hr
  · rintro s frame s' ⟨done, rest, h⟩ hr
    cases rest with
    | nil =>
      rw [readFrame_of_lt (by rw [h.stdout]; decide)] at hr
      cases hr
    | cons f rest =>
      rcases h.next (hm f (by rw [h.stream]; simp)) with ⟨t, ht, -⟩ | ⟨t, ht, hb⟩
      · rw [ht] at hr
        cases hr
      · rw [ht] at hr
        obtain ⟨hf, rfl⟩ := Prod.mk.inj hr
        obtain rfl := Except.ok.inj hf
        exact ⟨_, _, hb⟩

end

/-! ## Losing step -/

section
variable {pre post : List (List Byte)} {big : List Byte} {s s' : RxReader}

/-- The reader has yet to come to the frame `big`, which is too long; or it has
just rejected it; or it has read the first bytes of it as a length. -/
def Astray (pre post : List (List Byte)) (big : List Byte) (s : RxReader) : Prop :=
  (∃ mid, (∀ f ∈ mid, f.length ≤ MAX_FRAME_SIZE) ∧ s.stdout = encodeAll 2 (mid ++ big :: post) ∧
      s.consumed + (encodeAll 2 mid).length = (encodeAll 2 pre).length) ∨
    (2 ≤ s.stdout.length ∧ s.consumed = (encodeAll 2 pre).length + 2) ∨
    (encodeAll 2 pre).length + 2 ∈ s.prefixes

theorem Astray.readFrame (hb : MAX_FRAME_SIZE < big.length) (hb' : big.length < 2 ^ 16)
    (h : Astray pre post big s) {r : Except IoError (List Byte)} (hr : s.readFrame = (r, s')) :
    Astray pre post big s' ∧
      (r = .error .unexpectedEof → (encodeAll 2 pre).length + 2 ∈ s'.prefixes) := by
  obtain ⟨hsub, hnote⟩ := prefixes_readFrame (s := s)
  rw [hr] at hsub hnote
  rcases h with ⟨mid, hmid, hout, hcon⟩ | ⟨h2, hcon⟩ | hin
  · cases mid with
    | nil =>
      have hout := hout.trans (encodeAll_cons big post)
      rw [readFrame_big hout hb' hb] at hr
      obtain ⟨rfl, rfl⟩ := Prod.mk.inj hr
      refine ⟨.inr (.inl ⟨?_, ?_⟩), fun he => nomatch he⟩
      · have : MAX_FRAME_SIZE = 1514 := rfl
        rw [(afterLength_encode hout hb').2.2, List.length_append]
        omega
      · show s.consumed + 2 = _
        rw [← hcon]
        rfl
    | cons f mid =>
      have hout := hout.trans (encodeAll_cons f (mid ++ big :: post))
      rw [readFrame_small hout (hmid f List.mem_cons_self)] at hr
      obtain ⟨rfl, rfl⟩ := Prod.mk.inj hr
      refine ⟨.inl ⟨mid, fun g hg => hmid g (List.mem_cons_of_mem f hg), rfl, ?_⟩, fun he => ?_⟩
      · rw [encodeAll_cons, List.length_append, length_encode] at hcon
        show s.consumed + (2 + f.length) + _ = _
        omega
      · split at he <;> cases he
  · have hin := hcon ▸ hnote h2
    exact ⟨.inr (.inr hin), fun _ => hin⟩
  · exact ⟨.inr (.inr (hsub hin)), fun _ => hsub hin⟩

theorem keeps_astray (hb : MAX_FRAME_SIZE < big.length) (hb' : big.length < 2 ^ 16) :
    ReaderKeeps (Astray pre post big) (Astray pre post big) := by
  apply ReaderKeeps.same
  · exact fun _ _ h => h
  · exact fun _ h => h
  · exact fun _ _ _ h hr => (h.readFrame hb hb' hr).1
  · exact fun _ _ _ h hr => (h.readFrame hb hb' hr).1

end

/-- The frames before the first one that is too long. -/
theorem exists_first_big {frames : List (List Byte)}
    (h : ¬ ∀ f ∈ frames, f.length ≤ MAX_FRAME_SIZE) : ∃ pre big post, frames = pre ++ big :: post ∧
      (∀ f ∈ pre, f.length ≤ MAX_FRAME_SIZE) ∧ MAX_FRAME_SIZE < big.length := by
  induction frames with
  | nil => simp at h
  | cons f fs ih =>
    by_cases hf : f.length ≤ MAX_FRAME_SIZE
    · obtain ⟨pre, big, post, rfl, hpre, hbig⟩ := ih fun hfs => h (List.forall_mem_cons.mpr ⟨hf, hfs⟩)
      exact ⟨f :: pre, big, post, rfl, List.forall_mem_cons.mpr ⟨hf, hpre⟩, hbig⟩
    · exact ⟨[], f, fs, rfl, by simp, by omega⟩

/-- On a stream of frames the reader comes to the end of the file, whatever
the peeks answer, and it has stayed in step with the stream exactly if no frame
is longer than `MAX_FRAME_SIZE`. What the reader has pushed and read stays so:
in step at the end, it was in step all the time. -/
theorem receive_in_step_iff (peek : Nat → Option (BitVec 32)) (frames : List (List Byte))
    (hf : ∀ f ∈ frames, f.length < 2 ^ 16) {fuel : Nat}
    (hfuel : (encodeAll 2 frames).length < fuel) :
    ∃ s, rxReaderLoop peek fuel (.start (encodeAll 2 frames)) = some s ∧
      (InStep frames s ↔ ∀ f ∈ frames, f.length ≤ MAX_FRAME_SIZE) := by
  obtain ⟨s, hs⟩ : ∃ s, rxReaderLoop peek fuel (.start (encodeAll 2 frames)) = some s :=
    rxReaderLoop_ends hfuel
  refine ⟨s, hs, fun hin => ?_, fun hm => ?_⟩
  · by_contra hm
    obtain ⟨pre, big, post, rfl, hpre, hbig⟩ := exists_first_big hm
    have hbig' := hf big (by simp)
    have h0 : Astray pre post big (.start (encodeAll 2 (pre ++ big :: post))) :=
      .inl ⟨pre, hpre, rfl, Nat.zero_add _⟩
    obtain ⟨t, ht, hend⟩ := (keeps_astray hbig hbig').rxReaderLoop h0 hs
    have hread := (ht.readFrame hbig hbig' hend).2 rfl
    exact not_boundary pre post (by decide) (by omega) (hin.prefixes _ hread)
  · have h0 : Between frames (.start (encodeAll 2 frames)) [] frames :=
      ⟨rfl, rfl, rfl, rfl, by simp [RxReader.start]⟩
    obtain ⟨t, ht, hend⟩ := (keeps_between hm).rxReaderLoop ⟨_, _, h0⟩ hs
    obtain ⟨done, rest, h⟩ := (keeps_between hm).failed t _ s ht hend
    exact h.inStep hm

theorem receive_in_step_iff_small : ∃ s,
    rxReaderLoop (fun _ => some 1) 10 (.start (encodeAll 2 [[1, 2], [], [3]])) = some s ∧
      InStep [[1, 2], [], [3]] s := by
  obtain ⟨s, hs, hi⟩ := receive_in_step_iff (fun _ => some 1) [[1, 2], [], [3]] (by decide)
    (show _ < 10 by decide)
  exact ⟨s, hs, hi.mpr (by decide)⟩

/-- A frame of 1515 bytes that begin as an encoded frame of one byte: that byte
is pushed, and it is no frame of the stream. -/
theorem receive_out_of_step : ∃ (big : List Byte) (s : RxReader), big.length < 2 ^ 16 ∧
    rxReaderLoop (fun _ => none) 4 (.start (encodeAll 2 [big])) = some s ∧ s.pushed = [[0xaa]] ∧
      ¬ InStep [big] s := by
  let big : List Byte := [1, 0, 0xaa, 0xea, 5] ++ List.replicate 1510 0
  have hr : (rxReaderLoop (fun _ => none) 4 (.start (encodeAll 2 [big]))).map RxReader.pushed =
      some [[0xaa]] := by decide +kernel
  obtain ⟨s, hs, hp⟩ := Option.map_eq_some_iff.mp hr
  refine ⟨big, s, by decide +kernel, hs, hp, fun hi => ?_⟩
  have hsub := hi.pushed
  rw [hp] at hsub
  have hmem := hsub.subset List.mem_cons_self
  have hne : [0xaa] ≠ big := fun e => absurd (congrArg List.length e) (by decide +kernel)
  exact hne (List.mem_singleton.mp hmem)

end NetWorker

end Whypa
