import Whypa.Virtio.Served

/-!
# The length a chain is returned with

`add_used` publishes a length with each chain; the driver takes it for the number of bytes
that the device has written into the chain's buffers. Serving a chain is handling its
request (`Serving.handle`, whose report has the length and what the writer has written)
and then returning the chain with the length in the report (`Serving.serve_eq`).
`Serving.truthful_iff` says for which requests the two numbers are the same.
-/

namespace Whypa

open Framework WProg

/-- The length a chain is returned with, and the number of bytes that its writer has written;
0, if it has no writer. -/
structure Report where
  len : Nat
  written : Nat
deriving DecidableEq, Repr

/-- What the driver reads from the used ring is the number of bytes written. -/
def Report.Truthful (r : Report) : Prop := (BitVec.ofNat 32 r.len).toNat = r.written

theorem Report.truthful_iff_eq (len written : Nat) :
    (Report.mk len written).Truthful ↔ len % 2 ^ 32 = written := by
  unfold Truthful
  rw [BitVec.toNat_ofNat]

section
variable {α β γ : Type}

/-- The end of serving a chain: it is returned, if its request was handled. -/
def returnWith (index : BitVec 16) (q : Queue) : Option Report × β → WProg (Queue × β)
  | (none, y) => pure (q, y)
  | (some r, y) => do
    let q ← addUsed q index r.len
    pure (q, y)

/-- The end `k` of what follows `p` may be split off. -/
theorem bind_split (p : WProg α) {f : α → WProg β} {g : α → WProg γ} {k : β → WProg γ}
    (h : ∀ x, g x = f x >>= k) : p >>= g = p >>= f >>= k := by
  rw [Prog.bind_assoc, funext h]

end

/-! ## Handling a request -/

namespace BlockWorker

def handle (mm : MemoryManager) (disk : DiskProperties) (head : DescriptorChain) :
    WProg (Option Report × Bool) := do
  match ← lift (Reader.new mm head) with
  | .error _ => pure (none, false)
  | .ok reader =>
    match ← lift (Writer.new mm head) with
    | .error _ => pure (none, false)
    | .ok writer =>
      match ← reader.readObj RequestHeader with
      | (.error _, _) => pure (none, false)
      | (.ok header, reader) => do
        let (x, _, writer) ← processRequest disk header reader writer
        let (status, len) := match x with
          | .ok l => (VIRTIO_BLK_S_OK, l)
          | .error _ => (VIRTIO_BLK_S_IOERR, 0)
        let (_, writer) ← writer.writeAll [status]
        pure (some ⟨len + 1, writer.bytesWritten⟩, true)

theorem serve_eq (mm : MemoryManager) (disk : DiskProperties) (head : DescriptorChain) (q : Queue) :
    serve mm disk head q = handle mm disk head >>= returnWith head.index q := by
  refine bind_split _ fun x => ?_
  cases x with
  | error e => rfl
  | ok reader =>
    refine bind_split _ fun x => ?_
    cases x with
    | error e => rfl
    | ok writer =>
      refine bind_split _ fun (x, reader) => ?_
      cases x with
      | error e => rfl
      | ok header =>
        refine bind_split _ fun (x, _, writer) => ?_
        exact bind_split _ fun _ => rfl

end BlockWorker

namespace RngWorker

def handle (mm : MemoryManager) (head : DescriptorChain) : WProg (Option Report × Bool) := do
  match ← lift (Writer.new mm head) with
  | .error _ => pure (none, false)
  | .ok writer =>
    let len := writer.availableBytes
    if len = 0 then pure (some ⟨0, writer.bytesWritten⟩, true)
    else do
      match ← io (.genRandom len) with
      | some buf => do
        let (x, writer) ← writer.writeAll (List.ofFn buf)
        let written := match x with
          | .ok () => len
          | .error _ => 0
        pure (some ⟨written, writer.bytesWritten⟩, true)
      | none => pure (some ⟨0, writer.bytesWritten⟩, true)

theorem serve_eq (mm : MemoryManager) (head : DescriptorChain) (q : Queue) :
    serve mm head q = handle mm head >>= returnWith head.index q := by
  refine bind_split _ fun x => ?_
  cases x with
  | error e => rfl
  | ok writer =>
    dsimp only
    split
    · rfl
    · refine bind_split _ fun x => ?_
      cases x with
      | none => rfl
      | some buf => exact bind_split _ fun _ => rfl

end RngWorker

namespace ConsoleWorker

def handleTx (mm : MemoryManager) (head : DescriptorChain) : WProg (Option Report × Bool) := do
  match ← lift (Reader.new mm head) with
  | .error _ => pure (none, false)
  | .ok reader => do
    emit reader
    pure (some ⟨0, 0⟩, true)

def handleRx (mm : MemoryManager) (chunk : List Byte) (head : DescriptorChain) :
    WProg (Option Report × Option Nat) := do
  match ← lift (Writer.new mm head) with
  | .error _ => pure (none, none)
  | .ok writer => do
    let toWrite := min chunk.length writer.availableBytes
    let (x, writer) ← writer.writeAll (chunk.take toWrite)
    pure (some ⟨toWrite, writer.bytesWritten⟩, some (match x with
      | .ok () => toWrite
      | .error _ => 0))

theorem serveTx_eq (mm : MemoryManager) (head : DescriptorChain) (q : Queue) :
    serveTx mm head q = handleTx mm head >>= returnWith head.index q := by
  refine bind_split _ fun x => ?_
  cases x with
  | error e => rfl
  | ok reader => exact bind_split _ fun _ => rfl

theorem serveRx_eq (mm : MemoryManager) (chunk : List Byte) (head : DescriptorChain) (q : Queue) :
    serveRx mm chunk head q = handleRx mm chunk head >>= returnWith head.index q := by
  refine bind_split _ fun x => ?_
  cases x with
  | error e => rfl
  | ok writer => exact bind_split _ fun _ => rfl

end ConsoleWorker

namespace NetWorker

def handleTx (mm : MemoryManager) (head : DescriptorChain) : WProg (Option Report × Bool) := do
  match ← lift (Reader.new mm head) with
  | .error _ => pure (none, false)
  | .ok reader => do
    transmit reader
    pure (some ⟨0, 0⟩, true)

def handleRx (mm : MemoryManager) (frame : List Byte) (head : DescriptorChain) :
    WProg (Option Report × Bool) := do
  match ← lift (Writer.new mm head) with
  | .error _ => pure (none, false)
  | .ok writer =>
    if writer.availableBytes < NET_HDR_SIZE + frame.length then
      pure (some ⟨0, writer.bytesWritten⟩, false)
    else do
      match ← writer.writeAll defaultRxHeader with
      | (.error _, writer) => pure (some ⟨0, writer.bytesWritten⟩, false)
      | (.ok (), writer) => do
        let (x, writer) ← writer.writeAll frame
        let written := match x with
          | .ok () => NET_HDR_SIZE + frame.length
          | .error _ => NET_HDR_SIZE
        pure (some ⟨written, writer.bytesWritten⟩, true)

theorem serveTx_eq (mm : MemoryManager) (head : DescriptorChain) (q : Queue) :
    serveTx mm head q = handleTx mm head >>= returnWith head.index q := by
  refine bind_split _ fun x => ?_
  cases x with
  | error e => rfl
  | ok reader => exact bind_split _ fun _ => rfl

theorem serveRx_eq (mm : MemoryManager) (frame : List Byte) (head : DescriptorChain) (q : Queue) :
    serveRx mm frame head q = handleRx mm frame head >>= returnWith head.index q := by
  refine bind_split _ fun x => ?_
  cases x with
  | error e => rfl
  | ok writer =>
    dsimp only
    split
    · rfl
    · refine bind_split _ fun (x, writer) => ?_
      cases x with
      | error e => rfl
      | ok u => exact bind_split _ fun _ => rfl

end NetWorker

variable {ε : Type} {env : Env ε} {mm : MemoryManager}

/-! ## What is reported -/

section
variable {ok : Bool} {T : Prop} {α β : Type} {w w' : World ε} {head : DescriptorChain}

/-- Run from `w`, `p` handles a request: `ok` says whether it reports, and the report is truthful
if and only if `T` holds. -/
def Reports (mm : MemoryManager) (env : Env ε) (ok : Bool) (T : Prop) (p : WProg (Option Report × β))
    (w : World ε) : Prop :=
  ∃ o y w', Prog.run (mm.world false env) p w = some ((o, y), w') ∧ o.isSome = ok ∧
    ∀ r, o = some r → (r.Truthful ↔ T)

theorem Reports.of_run {p : WProg α} {x : α} {f : α → WProg (Option Report × β)}
    (hr : Prog.run (mm.world false env) p w = some (x, w')) (hf : Reports mm env ok T (f x) w') :
    Reports mm env ok T (p >>= f) w := by
  unfold Reports
  rw [Prog.run_bind, hr]
  exact hf

theorem Reports.of_calm {S : Nat → Prop} {Q : α → Prop} {p : WProg α}
    {f : α → WProg (Option Report × β)} (hp : Calm mm env S Q p)
    (hf : ∀ x w', Reports mm env ok T (f x) w') : Reports mm env ok T (p >>= f) w := by
  obtain ⟨x, w', hr, -, -⟩ := hp.run w
  exact .of_run hr (hf x w')

theorem Reports.iff {T' : Prop} {p : WProg (Option Report × β)} (h : Reports mm env ok T p w)
    (hT : T ↔ T') : Reports mm env ok T' p w := by
  rw [← propext hT]
  exact h

theorem reports_nothing (y : β) : Reports mm env false T (pure (none, y)) w :=
  ⟨none, y, w, rfl, rfl, nofun⟩

theorem reports_some {r : Report} (h : r.Truthful ↔ T) (y : β) : Reports mm env true T (pure (some r, y)) w :=
  ⟨some r, y, w, rfl, rfl, fun _ hr => Option.some.inj hr ▸ h⟩

/-- Nothing is reported, and nothing was written. -/
theorem reports_zero (h : T) (y : β) : Reports mm env true T (pure (some ⟨0, 0⟩, y)) w := by
  refine reports_some ?_ y
  rw [Report.truthful_iff_eq]
  exact iff_of_true rfl h

/-- With the stream that the worker opens; without one nothing is reported. -/
theorem reports_opened {σ : Type} {can : Bool} {s : σ} {o : VProg (Except ChainError σ)}
    {p : Except ChainError σ → WProg (Option Report × β)}
    (ho : ∃ x, Prog.run (mm.world false env) (lift o) w = some (x, w) ∧ Opened can s x)
    (herr : ∀ e, Reports mm env false T (p (.error e)) w)
    (hok : can = true → Reports mm env ok T (p (.ok s)) w) :
    Reports mm env (can && ok) T (lift o >>= p) w := by
  obtain ⟨x, hr, ⟨ha, rfl⟩ | ⟨ha, e, rfl⟩⟩ := ho
  · rw [ha, Bool.true_and]
    exact Reports.of_run hr (hok ha)
  · rw [ha, Bool.false_and]
    exact Reports.of_run hr (herr e)

end

namespace BlockWorker

section
variable {reader : Reader} {writer : Writer} {w : World ε} {S : Nat → Prop}

/-- The length in the result of a request. -/
def resultLen : Except RequestError Nat → Nat
  | .ok l => l
  | .error _ => 0

/-- Run from `w`, a request ends with the length `l`, and `n` bytes written. -/
def Ends (mm : MemoryManager) (env : Env ε) (writer : Writer) (l n : Nat) (p : WProg Outcome)
    (w : World ε) : Prop :=
  ∃ x reader' writer' w', Prog.run (mm.world false env) p w = some ((x, reader', writer'), w') ∧
    resultLen x = l ∧ writer.Advanced writer' n

/-- A request that writes nothing and has no length. -/
def Quiet (writer : Writer) (r : Outcome) : Prop := resultLen r.1 = 0 ∧ r.2.2 = writer

theorem Ends.of_calm {p : WProg Outcome} (hp : Calm mm env S (Quiet writer) p) (w : World ε) :
    Ends mm env writer 0 0 p w := by
  obtain ⟨⟨x, reader', writer'⟩, w', hr, ⟨hx, rfl⟩, -⟩ := hp.run w
  exact ⟨x, reader', writer', w', hr, hx, .refl writer'⟩

theorem quiet_processDiscard
    {op : DiscardWriteData → BitVec 64 → BitVec 64 → WProg (Except RequestError Unit)}
    (hop : ∀ d offset length, Calm mm env S (fun _ => True) (op d offset length)) :
    Calm mm env S (Quiet writer) (processDiscard reader writer op) := by
  refine (Reader.calm_readObj DiscardWriteData reader).bind fun x _ => ?_
  rcases x with ⟨e | d, r⟩
  · exact ⟨rfl, rfl⟩
  refine (calm_mul _ _).bind fun offset _ => ?_
  refine (calm_mul _ _).bind fun length _ => ?_
  refine (hop d offset length).bind fun x _ => ?_
  cases x <;> exact ⟨rfl, rfl⟩

open DescriptorChainConsumer (takeBufs)

/-- The number of bytes in the buffers that a read request fills: those of all its bytes but the
status byte, of which the last buffer is taken whole. -/
def dataBytes (bufs : List VolatileSlice) : Nat :=
  (addrs (takeBufs ((addrs bufs).length - 1) bufs)).length

/-- For which requests the report is truthful: there is a byte for the status, and then by the type
of the request. `src` are the addresses to read from after the header, `bufs` the buffers to
write to. -/
def TruthfulRequest (env : Env ε) (disk : DiskProperties) (header : RequestHeader) (src : List Nat)
    (bufs : List VolatileSlice) (w : World ε) : Prop :=
  1 ≤ (addrs bufs).length ∧
    if header.requestType = VIRTIO_BLK_T_IN then
      ((addrs bufs).length - 1) % 512 ≠ 0 ∨
      (dataBytes bufs + 1 = (addrs bufs).length ∧ (addrs bufs).length < 2 ^ 32) ∨
      ∃ e, (env (.readv (dataBytes bufs) (header.sector * 512)) w.ext).1.1 = .error e
    else if header.requestType = VIRTIO_BLK_T_OUT then
      src.length % 512 ≠ 0 ∨ src.length % 2 ^ 32 = 0 ∨
      ∃ e, (env (.writev (w.mem.gather src) (header.sector * 512)) w.ext).1 = .error e
    else if header.requestType = VIRTIO_BLK_T_GET_ID then
      (addrs bufs).length < disk.imageId.length ∨
      (disk.imageId.length < (addrs bufs).length ∧ disk.imageId.length + 1 < 2 ^ 32)
    else True

/-- How many bytes a request stores before its status. -/
def position (env : Env ε) (disk : DiskProperties) (header : RequestHeader) (bufs : List VolatileSlice)
    (w : World ε) : Nat :=
  if header.requestType = VIRTIO_BLK_T_IN then
    if ((addrs bufs).length - 1) % 512 = 0 ∧
        (env (.readv (dataBytes bufs) (header.sector * 512)) w.ext).1.1.isOk then dataBytes bufs
    else 0
  else if header.requestType = VIRTIO_BLK_T_GET_ID then
    if disk.imageId.length ≤ (addrs bufs).length then disk.imageId.length else 0
  else 0

theorem takeBufs_eq_nil {n : Nat} {bufs : List VolatileSlice} (hn : n ≠ 0)
    (h : takeBufs n bufs = []) : bufs = [] := by
  cases bufs with
  | nil => rfl
  | cons vs bufs =>
    rw [takeBufs, if_neg hn] at h
    cases h

theorem dataBytes_le (bufs : List VolatileSlice) :
    (addrs bufs).length - 1 ≤ dataBytes bufs ∧ dataBytes bufs ≤ (addrs bufs).length := by
  refine ⟨?_, (DescriptorChainConsumer.addrs_takeBufs_prefix _ bufs).length_le⟩
  have h := congrArg List.length
    (DescriptorChainConsumer.addrs_takeBufs ((addrs bufs).length - 1) bufs)
  rw [List.length_take, List.length_take] at h
  unfold dataBytes
  omega

/-- If no buffer is filled, then there is room for the status only. -/
theorem dataBytes_of_nil {bufs : List VolatileSlice} (h1 : 1 ≤ (addrs bufs).length)
    (hnil : takeBufs ((addrs bufs).length - 1) bufs = []) : dataBytes bufs = 0 ∧ (addrs bufs).length = 1 := by
  refine ⟨by rw [dataBytes, hnil]; rfl, ?_⟩
  by_contra hne
  rw [takeBufs_eq_nil (by omega) hnil] at h1
  exact absurd h1 (by decide)

theorem position_eq_zero {disk : DiskProperties} {header : RequestHeader} {bufs : List VolatileSlice}
    (hin : header.requestType ≠ VIRTIO_BLK_T_IN) (hid : header.requestType ≠ VIRTIO_BLK_T_GET_ID)
    (w : World ε) : 0 = position env disk header bufs w := by
  rw [position, if_neg hin, if_neg hid]

/-- A request of length 0 that writes nothing but its status. -/
theorem truthful_quiet (room : Nat) : (0 + 1) % 2 ^ 32 = 0 + min 1 (room - 0) ↔ 1 ≤ room := by
  omega

theorem ends_pure (x : Except RequestError Nat) (reader : Reader) (w : World ε) :
    Ends mm env writer (resultLen x) 0 (pure (x, reader, writer)) w :=
  ⟨x, reader, writer, w, rfl, rfl, .refl writer⟩

theorem Ends.of_mul {l n : Nat} {sector : BitVec 64} {f : BitVec 64 → WProg Outcome}
    (h : Ends mm env writer l n (f (sector * 512)) w) :
    Ends mm env writer l n (lift (VProg.mul sector 512) >>= f) w := by
  unfold Ends
  rw [Prog.run_bind, run_mul]
  exact h

/-- A request that writes nothing but its status, and has no length. -/
theorem Ends.quiet {p : WProg Outcome} {disk : DiskProperties} {header : RequestHeader} {src : List Nat}
    (h : Ends mm env writer 0 0 p w) (hpos : 0 = position env disk header writer.buffer.buffers w)
    (hT : 1 ≤ writer.availableBytes → TruthfulRequest env disk header src writer.buffer.buffers w) :
    ∃ l n, Ends mm env writer l n p w ∧ n = position env disk header writer.buffer.buffers w ∧
      ((l + 1) % 2 ^ 32 = n + min 1 (writer.availableBytes - n) ↔
        TruthfulRequest env disk header src writer.buffer.buffers w) := by
  refine ⟨0, 0, h, hpos, (truthful_quiet _).trans ⟨hT, fun hT => ?_⟩⟩
  rw [← writer.length_addrs]
  exact hT.1

theorem ends_in (disk : DiskProperties) {header : RequestHeader}
    (ht : header.requestType = VIRTIO_BLK_T_IN) (hw : writer.Bounded) (src : List Nat) (w : World ε) :
    ∃ l n, Ends mm env writer l n (processRequest disk header reader writer) w ∧
      n = position env disk header writer.buffer.buffers w ∧
      ((l + 1) % 2 ^ 32 = n + min 1 (writer.availableBytes - n) ↔
        TruthfulRequest env disk header src writer.buffer.buffers w) := by
  have hlen : (addrs writer.buffer.buffers).length = writer.availableBytes := writer.length_addrs
  obtain ⟨hge, hle⟩ := dataBytes_le writer.buffer.buffers
  have hlt := hw.room_lt
  rw [hlen] at hge hle
  by_cases h1 : 1 ≤ writer.availableBytes
  · rw [processRequest_in ht hw h1]
    by_cases h512 : (writer.availableBytes - 1) % 512 ≠ 0
    · rw [if_pos h512]
      refine (ends_pure (.error .invalidDataLength) reader w).quiet ?_ fun h => ⟨by rwa [hlen], ?_⟩
      · rw [position, if_pos ht, hlen, if_neg fun h => h512 h.1]
      · rw [if_pos ht, hlen]
        exact .inl h512
    rw [if_neg h512]
    have hk : (addrs (takeBufs (writer.availableBytes - 1) writer.buffer.buffers)).length =
        dataBytes writer.buffer.buffers := by rw [dataBytes, hlen]
    obtain ⟨x, writer', w', hr, hnil, hne⟩ :=
      Writer.run_writeFromAt false mm env hw hk (header.sector * 512) w
    have hends : ∀ {n}, writer.Advanced writer' n →
        Ends mm env writer (resultLen (x.mapError .writingToDescriptor)) n
        (writer.writeFromAt (writer.availableBytes - 1) (header.sector * 512) >>= fun y =>
          pure (y.1.mapError .writingToDescriptor, reader, y.2)) w := fun hadv =>
      ⟨_, reader, writer', w', by rw [Prog.run_bind, hr]; rfl, rfl, hadv⟩
    by_cases hb : takeBufs (writer.availableBytes - 1) writer.buffer.buffers = []
    · obtain ⟨rfl, rfl, rfl⟩ := hnil hb
      rw [← hlen] at h1 hb
      obtain ⟨h0, hone⟩ := dataBytes_of_nil h1 hb
      refine (Ends.of_mul (hends (.refl writer'))).quiet ?_ fun _ => ⟨h1, ?_⟩
      · rw [position, if_pos ht, h0]
        split <;> rfl
      · rw [if_pos ht, h0, hone]
        exact .inr (.inl ⟨rfl, by decide⟩)
    · obtain ⟨rfl, rfl, hadv⟩ := hne hb
      cases ha : (env (.readv (dataBytes writer.buffer.buffers) (header.sector * 512)) w.ext).1.1 with
      | error e =>
        rw [ha] at hadv hends
        refine (Ends.of_mul (hends hadv)).quiet ?_ fun _ => ⟨by rwa [hlen], ?_⟩
        · rw [position, if_pos ht, if_neg fun h => ?_]
          rw [ha] at h
          cases h.2
        · rw [if_pos ht]
          exact .inr (.inr ⟨e, ha⟩)
      | ok u =>
        rw [ha] at hadv hends
        refine ⟨_, _, Ends.of_mul (hends hadv), ?_, ?_⟩
        · rw [position, if_pos ht, if_pos ⟨by rw [hlen]; exact not_not.mp h512, by rw [ha]; rfl⟩]
        · rw [TruthfulRequest, if_pos ht, hlen, ha]
          simp only [Except.map, Except.mapError, resultLen, reduceCtorEq, exists_false, or_false]
          omega
  · have h0 : writer.availableBytes = 0 := by omega
    have h512 : (BitVec.ofNat 64 writer.availableBytes - 1).toNat % 512 ≠ 0 := by
      rw [h0]
      decide
    have hends : Ends mm env writer 0 0 (processRequest disk header reader writer) w := by
      unfold Ends
      rw [processRequest, if_pos ht, Prog.run_bind, run_sub, Option.bind_some, if_pos h512]
      exact ends_pure (.error .invalidDataLength) reader w
    refine hends.quiet ?_ fun h => absurd h h1
    rw [position, if_pos ht, show dataBytes writer.buffer.buffers = 0 by omega]
    split <;> rfl

theorem ends_out (disk : DiskProperties) {header : RequestHeader}
    (ht : header.requestType = VIRTIO_BLK_T_OUT) (hr : reader.Bounded) (w : World ε) :
    ∃ l n, Ends mm env writer l n (processRequest disk header reader writer) w ∧
      n = position env disk header writer.buffer.buffers w ∧
      ((l + 1) % 2 ^ 32 = n + min 1 (writer.availableBytes - n) ↔
        TruthfulRequest env disk header reader.addrs writer.buffer.buffers w) := by
  have hin : header.requestType ≠ VIRTIO_BLK_T_IN := by
    rw [ht]
    decide
  have hpos : ∀ bufs w, 0 = position env disk header bufs w := fun bufs =>
    position_eq_zero hin (by rw [ht]; decide)
  have hlen : (addrs writer.buffer.buffers).length = writer.availableBytes := writer.length_addrs
  have hsrc : reader.addrs.length = reader.availableBytes := reader.length_addrs
  have htruthful : TruthfulRequest env disk header reader.addrs writer.buffer.buffers w ↔
      1 ≤ writer.availableBytes ∧ (reader.availableBytes % 512 ≠ 0 ∨ reader.availableBytes % 2 ^ 32 = 0 ∨
        ∃ e, (env (.writev (w.mem.gather reader.addrs) (header.sector * 512)) w.ext).1 = .error e) := by
    rw [TruthfulRequest, if_neg hin, if_pos ht, hlen, hsrc]
  rw [processRequest_out ht]
  by_cases h512 : reader.availableBytes % 512 ≠ 0
  · rw [if_pos h512]
    exact (ends_pure (.error .invalidDataLength) reader w).quiet (hpos ..) fun h => htruthful.mpr ⟨h, .inl h512⟩
  rw [if_neg h512]
  obtain ⟨x, reader', w', hrun, hnil, hne⟩ := Reader.run_readToAt false mm env hr (header.sector * 512) w
  have hends : Ends mm env writer (resultLen (x.mapError .readingFromDescriptor)) 0
      (lift (VProg.mul header.sector 512) >>= fun offset =>
        reader.readToAt reader.availableBytes offset >>= fun y =>
          pure (y.1.mapError .readingFromDescriptor, y.2, writer)) w :=
    Ends.of_mul ⟨_, reader', writer, w', by rw [Prog.run_bind, hrun]; rfl, rfl, .refl writer⟩
  by_cases h0 : reader.availableBytes = 0
  · obtain ⟨rfl, rfl⟩ := hnil h0
    exact hends.quiet (hpos ..) fun h => htruthful.mpr ⟨h, .inr (.inl (by rw [h0]; rfl))⟩
  · obtain ⟨rfl, rfl⟩ := hne (Nat.pos_of_ne_zero h0)
    cases ha : (env (.writev (w.mem.gather reader.addrs) (header.sector * 512)) w.ext).1 with
    | error e =>
      rw [ha] at hends
      exact hends.quiet (hpos ..) fun h => htruthful.mpr ⟨h, .inr (.inr ⟨e, ha⟩)⟩
    | ok u =>
      rw [ha] at hends
      refine ⟨reader.availableBytes, 0, hends, hpos .., ?_⟩
      rw [htruthful, ha]
      simp only [reduceCtorEq, exists_false, or_false]
      omega

theorem ends_getId (disk : DiskProperties) {header : RequestHeader}
    (ht : header.requestType = VIRTIO_BLK_T_GET_ID) (hw : writer.Bounded) (src : List Nat) (w : World ε) :
    ∃ l n, Ends mm env writer l n (processRequest disk header reader writer) w ∧
      n = position env disk header writer.buffer.buffers w ∧
      ((l + 1) % 2 ^ 32 = n + min 1 (writer.availableBytes - n) ↔
        TruthfulRequest env disk header src writer.buffer.buffers w) := by
  have hne : header.requestType ≠ VIRTIO_BLK_T_IN ∧ header.requestType ≠ VIRTIO_BLK_T_OUT ∧
      header.requestType ≠ VIRTIO_BLK_T_FLUSH := by
    rw [ht]
    decide
  have hlen : (addrs writer.buffer.buffers).length = writer.availableBytes := writer.length_addrs
  obtain ⟨x, writer', hr, hadv, hx⟩ := Writer.run_writeAll false mm env hw disk.imageId w
  rw [processRequest, if_neg hne.1, if_neg hne.2.1, if_neg hne.2.2, if_pos ht]
  by_cases hlt : writer.availableBytes < disk.imageId.length
  · rw [if_pos hlt]
    refine (ends_pure (.error .invalidDataLength) reader w).quiet ?_ fun h => ⟨by rwa [hlen], ?_⟩
    · rw [position, if_neg hne.1, if_pos ht, hlen, if_neg (Nat.not_le_of_lt hlt)]
    · rw [if_neg hne.1, if_neg hne.2.1, if_pos ht, hlen]
      exact .inl hlt
  · have hle := Nat.le_of_not_lt hlt
    obtain rfl := hx.mpr hle
    rw [min_eq_left hle] at hadv
    rw [if_neg hlt]
    refine ⟨_, _, ⟨_, reader, writer', _, by rw [Prog.run_bind, hr]; rfl, rfl, hadv⟩, ?_, ?_⟩
    · rw [position, if_neg hne.1, if_pos ht, hlen, if_pos hle]
    · rw [TruthfulRequest, if_neg hne.1, if_neg hne.2.1, if_pos ht, hlen]
      show (disk.imageId.length + 1) % 2 ^ 32 = _ ↔ _
      omega

/-- The requests of the other types write their status only. -/
theorem ends_other (disk : DiskProperties) {header : RequestHeader}
    (hin : header.requestType ≠ VIRTIO_BLK_T_IN) (hout : header.requestType ≠ VIRTIO_BLK_T_OUT)
    (hid : header.requestType ≠ VIRTIO_BLK_T_GET_ID) (src : List Nat) (w : World ε) :
    ∃ l n, Ends mm env writer l n (processRequest disk header reader writer) w ∧
      n = position env disk header writer.buffer.buffers w ∧
      ((l + 1) % 2 ^ 32 = n + min 1 (writer.availableBytes - n) ↔
        TruthfulRequest env disk header src writer.buffer.buffers w) := by
  refine (Ends.of_calm (S := fun _ => True) ?_ w).quiet (position_eq_zero hin hid w) fun h => ?_
  · unfold processRequest
    rw [if_neg hin, if_neg hout, if_neg hid]
    split
    · cases disk.cacheType with
      | Unsafe => exact ⟨rfl, rfl⟩
      | Writeback =>
        refine (calm_io trivial _).bind fun x _ => ?_
        rcases x with e | _
        · exact ⟨rfl, rfl⟩
        · refine (calm_io trivial _).bind fun x _ => ?_
          cases x <;> exact ⟨rfl, rfl⟩
    split
    · exact quiet_processDiscard fun _ _ _ => (calm_io trivial _).bind fun _ _ => trivial
    split
    · refine quiet_processDiscard fun d offset length => ?_
      split
      · exact (calm_io trivial _).bind fun _ _ => trivial
      · exact (calm_io trivial _).bind fun _ _ => trivial
    · exact ⟨rfl, rfl⟩
  · rw [TruthfulRequest, if_neg hin, if_neg hout, if_neg hid, and_true]
    exact h.trans writer.length_addrs.ge

theorem ends_processRequest (disk : DiskProperties) (header : RequestHeader) (hr : reader.Bounded)
    (hw : writer.Bounded) (w : World ε) :
    ∃ l n, Ends mm env writer l n (processRequest disk header reader writer) w ∧
      n = position env disk header writer.buffer.buffers w ∧
      ((l + 1) % 2 ^ 32 = n + min 1 (writer.availableBytes - n) ↔
        TruthfulRequest env disk header reader.addrs writer.buffer.buffers w) := by
  by_cases hin : header.requestType = VIRTIO_BLK_T_IN
  · exact ends_in disk hin hw _ w
  by_cases hout : header.requestType = VIRTIO_BLK_T_OUT
  · exact ends_out disk hout hr w
  by_cases hid : header.requestType = VIRTIO_BLK_T_GET_ID
  · exact ends_getId disk hid hw _ w
  · exact ends_other disk hin hout hid _ w

/-- After `n` bytes of the writer, the status is written, if there is room for it. -/
theorem reports_status {writer' : Writer} {n : Nat} (hw : writer.Bounded)
    (h0 : writer.buffer.bytesConsumed = 0) (hadv : writer.Advanced writer' n) (status : Byte) (l : Nat)
    (w : World ε) :
    Reports mm env true ((l + 1) % 2 ^ 32 = n + min 1 (writer.availableBytes - n))
      (writer'.writeAll [status] >>= fun (_, writer) =>
        pure (some ⟨l + 1, writer.bytesWritten⟩, true)) w := by
  obtain ⟨y, writer'', hr, hadv', -⟩ := Writer.run_writeAll false mm env (hadv.bounded hw) [status] w
  refine Reports.of_run hr (reports_some ?_ true)
  have hwritten : writer''.bytesWritten = n + min 1 (writer.availableBytes - n) := by
    have h := (hadv.trans hadv').bytesConsumed
    rw [h0, hadv.availableBytes, Nat.zero_add] at h
    exact h
  rw [Report.truthful_iff_eq, hwritten]

end

/-- For which chains the report on their request is truthful. -/
def Truthful (mm : MemoryManager) (disk : DiskProperties) (env : Env ε) (c : DescriptorChain)
    (w : World ε) : Prop :=
  TruthfulRequest env disk (headerOf mm w.mem c)
    ((c.readAddrs mm w.mem).drop (FromBytes.size RequestHeader)) (c.writer mm w.mem).buffer.buffers w

theorem reports (disk : DiskProperties) (head : DescriptorChain) (w : World ε) :
    Reports mm env (wellFormed mm w.mem head) (Truthful mm disk env head w) (handle mm disk head) w := by
  refine reports_opened (run_readerNew env head.tableFits_false w)
    (fun e => reports_nothing false) fun hrd => ?_
  refine reports_opened (run_writerNew env head.tableFits_false w)
    (fun e => reports_nothing false) fun hwr => ?_
  obtain ⟨hbw, -⟩ := writer_of_writableOk hwr
  obtain ⟨x, reader, hr, hx⟩ := run_readHeader false env hrd
  refine Reports.of_run hr ?_
  rcases hx with ⟨hle, rfl, hb, hsrc⟩ | ⟨hlt, e, rfl⟩
  · rw [decide_eq_true hle]
    obtain ⟨l, n, ⟨x, reader', writer, w', hr, rfl, hadv⟩, -, htr⟩ := ends_processRequest disk _ hb hbw w
    refine Reports.of_run hr ?_
    refine Reports.iff ?_ (htr.trans (by rw [hsrc]; rfl))
    cases x with
    | ok l => exact reports_status hbw rfl hadv VIRTIO_BLK_S_OK l w'
    | error e => exact reports_status hbw rfl hadv VIRTIO_BLK_S_IOERR 0 w'
  · rw [decide_eq_false (Nat.not_le_of_lt hlt)]
    exact reports_nothing false

end BlockWorker

namespace RngWorker

/-- A report is short only if the chain has room for `2 ^ 32` random bytes. -/
theorem reports (head : DescriptorChain) (w : World ε) :
    Reports mm env (head.writableOk mm w.mem)
      (head.writableBytes mm w.mem < 2 ^ 32 ∨
        (env (.genRandom (head.writableBytes mm w.mem)) w.ext).1 = none) (handle mm head) w := by
  rw [← Bool.and_true (head.writableOk mm w.mem)]
  refine reports_opened (run_writerNew env head.tableFits_false w)
    (fun e => reports_nothing false) fun hwr => ?_
  obtain ⟨hb, ha⟩ := writer_of_writableOk hwr
  dsimp only
  rw [ha]
  by_cases h0 : head.writableBytes mm w.mem = 0
  · rw [if_pos h0, h0]
    exact reports_zero (.inl (by decide)) true
  rw [if_neg h0]
  have hio : Prog.run (mm.world false env) (io (.genRandom (head.writableBytes mm w.mem))) w =
      some ((env (.genRandom (head.writableBytes mm w.mem)) w.ext).1,
        { w with ext := (env (.genRandom (head.writableBytes mm w.mem)) w.ext).2 }) := rfl
  refine Reports.of_run hio ?_
  cases hbuf : (env (.genRandom (head.writableBytes mm w.mem)) w.ext).1 with
  | none => exact reports_zero (.inr rfl) true
  | some buf =>
    obtain ⟨x, writer, hr, hadv, hx⟩ := Writer.run_writeAll false mm env hb (List.ofFn buf) _
    rw [List.length_ofFn, ha] at hadv hx
    obtain rfl := hx.mpr (Nat.le_refl _)
    refine Reports.of_run hr (reports_some ?_ true)
    have hwritten : writer.bytesWritten = head.writableBytes mm w.mem := by
      rw [min_self] at hadv
      exact hadv.bytesConsumed.trans (Nat.zero_add _)
    rw [Report.truthful_iff_eq, hwritten]
    simp only [reduceCtorEq, or_false]
    omega

end RngWorker

namespace ConsoleWorker

/-- What is read from a chain is not reported. -/
theorem reportsTx (head : DescriptorChain) (w : World ε) :
    Reports mm env (head.readableOk mm w.mem) True (handleTx mm head) w := by
  rw [← Bool.and_true (head.readableOk mm w.mem)]
  refine reports_opened (run_readerNew env head.tableFits_false w)
    (fun e => reports_nothing false) fun hrd => ?_
  exact Reports.of_calm (calm_emit (fun _ => False) _) fun _ _ => reports_zero trivial true

theorem reportsRx (chunk : List Byte) (head : DescriptorChain) (w : World ε) :
    Reports mm env (head.writableOk mm w.mem) (min chunk.length (head.writableBytes mm w.mem) < 2 ^ 32)
      (handleRx mm chunk head) w := by
  rw [← Bool.and_true (head.writableOk mm w.mem)]
  refine reports_opened (run_writerNew env head.tableFits_false w)
    (fun e => reports_nothing none) fun hwr => ?_
  obtain ⟨hb, ha⟩ := writer_of_writableOk hwr
  dsimp only
  rw [ha]
  obtain ⟨x, writer, hr, hadv, -⟩ := Writer.run_writeAll false mm env hb
    (chunk.take (min chunk.length (head.writableBytes mm w.mem))) w
  rw [List.length_take, ha] at hadv
  refine Reports.of_run hr (reports_some ?_ _)
  have hwritten : writer.bytesWritten = min chunk.length (head.writableBytes mm w.mem) := by
    refine hadv.bytesConsumed.trans ?_
    show 0 + _ = _
    omega
  rw [Report.truthful_iff_eq, hwritten]
  omega

end ConsoleWorker

namespace NetWorker

/-- What is read from a chain is not reported. -/
theorem reportsTx (head : DescriptorChain) (w : World ε) :
    Reports mm env (head.readableOk mm w.mem) True (handleTx mm head) w := by
  rw [← Bool.and_true (head.readableOk mm w.mem)]
  refine reports_opened (run_readerNew env head.tableFits_false w)
    (fun e => reports_nothing false) fun hrd => ?_
  exact Reports.of_calm (calm_transmit (fun _ => False) _) fun _ _ => reports_zero trivial true

/-- A frame is written with its header or not at all. -/
theorem reportsRx {frame : List Byte} (hf : frame.length ≤ MAX_FRAME_SIZE) (head : DescriptorChain)
    (w : World ε) :
    Reports mm env (head.writableOk mm w.mem) True (handleRx mm frame head) w := by
  rw [← Bool.and_true (head.writableOk mm w.mem)]
  refine reports_opened (run_writerNew env head.tableFits_false w)
    (fun e => reports_nothing false) fun hwr => ?_
  obtain ⟨hb, ha⟩ := writer_of_writableOk hwr
  have hhdr : defaultRxHeader.length = NET_HDR_SIZE := rfl
  dsimp only
  rw [ha]
  split
  · exact reports_zero trivial false
  rename_i hge
  have hmax : MAX_FRAME_SIZE = 1514 := rfl
  have hsize : NET_HDR_SIZE = 12 := rfl
  obtain ⟨x, writer, hr, hadv, hx⟩ := Writer.run_writeAll false mm env hb defaultRxHeader w
  rw [hhdr, ha] at hadv hx
  obtain rfl := hx.mpr (by omega)
  refine Reports.of_run hr ?_
  obtain ⟨x, writer', hr, hadv', hx⟩ := Writer.run_writeAll false mm env (hadv.bounded hb) frame _
  rw [hadv.availableBytes, ha] at hadv' hx
  obtain rfl := hx.mpr (by omega)
  refine Reports.of_run hr (reports_some ?_ true)
  have hwritten : writer'.bytesWritten = NET_HDR_SIZE + frame.length := by
    have h := (hadv.trans hadv').bytesConsumed
    refine h.trans ?_
    show 0 + _ = _
    omega
  rw [Report.truthful_iff_eq, hwritten]
  refine iff_of_true ?_ trivial
  show (NET_HDR_SIZE + frame.length) % 2 ^ 32 = _
  omega

end NetWorker

/-! ## The length in the used ring -/

/-- A function that serves the chains of a queue; the network's takes frames of the wire. -/
inductive Serving
  | block (disk : BlockWorker.DiskProperties)
  | rng
  | consoleTx
  | consoleRx (chunk : List Byte)
  | netTx
  | netRx (frame : List Byte) (h : frame.length ≤ NetWorker.MAX_FRAME_SIZE)

namespace Serving

/-- What serving a chain says to its loop. -/
abbrev Flag : Serving → Type
  | .consoleRx _ => Option Nat
  | _ => Bool

def serve (mm : MemoryManager) (head : DescriptorChain) (q : Queue) :
    (s : Serving) → WProg (Queue × s.Flag)
  | .block disk => BlockWorker.serve mm disk head q
  | .rng => RngWorker.serve mm head q
  | .consoleTx => ConsoleWorker.serveTx mm head q
  | .consoleRx chunk => ConsoleWorker.serveRx mm chunk head q
  | .netTx => NetWorker.serveTx mm head q
  | .netRx frame _ => NetWorker.serveRx mm frame head q

def handle (mm : MemoryManager) (head : DescriptorChain) : (s : Serving) → WProg (Option Report × s.Flag)
  | .block disk => BlockWorker.handle mm disk head
  | .rng => RngWorker.handle mm head
  | .consoleTx => ConsoleWorker.handleTx mm head
  | .consoleRx chunk => ConsoleWorker.handleRx mm chunk head
  | .netTx => NetWorker.handleTx mm head
  | .netRx frame _ => NetWorker.handleRx mm frame head

/-- Serving a chain is handling its request and returning it. -/
theorem serve_eq (mm : MemoryManager) (head : DescriptorChain) (q : Queue) (s : Serving) :
    s.serve mm head q = s.handle mm head >>= returnWith head.index q := by
  cases s with
  | block disk => exact BlockWorker.serve_eq mm disk head q
  | rng => exact RngWorker.serve_eq mm head q
  | consoleTx => exact ConsoleWorker.serveTx_eq mm head q
  | consoleRx chunk => exact ConsoleWorker.serveRx_eq mm chunk head q
  | netTx => exact NetWorker.serveTx_eq mm head q
  | netRx frame h => exact NetWorker.serveRx_eq mm frame head q

/-- A chain of one writable descriptor of 4 bytes. -/
def oneBuffer : DescriptorChain :=
  { descTable := 0x1000, queueSize := 2, ttl := 2, index := 0, addr := 0x4000, len := 4, flags := 2,
    next := 0 }

/-- The head of a chain of a header and one sector, and a byte for the status. -/
def sectorWrite : DescriptorChain :=
  { descTable := 0x1000, queueSize := 2, ttl := 2, index := 0, addr := 0x4000, len := 528, flags := 1,
    next := 1 }

/-- The memory of the chain: its descriptors, and the type of a write request. -/
def sectorMem : Mem :=
  let m : Mem := fun _ => 0
  let m := (m.putWord 0x1000 (0x4000 : BitVec 64)).putWord 0x1008 (528 : BitVec 32)
  let m := (m.putWord 0x100c (1 : BitVec 16)).putWord 0x100e (1 : BitVec 16)
  let m := (m.putWord 0x1010 (0x5000 : BitVec 64)).putWord 0x1018 (1 : BitVec 32)
  (m.putWord 0x101c (2 : BitVec 16)).putWord 0x4000 BlockWorker.VIRTIO_BLK_T_OUT

/-- For which chains the length they are returned with is the number of bytes written. -/
def Truthful (mm : MemoryManager) (env : Env ε) (head : DescriptorChain) (w : World ε) : Serving → Prop
  | .block disk => BlockWorker.Truthful mm disk env head w
  | .rng => head.writableBytes mm w.mem < 2 ^ 32 ∨
      (env (.genRandom (head.writableBytes mm w.mem)) w.ext).1 = none
  | .consoleRx chunk => min chunk.length (head.writableBytes mm w.mem) < 2 ^ 32
  | .consoleTx | .netTx | .netRx .. => True

theorem reports (s : Serving) (head : DescriptorChain) (w : World ε) :
    ∃ ok, Reports mm env ok (s.Truthful mm env head w) (s.handle mm head) w := by
  cases s with
  | block disk => exact ⟨_, BlockWorker.reports disk head w⟩
  | rng => exact ⟨_, RngWorker.reports head w⟩
  | consoleTx => exact ⟨_, ConsoleWorker.reportsTx head w⟩
  | consoleRx chunk => exact ⟨_, ConsoleWorker.reportsRx chunk head w⟩
  | netTx => exact ⟨_, NetWorker.reportsTx head w⟩
  | netRx frame h => exact ⟨_, NetWorker.reportsRx h head w⟩

/-- The length that a chain is returned with is the number of bytes written into it exactly for
these requests. -/
theorem truthful_iff (ck : Bool) (s : Serving) {head : DescriptorChain} (q : Queue) {w w' : World ε}
    {r : Report} {y : s.Flag}
    (hr : Prog.run (mm.world ck env) (s.handle mm head) w = some ((some r, y), w')) :
    s.serve mm head q = s.handle mm head >>= returnWith head.index q ∧
      (r.Truthful ↔ s.Truthful mm env head w) := by
  have hreports : ∃ ok, Reports mm env ok (s.Truthful mm env head w) (s.handle mm head) w :=
    reports s head w
  obtain ⟨_, o, _, _, hr', -, ho⟩ := hreports
  rw [run_of_checked hr] at hr'
  simp only [Option.some.injEq, Prod.mk.injEq] at hr'
  exact ⟨serve_eq mm head q s, ho r hr'.1.1.symm⟩

theorem truthful_iff_rng : ∃ r w',
    Prog.run (smallRam.world true idleEnv) (Serving.rng.handle smallRam oneBuffer) ⟨fun _ => 0, (), []⟩ =
      some ((some r, true), w') ∧ r.Truthful := by
  have hr : (Prog.run (smallRam.world true idleEnv) (Serving.rng.handle smallRam oneBuffer)
      ⟨fun _ => 0, (), []⟩).map (fun r => r.1) = some (some ⟨4, 4⟩, true) := by decide +kernel
  obtain ⟨⟨_, w'⟩, h, rfl⟩ := Option.map_eq_some_iff.mp hr
  exact ⟨_, w', h, (truthful_iff true .rng smallQueue h).2.mpr (.inl (by decide))⟩

/-- The length of a write request is what was read from the chain: a request of one sector is returned
with the length 513, and one byte was written. -/
theorem write_untruthful :
    (Prog.run (smallRam.handler true) (DescriptorChain.checkedNew 0x1000 2 0) sectorMem).map Prod.fst =
      some (some sectorWrite) ∧ ∃ r w',
    Prog.run (smallRam.world true idleEnv) (Serving.handle smallRam sectorWrite (.block ⟨.Unsafe, []⟩))
      ⟨sectorMem, (), []⟩ = some ((some r, true), w') ∧ r = ⟨513, 1⟩ ∧ ¬ r.Truthful := by
  have hr : (Prog.run (smallRam.world true idleEnv)
      (Serving.handle smallRam sectorWrite (.block ⟨.Unsafe, []⟩)) ⟨sectorMem, (), []⟩).map
      (fun r => r.1) = some (some ⟨513, 1⟩, true) := by decide +kernel
  obtain ⟨⟨_, w'⟩, h, rfl⟩ := Option.map_eq_some_iff.mp hr
  refine ⟨by decide +kernel, _, w', h, rfl, ?_⟩
  rw [Report.truthful_iff_eq]
  decide

end Serving

end Whypa
