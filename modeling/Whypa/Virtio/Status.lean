import Whypa.Virtio.UsedLen

/-!
# Where the status of a block request goes

The block device opens a request (`openRequest`), processes it, and then writes the status where
its writer has got to. That is the chain's last writable byte only for some requests
(`status_last_iff`). What is written is followed in the trace of a run (`stores`).
-/

namespace Whypa

open Framework WProg

variable {ε : Type} {env : Env ε} {ck : Bool} {mm : MemoryManager}

/-! ## The bytes that a run stores -/

/-- The bytes that an action copies into buffers, with their addresses. -/
def Act.stores : Act → List (Nat × Byte)
  | .copyTo host bytes => ((List.range bytes.length).map fun i => host + i).zip bytes
  | _ => []

def stores (t : List ((a : Act) × a.Answer)) : List (Nat × Byte) := t.flatMap fun d => d.1.stores

theorem stores_append (t t' : List ((a : Act) × a.Answer)) : stores (t ++ t') = stores t ++ stores t' :=
  List.flatMap_append

/-- Bytes copied into buffers go to the next addresses, as many as there are. -/
theorem stores_copyIn (bytes : List Byte) (bufs : List VolatileSlice) (w : World ε) :
    stores (Prog.trace (mm.world ck env) (copyIn bytes bufs) w) = (addrs bufs).zip bytes := by
  induction bufs generalizing bytes w with
  | nil => rfl
  | cons vs bufs ih =>
    have hact : Prog.run (mm.world ck env) (act (.copyTo vs.host (bytes.take vs.len))) w =
        some ((), { w with mem := w.mem.write vs.host (bytes.take vs.len) }) := rfl
    obtain ⟨n, w', hrest⟩ : ∃ n w', Prog.run (mm.world ck env) (copyIn (bytes.drop vs.len) bufs)
        { w with mem := w.mem.write vs.host (bytes.take vs.len) } = some (n, w') :=
      ⟨_, _, run_copyIn ck mm env ..⟩
    have hlen : ((List.range vs.len).map fun i => vs.host + i).length = vs.len := by simp
    have hhead : stores (Prog.trace (mm.world ck env) (act (.copyTo vs.host (bytes.take vs.len))) w) =
        ((List.range vs.len).map fun i => vs.host + i).zip bytes := by
      have hstores : stores (Prog.trace (mm.world ck env) (act (.copyTo vs.host (bytes.take vs.len))) w) =
          Act.stores (.copyTo vs.host (bytes.take vs.len)) := List.append_nil _
      have hmin : min (bytes.take vs.len).length vs.len = (bytes.take vs.len).length :=
        min_eq_left (List.length_take_le ..)
      have hzip := zip_take_right ((List.range vs.len).map fun i => vs.host + i) bytes
      rw [hlen] at hzip
      rw [hstores, Act.stores, ← hmin, ← List.take_range, List.map_take, zip_take_left, hzip]
    rw [copyIn, Prog.trace_bind hact, Prog.trace_bind hrest, stores_append, stores_append, ih, hhead,
      addrs_cons, zip_append_left, hlen]
    exact congrArg _ (List.append_nil _)

namespace Writer

variable {wr : Writer}

/-- `write` stores the bytes at the next addresses. -/
theorem stores_write (wr : Writer) (bytes : List Byte) (w : World ε) :
    stores (Prog.trace (mm.world ck env) (wr.write bytes) w) = wr.addrs.zip bytes := by
  have htake := DescriptorChainConsumer.addrs_takeBufs bytes.length wr.buffer.buffers
  have hzip : (Whypa.addrs (DescriptorChainConsumer.takeBufs bytes.length wr.buffer.buffers)).zip bytes =
      wr.addrs.zip bytes := by
    rw [← zip_take_left, htake, zip_take_left]
    rfl
  rw [← hzip]
  unfold write DescriptorChainConsumer.consume
  by_cases hnil : DescriptorChainConsumer.takeBufs bytes.length wr.buffer.buffers = []
  · simp only [hnil, List.isEmpty_nil, if_true]
    rfl
  · simp only [List.isEmpty_iff, hnil, if_false, Prog.bind_assoc]
    rw [Prog.trace_bind (run_copyIn ck mm env ..), stores_append, stores_copyIn]
    refine (congrArg _ ?_).trans (List.append_nil _)
    simp only [Prog.pure_bind]
    split <;> rfl

/-- After the first `write` there are no bytes or no addresses left. -/
theorem stores_writeLoop (ck : Bool) (mm : MemoryManager) (env : Env ε) (hb : wr.Bounded) (fuel : Nat)
    {bytes : List Byte} (hf : bytes.length ≤ fuel) (w : World ε) :
    stores (Prog.trace (mm.world ck env) (writeLoop fuel bytes wr) w) = wr.addrs.zip bytes := by
  induction fuel generalizing bytes wr w with
  | zero =>
    obtain rfl := List.length_eq_zero_iff.mp (Nat.le_zero.mp hf)
    exact List.zip_nil_right.symm
  | succ fuel ih =>
    cases bytes with
    | nil => exact List.zip_nil_right.symm
    | cons b bytes =>
      obtain ⟨wr', hadv, hr⟩ := run_write ck mm env hb (b :: bytes) w
      rw [writeLoop, Prog.trace_bind hr, stores_append, stores_write]
      · refine (congrArg _ ?_).trans (List.append_nil _)
        generalize hn : min (b :: bytes).length wr.availableBytes = n at hadv
        cases n with
        | zero => rfl
        | succ n =>
          have hrest : ((b :: bytes).drop (n + 1)).length ≤ fuel := by
            rw [List.length_cons] at hf
            rw [List.length_drop, List.length_cons]
            omega
          refine (ih (hadv.bounded hb) hrest _).trans ?_
          rw [hadv.addrs]
          rcases min_choice (b :: bytes).length wr.availableBytes with h | h
          · rw [List.drop_eq_nil_of_le (show (b :: bytes).length ≤ n + 1 by omega)]
            exact List.zip_nil_right
          · rw [List.drop_eq_nil_of_le (show wr.addrs.length ≤ n + 1 by rw [length_addrs]; omega)]
            rfl
      · exact List.cons_ne_nil b bytes

/-- The bytes go to the next addresses, as long as there are any. -/
theorem stores_writeAll (ck : Bool) (mm : MemoryManager) (env : Env ε) (hb : wr.Bounded) (bytes : List Byte)
    (w : World ε) :
    stores (Prog.trace (mm.world ck env) (wr.writeAll bytes) w) = wr.addrs.zip bytes :=
  stores_writeLoop ck mm env hb bytes.length (Nat.le_refl _) w

end Writer

/-! ## A request and its status -/

namespace BlockWorker

/-- Serving a chain up to its request: the header, and the streams after it. -/
def openRequest (mm : MemoryManager) (head : DescriptorChain) :
    WProg (Option (RequestHeader × Reader × Writer)) := do
  match ← lift (Reader.new mm head) with
  | .error _ => pure none
  | .ok reader =>
    match ← lift (Writer.new mm head) with
    | .error _ => pure none
    | .ok writer =>
      match ← reader.readObj RequestHeader with
      | (.error _, _) => pure none
      | (.ok header, reader) => pure (some (header, reader, writer))

def statusOf : Except RequestError Nat → Byte
  | .ok _ => VIRTIO_BLK_S_OK
  | .error _ => VIRTIO_BLK_S_IOERR

/-- The rest of serving it. -/
def answer (disk : DiskProperties) (head : DescriptorChain) (q : Queue) :
    Option (RequestHeader × Reader × Writer) → WProg (Queue × Bool)
  | none => pure (q, false)
  | some (header, reader, writer) => do
    let (x, _, writer) ← processRequest disk header reader writer
    let _ ← writer.writeAll [statusOf x]
    let q ← addUsed q head.index (resultLen x + 1)
    pure (q, true)

theorem serve_eq_answer (mm : MemoryManager) (disk : DiskProperties) (head : DescriptorChain) (q : Queue) :
    serve mm disk head q = openRequest mm head >>= answer disk head q := by
  refine bind_split _ fun x => ?_
  cases x with
  | error e => rfl
  | ok reader =>
    refine bind_split _ fun x => ?_
    cases x with
    | error e => rfl
    | ok writer =>
      refine bind_split _ fun (x, reader) => ?_
      cases x with
      | error e => rfl
      | ok header =>
        refine congrArg (processRequest disk header reader writer >>= ·) (funext fun (x, reader, writer) => ?_)
        cases x <;> rfl

/-- A request that is opened has the chain's header and its streams; nothing has changed. -/
theorem run_openRequest {head : DescriptorChain} {header : RequestHeader} {reader : Reader} {writer : Writer}
    {w w' : World ε}
    (h : Prog.run (mm.world ck env) (openRequest mm head) w = some (some (header, reader, writer), w')) :
    w' = w ∧ head.writableOk mm w.mem = true ∧ writer = head.writer mm w.mem ∧
      header = headerOf mm w.mem head ∧ reader.Bounded ∧
      reader.addrs = (head.readAddrs mm w.mem).drop (FromBytes.size RequestHeader) := by
  have h := run_of_checked h
  obtain ⟨x, hr, hx⟩ := run_readerNew env head.tableFits_false w
  rw [openRequest, Prog.run_bind, hr, Option.bind_some] at h
  rcases hx with ⟨hrd, rfl⟩ | ⟨-, e, rfl⟩
  · obtain ⟨x, hr, hx⟩ := run_writerNew env head.tableFits_false w
    dsimp only at h
    rw [Prog.run_bind, hr, Option.bind_some] at h
    rcases hx with ⟨hwr, rfl⟩ | ⟨-, e, rfl⟩
    · obtain ⟨x, reader', hr, hx⟩ := run_readHeader false env hrd
      dsimp only at h
      rw [Prog.run_bind, hr, Option.bind_some] at h
      rcases hx with ⟨-, rfl, hb, hsrc⟩ | ⟨-, e, rfl⟩
      · obtain ⟨hx, rfl⟩ := Prod.mk.inj (Option.some.inj h)
        cases hx
        exact ⟨rfl, hwr, rfl, rfl, hb, hsrc⟩
      · cases (Prod.mk.inj (Option.some.inj h)).1
    · cases (Prod.mk.inj (Option.some.inj h)).1
  · cases (Prod.mk.inj (Option.some.inj h)).1

/-- The status of the result `x` is written to the last of the addresses `as`, and to no other. -/
def StatusLast (ck : Bool) (mm : MemoryManager) (env : Env ε) (as : List Nat) (x : Except RequestError Nat)
    (writer : Writer) (w : World ε) : Prop :=
  ∃ y writer' w' last, Prog.run (mm.world ck env) (writer.writeAll [statusOf x]) w = some ((y, writer'), w') ∧
    as.getLast? = some last ∧
    stores (Prog.trace (mm.world ck env) (writer.writeAll [statusOf x]) w) = [(last, statusOf x)] ∧
    w'.mem last = statusOf x

/-- Byte `n` of the writable area is its last byte; the guest may have made it so by overlapping buffers. -/
def LastAt (as : List Nat) (n : Nat) : Prop := as[n]? = as.getLast?

instance (as : List Nat) (n : Nat) : Decidable (LastAt as n) := inferInstanceAs (Decidable (_ = _))

/-- When the status goes to the last writable byte, by the type of the request. -/
def StatusFits (env : Env ε) (disk : DiskProperties) (header : RequestHeader) (bufs : List VolatileSlice)
    (w : World ε) : Prop :=
  if header.requestType = VIRTIO_BLK_T_IN ∧ ((addrs bufs).length - 1) % 512 = 0 ∧
      (env (.readv (dataBytes bufs) (header.sector * 512)) w.ext).1.1.isOk then
    dataBytes bufs + 1 = (addrs bufs).length
  else if header.requestType = VIRTIO_BLK_T_GET_ID ∧ disk.imageId.length ≤ (addrs bufs).length then
    LastAt (addrs bufs) disk.imageId.length
  else LastAt (addrs bufs) 0

theorem statusFits_iff {disk : DiskProperties} {header : RequestHeader} {bufs : List VolatileSlice}
    (h1 : 1 ≤ (addrs bufs).length) (w : World ε) :
    StatusFits env disk header bufs w ↔ LastAt (addrs bufs) (position env disk header bufs w) := by
  unfold StatusFits position
  by_cases hin : header.requestType = VIRTIO_BLK_T_IN
  · have hid : header.requestType ≠ VIRTIO_BLK_T_GET_ID := by
      rw [hin]
      decide
    simp only [hin, true_and, if_true]
    split
    · obtain ⟨hge, hle⟩ := dataBytes_le bufs
      rw [LastAt, List.getLast?_eq_getElem?]
      refine ⟨fun h => congrArg _ (by omega), fun h => ?_⟩
      by_contra hne
      rw [List.getElem?_eq_none (by omega), List.getElem?_eq_getElem (by omega)] at h
      cases h
    · rw [if_neg fun h => absurd h.1 (by decide)]
  · simp only [hin, false_and, if_false]
    by_cases hid : header.requestType = VIRTIO_BLK_T_GET_ID
    · simp only [hid, true_and, if_true]
      split <;> rfl
    · simp only [hid, false_and, if_false]

/-- The status goes to the next address of the writer. -/
theorem statusLast_iff_head {writer : Writer} (hb : writer.Bounded) (as : List Nat)
    (h1 : as ≠ []) (x : Except RequestError Nat) (w : World ε) :
    StatusLast ck mm env as x writer w ↔ writer.addrs.head? = as.getLast? := by
  obtain ⟨last, hlast⟩ : ∃ last, as.getLast? = some last := ⟨_, List.getLast?_eq_some_getLast h1⟩
  have hstores := Writer.stores_writeAll ck mm env hb [statusOf x] w
  constructor
  · rintro ⟨y, writer', w', last, hr, hl, hs, -⟩
    rw [hstores] at hs
    rw [hl]
    cases hw : writer.addrs with
    | nil =>
      rw [hw] at hs
      cases hs
    | cons a as' =>
      rw [hw, List.zip_cons_cons] at hs
      rw [List.head?_cons, (Prod.mk.inj (List.cons.inj hs).1).1]
  · intro h
    rw [hlast] at h
    obtain ⟨as', hw⟩ := List.head?_eq_some_iff.mp h
    obtain ⟨y, writer', hr, -, -⟩ := Writer.run_writeAll ck mm env hb [statusOf x] w
    refine ⟨y, writer', _, last, hr, hlast, ?_, ?_⟩
    · rw [hstores, hw, List.zip_cons_cons, List.zip_nil_right]
    · rw [hw]
      show (w.mem.scatter (last :: as') [statusOf x]) last = statusOf x
      rw [Mem.scatter, Mem.scatter_nil]
      exact @Mem.write_apply_in w.mem last 0 [statusOf x] Nat.zero_lt_one

/-- The status of a request goes to the chain's last writable byte, and to no earlier one, exactly if it fits
there. It is written before the chain is returned. -/
theorem status_last_iff {disk : DiskProperties} {head : DescriptorChain} (q : Queue) {header : RequestHeader}
    {reader reader' : Reader} {writer writer' : Writer} {x : Except RequestError Nat} {w w₁ w₂ : World ε}
    (hopen : Prog.run (mm.world ck env) (openRequest mm head) w = some (some (header, reader, writer), w₁))
    (hreq : Prog.run (mm.world ck env) (processRequest disk header reader writer) w₁ =
      some ((x, reader', writer'), w₂)) (h1 : 1 ≤ head.writableBytes mm w.mem) :
    serve mm disk head q = openRequest mm head >>= answer disk head q ∧
      (StatusLast ck mm env (head.writeAddrs mm w.mem) x writer' w₂ ↔
        StatusFits env disk header (head.writer mm w.mem).buffer.buffers w) := by
  refine ⟨serve_eq_answer mm disk head q, ?_⟩
  obtain ⟨rfl, hwr, rfl, rfl, hb, -⟩ := run_openRequest hopen
  obtain ⟨hbw, havail⟩ := writer_of_writableOk hwr
  obtain ⟨l, n, ⟨x', r', wr', w', hr, -, hadv⟩, rfl, -⟩ := ends_processRequest disk _ hb hbw w₁
  obtain ⟨hx, rfl⟩ := Prod.mk.inj (Option.some.inj (hr.symm.trans (run_of_checked hreq)))
  cases hx
  have hlen : (head.writeAddrs mm w₁.mem).length = (head.writer mm w₁.mem).availableBytes :=
    Writer.length_addrs _
  have hne : head.writeAddrs mm w₁.mem ≠ [] := fun h => by
    rw [h, List.length_nil] at hlen
    omega
  rw [statusLast_iff_head (hadv.bounded hbw) _ hne, hadv.addrs, List.head?_drop,
    statusFits_iff (show 1 ≤ (head.writeAddrs mm w₁.mem).length by omega)]
  rfl

theorem open_sectorWrite :
    Prog.run (smallRam.world true idleEnv) (openRequest smallRam Serving.sectorWrite)
      ⟨Serving.sectorMem, (), []⟩ =
        some (some (⟨1, 0⟩, ⟨⟨[⟨0x4010, 512⟩], 16⟩⟩, ⟨⟨[⟨0x5000, 1⟩], 0⟩⟩), ⟨Serving.sectorMem, (), []⟩) := by
  have hopen : (Prog.run (smallRam.world true idleEnv) (openRequest smallRam Serving.sectorWrite)
      ⟨Serving.sectorMem, (), []⟩).map Prod.fst =
      some (some (⟨1, 0⟩, ⟨⟨[⟨0x4010, 512⟩], 16⟩⟩, ⟨⟨[⟨0x5000, 1⟩], 0⟩⟩)) := by decide +kernel
  obtain ⟨⟨_, w⟩, hr, rfl⟩ := Option.map_eq_some_iff.mp hopen
  rw [hr, (run_openRequest hr).1]

/-- One sector is written, and the only writable byte is for the status. -/
theorem status_last_sectorWrite : ∃ header reader writer x reader' writer' w₁ w₂,
    Prog.run (smallRam.world true idleEnv) (openRequest smallRam Serving.sectorWrite)
      ⟨Serving.sectorMem, (), []⟩ = some (some (header, reader, writer), w₁) ∧
    Prog.run (smallRam.world true idleEnv) (processRequest ⟨.Unsafe, []⟩ header reader writer) w₁ =
      some ((x, reader', writer'), w₂) ∧
    StatusLast true smallRam idleEnv (Serving.sectorWrite.writeAddrs smallRam Serving.sectorMem) x
      writer' w₂ := by
  have hreq : (Prog.run (smallRam.world true idleEnv) (processRequest ⟨.Unsafe, []⟩ ⟨1, 0⟩
      ⟨⟨[⟨0x4010, 512⟩], 16⟩⟩ ⟨⟨[⟨0x5000, 1⟩], 0⟩⟩) ⟨Serving.sectorMem, (), []⟩).map Prod.fst =
      some (.ok 512, ⟨⟨[], 528⟩⟩, ⟨⟨[⟨0x5000, 1⟩], 0⟩⟩) := by decide +kernel
  obtain ⟨⟨_, w₂⟩, hreq, rfl⟩ := Option.map_eq_some_iff.mp hreq
  have h1 : 1 ≤ Serving.sectorWrite.writableBytes smallRam Serving.sectorMem := by decide +kernel
  have hlast : LastAt (addrs (Serving.sectorWrite.writer smallRam Serving.sectorMem).buffer.buffers) 0 := by
    decide +kernel
  refine ⟨_, _, _, _, _, _, _, w₂, open_sectorWrite, hreq,
    (status_last_iff smallQueue open_sectorWrite hreq h1).2.mpr ?_⟩
  rwa [StatusFits, if_neg fun h => absurd h.1 (by decide), if_neg fun h => absurd h.1 (by decide)]

/-- The head of a chain of a header and two bytes to write to. -/
def shortRead : DescriptorChain :=
  { descTable := 0x1000, queueSize := 2, ttl := 2, index := 0,
    addr := 0x4000, len := 16, flags := 1, next := 1 }

/-- The memory of the chain: its descriptors, and a header of zeros, which is a read request. -/
def shortMem : Mem :=
  let m : Mem := fun _ => 0
  let m := (m.putWord 0x1000 (0x4000 : BitVec 64)).putWord 0x1008 (16 : BitVec 32)
  let m := (m.putWord 0x100c (1 : BitVec 16)).putWord 0x100e (1 : BitVec 16)
  let m := (m.putWord 0x1010 (0x5000 : BitVec 64)).putWord 0x1018 (2 : BitVec 32)
  m.putWord 0x101c (2 : BitVec 16)

/-- The request is rejected, and the error is written to its first writable byte and not to its last. -/
theorem status_misplaced :
    (Prog.run (smallRam.handler true) (DescriptorChain.checkedNew 0x1000 2 0) shortMem).map Prod.fst =
      some (some shortRead) ∧ ∃ header reader writer x reader' writer' w₁ w₂,
    Prog.run (smallRam.world true idleEnv) (openRequest smallRam shortRead) ⟨shortMem, (), []⟩ =
      some (some (header, reader, writer), w₁) ∧
    Prog.run (smallRam.world true idleEnv) (processRequest ⟨.Unsafe, []⟩ header reader writer) w₁ =
      some ((x, reader', writer'), w₂) ∧ 1 ≤ shortRead.writableBytes smallRam shortMem ∧
    ¬ StatusLast true smallRam idleEnv (shortRead.writeAddrs smallRam shortMem) x writer' w₂ := by
  have hopen : (Prog.run (smallRam.world true idleEnv) (openRequest smallRam shortRead) ⟨shortMem, (), []⟩).map
      Prod.fst = some (some (⟨0, 0⟩, ⟨⟨[], 16⟩⟩, ⟨⟨[⟨0x5000, 2⟩], 0⟩⟩)) := by decide +kernel
  obtain ⟨⟨_, w₁⟩, hopen, rfl⟩ := Option.map_eq_some_iff.mp hopen
  have has : shortRead.writeAddrs smallRam shortMem = [0x5000, 0x5001] := by decide +kernel
  refine ⟨by decide +kernel, _, _, _, .error .invalidDataLength, ⟨⟨[], 16⟩⟩, ⟨⟨[⟨0x5000, 2⟩], 0⟩⟩, w₁, w₁,
    hopen, rfl, by decide +kernel, ?_⟩
  rw [has, statusLast_iff_head (by decide) _ (List.cons_ne_nil _ _)]
  decide

end BlockWorker

end Whypa
