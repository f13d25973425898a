import Whypa.Virtio.Streams

/-!
# Serving one chain

What serving one chain does (`Served`): it returns the chain to the guest by one
call of `add_used`, or, when the worker cannot create the streams it needs, it
returns nothing; besides the used ring it writes to the chain's writable buffers
only, and it leaves the queue's position. One lemma for each function that
serves a chain (`served`, `servedTx`, `servedRx`) says which of the two happens.
-/

namespace Whypa

open Framework WProg

variable {ε : Type} {env : Env ε} {mm : MemoryManager}

/-! ## Well-formed chains -/

namespace DescriptorChain

/-- The readable descriptors of the chain lie in guest memory. -/
def readableOk (mm : MemoryManager) (m : Mem) (c : DescriptorChain) : Bool :=
  (c.readable mm m).all (mapped mm)

/-- The writable ones do. -/
def writableOk (mm : MemoryManager) (m : Mem) (c : DescriptorChain) : Bool :=
  (c.writable mm m).all (mapped mm)

def readableBytes (mm : MemoryManager) (m : Mem) (c : DescriptorChain) : Nat :=
  ((c.readable mm m).map fun d => d.len.toNat).sum

def writableBytes (mm : MemoryManager) (m : Mem) (c : DescriptorChain) : Nat :=
  ((c.writable mm m).map fun d => d.len.toNat).sum

/-- `x` is an address of the writable buffers of the chain. -/
def InBuffers (mm : MemoryManager) (m : Mem) (c : DescriptorChain) (x : Nat) : Prop :=
  ∃ d ∈ c.writable mm m, ∃ i < (buffer mm d).len, x = (buffer mm d).host + i

theorem within_inBuffers (mm : MemoryManager) (m : Mem) (c : DescriptorChain) :
    Within (InBuffers mm m c) ((c.writable mm m).map (buffer mm)) := by
  intro vs hvs i hi
  obtain ⟨d, hd, rfl⟩ := List.mem_map.mp hvs
  exact ⟨d, hd, i, hi, rfl⟩

end DescriptorChain

theorem len_buffer {d : DescriptorChain} (h : mapped mm d = true) :
    (buffer mm d).len = d.len.toNat := by
  unfold mapped at h
  unfold buffer
  cases hf : mm.findRegion d.addr with
  | none => rw [hf] at h; cases h
  | some r => rfl

theorem sum_len_buffer {ds : List DescriptorChain} (h : ds.all (mapped mm) = true) :
    ((ds.map (buffer mm)).map VolatileSlice.len).sum = (ds.map fun d => d.len.toNat).sum := by
  rw [List.map_map]
  refine congrArg List.sum (List.map_congr_left fun d hd => ?_)
  exact len_buffer (List.all_eq_true.mp h d hd)

theorem sum_len_lt (ds : List DescriptorChain) (hl : ds.length ≤ 2 ^ 16) :
    (ds.map fun d => d.len.toNat).sum < 2 ^ 64 := by
  have h : (ds.map fun d => d.len.toNat).sum ≤ ds.length * 2 ^ 32 := by
    clear hl
    induction ds with
    | nil => exact Nat.zero_le _
    | cons d ds ih =>
      have := d.len.isLt
      rw [List.map_cons, List.sum_cons, List.length_cons]
      omega
  omega

namespace DescriptorChain

/-- The streams of a chain whose descriptors lie in guest memory. -/
def reader (mm : MemoryManager) (m : Mem) (c : DescriptorChain) : Reader :=
  ⟨⟨(c.readable mm m).map (buffer mm), 0⟩⟩

def writer (mm : MemoryManager) (m : Mem) (c : DescriptorChain) : Writer :=
  ⟨⟨(c.writable mm m).map (buffer mm), 0⟩⟩

/-- The addresses that the device reads from, in order. -/
def readAddrs (mm : MemoryManager) (m : Mem) (c : DescriptorChain) : List Nat := (c.reader mm m).addrs

/-- Those that it writes to. -/
def writeAddrs (mm : MemoryManager) (m : Mem) (c : DescriptorChain) : List Nat := (c.writer mm m).addrs

end DescriptorChain

/-- A reader of a chain whose readable descriptors are mapped gives their bytes. -/
theorem reader_of_readableOk {m : Mem} {c : DescriptorChain} (h : c.readableOk mm m = true) :
    (c.reader mm m).Bounded ∧ (c.reader mm m).availableBytes = c.readableBytes mm m := by
  have hs : (c.reader mm m).availableBytes = c.readableBytes mm m := sum_len_buffer h
  refine ⟨?_, hs⟩
  show 0 + (c.reader mm m).availableBytes < 2 ^ 64
  rw [hs, Nat.zero_add]
  exact sum_len_lt _ ((List.takeWhile_sublist _).length_le.trans (DescriptorChain.length_chain c))

/-- A writer of a chain whose writable descriptors are mapped has room for as many. -/
theorem writer_of_writableOk {m : Mem} {c : DescriptorChain} (h : c.writableOk mm m = true) :
    (c.writer mm m).Bounded ∧ (c.writer mm m).availableBytes = c.writableBytes mm m := by
  have hs : (c.writer mm m).availableBytes = c.writableBytes mm m := sum_len_buffer h
  refine ⟨?_, hs⟩
  show 0 + (c.writer mm m).availableBytes < 2 ^ 64
  rw [hs, Nat.zero_add]
  exact sum_len_lt _ ((List.dropWhile_sublist _).length_le.trans (DescriptorChain.length_chain c))

/-- A worker has the stream `s` of a chain exactly if `can`. -/
def Opened {σ : Type} (can : Bool) (s : σ) (x : Except ChainError σ) : Prop :=
  (can = true ∧ x = .ok s) ∨ (can = false ∧ ∃ e, x = .error e)

section
variable {ck : Bool} {c : DescriptorChain}

/-- A chain has a reader exactly if its readable descriptors are mapped. -/
theorem run_readerNew (env : Env ε) (hc : c.TableFits ck) (w : World ε) :
    ∃ x, Prog.run (mm.world ck env) (lift (Reader.new mm c)) w = some (x, w) ∧
      Opened (c.readableOk mm w.mem) (c.reader mm w.mem) x := by
  obtain ⟨r, hs, hr⟩ := Reader.run_new mm c w.mem
  refine ⟨_, run_lift_of_always (Reader.always_new mm hc) hr, ?_⟩
  rcases hs with ⟨ha, rfl⟩ | ⟨ha, e, rfl⟩
  · exact .inl ⟨ha, rfl⟩
  · exact .inr ⟨ha, e, rfl⟩

/-- It has a writer exactly if its writable descriptors are. -/
theorem run_writerNew (env : Env ε) (hc : c.TableFits ck) (w : World ε) :
    ∃ x, Prog.run (mm.world ck env) (lift (Writer.new mm c)) w = some (x, w) ∧
      Opened (c.writableOk mm w.mem) (c.writer mm w.mem) x := by
  obtain ⟨r, hs, hr⟩ := Writer.run_new mm c w.mem
  refine ⟨_, run_lift_of_always (Writer.always_new mm hc) hr, ?_⟩
  rcases hs with ⟨ha, rfl⟩ | ⟨ha, e, rfl⟩
  · exact .inl ⟨ha, rfl⟩
  · exact .inr ⟨ha, e, rfl⟩

end

/-! ## Returning a chain -/

namespace Queue

theorem always_addUsed (mm : MemoryManager) (q : Queue) (i : BitVec 16) (len : BitVec 32) :
    Prog.Always (mm.handler false) (fun _ => True)
      (fun r => q.SameConfig r.2 ∧ r.2.nextAvail = q.nextAvail) (q.addUsed i len) := by
  have hp : Prog.Always (mm.handler false) (fun _ => True)
      (fun r => q.SameConfig r.2 ∧ r.2.nextAvail = q.nextAvail) q.publishUsed := by
    unfold publishUsed
    simp only
    split
    · exact ⟨⟨rfl, rfl, rfl, rfl, rfl, rfl, rfl⟩, rfl⟩
    · refine ⟨trivial, handler_unchecked _, fun _ _ _ _ => ?_⟩
      exact ⟨⟨rfl, rfl, rfl, rfl, rfl, rfl, rfl⟩, rfl⟩
  unfold addUsed
  split
  · exact ⟨.refl q, rfl⟩
  simp only
  split
  · exact ⟨.refl q, rfl⟩
  · exact ⟨trivial, handler_unchecked _, fun _ _ _ _ => hp⟩

/-- `addUsed` writes to the used ring only. -/
theorem run_addUsed_frame {q : Queue} {i : BitVec 16} {len : BitVec 32} {m m' : Mem} {us : Nat}
    {r : Except QueueError Unit × Queue} (hu : mm.Backs q.usedRing (6 + 8 * q.size.toNat) us)
    (hr : Prog.run (mm.handler false) (q.addUsed i len) m = some (r, m')) {x : Nat}
    (hx : x < us ∨ us + (6 + 8 * q.size.toNat) ≤ x) : m' x = m x := by
  by_cases hi : i < q.size
  · have h0 : 0 < q.size.toNat := by have := BitVec.lt_def.mp hi; omega
    have hlt := Nat.mod_lt q.nextUsed.toNat h0
    rw [Prog.run_of_next (next_addUsed hu hi len), Prog.run_of_next (next_publishUsed hu)] at hr
    obtain ⟨-, rfl⟩ := Prod.mk.inj (Option.some.inj hr)
    have h2 : (leBytes (16 / 8) (q.nextUsed + 1).toNat).length = 2 := length_leBytes ..
    rw [Mem.putWord, Mem.write_apply (by rw [h2]; omega),
      writeElement_apply (by unfold usedSlot; omega)]
  · rw [addUsed, if_pos (BitVec.not_lt.mp hi)] at hr
    obtain ⟨-, rfl⟩ := Prod.mk.inj (Option.some.inj hr)
    rfl

end Queue

/-- What serving `head` did to the queue and the world; `ok` says whether the
chain was returned, `S` contains the memory written besides the used ring. -/
structure Served (mm : MemoryManager) (S : Nat → Prop) (ok : Bool) (head : DescriptorChain)
    (q q' : Queue) (w w' : World ε) : Prop where
  log : w'.log = w.log ++ if ok then [.used head.index] else []
  config : q.SameConfig q'
  nextAvail : q'.nextAvail = q.nextAvail
  mem : ∀ us, mm.Backs q.usedRing (6 + 8 * q.size.toNat) us → ∀ x, ¬ S x →
    (x < us ∨ us + (6 + 8 * q.size.toNat) ≤ x) → w'.mem x = w.mem x

/-- Run from `w`, `p` serves `head`. -/
def Serves (mm : MemoryManager) (env : Env ε) (S : Nat → Prop) (ok : Bool) (head : DescriptorChain)
    (q : Queue) {β : Type} (p : WProg (Queue × β)) (w : World ε) : Prop :=
  ∃ q' x w', Prog.run (mm.world false env) p w = some ((q', x), w') ∧ Served mm S ok head q q' w w'

section
variable {S : Nat → Prop} {ok : Bool} {head : DescriptorChain} {q : Queue} {α β : Type} {w : World ε}

theorem Serves.bind {Q : α → Prop} {p : WProg α} {f : α → WProg (Queue × β)}
    (hp : Calm mm env S Q p) (hf : ∀ x, Q x → ∀ w, Serves mm env S ok head q (f x) w) :
    Serves mm env S ok head q (p >>= f) w := by
  obtain ⟨x, w₁, hr, hx, hk⟩ := hp.run w
  obtain ⟨q', y, w', hr', hs⟩ := hf x hx w₁
  refine ⟨q', y, w', ?_, ?_, hs.config, hs.nextAvail, fun us hu x hS hx => ?_⟩
  · rw [Prog.run_bind, hr]
    exact hr'
  · rw [hs.log, hk.log]
  · rw [hs.mem us hu x hS hx, hk.mem x hS]

/-- A program before that changes nothing. -/
theorem Serves.of_run {p : WProg α} {x : α} {f : α → WProg (Queue × β)}
    (hr : Prog.run (mm.world false env) p w = some (x, w))
    (hf : Serves mm env S ok head q (f x) w) : Serves mm env S ok head q (p >>= f) w := by
  unfold Serves
  rw [Prog.run_bind, hr]
  exact hf

theorem serves_nothing (x : β) : Serves mm env S false head q (pure (q, x)) w :=
  ⟨q, x, w, rfl, (List.append_nil _).symm, .refl q, rfl, fun _ _ _ _ _ => rfl⟩

theorem serves_addUsed (len : Nat) (y : β) : Serves mm env S true head q
    (addUsed q head.index len >>= fun q => pure (q, y)) w := by
  let w₁ : World ε := { w with log := w.log ++ [.used head.index] }
  obtain ⟨r, m', hr, hc, hn⟩ := (Queue.always_addUsed mm q head.index (BitVec.ofNat 32 len)).run w.mem
  refine ⟨r.2, y, { w₁ with mem := m' }, ?_, rfl, hc, hn, fun us hu x _ hx => ?_⟩
  · have h1 : Prog.run (mm.world false env) (act (.used head.index)) w = some ((), w₁) := rfl
    rw [Prog.run_bind, addUsed, Prog.run_bind, h1, Option.bind_some, Prog.run_bind, run_lift, hr]
    rfl
  · exact Queue.run_addUsed_frame hu hr hx

/-- With the stream that the worker opens; without one nothing is returned. -/
theorem serves_opened {σ : Type} {can : Bool} {s : σ} {o : VProg (Except ChainError σ)}
    {p : Except ChainError σ → WProg (Queue × β)}
    (ho : ∃ x, Prog.run (mm.world false env) (lift o) w = some (x, w) ∧ Opened can s x)
    (herr : ∀ e, Serves mm env S false head q (p (.error e)) w)
    (hok : can = true → Serves mm env S ok head q (p (.ok s)) w) :
    Serves mm env S (can && ok) head q (lift o >>= p) w := by
  obtain ⟨x, hr, ⟨ha, rfl⟩ | ⟨ha, e, rfl⟩⟩ := ho
  · rw [ha, Bool.true_and]
    exact Serves.of_run hr (hok ha)
  · rw [ha, Bool.false_and]
    exact Serves.of_run hr (herr e)

end

/-! ## The workers -/

namespace BlockWorker

/-- A sector's offset, if it fits. -/
theorem mul_sector {sector : BitVec 64} (h : sector.toNat * 512 < 2 ^ 64) :
    VProg.mul sector 512 = pure (sector * 512) ∧ (sector * 512).toNat = sector.toNat * 512 := by
  refine ⟨VProg.mul_of_lt h, ?_⟩
  rw [BitVec.toNat_mul, show (512 : BitVec 64).toNat = 512 from rfl, Nat.mod_eq_of_lt h]

/-- The writable bytes but the one for the status, if there is one. -/
theorem sub_status {writer : Writer} (hw : writer.Bounded) (h1 : 1 ≤ writer.availableBytes) :
    VProg.sub (BitVec.ofNat 64 writer.availableBytes) 1 = pure (BitVec.ofNat 64 writer.availableBytes - 1) ∧
      (BitVec.ofNat 64 writer.availableBytes - 1).toNat = writer.availableBytes - 1 := by
  refine ⟨VProg.sub_of_le ?_, toNat_ofNat_sub_one h1 hw.room_lt⟩
  rw [BitVec.le_def, BitVec.toNat_ofNat, Nat.mod_eq_of_lt hw.room_lt]
  exact h1

section
variable {disk : DiskProperties} {header : RequestHeader} {reader : Reader} {writer : Writer}

/-- A read, if there is a byte for the status. -/
theorem processRequest_in (ht : header.requestType = VIRTIO_BLK_T_IN) (hw : writer.Bounded)
    (h1 : 1 ≤ writer.availableBytes) : processRequest disk header reader writer =
      if (writer.availableBytes - 1) % 512 ≠ 0 then pure (.error .invalidDataLength, reader, writer)
      else lift (VProg.mul header.sector 512) >>= fun offset =>
        writer.writeFromAt (writer.availableBytes - 1) offset >>= fun y =>
          pure (y.1.mapError .writingToDescriptor, reader, y.2) := by
  obtain ⟨hsub, hdata⟩ := sub_status hw h1
  rw [processRequest, if_pos ht, hsub, ← hdata]
  rfl

theorem processRequest_out (ht : header.requestType = VIRTIO_BLK_T_OUT) :
    processRequest disk header reader writer =
      if reader.availableBytes % 512 ≠ 0 then pure (.error .invalidDataLength, reader, writer)
      else lift (VProg.mul header.sector 512) >>= fun offset =>
        reader.readToAt reader.availableBytes offset >>= fun y =>
          pure (y.1.mapError .readingFromDescriptor, y.2, writer) := by
  rw [processRequest, if_neg (by rw [ht]; decide), if_pos ht]

end

section
variable {S : Nat → Prop} {reader : Reader} {writer : Writer}

theorem calm_processDiscard (h : Within S writer.buffer.buffers)
    {op : DiscardWriteData → BitVec 64 → BitVec 64 → WProg (Except RequestError Unit)}
    (hop : ∀ d offset length, Calm mm env S (fun _ => True) (op d offset length)) :
    Calm mm env S (fun r => Within S r.2.2.buffer.buffers) (processDiscard reader writer op) := by
  refine (Reader.calm_readObj DiscardWriteData reader).bind fun x _ => ?_
  rcases x with ⟨e | d, r⟩
  · exact h
  refine (calm_mul _ _).bind fun offset _ => ?_
  refine (calm_mul _ _).bind fun length _ => ?_
  exact (hop d offset length).bind fun _ _ => h

/-- A request writes to the buffers of its writer only. -/
theorem calm_processRequest (disk : DiskProperties) (header : RequestHeader)
    (h : Within S writer.buffer.buffers) :
    Calm mm env S (fun r => Within S r.2.2.buffer.buffers)
      (processRequest disk header reader writer) := by
  unfold processRequest
  split
  · refine (calm_sub _ _).bind fun dataLen _ => ?_
    split
    · exact h
    refine (calm_mul _ _).bind fun offset _ => ?_
    exact (Writer.calm_writeFromAt h _ offset).bind fun _ hx => hx
  split
  · split
    · exact h
    refine (calm_mul _ _).bind fun offset _ => ?_
    exact (Reader.calm_readToAt reader _ offset).bind fun _ _ => h
  split
  · split
    · refine (calm_io trivial _).bind fun x _ => ?_
      rcases x with e | _
      · exact h
      · exact (calm_io trivial _).bind fun _ _ => h
    · exact h
  split
  · split
    · exact h
    · exact (Writer.calm_writeAll h _).bind fun _ hx => hx
  split
  · exact calm_processDiscard h fun d offset length => (calm_io trivial _).bind fun _ _ => trivial
  split
  · refine calm_processDiscard h fun d offset length => ?_
    split
    · exact (calm_io trivial _).bind fun _ _ => trivial
    · exact (calm_io trivial _).bind fun _ _ => trivial
  · exact h

end

/-- Both sides of the chain lie in guest memory, and the header of a request
can be read from it. -/
def wellFormed (mm : MemoryManager) (m : Mem) (c : DescriptorChain) : Bool :=
  c.readableOk mm m && (c.writableOk mm m && decide (16 ≤ c.readableBytes mm m))

/-- The header of the request in a chain. -/
def headerOf (mm : MemoryManager) (m : Mem) (c : DescriptorChain) : RequestHeader :=
  FromBytes.ofBytes ((m.gather (c.readAddrs mm m)).take (FromBytes.size RequestHeader))

/-- The header is read exactly if there are enough bytes. -/
theorem run_readHeader (ck : Bool) (env : Env ε) {c : DescriptorChain} {w : World ε}
    (h : c.readableOk mm w.mem = true) :
    ∃ x reader, Prog.run (mm.world ck env) ((c.reader mm w.mem).readObj RequestHeader) w =
        some ((x, reader), w) ∧
      ((16 ≤ c.readableBytes mm w.mem ∧ x = .ok (headerOf mm w.mem c) ∧ reader.Bounded ∧
          reader.addrs = (c.readAddrs mm w.mem).drop (FromBytes.size RequestHeader)) ∨
        (c.readableBytes mm w.mem < 16 ∧ ∃ e, x = .error e)) := by
  obtain ⟨hb, ha⟩ := reader_of_readableOk h
  obtain ⟨x, reader, hr, hadv, hok, herr⟩ := Reader.run_readObj ck mm env RequestHeader hb w
  rw [ha] at hok herr hadv
  refine ⟨x, reader, hr, ?_⟩
  rcases Nat.lt_or_ge (c.readableBytes mm w.mem) 16 with hlt | hge
  · exact .inr ⟨hlt, herr hlt⟩
  · rw [min_eq_left (show FromBytes.size RequestHeader ≤ _ from hge)] at hadv
    exact .inl ⟨hge, hok hge, hadv.bounded hb, hadv.addrs⟩

theorem served (disk : DiskProperties) (head : DescriptorChain) (q : Queue) (w : World ε) :
    Serves mm env (head.InBuffers mm w.mem) (wellFormed mm w.mem head) head q
      (serve mm disk head q) w := by
  refine serves_opened (run_readerNew env head.tableFits_false w)
    (fun e => serves_nothing false) fun hrd => ?_
  refine serves_opened (run_writerNew env head.tableFits_false w)
    (fun e => serves_nothing false) fun hwr => ?_
  obtain ⟨x, reader, hr, hx⟩ := run_readHeader false env hrd
  refine Serves.of_run hr ?_
  rcases hx with ⟨hle, rfl, -⟩ | ⟨hlt, e, rfl⟩
  · rw [decide_eq_true hle]
    have hw := DescriptorChain.within_inBuffers mm w.mem head
    refine Serves.bind (calm_processRequest disk _ hw) fun x hx _ => ?_
    exact Serves.bind (Writer.calm_writeAll hx _) fun _ _ _ => serves_addUsed _ _
  · rw [decide_eq_false (Nat.not_le_of_lt hlt)]
    exact serves_nothing false

end BlockWorker

namespace RngWorker

theorem served (head : DescriptorChain) (q : Queue) (w : World ε) :
    Serves mm env (head.InBuffers mm w.mem) (head.writableOk mm w.mem) head q
      (serve mm head q) w := by
  rw [← Bool.and_true (head.writableOk mm w.mem)]
  refine serves_opened (run_writerNew env head.tableFits_false w)
    (fun e => serves_nothing false) fun hwr => ?_
  have hw := DescriptorChain.within_inBuffers mm w.mem head
  dsimp only
  split
  · exact serves_addUsed _ _
  refine Serves.bind (calm_io trivial _) fun buf _ _ => ?_
  cases buf with
  | none => exact serves_addUsed _ _
  | some buf => exact Serves.bind (Writer.calm_writeAll hw _) fun _ _ _ => serves_addUsed _ _

end RngWorker

namespace ConsoleWorker

theorem calm_emit (S : Nat → Prop) (reader : Reader) :
    Calm mm env S (fun _ => True) (emit reader) := by
  unfold emit
  split
  · refine (Reader.calm_read _ _).bind fun x _ => ?_
    rcases x with ⟨e | buf, r⟩
    · trivial
    · have hf : Calm mm env S (fun _ => True) (filterDsrAndRespond buf) := by
        unfold filterDsrAndRespond
        dsimp only
        split
        · exact (calm_io trivial _).bind fun _ _ => trivial
        · trivial
      refine hf.bind fun filtered _ => ?_
      split
      · exact calm_io trivial _
      · trivial
  · trivial

/-- Nothing is written to memory but the used ring. -/
theorem servedTx (head : DescriptorChain) (q : Queue) (w : World ε) :
    Serves mm env (fun _ => False) (head.readableOk mm w.mem) head q
      (serveTx mm head q) w := by
  rw [← Bool.and_true (head.readableOk mm w.mem)]
  refine serves_opened (run_readerNew env head.tableFits_false w)
    (fun e => serves_nothing false) fun hrd => ?_
  exact Serves.bind (calm_emit _ _) fun _ _ _ => serves_addUsed _ _

theorem servedRx (chunk : List Byte) (head : DescriptorChain) (q : Queue) (w : World ε) :
    Serves mm env (head.InBuffers mm w.mem) (head.writableOk mm w.mem) head q
      (serveRx mm chunk head q) w := by
  rw [← Bool.and_true (head.writableOk mm w.mem)]
  refine serves_opened (run_writerNew env head.tableFits_false w)
    (fun e => serves_nothing none) fun hwr => ?_
  have hw := DescriptorChain.within_inBuffers mm w.mem head
  exact Serves.bind (Writer.calm_writeAll hw _) fun _ _ _ => serves_addUsed _ _

end ConsoleWorker

namespace NetWorker

theorem calm_transmit (S : Nat → Prop) (reader : Reader) :
    Calm mm env S (fun _ => True) (transmit reader) := by
  unfold transmit
  split
  · refine (Reader.calm_read _ _).bind fun x _ => ?_
    rcases x with ⟨e | buf, r⟩
    · trivial
    · dsimp only
      split
      · exact (calm_io trivial _).bind fun _ _ => trivial
      · trivial
  · trivial

/-- Nothing is written to memory but the used ring. -/
theorem servedTx (head : DescriptorChain) (q : Queue) (w : World ε) :
    Serves mm env (fun _ => False) (head.readableOk mm w.mem) head q
      (serveTx mm head q) w := by
  rw [← Bool.and_true (head.readableOk mm w.mem)]
  refine serves_opened (run_readerNew env head.tableFits_false w)
    (fun e => serves_nothing false) fun hrd => ?_
  exact Serves.bind (calm_transmit _ _) fun _ _ _ => serves_addUsed _ _

theorem servedRx (frame : List Byte) (head : DescriptorChain) (q : Queue) (w : World ε) :
    Serves mm env (head.InBuffers mm w.mem) (head.writableOk mm w.mem) head q
      (serveRx mm frame head q) w := by
  rw [← Bool.and_true (head.writableOk mm w.mem)]
  refine serves_opened (run_writerNew env head.tableFits_false w)
    (fun e => serves_nothing false) fun hwr => ?_
  have hw := DescriptorChain.within_inBuffers mm w.mem head
  dsimp only
  split
  · exact serves_addUsed _ _
  refine Serves.bind (Writer.calm_writeAll hw _) fun x hx _ => ?_
  rcases x with ⟨e | _, writer⟩
  · exact serves_addUsed _ _
  · exact Serves.bind (Writer.calm_writeAll hx _) fun _ _ _ => serves_addUsed _ _

end NetWorker

/-! ## One chain in RAM -/

/-- An outside in which every operation succeeds, and that has no data. -/
def idleEnv : Env Unit
  | .readv .., _ => ((.ok (), []), ())
  | .writev .., _ => (.ok (), ())
  | .flush, _ => (.ok (), ())
  | .sync, _ => (.ok (), ())
  | .discardToAny .., _ => (.ok (), ())
  | .discardToZero .., _ => (.ok (), ())
  | .writeZeroes .., _ => (.ok (), ())
  | .genRandom _, _ => (some fun _ => 0, ())
  | .stdout _, _ => ((), ())
  | .extendInput _, _ => ((), ())
  | .drainInput, _ => ([], ())
  | .writeProxy _, _ => (.ok (), ())
  | .drainPending, _ => ([], ())
  | .extendPending _, _ => ((), ())
  | .signal, _ => (.ok (), ())

/-- Memory in which the driver of `smallQueue` has made one chain available: one
readable descriptor of 16 bytes at `addr`, at index `head`. -/
def oneChain (head : BitVec 16) (addr : BitVec 64) : Mem :=
  let m : Mem := fun _ => 0
  (((m.putWord 0x2002 (1 : BitVec 16)).putWord 0x2004 head).putWord 0x1000 addr).putWord 0x1008
    (16 : BitVec 32)

end Whypa
