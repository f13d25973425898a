import Whypa.Virtio.Status

/-!
# What a block request asks the storage for

The sector numbers of a request are the guest's, and are multiplied by 512; the length of a read is
one less than the room that the guest gives. `exact_extents_iff` says for which requests no
operation overflows and the storage is asked for exactly what the request says. What it is asked
for is followed in the trace of a run (`asks`).
-/

namespace Whypa

open Framework WProg

variable {ε : Type} {env : Env ε} {ck : Bool} {mm : MemoryManager}

/-! ## The operations that a run asks for -/

def Act.io? : Act → Option Io
  | .io op => some op
  | _ => none

/-- The operations on what is outside the machine, in a trace. -/
def asks (t : List ((a : Act) × a.Answer)) : List Io := t.filterMap fun d => d.1.io?

theorem asks_append (t t' : List ((a : Act) × a.Answer)) : asks (t ++ t') = asks t ++ asks t' :=
  List.filterMap_append

/-- An action on memory only. -/
def Act.Inside (a : Act) : Prop := a.io? = none

theorem asks_of_inside {α : Type} {Q : α → Prop} {p : WProg α} (hp : Prog.Partly Act.Inside Q p)
    (w : World ε) : asks (Prog.trace (mm.world ck env) p w) = [] := by
  induction p generalizing w with
  | pure x => rfl
  | panic => rfl
  | access a k ih =>
    unfold Prog.trace
    split
    · rfl
    · rename_i r w' _
      have hnone : a.io? = none := hp.1
      simp only [asks, List.filterMap_cons, hnone]
      exact ih r (hp.2 r) w'

section
variable {α : Type}

theorem inside_copyOut (n : Nat) (bufs : List VolatileSlice) :
    Prog.Partly Act.Inside (fun _ => True) (copyOut n bufs) := by
  induction bufs generalizing n with
  | nil => trivial
  | cons vs bufs ih => exact ⟨rfl, fun _ => (ih _).bind fun _ _ => trivial⟩

theorem inside_copyIn (bytes : List Byte) (bufs : List VolatileSlice) :
    Prog.Partly Act.Inside (fun _ => True) (copyIn bytes bufs) := by
  induction bufs generalizing bytes with
  | nil => trivial
  | cons vs bufs ih => exact ⟨rfl, fun _ => (ih _).bind fun _ _ => trivial⟩

/-- Consuming asks for what its callback does. -/
theorem asks_consume {size : α → Nat} {empty : α} {c : DescriptorChainConsumer} {n : Nat}
    {f : List VolatileSlice → WProg (Except IoError α)} {x : Except IoError α} {w w' : World ε}
    (hr : Prog.run (mm.world ck env) (f (DescriptorChainConsumer.takeBufs n c.buffers)) w = some (x, w')) :
    asks (Prog.trace (mm.world ck env) (c.consume size empty n f) w) =
      if DescriptorChainConsumer.takeBufs n c.buffers = [] then []
      else asks (Prog.trace (mm.world ck env) (f (DescriptorChainConsumer.takeBufs n c.buffers)) w) := by
  unfold DescriptorChainConsumer.consume
  by_cases hnil : DescriptorChainConsumer.takeBufs n c.buffers = []
  · simp only [hnil, List.isEmpty_nil, if_true]
    rfl
  · simp only [List.isEmpty_iff, hnil, if_false]
    rw [Prog.trace_bind hr, asks_append]
    refine (congrArg _ ?_).trans (List.append_nil _)
    cases x with
    | error e => rfl
    | ok x =>
      dsimp only
      split <;> rfl

theorem inside_consume {size : α → Nat} {empty : α} {c : DescriptorChainConsumer} {n : Nat}
    {f : List VolatileSlice → WProg (Except IoError α)}
    (hf : ∀ bufs, Prog.Partly Act.Inside (fun _ => True) (f bufs)) :
    Prog.Partly Act.Inside (fun _ => True) (c.consume size empty n f) := by
  unfold DescriptorChainConsumer.consume
  dsimp only
  split
  · trivial
  refine (hf _).bind fun x _ => ?_
  cases x with
  | error e => trivial
  | ok x =>
    dsimp only
    split <;> trivial

end

theorem asks_io (op : Io) (w : World ε) : asks (Prog.trace (mm.world ck env) (io op) w) = [op] := rfl

theorem asks_readVectoredAtVolatile (ck : Bool) (mm : MemoryManager) (env : Env ε) (offset : BitVec 64)
    (bufs : List VolatileSlice) (w : World ε) :
    asks (Prog.trace (mm.world ck env) (readVectoredAtVolatile offset bufs) w) =
      [.readv (addrs bufs).length offset] := by
  have hio : Prog.run (mm.world ck env) (io (.readv (bufs.map VolatileSlice.len).sum offset)) w =
      some ((env (.readv (bufs.map VolatileSlice.len).sum offset) w.ext).1,
        { w with ext := (env (.readv (bufs.map VolatileSlice.len).sum offset) w.ext).2 }) := rfl
  rw [readVectoredAtVolatile, Prog.trace_bind hio, asks_append, asks_io, Prog.trace_bind_pure,
    asks_of_inside (inside_copyIn _ bufs), length_addrs]
  rfl

theorem asks_writeVectoredAtVolatile (ck : Bool) (mm : MemoryManager) (env : Env ε) (offset : BitVec 64)
    (bufs : List VolatileSlice) (w : World ε) :
    asks (Prog.trace (mm.world ck env) (writeVectoredAtVolatile offset bufs) w) =
      [.writev (w.mem.gather (addrs bufs)) offset] := by
  have hall : (contents w.mem bufs).take (bufs.map VolatileSlice.len).sum = w.mem.gather (addrs bufs) := by
    rw [List.take_of_length_le (length_contents ..).le, contents_eq_gather]
  rw [writeVectoredAtVolatile, Prog.trace_bind (run_copyOut ck mm env ..), asks_append,
    asks_of_inside (inside_copyOut ..), hall, Prog.trace_bind_pure, asks_io]
  rfl

namespace Reader

theorem inside_read (r : Reader) (n : Nat) : Prog.Partly Act.Inside (fun _ => True) (r.read n) := by
  refine (inside_consume fun bufs => ?_).bind fun _ _ => trivial
  exact (inside_copyOut n bufs).bind fun _ _ => trivial

theorem inside_readLoop (fuel n : Nat) (r : Reader) :
    Prog.Partly Act.Inside (fun _ => True) (readLoop fuel n r) := by
  induction fuel generalizing n r with
  | zero => cases n <;> trivial
  | succ fuel ih =>
    cases n with
    | zero => trivial
    | succ n =>
      refine (inside_read r (n + 1)).bind fun x _ => ?_
      rcases x with ⟨_ | _ | ⟨b, bs⟩, r⟩
      · trivial
      · trivial
      · exact (ih _ r).bind fun _ _ => trivial

theorem inside_readObj (T : Type) [FromBytes T] (r : Reader) :
    Prog.Partly Act.Inside (fun _ => True) (r.readObj T) :=
  (inside_readLoop ..).bind fun _ _ => trivial

/-- A write request asks for all that is left to be written, if there is anything left. -/
theorem asks_readToAt (ck : Bool) (mm : MemoryManager) (env : Env ε) (r : Reader) (offset : BitVec 64)
    (w : World ε) :
    asks (Prog.trace (mm.world ck env) (r.readToAt r.availableBytes offset) w) =
      if r.availableBytes = 0 then [] else [.writev (w.mem.gather r.addrs) offset] := by
  have hf := run_writeVectoredAtVolatile ck mm env offset
    (DescriptorChainConsumer.takeBufs r.availableBytes r.buffer.buffers) w
  rw [readToAt, Prog.trace_bind_pure, asks_consume hf, asks_writeVectoredAtVolatile, addrs_takeBufs_all]
  simp only [takeBufs_all_eq_nil_iff]

end Reader

namespace Writer

/-- A read request asks for the buffers of `n` bytes to be filled, of which the last is taken whole. -/
theorem asks_writeFromAt (ck : Bool) (mm : MemoryManager) (env : Env ε) (wr : Writer) (n : Nat)
    (offset : BitVec 64) (w : World ε) :
    asks (Prog.trace (mm.world ck env) (wr.writeFromAt n offset) w) =
      if DescriptorChainConsumer.takeBufs n wr.buffer.buffers = [] then []
      else [.readv (Whypa.addrs (DescriptorChainConsumer.takeBufs n wr.buffer.buffers)).length offset] := by
  have hf := run_readVectoredAtVolatile ck mm env offset
    (DescriptorChainConsumer.takeBufs n wr.buffer.buffers) w
  rw [writeFromAt, Prog.trace_bind_pure, asks_consume hf, asks_readVectoredAtVolatile]

theorem inside_write (wr : Writer) (bytes : List Byte) :
    Prog.Partly Act.Inside (fun _ => True) (wr.write bytes) := by
  refine (inside_consume fun bufs => ?_).bind fun _ _ => trivial
  exact (inside_copyIn bytes bufs).bind fun _ _ => trivial

theorem inside_writeLoop (fuel : Nat) (bytes : List Byte) (wr : Writer) :
    Prog.Partly Act.Inside (fun _ => True) (writeLoop fuel bytes wr) := by
  induction fuel generalizing bytes wr with
  | zero => cases bytes <;> trivial
  | succ fuel ih =>
    cases bytes with
    | nil => trivial
    | cons b bytes =>
      refine (inside_write wr (b :: bytes)).bind fun x _ => ?_
      rcases x with ⟨_ | _ | n, wr⟩
      · trivial
      · trivial
      · exact ih _ wr

end Writer

/-! ## Arithmetic in a build with checks -/

theorem run_sub_checked (mm : MemoryManager) (env : Env ε) {n : Nat} (a b : BitVec n) (w : World ε) :
    Prog.run (mm.world true env) (lift (VProg.sub a b)) w = if b ≤ a then some (a - b, w) else none := by
  unfold VProg.sub
  split <;> rfl

theorem run_mul_checked (mm : MemoryManager) (env : Env ε) {n : Nat} (a b : BitVec n) (w : World ε) :
    Prog.run (mm.world true env) (lift (VProg.mul a b)) w =
      if a.toNat * b.toNat < 2 ^ n then some (a * b, w) else none := by
  unfold VProg.mul
  split <;> rfl

/-! ## Requests -/

namespace BlockWorker

/-- An operation is what the request says, where `left` bytes are left to read after its header, `range`
is what they start with, and there is room for `room` bytes. -/
def RightIo (header : RequestHeader) (range : DiscardWriteData) (left room : Nat) : Io → Prop
  | .readv len offset => offset.toNat = 512 * header.sector.toNat ∧ len + 1 = room
  | .writev bytes offset => offset.toNat = 512 * header.sector.toNat ∧ bytes.length = left
  | .discardToAny offset length | .discardToZero offset length | .writeZeroes offset length =>
    offset.toNat = 512 * range.sector.toNat ∧ length.toNat = 512 * range.numSectors.toNat
  | _ => True

/-- The range to discard, after the header. -/
def rangeOf (m : Mem) (reader : Reader) : DiscardWriteData :=
  FromBytes.ofBytes ((m.gather reader.addrs).take (FromBytes.size DiscardWriteData))

/-- The request's arithmetic is exact: a build with checks does not panic, and what either build asks for is
what the request says. -/
structure ExactExtents (mm : MemoryManager) (env : Env ε) (disk : DiskProperties) (header : RequestHeader)
    (reader : Reader) (writer : Writer) (w : World ε) : Prop where
  returns : Prog.run (mm.world true env) (processRequest disk header reader writer) w ≠ none
  asked : ∀ ck, ∀ op ∈ asks (Prog.trace (mm.world ck env) (processRequest disk header reader writer) w),
    RightIo header (rangeOf w.mem reader) reader.availableBytes writer.availableBytes op

/-- When it is, by the type of the request. -/
def ExtentsFit (header : RequestHeader) (range : DiscardWriteData) (left : Nat)
    (bufs : List VolatileSlice) : Prop :=
  if header.requestType = VIRTIO_BLK_T_IN then
    1 ≤ (addrs bufs).length ∧ (((addrs bufs).length - 1) % 512 ≠ 0 ∨
      (512 * header.sector.toNat < 2 ^ 64 ∧ dataBytes bufs + 1 = (addrs bufs).length))
  else if header.requestType = VIRTIO_BLK_T_OUT then
    left % 512 ≠ 0 ∨ 512 * header.sector.toNat < 2 ^ 64
  else if header.requestType = VIRTIO_BLK_T_DISCARD ∨ header.requestType = VIRTIO_BLK_T_WRITE_ZEROES then
    left < FromBytes.size DiscardWriteData ∨ 512 * range.sector.toNat < 2 ^ 64
  else True

/-- A build with checks does not compute an offset that does not fit. -/
theorem run_mul_sector_overflow (mm : MemoryManager) (env : Env ε) {sector : BitVec 64}
    (h : ¬ 512 * sector.toNat < 2 ^ 64) (w : World ε) :
    Prog.run (mm.world true env) (lift (VProg.mul sector 512)) w = none := by
  rw [run_mul_checked, if_neg]
  rwa [Nat.mul_comm]

section
variable {disk : DiskProperties} {header : RequestHeader} {reader : Reader} {writer : Writer} {w : World ε}

/-- It is enough to follow a build with checks: if it does not panic, then the other asks for the same. -/
theorem exactExtents_iff : ExactExtents mm env disk header reader writer w ↔
    Prog.run (mm.world true env) (processRequest disk header reader writer) w ≠ none ∧
    ∀ op ∈ asks (Prog.trace (mm.world true env) (processRequest disk header reader writer) w),
      RightIo header (rangeOf w.mem reader) reader.availableBytes writer.availableBytes op := by
  refine ⟨fun h => ⟨h.returns, h.asked true⟩, fun ⟨hr, h⟩ => ⟨hr, fun ck => ?_⟩⟩
  obtain ⟨r, hr⟩ := Option.ne_none_iff_exists'.mp hr
  cases ck with
  | false => rwa [← trace_of_checked hr]
  | true => exact h

/-- A request that transfers `len` bytes from the sector of its header on, or to it. -/
theorem exact_transfer {len : Nat} {r : Outcome} {f : BitVec 64 → WProg Outcome} {P : Prop}
    (hreq : processRequest disk header reader writer =
      if len % 512 ≠ 0 then pure r else lift (VProg.mul header.sector 512) >>= f)
    (hrun : ∀ offset, Prog.run (mm.world true env) (f offset) w ≠ none)
    (hasks : ∀ offset, offset.toNat = 512 * header.sector.toNat →
      ((∀ op ∈ asks (Prog.trace (mm.world true env) (f offset) w),
        RightIo header (rangeOf w.mem reader) reader.availableBytes writer.availableBytes op) ↔ P)) :
    ExactExtents mm env disk header reader writer w ↔
      len % 512 ≠ 0 ∨ (512 * header.sector.toNat < 2 ^ 64 ∧ P) := by
  rw [exactExtents_iff, hreq]
  by_cases h512 : len % 512 ≠ 0
  · rw [if_pos h512]
    exact iff_of_true ⟨Option.some_ne_none _, List.forall_mem_nil _⟩ (.inl h512)
  rw [if_neg h512, or_iff_right h512]
  by_cases hlt : 512 * header.sector.toNat < 2 ^ 64
  · obtain ⟨hmul, hoff⟩ := @mul_sector header.sector (by omega)
    rw [hmul, and_iff_right hlt, ← hasks _ (hoff.trans (Nat.mul_comm ..))]
    exact and_iff_right (hrun _)
  · refine iff_of_false (fun h => h.1 ?_) fun h => hlt h.1
    rw [Prog.run_bind, run_mul_sector_overflow mm env hlt]
    rfl

open DescriptorChainConsumer (takeBufs)

theorem exact_in (disk : DiskProperties) (reader : Reader) (ht : header.requestType = VIRTIO_BLK_T_IN)
    (hw : writer.Bounded) (w : World ε) : ExactExtents mm env disk header reader writer w ↔
      1 ≤ writer.availableBytes ∧ ((writer.availableBytes - 1) % 512 ≠ 0 ∨
        (512 * header.sector.toNat < 2 ^ 64 ∧
          dataBytes writer.buffer.buffers + 1 = writer.availableBytes)) := by
  have hlen : (addrs writer.buffer.buffers).length = writer.availableBytes := writer.length_addrs
  by_cases h1 : 1 ≤ writer.availableBytes
  · have hk : (addrs (takeBufs (writer.availableBytes - 1) writer.buffer.buffers)).length =
        dataBytes writer.buffer.buffers := by rw [dataBytes, hlen]
    rw [and_iff_right h1]
    refine exact_transfer (processRequest_in ht hw h1) (fun offset => ?_) fun offset hoff => ?_
    · obtain ⟨x, writer', w', hr, -⟩ := Writer.run_writeFromAt true mm env hw hk offset w
      rw [Prog.run_bind, hr]
      exact Option.some_ne_none _
    · rw [Prog.trace_bind_pure, Writer.asks_writeFromAt, hk]
      by_cases hnil : takeBufs (writer.availableBytes - 1) writer.buffer.buffers = []
      · rw [if_pos hnil]
        rw [← hlen] at h1 hnil
        obtain ⟨h0, hone⟩ := dataBytes_of_nil h1 hnil
        exact iff_of_true (List.forall_mem_nil _) (by rw [h0, ← hlen, hone])
      · rw [if_neg hnil, List.forall_mem_singleton]
        exact and_iff_right hoff
  · refine iff_of_false (fun h => h.returns ?_) fun h => h1 h.1
    rw [processRequest, if_pos ht, Prog.run_bind, run_sub_checked, if_neg]
    · rfl
    · rw [BitVec.le_def, BitVec.toNat_ofNat, Nat.mod_eq_of_lt hw.room_lt]
      exact h1

theorem exact_out (disk : DiskProperties) (writer : Writer) (ht : header.requestType = VIRTIO_BLK_T_OUT)
    (hr : reader.Bounded) (w : World ε) : ExactExtents mm env disk header reader writer w ↔
      reader.availableBytes % 512 ≠ 0 ∨ 512 * header.sector.toNat < 2 ^ 64 := by
  rw [← and_true (512 * header.sector.toNat < 2 ^ 64)]
  refine exact_transfer (processRequest_out ht) (fun offset => ?_) fun offset hoff => ?_
  · obtain ⟨x, reader', w', hrun, -⟩ := Reader.run_readToAt true mm env hr offset w
    rw [Prog.run_bind, hrun]
    exact Option.some_ne_none _
  · rw [Prog.trace_bind_pure, Reader.asks_readToAt]
    refine iff_true_intro ?_
    split
    · exact List.forall_mem_nil _
    · rw [List.forall_mem_singleton]
      exact ⟨hoff, by rw [Mem.length_gather, Reader.length_addrs]⟩

/-- A request for a range of sectors, which asks for `op`. -/
theorem exact_range {f : DiscardWriteData → BitVec 64 → BitVec 64 → WProg (Except RequestError Unit)}
    (op : DiscardWriteData → BitVec 64 → BitVec 64 → Io) (hr : reader.Bounded)
    (hreq : processRequest disk header reader writer = processDiscard reader writer f)
    (hrun : ∀ d offset length, Prog.run (mm.world true env) (f d offset length) w ≠ none)
    (hasks : ∀ d offset length,
      asks (Prog.trace (mm.world true env) (f d offset length) w) = [op d offset length])
    (hright : ∀ offset length : BitVec 64, offset.toNat = 512 * (rangeOf w.mem reader).sector.toNat →
      length.toNat = 512 * (rangeOf w.mem reader).numSectors.toNat →
      RightIo header (rangeOf w.mem reader) reader.availableBytes writer.availableBytes
        (op (rangeOf w.mem reader) offset length)) :
    ExactExtents mm env disk header reader writer w ↔
      reader.availableBytes < FromBytes.size DiscardWriteData ∨
        512 * (rangeOf w.mem reader).sector.toNat < 2 ^ 64 := by
  obtain ⟨x, reader', hread, -, hok, herr⟩ := Reader.run_readObj true mm env DiscardWriteData hr w
  have hquiet : asks (Prog.trace (mm.world true env) (reader.readObj DiscardWriteData) w) = [] :=
    asks_of_inside (Reader.inside_readObj DiscardWriteData reader) w
  rw [exactExtents_iff, hreq, processDiscard, Prog.run_bind, hread, Prog.trace_bind hread, asks_append, hquiet,
    List.nil_append, Option.bind_some]
  by_cases hlt : reader.availableBytes < FromBytes.size DiscardWriteData
  · obtain ⟨e, rfl⟩ := herr hlt
    exact iff_of_true ⟨Option.some_ne_none _, List.forall_mem_nil _⟩ (.inl hlt)
  rw [or_iff_right hlt]
  obtain rfl : x = .ok (rangeOf w.mem reader) := hok (Nat.le_of_not_lt hlt)
  dsimp only
  by_cases h64 : 512 * (rangeOf w.mem reader).sector.toNat < 2 ^ 64
  · have hset : ((rangeOf w.mem reader).numSectors.setWidth 64).toNat =
        (rangeOf w.mem reader).numSectors.toNat := BitVec.toNat_setWidth_of_le (by decide)
    obtain ⟨hmul, hoff⟩ := @mul_sector (rangeOf w.mem reader).sector (by omega)
    obtain ⟨hmul', hlength⟩ := @mul_sector ((rangeOf w.mem reader).numSectors.setWidth 64)
      (by have := (rangeOf w.mem reader).numSectors.isLt; omega)
    rw [Nat.mul_comm] at hoff
    rw [hset, Nat.mul_comm] at hlength
    obtain ⟨y, hy⟩ := Option.ne_none_iff_exists'.mp (hrun (rangeOf w.mem reader)
      ((rangeOf w.mem reader).sector * 512) ((rangeOf w.mem reader).numSectors.setWidth 64 * 512))
    rw [hmul, hmul']
    refine iff_of_true ⟨?_, ?_⟩ h64
    · show Prog.run _ (f _ _ _ >>= _) w ≠ none
      rw [Prog.run_bind, hy]
      exact Option.some_ne_none _
    · show ∀ op ∈ asks (Prog.trace _ (f _ _ _ >>= _) w), _
      rw [Prog.trace_bind_pure, hasks, List.forall_mem_singleton]
      exact hright _ _ hoff hlength
  · refine iff_of_false (fun h => h.1 ?_) h64
    rw [Prog.run_bind, run_mul_sector_overflow mm env h64]
    rfl

/-- The other requests have no arithmetic. -/
theorem exact_other (disk : DiskProperties) (reader : Reader) (hw : writer.Bounded)
    (hin : header.requestType ≠ VIRTIO_BLK_T_IN) (hout : header.requestType ≠ VIRTIO_BLK_T_OUT)
    (hrange : ¬ (header.requestType = VIRTIO_BLK_T_DISCARD ∨ header.requestType = VIRTIO_BLK_T_WRITE_ZEROES))
    (w : World ε) : ExactExtents mm env disk header reader writer w := by
  obtain ⟨hdiscard, hzeroes⟩ := not_or.mp hrange
  have hpure : ∀ r : Outcome, Prog.run (mm.world true env) (pure r) w ≠ none ∧
      ∀ op ∈ asks (Prog.trace (mm.world true env) (pure r) w),
        RightIo header (rangeOf w.mem reader) reader.availableBytes writer.availableBytes op := fun r =>
    ⟨Option.some_ne_none _, List.forall_mem_nil _⟩
  rw [exactExtents_iff, processRequest, if_neg hin, if_neg hout, if_neg hdiscard, if_neg hzeroes]
  split
  · cases disk.cacheType with
    | Unsafe => exact hpure _
    | Writeback =>
      have hio : Prog.run (mm.world true env) (io .flush) w =
          some ((env .flush w.ext).1, { w with ext := (env .flush w.ext).2 }) := rfl
      dsimp only
      rw [Prog.run_bind, hio, Prog.trace_bind hio, asks_append, asks_io, Option.bind_some]
      cases (env .flush w.ext).1 with
      | error e => exact ⟨Option.some_ne_none _, List.forall_mem_singleton.mpr trivial⟩
      | ok u =>
        refine ⟨Option.some_ne_none _, ?_⟩
        dsimp only
        rw [Prog.trace_bind_pure, asks_io]
        exact List.forall_mem_cons.mpr ⟨trivial, List.forall_mem_singleton.mpr trivial⟩
  split
  · split
    · exact hpure _
    · obtain ⟨x, writer', hr, -⟩ := Writer.run_writeAll true mm env hw disk.imageId w
      rw [Prog.run_bind, hr, Prog.trace_bind_pure, Writer.writeAll, asks_of_inside (Writer.inside_writeLoop ..)]
      exact ⟨Option.some_ne_none _, List.forall_mem_nil _⟩
  · exact hpure _

theorem exact_processRequest (disk : DiskProperties) (header : RequestHeader) (hr : reader.Bounded)
    (hw : writer.Bounded) (w : World ε) : ExactExtents mm env disk header reader writer w ↔
      ExtentsFit header (rangeOf w.mem reader) reader.availableBytes writer.buffer.buffers := by
  have hlen : (addrs writer.buffer.buffers).length = writer.availableBytes := writer.length_addrs
  unfold ExtentsFit
  rw [hlen]
  split
  · exact exact_in disk reader ‹_› hw w
  rename_i hin
  split
  · exact exact_out disk writer ‹_› hr w
  rename_i hout
  split
  · rename_i hrange
    rcases hrange with ht | ht
    · have hreq : processRequest disk header reader writer = processDiscard reader writer fun _ offset length =>
          io (.discardToAny offset length) >>= fun r => pure (r.mapError .discarding) := by
        rw [processRequest, if_neg hin, if_neg hout, if_neg (by rw [ht]; decide), if_neg (by rw [ht]; decide),
          if_pos ht]
      exact exact_range (fun _ => .discardToAny) hr hreq (fun d offset length => Option.some_ne_none _)
        (fun d offset length => rfl) fun offset length h h' => ⟨h, h'⟩
    · have hreq : processRequest disk header reader writer =
          processDiscard reader writer fun data offset length =>
            if data.flags &&& VIRTIO_BLK_WRITE_ZEROES_FLAG_UNMAP ≠ 0 then
              io (.discardToZero offset length) >>= fun r => pure (r.mapError .discardingToZero)
            else io (.writeZeroes offset length) >>= fun r => pure (r.mapError .writingZeroes) := by
        rw [processRequest, if_neg hin, if_neg hout, if_neg (by rw [ht]; decide), if_neg (by rw [ht]; decide),
          if_neg (by rw [ht]; decide), if_pos ht]
      refine exact_range (fun d offset length => if d.flags &&& VIRTIO_BLK_WRITE_ZEROES_FLAG_UNMAP ≠ 0 then
        .discardToZero offset length else .writeZeroes offset length) hr hreq ?_ ?_ ?_
      · intro d offset length
        split <;> exact Option.some_ne_none _
      · intro d offset length
        split <;> rfl
      · intro offset length h h'
        split <;> exact ⟨h, h'⟩
  · exact iff_true_intro (exact_other disk reader hw hin hout ‹_› w)

end

/-- The arithmetic of a request that the device has opened is exact if and only if its sector and the
room for its data allow it. -/
theorem exact_extents_iff (disk : DiskProperties) {head : DescriptorChain} (q : Queue) {header : RequestHeader}
    {reader : Reader} {writer : Writer} {w w₁ : World ε}
    (hopen : Prog.run (mm.world ck env) (openRequest mm head) w = some (some (header, reader, writer), w₁)) :
    serve mm disk head q = openRequest mm head >>= answer disk head q ∧
      (ExactExtents mm env disk header reader writer w₁ ↔
        ExtentsFit header (rangeOf w₁.mem reader) reader.availableBytes writer.buffer.buffers) := by
  obtain ⟨rfl, hwr, rfl, rfl, hb, -⟩ := run_openRequest hopen
  exact ⟨serve_eq_answer mm disk head q, exact_processRequest disk _ hb (writer_of_writableOk hwr).1 w₁⟩

/-- The first sector is written. -/
theorem exact_extents_sectorWrite : ∃ header reader writer w₁,
    Prog.run (smallRam.world true idleEnv) (openRequest smallRam Serving.sectorWrite)
      ⟨Serving.sectorMem, (), []⟩ = some (some (header, reader, writer), w₁) ∧
    ExactExtents smallRam idleEnv ⟨.Unsafe, []⟩ header reader writer w₁ := by
  refine ⟨_, _, _, _, open_sectorWrite, (exact_extents_iff _ smallQueue open_sectorWrite).2.mpr ?_⟩
  rw [ExtentsFit, if_neg (by decide), if_pos (by decide)]
  exact .inr (by decide)

/-- The memory of a chain that writes to sector `2 ^ 55`. -/
def farMem : Mem := Serving.sectorMem.putWord 0x4008 (0x80000000000000 : BitVec 64)

/-- The data for sector `2 ^ 55` is written to the start of the disk. -/
theorem sector_wraps :
    (Prog.run (smallRam.handler true) (DescriptorChain.checkedNew 0x1000 2 0) farMem).map Prod.fst =
      some (some Serving.sectorWrite) ∧ ∃ header reader writer w₁,
    Prog.run (smallRam.world true idleEnv) (openRequest smallRam Serving.sectorWrite) ⟨farMem, (), []⟩ =
      some (some (header, reader, writer), w₁) ∧
    (∃ bytes, asks (Prog.trace (smallRam.world false idleEnv)
      (processRequest ⟨.Unsafe, []⟩ header reader writer) w₁) = [.writev bytes 0]) ∧
    ¬ ExactExtents smallRam idleEnv ⟨.Unsafe, []⟩ header reader writer w₁ := by
  have hopen : (Prog.run (smallRam.world true idleEnv) (openRequest smallRam Serving.sectorWrite)
      ⟨farMem, (), []⟩).map Prod.fst =
      some (some (⟨1, 0x80000000000000⟩, ⟨⟨[⟨0x4010, 512⟩], 16⟩⟩, ⟨⟨[⟨0x5000, 1⟩], 0⟩⟩)) := by decide +kernel
  obtain ⟨⟨_, w₁⟩, hopen, rfl⟩ := Option.map_eq_some_iff.mp hopen
  refine ⟨by decide +kernel, _, _, _, w₁, hopen, ⟨w₁.mem.gather (addrs [⟨0x4010, 512⟩]), ?_⟩, ?_⟩
  · show asks (Prog.trace _ (Reader.readToAt ⟨⟨[⟨0x4010, 512⟩], 16⟩⟩
      (Reader.availableBytes ⟨⟨[⟨0x4010, 512⟩], 16⟩⟩) 0 >>= _) w₁) = _
    rw [Prog.trace_bind_pure, Reader.asks_readToAt, if_neg (by decide), Reader.addrs]
  · rw [exact_processRequest _ _ (by decide) (by decide), ExtentsFit, if_neg (by decide), if_pos (by decide)]
    decide +kernel

end BlockWorker

end Whypa
