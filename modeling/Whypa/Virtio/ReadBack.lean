import Whypa.Virtio.Drain

/-!
# A block that is written is read back

`write_then_read`: a request to write a run of sectors and then one to read it leave what
was written in the buffers of the second, in whatever way the two chains split their bytes
into descriptors, and change nothing but these buffers, the status bytes, the used ring
and these sectors. `completes_write` and `completes_read` say what serving either request
does; the disk image is one whose transfers are exact (`Storage`).
-/

namespace Whypa

open Framework WProg

variable {ε : Type} {env : Env ε} {mm : MemoryManager} {ck : Bool}

/-! ## The disk image -/

/-- The disk image is an array of `size` bytes. A vectored write stores the bytes of the buffers
at the offset, a read fills the buffers from there; both succeed within the array. Signaling
the guest leaves the array alone. -/
structure Storage (env : Env ε) where
  size : Nat
  bytes : ε → Mem
  writev : ∀ (bs : List Byte) (offset : BitVec 64) (e : ε), offset.toNat + bs.length ≤ size →
    (env (.writev bs offset) e).1 = .ok () ∧
      bytes (env (.writev bs offset) e).2 = (bytes e).write offset.toNat bs
  readv : ∀ (n : Nat) (offset : BitVec 64) (e : ε), offset.toNat + n ≤ size →
    (env (.readv n offset) e).1 = (.ok (), (bytes e).read offset.toNat n) ∧
      bytes (env (.readv n offset) e).2 = bytes e
  signal : ∀ e, bytes (env .signal e).2 = bytes e

/-! ## In either build -/

namespace Queue

variable {q : Queue} {dt av us : Nat}

theorem run_addUsed_checked (ck : Bool) (hu : mm.Backs q.usedRing (6 + 8 * q.size.toNat) us)
    (i : BitVec 16) (len : BitVec 32) (m : Mem) :
    Prog.run (mm.handler ck) (q.addUsed i len) m = Prog.run (mm.handler false) (q.addUsed i len) m := by
  by_cases hi : i < q.size
  · rw [Prog.run_of_next (next_addUsed hu hi len), Prog.run_of_next (next_publishUsed hu),
      Prog.run_of_next (next_addUsed hu hi len), Prog.run_of_next (next_publishUsed hu)]
    rfl
  · rw [addUsed, if_pos (BitVec.not_lt.mp hi)]
    rfl

/-- `pop` in either build. -/
theorem run_lift_pop (ck : Bool) (env : Env ε) (hL : q.Layout mm dt av us) (h0 : 0 < q.size.toNat)
    (hmax : q.size ≤ q.maxSize) {o : Option DescriptorChain × Queue} {w : World ε}
    (hr : Prog.run (mm.handler false) q.pop w.mem = some (o, w.mem)) :
    Prog.run (mm.world ck env) (lift q.pop) w = some (o, w) :=
  run_lift_of_always (always_pop hL.rings.availReadable h0 hmax hL.max_le) hr

end Queue

section
variable {q₀ q : Queue} {dt av us k : Nat} {m₀ : Mem} {w : World ε} {c : DescriptorChain}

/-- A head that is accepted is popped. -/
theorem run_popChain_accepted (ck : Bool) (env : Env ε) (hL : q₀.Layout mm dt av us)
    (h0 : 0 < q₀.size.toNat) (hmax : q₀.size ≤ q₀.maxSize) (hat : q₀.At dt av m₀ k q w.mem)
    (hk : k < q₀.pending av m₀) (hc : q₀.accepted mm av m₀ k = some c) :
    Prog.run (mm.world ck env) (popChain q) w =
      some ((some c, { q with nextAvail := q.nextAvail + 1 }),
        { w with log := w.log ++ [.popped c w.mem] }) := by
  obtain ⟨o, ho, hr⟩ := Queue.run_pop (hL.placed.config hat.config) w.mem
  have hacc := hat.accepted hL
  rw [Queue.accepted, hc] at hacc
  rw [hat.pending, if_neg (by omega), hacc] at ho
  subst ho
  rw [popChain, Prog.run_bind, Queue.run_lift_pop ck env (hL.config hat.config)
    (by rw [hat.config.size]; exact h0) (by rw [hat.config.size, hat.config.maxSize]; exact hmax) hr]
  rfl

/-- When all are popped, there is none. -/
theorem run_popChain_end (ck : Bool) (env : Env ε) (hL : q₀.Layout mm dt av us)
    (h0 : 0 < q₀.size.toNat) (hmax : q₀.size ≤ q₀.maxSize) (hat : q₀.At dt av m₀ k q w.mem)
    (hk : k = q₀.pending av m₀) :
    Prog.run (mm.world ck env) (popChain q) w = some ((none, q), w) := by
  obtain ⟨o, ho, hr⟩ := Queue.run_pop (hL.placed.config hat.config) w.mem
  rw [hat.pending, if_pos (by omega)] at ho
  subst ho
  rw [popChain, Prog.run_bind, Queue.run_lift_pop ck env (hL.config hat.config)
    (by rw [hat.config.size]; exact h0) (by rw [hat.config.size, hat.config.maxSize]; exact hmax) hr]
  rfl

end

/-- The signal after the loop leaves the memory and the disk. -/
theorem run_notifyUsed (ck : Bool) (storage : Storage env) {q : Queue} {av : Nat}
    (hb : mm.Backs q.availRing (6 + 2 * q.size.toNat) av) (used : Bool) (w : World ε) :
    ∃ q' w', Prog.run (mm.world ck env) (notifyUsed q used) w = some (q', w') ∧ w'.mem = w.mem ∧
      storage.bytes w'.ext = storage.bytes w.ext := by
  have hn : ∃ b q', Prog.run (mm.handler ck) q.needsNotification w.mem = some ((.ok b, q'), w.mem) := by
    cases he : q.eventIdxEnabled with
    | true => exact ⟨_, _, Prog.run_of_next (Queue.next_needsNotification hb he)⟩
    | false =>
      refine ⟨true, q, ?_⟩
      rw [Queue.needsNotification, he]
      rfl
  obtain ⟨b, q', hr⟩ := hn
  unfold notifyUsed
  split
  · rw [Prog.run_bind, run_lift, hr]
    cases b with
    | true => exact ⟨q', { w with ext := (env .signal w.ext).2 }, rfl, rfl, storage.signal w.ext⟩
    | false => exact ⟨q', w, rfl, rfl, rfl⟩
  · exact ⟨q, w, rfl, rfl, rfl⟩

theorem run_addUsed (ck : Bool) (env : Env ε) {q : Queue} {us : Nat}
    (hu : mm.Backs q.usedRing (6 + 8 * q.size.toNat) us) (i : BitVec 16) (len : Nat) (w : World ε) :
    ∃ q' w', Prog.run (mm.world ck env) (addUsed q i len) w = some (q', w') ∧ q.SameConfig q' ∧
      q'.nextAvail = q.nextAvail ∧ w'.ext = w.ext ∧
      ∀ x, x < us ∨ us + (6 + 8 * q.size.toNat) ≤ x → w'.mem x = w.mem x := by
  let w₁ : World ε := { w with log := w.log ++ [.used i] }
  have h1 : Prog.run (mm.world ck env) (act (.used i)) w = some ((), w₁) := rfl
  obtain ⟨r, m', hr, hc, hn⟩ := (Queue.always_addUsed mm q i (BitVec.ofNat 32 len)).run w.mem
  refine ⟨r.2, { w₁ with mem := m' }, ?_, hc, hn, rfl, fun x hx => Queue.run_addUsed_frame hu hr hx⟩
  rw [addUsed, Prog.run_bind, h1, Option.bind_some, Prog.run_bind, run_lift, Queue.run_addUsed_checked ck hu,
    hr]
  rfl

/-! ## The two requests -/

theorem write_nil (m : Mem) (a : Nat) : m.write a [] = m :=
  (Mem.write_eq_scatter m a []).trans rfl

namespace DescriptorChainConsumer

/-- Buffers that hold as many bytes as are asked for are taken, and no more. -/
theorem length_takeBufs_append (bufs bufs' : List VolatileSlice) :
    (addrs (takeBufs (addrs bufs).length (bufs ++ bufs'))).length = (addrs bufs).length := by
  have hcut := Lengths.cut_append (bufs.map VolatileSlice.len) (bufs'.map VolatileSlice.len)
  rw [← List.map_append, ← length_addrs] at hcut
  rw [length_takeBufs_iff.mpr hcut, ← length_addrs, addrs_append, List.length_append]
  omega

end DescriptorChainConsumer

namespace BlockWorker

section
variable (storage : Storage env) (disk : DiskProperties) {header : RequestHeader} {reader : Reader}
  {writer : Writer}

theorem run_offset (ck : Bool) (mm : MemoryManager) (env : Env ε) {sector : BitVec 64}
    (h : sector.toNat * 512 < 2 ^ 64) (w : World ε) :
    Prog.run (mm.world ck env) (lift (VProg.mul sector 512)) w = some (sector * 512, w) := by
  rw [(mul_sector h).1]
  rfl

/-- A request to write stores the rest of the readable bytes on the disk. -/
theorem run_processRequest_out (writer : Writer) (ht : header.requestType = VIRTIO_BLK_T_OUT)
    (hr : reader.Bounded)
    (h512 : reader.availableBytes % 512 = 0)
    (hs : header.sector.toNat * 512 + reader.availableBytes ≤ storage.size)
    (h64 : header.sector.toNat * 512 + reader.availableBytes < 2 ^ 64) (w : World ε) :
    ∃ reader' w', Prog.run (mm.world ck env) (processRequest disk header reader writer) w =
        some ((.ok reader.availableBytes, reader', writer), w') ∧ w'.mem = w.mem ∧
      storage.bytes w'.ext =
        (storage.bytes w.ext).write (header.sector.toNat * 512) (w.mem.gather reader.addrs) := by
  have h64' : header.sector.toNat * 512 < 2 ^ 64 := Nat.lt_of_le_of_lt (Nat.le_add_right _ _) h64
  have hoff := (mul_sector h64').2
  have hsrc : (w.mem.gather reader.addrs).length = reader.availableBytes := by
    rw [Mem.length_gather, Reader.length_addrs]
  obtain ⟨x, reader', w', hrun, hnil, hne⟩ :=
    Reader.run_readToAt ck mm env hr (header.sector * 512) w
  rw [processRequest_out ht, if_neg (not_not.mpr h512), Prog.run_bind, run_offset ck mm env h64' w,
    Option.bind_some, Prog.run_bind, hrun]
  by_cases h0 : reader.availableBytes = 0
  · obtain ⟨rfl, rfl⟩ := hnil h0
    rw [List.length_eq_zero_iff.mp (hsrc.trans h0), write_nil, h0]
    exact ⟨reader', w', rfl, rfl, rfl⟩
  · obtain ⟨rfl, rfl⟩ := hne (Nat.pos_of_ne_zero h0)
    obtain ⟨hok, hbytes⟩ := storage.writev (w.mem.gather reader.addrs) (header.sector * 512) w.ext
      (by rw [hoff, hsrc]; exact hs)
    rw [hoff] at hbytes
    rw [hok]
    exact ⟨reader', _, rfl, rfl, hbytes⟩

/-- A request to read fills all but the last of the writable bytes from the disk, if this byte has
a buffer of its own. -/
theorem run_processRequest_in (reader : Reader) (ht : header.requestType = VIRTIO_BLK_T_IN)
    (hw : writer.Bounded)
    {bufs bufs' : List VolatileSlice} (hbufs : writer.buffer.buffers = bufs ++ bufs')
    (h1 : (addrs bufs').length = 1) (h512 : (addrs bufs).length % 512 = 0)
    (hs : header.sector.toNat * 512 + (addrs bufs).length ≤ storage.size)
    (h64 : header.sector.toNat * 512 + (addrs bufs).length < 2 ^ 64) (w : World ε) :
    ∃ writer' w', Prog.run (mm.world ck env) (processRequest disk header reader writer) w =
        some ((.ok (addrs bufs).length, reader, writer'), w') ∧
      writer.Advanced writer' (addrs bufs).length ∧
      w'.mem = w.mem.scatter (addrs bufs)
        ((storage.bytes w.ext).read (header.sector.toNat * 512) (addrs bufs).length) ∧
      storage.bytes w'.ext = storage.bytes w.ext := by
  have h64' : header.sector.toNat * 512 < 2 ^ 64 := Nat.lt_of_le_of_lt (Nat.le_add_right _ _) h64
  have hoff := (mul_sector h64').2
  have haddrs : writer.addrs = addrs bufs ++ addrs bufs' := by
    rw [Writer.addrs, hbufs, addrs_append]
  have hroom : writer.availableBytes = (addrs bufs).length + 1 := by
    rw [← Writer.length_addrs, haddrs, List.length_append, h1]
  have hdata : writer.availableBytes - 1 = (addrs bufs).length := by omega
  have hk := DescriptorChainConsumer.length_takeBufs_append bufs bufs'
  rw [← hbufs] at hk
  obtain ⟨x, writer', w', hrun, hnil, hne⟩ :=
    Writer.run_writeFromAt ck mm env hw hk (header.sector * 512) w
  rw [processRequest_in ht hw (by omega), hdata, if_neg (not_not.mpr h512), Prog.run_bind,
    run_offset ck mm env h64' w, Option.bind_some, Prog.run_bind, hrun]
  by_cases hb : DescriptorChainConsumer.takeBufs (addrs bufs).length writer.buffer.buffers = []
  · obtain ⟨rfl, rfl, rfl⟩ := hnil hb
    rw [hb] at hk
    have h0 : (addrs bufs).length = 0 := hk.symm
    rw [h0, List.length_eq_zero_iff.mp h0]
    exact ⟨writer', w', rfl, .refl writer', rfl, rfl⟩
  · obtain ⟨rfl, rfl, hadv⟩ := hne hb
    obtain ⟨hok, hbytes⟩ := storage.readv (addrs bufs).length (header.sector * 512) w.ext
      (by rw [hoff]; exact hs)
    rw [hoff] at hok
    rw [hok] at hadv ⊢
    have htake : writer.addrs.take (addrs bufs).length = addrs bufs := by
      rw [haddrs, List.take_left]
    exact ⟨writer', _, rfl, hadv, by rw [htake], hbytes⟩

/-- What a successful request leaves: `out` in the writable buffers, `bytes` on the disk, and nothing
else changed but the used ring at `us`. -/
structure Completed (mm : MemoryManager) (us : Nat) (c : DescriptorChain) (out : List Byte) (bytes : Mem)
    (q q' : Queue) (w w' : World ε) : Prop where
  config : q.SameConfig q'
  nextAvail : q'.nextAvail = q.nextAvail
  disk : storage.bytes w'.ext = bytes
  mem : ∀ x, x < us ∨ us + (6 + 8 * q.size.toNat) ≤ x →
    w'.mem x = w.mem.scatter (c.writeAddrs mm w.mem) out x

variable {storage}

/-- A request that succeeds and leaves room for the status is completed with it. -/
theorem completes {us : Nat} {c : DescriptorChain} {q : Queue} {w : World ε} (data : List Byte)
    {bytes : Mem} (hu : mm.Backs q.usedRing (6 + 8 * q.size.toNat) us) (hfits : c.TableFits ck)
    (hwf : wellFormed mm w.mem c = true) (hroom : (c.writeAddrs mm w.mem).length = data.length + 1)
    (hrun : ∀ reader : Reader, reader.Bounded →
      reader.addrs = (c.readAddrs mm w.mem).drop (FromBytes.size RequestHeader) →
      ∃ l reader' writer w₁, Prog.run (mm.world ck env)
          (processRequest disk (headerOf mm w.mem c) reader (c.writer mm w.mem)) w =
          some ((.ok l, reader', writer), w₁) ∧
        (c.writer mm w.mem).Advanced writer data.length ∧
        w₁.mem = w.mem.scatter ((c.writeAddrs mm w.mem).take data.length) data ∧
        storage.bytes w₁.ext = bytes) :
    ∃ q' w', Prog.run (mm.world ck env) (serve mm disk c q) w = some ((q', true), w') ∧
      Completed storage mm us c (data ++ [VIRTIO_BLK_S_OK]) bytes q q' w w' := by
  rw [wellFormed, Bool.and_eq_true, Bool.and_eq_true, decide_eq_true_iff] at hwf
  obtain ⟨hrd, hwr, h16⟩ := hwf
  have hbw : (c.writer mm w.mem).Bounded := (writer_of_writableOk hwr).1
  obtain ⟨x, hreader, hx⟩ := run_readerNew env hfits w
  obtain ⟨-, rfl⟩ := hx.resolve_right fun h => Bool.false_ne_true (h.1.symm.trans hrd)
  obtain ⟨x, hwriter, hx⟩ := run_writerNew env hfits w
  obtain ⟨-, rfl⟩ := hx.resolve_right fun h => Bool.false_ne_true (h.1.symm.trans hwr)
  obtain ⟨x, reader, hr, hx⟩ := run_readHeader ck env hrd
  obtain ⟨-, rfl, hb, hsrc⟩ := hx.resolve_right fun h => Nat.not_lt_of_le h16 h.1
  obtain ⟨l, reader', writer, w₁, hreq, hadv, hmem, hbytes⟩ := hrun reader hb hsrc
  obtain ⟨y, writer', hst, -, -⟩ :=
    Writer.run_writeAll ck mm env (hadv.bounded hbw) [VIRTIO_BLK_S_OK] w₁
  obtain ⟨q', w', hadd, hc, hn, hext, hframe⟩ := run_addUsed ck env hu c.index (l + 1)
    { w₁ with mem := w₁.mem.scatter writer.addrs [VIRTIO_BLK_S_OK] }
  have hrun' : Prog.run (mm.world ck env) (serve mm disk c q) w = some ((q', true), w') := by
    rw [serve, Prog.run_bind, hreader, Option.bind_some]
    dsimp only
    rw [Prog.run_bind, hwriter, Option.bind_some]
    dsimp only
    rw [Prog.run_bind, hr, Option.bind_some]
    dsimp only
    rw [Prog.run_bind, hreq, Option.bind_some]
    dsimp only
    rw [Prog.run_bind, hst, Option.bind_some, Prog.run_bind, hadd]
    rfl
  refine ⟨q', w', hrun', hc, hn, by rw [hext]; exact hbytes, fun x hx => ?_⟩
  have hdrop : writer.addrs = (c.writeAddrs mm w.mem).drop data.length := hadv.addrs
  have hlen : ((c.writeAddrs mm w.mem).take data.length).length = data.length := by
    rw [List.length_take, hroom]
    omega
  have hsplit := Mem.scatter_append w.mem ((c.writeAddrs mm w.mem).take data.length)
    ((c.writeAddrs mm w.mem).drop data.length) (data ++ [VIRTIO_BLK_S_OK])
  rw [List.take_append_drop, hlen, List.take_left, List.drop_left] at hsplit
  rw [hframe x hx, hsplit, ← hmem, ← hdrop]

end

/-- A request to write `data` from `sector` on: the header and the data in the readable buffers, and
one writable byte, for the status. -/
structure WriteRequest (mm : MemoryManager) (m : Mem) (c : DescriptorChain) (sector : BitVec 64)
    (data : List Byte) : Prop where
  readable : c.readableOk mm m = true
  writable : c.writableOk mm m = true
  bytes : ∃ header : List Byte, header.length = FromBytes.size RequestHeader ∧
    (FromBytes.ofBytes header : RequestHeader) = ⟨VIRTIO_BLK_T_OUT, sector⟩ ∧
    m.gather (c.readAddrs mm m) = header ++ data
  room : (c.writeAddrs mm m).length = 1

/-- A request to read from `sector` on into the descriptors `area`; the last descriptor is for the
status. -/
structure ReadRequest (mm : MemoryManager) (m : Mem) (c : DescriptorChain) (sector : BitVec 64)
    (area : List DescriptorChain) (status : DescriptorChain) : Prop where
  readable : c.readableOk mm m = true
  writable : c.writableOk mm m = true
  enough : FromBytes.size RequestHeader ≤ (c.readAddrs mm m).length
  header : headerOf mm m c = ⟨VIRTIO_BLK_T_IN, sector⟩
  split : c.writable mm m = area ++ [status]
  room : status.len = 1

section
variable (storage : Storage env) (disk : DiskProperties) {us : Nat} {c : DescriptorChain} {q : Queue}
  {sector : BitVec 64} {w : World ε} {m : Mem}

theorem length_readAddrs (h : c.readableOk mm m = true) :
    (c.readAddrs mm m).length = c.readableBytes mm m :=
  (Reader.length_addrs _).trans (reader_of_readableOk h).2

theorem completes_write {data : List Byte} (hu : mm.Backs q.usedRing (6 + 8 * q.size.toNat) us)
    (hfits : c.TableFits ck) (h : WriteRequest mm w.mem c sector data) (h512 : data.length % 512 = 0)
    (hs : sector.toNat * 512 + data.length ≤ storage.size)
    (h64 : sector.toNat * 512 + data.length < 2 ^ 64) :
    ∃ q' w', Prog.run (mm.world ck env) (serve mm disk c q) w = some ((q', true), w') ∧
      Completed storage mm us c [VIRTIO_BLK_S_OK]
        ((storage.bytes w.ext).write (sector.toNat * 512) data) q q' w w' := by
  obtain ⟨hdr, hlen, hhdr, hsrc⟩ := h.bytes
  have hall : (c.readAddrs mm w.mem).length = FromBytes.size RequestHeader + data.length := by
    rw [← Mem.length_gather w.mem, hsrc, List.length_append, hlen]
  have hheader : headerOf mm w.mem c = ⟨VIRTIO_BLK_T_OUT, sector⟩ := by
    rw [headerOf, hsrc, ← hlen, List.take_left, hhdr]
  have hwf : wellFormed mm w.mem c = true := by
    rw [wellFormed, h.readable, h.writable, Bool.true_and, Bool.true_and, decide_eq_true_iff,
      ← length_readAddrs h.readable, hall]
    exact Nat.le_add_right ..
  refine completes disk [] hu hfits hwf h.room fun reader hb haddrs => ?_
  have hdata : w.mem.gather reader.addrs = data := by
    rw [haddrs, Mem.gather, List.map_drop]
    refine (congrArg (List.drop _) hsrc).trans ?_
    rw [← hlen, List.drop_left]
  have havail : reader.availableBytes = data.length := by
    rw [← Reader.length_addrs, ← Mem.length_gather w.mem, hdata]
  obtain ⟨reader', w₁, hr, hmem, hbytes⟩ := run_processRequest_out storage disk (c.writer mm w.mem)
    (congrArg RequestHeader.requestType hheader) hb (by rw [havail]; exact h512)
    (by rw [havail, hheader]; exact hs) (by rw [havail, hheader]; exact h64) w
  rw [hdata, hheader] at hbytes
  exact ⟨_, reader', _, w₁, hr, .refl _, hmem, hbytes⟩

theorem ReadRequest.length_status {area : List DescriptorChain} {status : DescriptorChain}
    (h : ReadRequest mm m c sector area status) : (addrs [buffer mm status]).length = 1 := by
  have hmapped : mapped mm status = true :=
    List.all_eq_true.mp h.writable status (h.split ▸ List.mem_append_right _ List.mem_cons_self)
  rw [Whypa.length_addrs, List.map_singleton, List.sum_singleton, len_buffer hmapped, h.room]
  rfl

/-- The device writes to the area and then to the byte for the status. -/
theorem ReadRequest.buffers {area : List DescriptorChain} {status : DescriptorChain}
    (h : ReadRequest mm m c sector area status) :
    (c.writer mm m).buffer.buffers = area.map (buffer mm) ++ [buffer mm status] := by
  show (c.writable mm m).map (buffer mm) = _
  rw [h.split, List.map_append]
  rfl

theorem ReadRequest.writeAddrs {area : List DescriptorChain} {status : DescriptorChain}
    (h : ReadRequest mm m c sector area status) :
    c.writeAddrs mm m = addrs (area.map (buffer mm)) ++ addrs [buffer mm status] := by
  rw [DescriptorChain.writeAddrs, Writer.addrs, h.buffers, addrs_append]

theorem completes_read {area : List DescriptorChain} {status : DescriptorChain}
    (hu : mm.Backs q.usedRing (6 + 8 * q.size.toNat) us) (hfits : c.TableFits ck)
    (h : ReadRequest mm w.mem c sector area status)
    (h512 : (addrs (area.map (buffer mm))).length % 512 = 0)
    (hs : sector.toNat * 512 + (addrs (area.map (buffer mm))).length ≤ storage.size)
    (h64 : sector.toNat * 512 + (addrs (area.map (buffer mm))).length < 2 ^ 64) :
    ∃ q' w', Prog.run (mm.world ck env) (serve mm disk c q) w = some ((q', true), w') ∧
      Completed storage mm us c ((storage.bytes w.ext).read (sector.toNat * 512)
        (addrs (area.map (buffer mm))).length ++ [VIRTIO_BLK_S_OK]) (storage.bytes w.ext) q q' w w' := by
  have hwf : wellFormed mm w.mem c = true := by
    rw [wellFormed, h.readable, h.writable, Bool.true_and, Bool.true_and, decide_eq_true_iff,
      ← length_readAddrs h.readable]
    exact h.enough
  refine completes disk ((storage.bytes w.ext).read (sector.toNat * 512)
    (addrs (area.map (buffer mm))).length) hu hfits hwf ?_ fun reader _ _ => ?_
  · rw [h.writeAddrs, List.length_append, h.length_status, Mem.length_read]
  obtain ⟨writer', w₁, hr, hadv, hmem, hbytes⟩ := run_processRequest_in storage disk reader
    (congrArg RequestHeader.requestType h.header) (writer_of_writableOk h.writable).1 h.buffers
    h.length_status h512 (by rw [h.header]; exact hs) (by rw [h.header]; exact h64) w
  rw [h.header] at hmem
  refine ⟨_, reader, writer', w₁, hr, ?_, ?_, hbytes⟩
  · rw [Mem.length_read]
    exact hadv
  · rw [Mem.length_read, h.writeAddrs, List.take_left]
    exact hmem

end

/-! ## One request after the other -/

section
variable {q : Queue} {dt av us : Nat} {m m' : Mem} {c : DescriptorChain}

theorem chain_congr (hL : q.Layout mm dt av us) (hs : q.Steady dt av m m')
    (hc : DescriptorChain.OfTable q.descTable q.actualSize c) : c.chain mm m' = c.chain mm m :=
  DescriptorChain.chainFrom_congr hL hs _ hc

theorem reader_congr (hL : q.Layout mm dt av us) (hs : q.Steady dt av m m')
    (hc : DescriptorChain.OfTable q.descTable q.actualSize c) : c.reader mm m' = c.reader mm m := by
  unfold DescriptorChain.reader DescriptorChain.readable
  rw [chain_congr hL hs hc]

theorem writer_congr (hL : q.Layout mm dt av us) (hs : q.Steady dt av m m')
    (hc : DescriptorChain.OfTable q.descTable q.actualSize c) : c.writer mm m' = c.writer mm m := by
  unfold DescriptorChain.writer DescriptorChain.writable
  rw [chain_congr hL hs hc]

/-- A request to read stays one while its descriptors and its header do. -/
theorem ReadRequest.congr {sector : BitVec 64} {area : List DescriptorChain} {status : DescriptorChain}
    (h : ReadRequest mm m c sector area status) (hL : q.Layout mm dt av us) (hs : q.Steady dt av m m')
    (hc : DescriptorChain.OfTable q.descTable q.actualSize c)
    (hm : ∀ x ∈ c.readAddrs mm m, m' x = m x) : ReadRequest mm m' c sector area status := by
  have hchain := chain_congr hL hs hc
  have hread : c.readAddrs mm m' = c.readAddrs mm m := by
    rw [DescriptorChain.readAddrs, reader_congr hL hs hc]
    rfl
  refine ⟨?_, ?_, ?_, ?_, ?_, h.room⟩
  · rw [DescriptorChain.readableOk, DescriptorChain.readable, hchain]
    exact h.readable
  · rw [DescriptorChain.writableOk, DescriptorChain.writable, hchain]
    exact h.writable
  · rw [hread]
    exact h.enough
  · rw [headerOf, hread, Mem.gather, List.map_congr_left hm]
    exact h.header
  · rw [DescriptorChain.writable, hchain]
    exact h.split

/-- `x` is an address outside the descriptor table and the rings. -/
structure Outside (q : Queue) (dt av us x : Nat) : Prop where
  table : x < dt ∨ dt + 16 * q.size.toNat ≤ x
  avail : x < av ∨ av + (6 + 2 * q.size.toNat) ≤ x
  used : x < us ∨ us + (6 + 8 * q.size.toNat) ≤ x

/-- A request whose writable buffers lie outside the table and the rings leaves the rest of the
heads. -/
theorem Completed.steady {storage : Storage env} {out : List Byte} {bytes : Mem} {q' q'' : Queue}
    {w w' : World ε} (h : Completed storage mm us c out bytes q' q'' w w') (hL : q.Layout mm dt av us)
    (hc : q.SameConfig q') (hout : ∀ x ∈ c.writeAddrs mm w.mem, Outside q dt av us x) :
    q.Steady dt av w.mem w'.mem := by
  have hu := hL.tableUsed
  have hd := hL.rings.disjoint
  have hsame : ∀ x, (x < us ∨ us + (6 + 8 * q.size.toNat) ≤ x) → x ∉ c.writeAddrs mm w.mem →
      w'.mem x = w.mem x := fun x hx hn => by
    rw [h.mem x (by rw [hc.size]; exact hx), Mem.scatter_apply hn]
  refine ⟨fun i hi => hsame _ (by omega) fun hx => ?_, fun i hi => hsame _ (by omega) fun hx => ?_⟩
  · have := (hout _ hx).table
    omega
  · have := (hout _ hx).avail
    omega

theorem run_popLoop_accepted {serve : DescriptorChain → Queue → WProg (Queue × Bool)} {fuel : Nat}
    {q q₁ q₂ : Queue} {used used₂ : Bool} {w w₁ w₂ : World ε}
    (hp : Prog.run (mm.world ck env) (popChain q) w = some ((some c, q₁), w₁))
    (hs : Prog.run (mm.world ck env) (serve c q₁) w₁ = some ((q₂, used₂), w₂)) :
    Prog.run (mm.world ck env) (popLoop serve (fuel + 1) q used) w =
      Prog.run (mm.world ck env) (popLoop serve fuel q₂ (used || used₂)) w₂ := by
  rw [popLoop, Prog.run_bind, hp, Option.bind_some]
  dsimp only
  rw [Prog.run_bind, hs]
  rfl

end

section
variable {q : Queue} {dt av us : Nat} {out inn : DescriptorChain} {sector : BitVec 64} {data : List Byte}
  {area : List DescriptorChain} {status : DescriptorChain} {w : World ε}

theorem tableFits_accepted (hL : q.Layout mm dt av us) {m : Mem} {k : Nat} {c : DescriptorChain}
    (hc : q.accepted mm av m k = some c) :
    DescriptorChain.OfTable q.descTable q.actualSize c ∧ c.TableFits ck := by
  have ht := (Queue.run_headChain mm q m (q.headAt av m k)).2 c hc
  refine ⟨ht, fun _ => ?_⟩
  have hend := hL.rings.desc
  have hle := q.actualSize_le
  rw [ht.1, ht.2]
  omega

/-- Both requests are served, one after the other: what each writes to memory outside the used ring,
and what is on the disk. -/
theorem run_two (ck : Bool) (storage : Storage env) (disk : DiskProperties)
    (hL : q.Layout mm dt av us) (h0 : 0 < q.size.toNat) (hmax : q.size ≤ q.maxSize)
    (hpend : q.pending av w.mem = 2) (hout : q.accepted mm av w.mem 0 = some out)
    (hinn : q.accepted mm av w.mem 1 = some inn) (hw : WriteRequest mm w.mem out sector data)
    (hr : ReadRequest mm w.mem inn sector area status)
    (harea : (addrs (area.map (buffer mm))).length = data.length) (h512 : data.length % 512 = 0)
    (hs : sector.toNat * 512 + data.length ≤ storage.size)
    (h64 : sector.toNat * 512 + data.length < 2 ^ 64)
    (hdisj : (out.writeAddrs mm w.mem).Disjoint (inn.readAddrs mm w.mem))
    (hoff : ∀ x ∈ out.writeAddrs mm w.mem ++ (inn.readAddrs mm w.mem ++ inn.writeAddrs mm w.mem),
      Outside q dt av us x) (fuel : Nat) :
    ∃ q' w', ∃ m₁ : Mem,
      Prog.run (mm.world ck env) (processQueue mm disk (fuel + 3) q) w = some (some q', w') ∧
      (∀ x, (x < us ∨ us + (6 + 8 * q.size.toNat) ≤ x) →
        m₁ x = w.mem.scatter (out.writeAddrs mm w.mem) [VIRTIO_BLK_S_OK] x) ∧
      (∀ x, (x < us ∨ us + (6 + 8 * q.size.toNat) ≤ x) →
        w'.mem x = m₁.scatter (inn.writeAddrs mm w.mem) (data ++ [VIRTIO_BLK_S_OK]) x) ∧
      storage.bytes w'.ext = (storage.bytes w.ext).write (sector.toNat * 512) data := by
  have hat₀ : q.At dt av w.mem 0 q w.mem := ⟨.refl q, (Counter.ahead_zero _).symm, .refl .., Nat.zero_le _⟩
  obtain ⟨hct₀, hfit₀⟩ := @tableFits_accepted mm ck q dt av us hL _ _ _ hout
  obtain ⟨hct₁, hfit₁⟩ := @tableFits_accepted mm ck q dt av us hL _ _ _ hinn
  have hpop₀ := run_popChain_accepted ck env hL h0 hmax hat₀ (by omega) hout
  have hat₁ := hat₀.pop (by omega)
  obtain ⟨q₁, w₁, hserve₀, hdone₀⟩ := completes_write storage disk
    (hL.config hat₁.config).rings.used hfit₀
    (w := { w with log := w.log ++ [.popped out w.mem] }) hw h512 hs h64
  have hsteady₁ : q.Steady dt av w.mem w₁.mem :=
    hdone₀.steady hL hat₁.config fun x hx => hoff x (List.mem_append_left _ hx)
  have hat₂ := hat₁.same hdone₀.config hdone₀.nextAvail hsteady₁
  have hr₁ : ReadRequest mm w₁.mem inn sector area status := by
    refine hr.congr hL hsteady₁ hct₁ fun x hx => ?_
    have hx' := hoff x (List.mem_append_right _ (List.mem_append_left _ hx))
    rw [hdone₀.mem x hx'.used]
    exact Mem.scatter_apply fun h => hdisj h hx
  have hpop₁ := run_popChain_accepted ck env hL h0 hmax hat₂ (by omega) hinn
  have hat₃ := hat₂.pop (by omega)
  obtain ⟨q₂, w₂, hserve₁, hdone₁⟩ := completes_read storage disk
    (hL.config hat₃.config).rings.used hfit₁
    (w := { w₁ with log := w₁.log ++ [.popped inn w₁.mem] }) hr₁ (by rw [harea]; exact h512)
    (by rw [harea]; exact hs) (by rw [harea]; exact h64)
  have hsteady₂ : q.Steady dt av w₁.mem w₂.mem := by
    refine hdone₁.steady hL hat₃.config fun x hx => hoff x ?_
    rw [DescriptorChain.writeAddrs, writer_congr hL hsteady₁ hct₁] at hx
    exact List.mem_append_right _ (List.mem_append_right _ hx)
  have hat₄ := hat₃.same hdone₁.config hdone₁.nextAvail hsteady₂
  have hend := run_popChain_end ck env hL h0 hmax hat₄ hpend.symm
  obtain ⟨q₃, w₃, hnotify, hmem, hbytes⟩ :=
    run_notifyUsed ck storage (hL.config hat₄.config).rings.avail true w₂
  have hloop : Prog.run (mm.world ck env) (popLoop (serve mm disk) (fuel + 3) q false) w =
      some (some (q₂, true), w₂) := by
    rw [run_popLoop_accepted hpop₀ hserve₀, run_popLoop_accepted hpop₁ hserve₁, popLoop, Prog.run_bind,
      hend]
    rfl
  have hread : (storage.bytes w₁.ext).read (sector.toNat * 512)
      (addrs (area.map (buffer mm))).length = data := by
    rw [hdone₀.disk, harea]
    exact Mem.read_write_self ..
  refine ⟨q₃, w₃, w₁.mem, ?_, fun x hx => ?_, fun x hx => ?_, ?_⟩
  · rw [processQueue, processWith, Prog.run_bind, hloop, Option.bind_some]
    dsimp only
    rw [Prog.run_bind, hnotify]
    rfl
  · exact hdone₀.mem x hx
  · rw [hmem, hdone₁.mem x (by rw [hat₃.config.size]; exact hx), hread]
    exact congrArg (fun as => w₁.mem.scatter as _ x) (congrArg Writer.addrs (writer_congr hL hsteady₁ hct₁))
  · rw [hbytes, hdone₁.disk]
    exact hdone₀.disk

/-- A request to write and then one to read the same sectors: the data is in the buffers of the
second, both succeed, and nothing else changes on the disk or in guest memory but the writable
buffers and the used ring. -/
theorem write_then_read (ck : Bool) (storage : Storage env) (disk : DiskProperties)
    (hL : q.Layout mm dt av us) (hmax : q.size ≤ q.maxSize)
    (hpend : q.pending av w.mem = 2) (hout : q.accepted mm av w.mem 0 = some out)
    (hinn : q.accepted mm av w.mem 1 = some inn) (hw : WriteRequest mm w.mem out sector data)
    (hr : ReadRequest mm w.mem inn sector area status)
    (harea : (area.map fun d => d.len.toNat).sum = data.length) (h512 : data.length % 512 = 0)
    (hs : sector.toNat * 512 + data.length ≤ storage.size)
    (h64 : sector.toNat * 512 + data.length < 2 ^ 64)
    (hdisj : (out.writeAddrs mm w.mem ++ (inn.readAddrs mm w.mem ++ inn.writeAddrs mm w.mem)).Nodup)
    (hoff : ∀ x ∈ out.writeAddrs mm w.mem ++ (inn.readAddrs mm w.mem ++ inn.writeAddrs mm w.mem),
      Outside q dt av us x) {fuel : Nat} (hfuel : 3 ≤ fuel) :
    ∃ q' w', Prog.run (mm.world ck env) (processQueue mm disk fuel q) w = some (some q', w') ∧
      contents w'.mem (area.map (buffer mm)) = data ∧
      w'.mem.gather (out.writeAddrs mm w.mem) = [VIRTIO_BLK_S_OK] ∧
      contents w'.mem [buffer mm status] = [VIRTIO_BLK_S_OK] ∧
      storage.bytes w'.ext = (storage.bytes w.ext).write (sector.toNat * 512) data ∧
      ∀ x, x ∉ out.writeAddrs mm w.mem → x ∉ inn.writeAddrs mm w.mem →
        (x < us ∨ us + (6 + 8 * q.size.toNat) ≤ x) → w'.mem x = w.mem x := by
  obtain ⟨fuel, rfl⟩ : ∃ n, fuel = n + 3 := ⟨fuel - 3, by omega⟩
  have hlen : (addrs (area.map (buffer mm))).length = data.length := by
    have hall : area.all (mapped mm) = true := by
      have h := hr.writable
      rw [DescriptorChain.writableOk, hr.split, List.all_append, Bool.and_eq_true] at h
      exact h.1
    rw [length_addrs, sum_len_buffer hall, harea]
  have h0 : 0 < q.size.toNat := by
    have h : q.actualSize ≠ 0 := fun h => by
      rw [Queue.accepted, Queue.headChain_of_zero h] at hout
      cases hout
    exact (Nat.pos_of_ne_zero fun h' => h (BitVec.eq_of_toNat_eq h')).trans_le q.actualSize_le
  obtain ⟨hA, hRB, hAB⟩ := List.nodup_append'.mp hdisj
  obtain ⟨-, hB, -⟩ := List.nodup_append'.mp hRB
  rw [List.disjoint_append_right] at hAB
  obtain ⟨q', w', m₁, hrun, hm₁, hm', hdisk⟩ := run_two ck storage disk hL h0 hmax hpend hout hinn hw hr
    hlen h512 hs h64 hAB.1 hoff fuel
  have hused : ∀ x ∈ inn.writeAddrs mm w.mem, x < us ∨ us + (6 + 8 * q.size.toNat) ≤ x :=
    fun x hx => (hoff x (List.mem_append_right _ (List.mem_append_right _ hx))).used
  have hread : w'.mem.gather (inn.writeAddrs mm w.mem) = data ++ [VIRTIO_BLK_S_OK] := by
    have hlenB : (inn.writeAddrs mm w.mem).length = (data ++ [VIRTIO_BLK_S_OK]).length := by
      rw [hr.writeAddrs, List.length_append, hlen, hr.length_status, List.length_append]
      rfl
    exact (List.map_congr_left fun x hx => hm' x (hused x hx)).trans (Mem.gather_scatter m₁ hB hlenB)
  rw [hr.writeAddrs, Mem.gather_append] at hread
  obtain ⟨hdata, hstatus⟩ := List.append_inj hread ((Mem.length_gather ..).trans hlen)
  have hwritten : w'.mem.gather (out.writeAddrs mm w.mem) = [VIRTIO_BLK_S_OK] := by
    refine (List.map_congr_left fun x hx => ?_).trans (Mem.gather_scatter w.mem hA hw.room)
    have hx' := (hoff x (List.mem_append_left _ hx)).used
    rw [hm' x hx', Mem.scatter_apply fun h => hAB.2 hx h, hm₁ x hx']
  refine ⟨q', w', hrun, ?_, hwritten, ?_, hdisk, fun x hxA hxB hx => ?_⟩
  · rw [contents_eq_gather]
    exact hdata
  · rw [contents_eq_gather]
    exact hstatus
  · rw [hm' x hx, Mem.scatter_apply hxB, hm₁ x hx, Mem.scatter_apply hxA]

end

/-! ## A sector in RAM -/

/-- An outside whose state is the disk image, and in which every operation succeeds. -/
def arrayEnv : Env Mem
  | .readv n offset, e => ((.ok (), e.read offset.toNat n), e)
  | .writev bs offset, e => (.ok (), e.write offset.toNat bs)
  | .flush, e => (.ok (), e)
  | .sync, e => (.ok (), e)
  | .discardToAny .., e => (.ok (), e)
  | .discardToZero .., e => (.ok (), e)
  | .writeZeroes .., e => (.ok (), e)
  | .genRandom _, e => (some fun _ => 0, e)
  | .stdout _, e => ((), e)
  | .extendInput _, e => ((), e)
  | .drainInput, e => ([], e)
  | .writeProxy _, e => (.ok (), e)
  | .drainPending, e => ([], e)
  | .extendPending _, e => ((), e)
  | .signal, e => (.ok (), e)

/-- A disk of 1 MiB. -/
def arrayStorage : Storage arrayEnv where
  size := 2 ^ 20
  bytes := id
  writev _ _ _ _ := ⟨rfl, rfl⟩
  readv _ _ _ _ := ⟨rfl, rfl⟩
  signal _ := rfl

/-- A queue of eight entries in `smallRam`. -/
def blockQueue : Queue := { smallQueue with size := 8 }

theorem blockQueue_layout : blockQueue.Layout smallRam 0x1000 0x2000 0x3000 :=
  ⟨⟨by decide, smallRam_backs (by decide), smallRam_backs (by decide), .inl (by decide)⟩,
    smallRam_backs (by decide), .inl (by decide), by decide⟩

/-- A descriptor in memory. -/
def desc (addr : BitVec 64) (len : BitVec 32) (flags next : BitVec 16) : List Byte :=
  leBytes 8 addr.toNat ++ leBytes 4 len.toNat ++ leBytes 2 flags.toNat ++ leBytes 2 next.toNat

/-- The memory in which the driver has made a request to write sector 3 available, and one to read
it. The first has its header and data in one descriptor, the second has three for them. -/
def sectorRam : Mem :=
  let m : Mem := fun _ => 0
  let m := m.write 0x1000 (desc 0x100 528 1 1 ++ desc 0x400 1 2 0 ++ desc 0x500 16 1 3 ++
    desc 0x600 200 3 4 ++ desc 0x700 312 3 5 ++ desc 0x900 1 2 0)
  let m := m.write 0x2002 (leBytes 2 2 ++ leBytes 2 0 ++ leBytes 2 2)
  let m := m.write 0x100 (leBytes 4 VIRTIO_BLK_T_OUT.toNat ++ leBytes 4 0 ++ leBytes 8 3 ++ [0x2a])
  m.write 0x500 (leBytes 4 VIRTIO_BLK_T_IN.toNat ++ leBytes 4 0 ++ leBytes 8 3)

/-- Entry `i` of its table, with `ttl` descriptors of its chain left. -/
def entry (ttl i : BitVec 16) (addr : BitVec 64) (len : BitVec 32) (flags next : BitVec 16) :
    DescriptorChain :=
  { descTable := 0x1000, queueSize := 8, ttl := ttl, index := i, addr := addr, len := len, flags := flags,
    next := next }

/-- The addresses that the two requests use from the status byte of the first on. -/
theorem sectorRam_addrs :
    (entry 8 0 0x100 528 1 1).writeAddrs smallRam sectorRam = [0x400] ∧
    (entry 8 2 0x500 16 1 3).readAddrs smallRam sectorRam = List.range' 0x500 16 ∧
    (entry 8 2 0x500 16 1 3).writeAddrs smallRam sectorRam =
      List.range' 0x600 200 ++ (List.range' 0x700 312 ++ [0x900]) := by
  decide +kernel

/-- They are different, and outside the table and the rings. -/
theorem sectorRam_apart :
    ([0x400] ++ (List.range' 0x500 16 ++ (List.range' 0x600 200 ++ (List.range' 0x700 312 ++
      [0x900])))).Nodup ∧
    ∀ x ∈ [0x400] ++ (List.range' 0x500 16 ++ (List.range' 0x600 200 ++ (List.range' 0x700 312 ++
      [0x900]))), Outside blockQueue 0x1000 0x2000 0x3000 x := by
  have hr : ∀ s n, (List.range' s n).Nodup := fun _ _ => List.nodup_range'
  have hsize : blockQueue.size.toNat = 8 := rfl
  simp only [List.nodup_append, hr, List.nodup_singleton, List.mem_append, List.mem_range'_1,
    List.mem_singleton, true_and]
  refine ⟨⟨⟨⟨?_, ?_⟩, ?_⟩, ?_⟩, fun x hx => ⟨by omega, by omega, by omega⟩⟩
  all_goals
    intro a ha b hb
    omega

theorem write_then_read_sector : ∃ q' w',
    Prog.run (smallRam.world true arrayEnv) (processQueue smallRam ⟨.Unsafe, []⟩ 3 blockQueue)
      ⟨sectorRam, fun _ => 0, []⟩ = some (some q', w') ∧
    contents w'.mem [⟨0x600, 200⟩, ⟨0x700, 312⟩] = 0x2a :: List.replicate 511 0 := by
  have hw : WriteRequest smallRam sectorRam (entry 8 0 0x100 528 1 1) 3 (0x2a :: List.replicate 511 0) :=
    ⟨by decide +kernel, by decide +kernel,
      ⟨leBytes 4 1 ++ leBytes 4 0 ++ leBytes 8 3, by decide, by decide, by decide +kernel⟩, by decide +kernel⟩
  have hr : ReadRequest smallRam sectorRam (entry 8 2 0x500 16 1 3) 3
      [entry 7 3 0x600 200 3 4, entry 6 4 0x700 312 3 5] (entry 5 5 0x900 1 2 0) :=
    ⟨by decide +kernel, by decide +kernel, by decide +kernel, by decide +kernel, by decide +kernel, rfl⟩
  obtain ⟨hA, hR, hB⟩ := sectorRam_addrs
  obtain ⟨q', w', hrun, hdata, -⟩ := write_then_read (w := ⟨sectorRam, fun _ => 0, []⟩) true arrayStorage
    ⟨.Unsafe, []⟩ blockQueue_layout (by decide) (by decide +kernel) (by decide +kernel)
    (by decide +kernel) hw hr (by decide +kernel) (by decide +kernel) (by decide +kernel) (by decide +kernel)
    (by rw [hA, hR, hB]; exact sectorRam_apart.1) (by rw [hA, hR, hB]; exact sectorRam_apart.2)
    (Nat.le_refl 3)
  exact ⟨q', w', hrun, hdata⟩

end BlockWorker

end Whypa
