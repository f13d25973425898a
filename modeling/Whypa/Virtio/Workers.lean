import Whypa.Virtio.DescriptorUtils

/-!
# The workers of the devices

How each device processes its queues (`worker.rs` of the block, rng, console and
net devices). A loop of the source takes its number of iterations as fuel, and
`none` is its result when the fuel runs out. The four queues that the guest
fills with work are drained by one loop (`drain`) around the function that
serves one chain; the two receive queues are filled from what is pending.
-/

namespace Whypa

open Framework WProg

/-! ## Loops -/

/-- Return a chain to the guest; a failure is only logged. -/
def addUsed (q : Queue) (index : BitVec 16) (len : Nat) : WProg Queue := do
  act (.used index)
  let r ← lift (q.addUsed index (BitVec.ofNat 32 len))
  pure r.2

/-- Take a chain from the queue. -/
def popChain (q : Queue) : WProg (Option DescriptorChain × Queue) := do
  match ← lift q.pop with
  | (none, q) => pure (none, q)
  | (some head, q) => do
    act (.popped head)
    pure (some head, q)

/-- `while let Some(head) = queue.pop(mem)`, with the body `serve`, which says
whether it sets `used_any`. -/
def popLoop (serve : DescriptorChain → Queue → WProg (Queue × Bool)) :
    Nat → Queue → Bool → WProg (Option (Queue × Bool))
  | 0, _, _ => pure none
  | fuel + 1, q, usedAny => do
    match ← popChain q with
    | (none, q) => pure (some (q, usedAny))
    | (some head, q) => do
      let (q, used) ← serve head q
      popLoop serve fuel q (usedAny || used)

/-- Signal the guest if it asks for it; a failure to signal is only logged. -/
def notifyUsed (q : Queue) (usedAny : Bool) : WProg Queue :=
  if usedAny then do
    let (need, q) ← lift q.needsNotification
    if ← lift (VProg.unwrap need) then
      let _ ← io .signal
      pure q
    else pure q
  else pure q

/-- Signal the guest whatever it asks for. -/
def signalUsed (q : Queue) (usedAny : Bool) : WProg Queue :=
  if usedAny then do
    let _ ← io .signal
    pure q
  else pure q

/-- A loop over the chains of the queue, and the signal after it. -/
def processWith (serve : DescriptorChain → Queue → WProg (Queue × Bool))
    (notify : Queue → Bool → WProg Queue) (fuel : Nat) (q : Queue) : WProg (Option Queue) := do
  match ← popLoop serve fuel q false with
  | none => pure none
  | some (q, usedAny) => do
    let q ← notify q usedAny
    pure (some q)

/-- Drain a queue with notification suppression: `process` is given `fuel`, and
called at most as often as the second argument says. -/
def drain (process : Nat → Queue → WProg (Option Queue)) (fuel : Nat) :
    Nat → Queue → WProg (Option Queue)
  | 0, _ => pure none
  | n + 1, q => do
    lift (VProg.unwrap (← lift q.disableNotification))
    match ← process fuel q with
    | none => pure none
    | some q => do
      if ← lift (VProg.unwrap (← lift q.enableNotification)) then drain process fuel n q
      else pure (some q)

/-! ## Block -/

namespace BlockWorker

inductive RequestError
  | discarding (e : IoError)
  | discardingToZero (e : IoError)
  | flushingToDisk (e : IoError)
  | invalidDataLength
  | readingFromDescriptor (e : IoError)
  | writingToDescriptor (e : IoError)
  | writingZeroes (e : IoError)
  | unknownRequest
deriving DecidableEq, Repr

structure RequestHeader where
  requestType : BitVec 32
  sector : BitVec 64
deriving DecidableEq, Repr

instance : FromBytes RequestHeader where
  size := 16
  ofBytes bs :=
    { requestType := BitVec.ofNat 32 (ofLE (bs.take 4))
      sector := BitVec.ofNat 64 (ofLE ((bs.drop 8).take 8)) }

structure DiscardWriteData where
  sector : BitVec 64
  numSectors : BitVec 32
  flags : BitVec 32
deriving DecidableEq, Repr

instance : FromBytes DiscardWriteData where
  size := 16
  ofBytes bs :=
    { sector := BitVec.ofNat 64 (ofLE (bs.take 8))
      numSectors := BitVec.ofNat 32 (ofLE ((bs.drop 8).take 4))
      flags := BitVec.ofNat 32 (ofLE ((bs.drop 12).take 4)) }

inductive CacheType
  | Unsafe
  | Writeback
deriving DecidableEq, Repr

structure DiskProperties where
  cacheType : CacheType
  imageId : List Byte
deriving DecidableEq, Repr

def VIRTIO_BLK_T_IN : BitVec 32 := 0
def VIRTIO_BLK_T_OUT : BitVec 32 := 1
def VIRTIO_BLK_T_FLUSH : BitVec 32 := 4
def VIRTIO_BLK_T_GET_ID : BitVec 32 := 8
def VIRTIO_BLK_T_DISCARD : BitVec 32 := 11
def VIRTIO_BLK_T_WRITE_ZEROES : BitVec 32 := 13
def VIRTIO_BLK_WRITE_ZEROES_FLAG_UNMAP : BitVec 32 := 1
def VIRTIO_BLK_S_OK : Byte := 0
def VIRTIO_BLK_S_IOERR : Byte := 1

/-- The outcome of a request, with what is left of its streams. -/
abbrev Outcome := Except RequestError Nat × Reader × Writer

/-- Read the ranges to discard, and discard them by `op`. -/
def processDiscard (reader : Reader) (writer : Writer)
    (op : DiscardWriteData → BitVec 64 → BitVec 64 → WProg (Except RequestError Unit)) :
    WProg Outcome := do
  match ← reader.readObj DiscardWriteData with
  | (.error e, reader) => pure (.error (.readingFromDescriptor e), reader, writer)
  | (.ok data, reader) => do
    let offset ← lift (VProg.mul data.sector 512)
    let length ← lift (VProg.mul (data.numSectors.setWidth 64) 512)
    let r ← op data offset length
    pure (r.map fun _ => 0, reader, writer)

def processRequest (disk : DiskProperties) (header : RequestHeader) (reader : Reader)
    (writer : Writer) : WProg Outcome :=
  if header.requestType = VIRTIO_BLK_T_IN then do
    let dataLen ← lift (VProg.sub (BitVec.ofNat 64 writer.availableBytes) 1)
    if dataLen.toNat % 512 ≠ 0 then pure (.error .invalidDataLength, reader, writer)
    else do
      let (x, writer) ← writer.writeFromAt dataLen.toNat (← lift (VProg.mul header.sector 512))
      pure (x.mapError .writingToDescriptor, reader, writer)
  else if header.requestType = VIRTIO_BLK_T_OUT then
    if reader.availableBytes % 512 ≠ 0 then pure (.error .invalidDataLength, reader, writer)
    else do
      let (x, reader) ← reader.readToAt reader.availableBytes (← lift (VProg.mul header.sector 512))
      pure (x.mapError .readingFromDescriptor, reader, writer)
  else if header.requestType = VIRTIO_BLK_T_FLUSH then
    match disk.cacheType with
    | .Writeback => do
      match ← io .flush with
      | .error e => pure (.error (.flushingToDisk e), reader, writer)
      | .ok () => do
        let r ← io .sync
        pure ((r.map fun _ => 0).mapError .flushingToDisk, reader, writer)
    | .Unsafe => pure (.ok 0, reader, writer)
  else if header.requestType = VIRTIO_BLK_T_GET_ID then
    if writer.availableBytes < disk.imageId.length then
      pure (.error .invalidDataLength, reader, writer)
    else do
      let (x, writer) ← writer.writeAll disk.imageId
      pure ((x.map fun _ => disk.imageId.length).mapError .writingToDescriptor, reader, writer)
  else if header.requestType = VIRTIO_BLK_T_DISCARD then
    processDiscard reader writer fun _ offset length => do
      let r ← io (.discardToAny offset length)
      pure (r.mapError .discarding)
  else if header.requestType = VIRTIO_BLK_T_WRITE_ZEROES then
    processDiscard reader writer fun data offset length =>
      if data.flags &&& VIRTIO_BLK_WRITE_ZEROES_FLAG_UNMAP ≠ 0 then do
        let r ← io (.discardToZero offset length)
        pure (r.mapError .discardingToZero)
      else do
        let r ← io (.writeZeroes offset length)
        pure (r.mapError .writingZeroes)
  else pure (.error .unknownRequest, reader, writer)

/-- Serve the request of one chain. -/
def serve (mm : MemoryManager) (disk : DiskProperties) (head : DescriptorChain) (q : Queue) :
    WProg (Queue × Bool) := do
  match ← lift (Reader.new mm head) with
  | .error _ => pure (q, false)
  | .ok reader =>
    match ← lift (Writer.new mm head) with
    | .error _ => pure (q, false)
    | .ok writer =>
      match ← reader.readObj RequestHeader with
      | (.error _, _) => pure (q, false)
      | (.ok header, reader) => do
        let (x, _, writer) ← processRequest disk header reader writer
        let (status, len) := match x with
          | .ok l => (VIRTIO_BLK_S_OK, l)
          | .error _ => (VIRTIO_BLK_S_IOERR, 0)
        let _ ← writer.writeAll [status]
        let q ← addUsed q head.index (len + 1)
        pure (q, true)

def processQueue (mm : MemoryManager) (disk : DiskProperties) : Nat → Queue → WProg (Option Queue) :=
  processWith (serve mm disk) notifyUsed

def processVirtioQueues (mm : MemoryManager) (disk : DiskProperties) :
    Nat → Nat → Queue → WProg (Option Queue) := drain (processQueue mm disk)

end BlockWorker

/-! ## Random numbers -/

namespace RngWorker

def serve (mm : MemoryManager) (head : DescriptorChain) (q : Queue) : WProg (Queue × Bool) := do
  match ← lift (Writer.new mm head) with
  | .error _ => pure (q, false)
  | .ok writer =>
    let len := writer.availableBytes
    if len = 0 then do
      let q ← addUsed q head.index 0
      pure (q, true)
    else do
      match ← io (.genRandom len) with
      | some buf => do
        let (x, _) ← writer.writeAll (List.ofFn buf)
        let written := match x with
          | .ok () => len
          | .error _ => 0
        let q ← addUsed q head.index written
        pure (q, true)
      | none => do
        let q ← addUsed q head.index 0
        pure (q, true)

def processQueue (mm : MemoryManager) : Nat → Queue → WProg (Option Queue) :=
  processWith (serve mm) notifyUsed

def processVirtioQueues (mm : MemoryManager) : Nat → Nat → Queue → WProg (Option Queue) :=
  drain (processQueue mm)

end RngWorker

/-! ## Console -/

namespace ConsoleWorker

/-- `ESC[6n`, the query of the cursor's position. -/
def DSR : List Byte := [0x1b, 0x5b, 0x36, 0x6e]

/-- `ESC[1;1R`, the answer to it. -/
def CPR : List Byte := [0x1b, 0x5b, 0x31, 0x3b, 0x31, 0x52]

/-- The bytes without the queries, and whether there was one. -/
def filterDsr : List Byte → List Byte × Bool
  | 0x1b#8 :: 0x5b#8 :: 0x36#8 :: 0x6e#8 :: rest => ((filterDsr rest).1, true)
  | b :: rest => (b :: (filterDsr rest).1, (filterDsr rest).2)
  | [] => ([], false)

def filterDsrAndRespond (buf : List Byte) : WProg (List Byte) := do
  let (result, found) := filterDsr buf
  if found then do
    io (.extendInput CPR)
    pure result
  else pure result

/-- Write what the guest put into a chain to the terminal. -/
def emit (reader : Reader) : WProg Unit :=
  if 0 < reader.availableBytes then do
    match ← reader.read reader.availableBytes with
    | (.ok buf, _) => do
      let filtered ← filterDsrAndRespond buf
      if !filtered.isEmpty then io (.stdout filtered) else pure ()
    | (.error _, _) => pure ()
  else pure ()

def serveTx (mm : MemoryManager) (head : DescriptorChain) (q : Queue) : WProg (Queue × Bool) := do
  match ← lift (Reader.new mm head) with
  | .error _ => pure (q, false)
  | .ok reader => do
    emit reader
    let q ← addUsed q head.index 0
    pure (q, true)

def processTxQueue (mm : MemoryManager) : Nat → Queue → WProg (Option Queue) :=
  processWith (serveTx mm) signalUsed

def processTxVirtioQueue (mm : MemoryManager) : Nat → Nat → Queue → WProg (Option Queue) :=
  drain (processTxQueue mm)

/-- Write as much of the input as fits into a chain; the number of bytes is what
the input advances by, if the chain is returned. -/
def serveRx (mm : MemoryManager) (chunk : List Byte) (head : DescriptorChain) (q : Queue) :
    WProg (Queue × Option Nat) := do
  match ← lift (Writer.new mm head) with
  | .error _ => pure (q, none)
  | .ok writer => do
    let toWrite := min chunk.length writer.availableBytes
    let (x, _) ← writer.writeAll (chunk.take toWrite)
    let q ← addUsed q head.index toWrite
    pure (q, some (match x with
      | .ok () => toWrite
      | .error _ => 0))

/-- The loop of `process_rx_input` from the byte at `offset`. -/
def rxLoop (mm : MemoryManager) (data : List Byte) :
    Nat → Nat → Queue → Bool → WProg (Option (Queue × Bool))
  | 0, _, _, _ => pure none
  | fuel + 1, offset, q, usedAny =>
    if data.length ≤ offset then pure (some (q, usedAny))
    else do
      match ← popChain q with
      | (none, q) => pure (some (q, usedAny))
      | (some head, q) => do
        match ← serveRx mm (data.drop offset) head q with
        | (q, none) => rxLoop mm data fuel offset q usedAny
        | (q, some n) => rxLoop mm data fuel (offset + n) q true

/-- Drain the input into the guest's receive queue. -/
def processRxInput (mm : MemoryManager) (fuel : Nat) (q : Queue) : WProg (Option Queue) := do
  let data ← io .drainInput
  if data.isEmpty then pure (some q)
  else do
    match ← rxLoop mm data fuel 0 q false with
    | none => pure none
    | some (q, usedAny) => do
      let q ← notifyUsed q usedAny
      pure (some q)

end ConsoleWorker

/-! ## Network -/

namespace NetWorker

def NET_HDR_SIZE : Nat := 12
def MAX_FRAME_SIZE : Nat := 1514

/-- A header with `num_buffers` 1. -/
def defaultRxHeader : List Byte := (List.replicate NET_HDR_SIZE (0 : Byte)).set 10 1

/-- Strip the header of a packet, and send the frame with its length before it. -/
def transmit (reader : Reader) : WProg Unit :=
  if NET_HDR_SIZE < reader.availableBytes then do
    match ← reader.read reader.availableBytes with
    | (.ok buf, _) =>
      if NET_HDR_SIZE < buf.length then do
        let frame := buf.drop NET_HDR_SIZE
        let _ ← io (.writeProxy (leBytes 2 frame.length ++ frame))
      else pure ()
    | (.error _, _) => pure ()
  else pure ()

def serveTx (mm : MemoryManager) (head : DescriptorChain) (q : Queue) : WProg (Queue × Bool) := do
  match ← lift (Reader.new mm head) with
  | .error _ => pure (q, false)
  | .ok reader => do
    transmit reader
    let q ← addUsed q head.index 0
    pure (q, true)

/-- `run` has taken the handle of the proxy's input before the worker starts. -/
def processTxQueue (mm : MemoryManager) : Nat → Queue → WProg (Option Queue) :=
  processWith (serveTx mm) signalUsed

def processTxVirtioQueue (mm : MemoryManager) : Nat → Nat → Queue → WProg (Option Queue) :=
  drain (processTxQueue mm)

/-- Write one frame into the buffers of a chain. -/
def serveRx (mm : MemoryManager) (frame : List Byte) (head : DescriptorChain) (q : Queue) :
    WProg (Queue × Bool) := do
  match ← lift (Writer.new mm head) with
  | .error _ => pure (q, false)
  | .ok writer =>
    if writer.availableBytes < NET_HDR_SIZE + frame.length then do
      let q ← addUsed q head.index 0
      pure (q, false)
    else do
      match ← writer.writeAll defaultRxHeader with
      | (.error _, _) => do
        let q ← addUsed q head.index 0
        pure (q, false)
      | (.ok (), writer) => do
        let (x, _) ← writer.writeAll frame
        let written := match x with
          | .ok () => NET_HDR_SIZE + frame.length
          | .error _ => NET_HDR_SIZE
        let q ← addUsed q head.index written
        pure (q, true)

/-- The loop of `process_rx_virtio_queue` over the frames; those without a
buffer are queued again. -/
def rxLoop (mm : MemoryManager) : List (List Byte) → Queue → Bool → WProg (Queue × Bool)
  | [], q, usedAny => pure (q, usedAny)
  | frame :: packets, q, usedAny =>
    if MAX_FRAME_SIZE < frame.length then rxLoop mm packets q usedAny
    else do
      match ← popChain q with
      | (none, q) => do
        io (.extendPending (frame :: packets))
        pure (q, usedAny)
      | (some head, q) => do
        let (q, used) ← serveRx mm frame head q
        rxLoop mm packets q (usedAny || used)

/-- Deliver the pending frames into the guest's receive queue. -/
def processRxVirtioQueue (mm : MemoryManager) (q : Queue) : WProg Queue := do
  let packets ← io .drainPending
  if packets.isEmpty then pure q
  else do
    let (q, usedAny) ← rxLoop mm packets q false
    notifyUsed q usedAny

end NetWorker

end Whypa
