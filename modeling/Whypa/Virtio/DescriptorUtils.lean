import Whypa.Virtio.Host

/-!
# Readers and writers of descriptor chains

`descriptor_utils.rs`: the readable descriptors of a chain as one stream of
bytes to read from, and the writable ones as one to write to. The buffers are
slices of the host's memory, checked against their region when the stream is
created.
-/

namespace Whypa

open Framework WProg

inductive GuestMemoryError
  | invalidBackendAddress
  | hostAddressNotAvailable
deriving DecidableEq, Repr

/-- Why a chain has no reader or writer. -/
inductive ChainError
  | descriptorChainOverflow
  | findMemoryRegion
  | guestMemoryError (e : GuestMemoryError)
deriving DecidableEq, Repr

/-- Why a stream cannot be split. -/
inductive SplitError
  | splitOutOfBounds (offset : Nat)
  | volatileMemoryError
deriving DecidableEq, Repr

/-- `len` bytes of the host's memory. -/
structure VolatileSlice where
  host : Nat
  len : Nat
deriving DecidableEq, Repr

/-- The slice without its first `count` bytes, if it has as many. -/
def VolatileSlice.offset (vs : VolatileSlice) (count : Nat) : Option VolatileSlice :=
  if count ≤ vs.len then some ⟨vs.host + count, vs.len - count⟩ else none

/-- The `count` bytes of the region from `offset`. -/
def MemoryRegion.getSlice (r : MemoryRegion) (offset count : Nat) :
    Except GuestMemoryError VolatileSlice :=
  if 2 ^ 64 ≤ offset + count then .error .invalidBackendAddress
  else if r.len.toNat < offset + count then .error .invalidBackendAddress
  else match r.hpa with
    | none => .error .hostAddressNotAvailable
    | some hpa => .ok ⟨hpa + offset, count⟩

/-! ## The descriptors of a chain -/

/-- Iterate over the chain from `c`. A descriptor is yielded once the one after
it is fetched, and `f` says whether to go on. The chain's `ttl` bounds the
number of steps. -/
def descIter {σ : Type} (f : σ → DescriptorChain → σ × Bool) : Nat → DescriptorChain → σ → VProg σ
  | 0, c, s => pure (f s c).1
  | n + 1, c, s => do
    let next ← c.nextDescriptor
    match next with
    | none => pure (f s c).1
    | some d => if (f s c).2 then descIter f n d (f s c).1 else pure (f s c).1

/-- The buffers collected so far, or the first error. -/
structure Collect where
  totalLen : Nat
  buffers : List VolatileSlice
  error : Option ChainError
deriving DecidableEq, Repr

namespace Collect

def start : Collect := ⟨0, [], none⟩

/-- The buffer of one descriptor. -/
def slice (mm : MemoryManager) (totalLen : Nat) (desc : DescriptorChain) :
    Except ChainError VolatileSlice :=
  if 2 ^ 64 ≤ totalLen + desc.len.toNat then .error .descriptorChainOverflow
  else match mm.findRegion desc.addr with
    | none => .error .findMemoryRegion
    | some region =>
      (region.getSlice (desc.addr.toNat - region.startAddr.toNat) desc.len.toNat).mapError
        .guestMemoryError

def add (mm : MemoryManager) (s : Collect) (desc : DescriptorChain) : Collect × Bool :=
  match slice mm s.totalLen desc with
  | .error e => ({ s with error := some e }, false)
  | .ok vs => (⟨s.totalLen + desc.len.toNat, s.buffers ++ [vs], none⟩, true)

/-- `readable`: up to the first writable descriptor. -/
def readable (mm : MemoryManager) (s : Collect) (desc : DescriptorChain) : Collect × Bool :=
  if desc.isReadOnly then s.add mm desc else (s, false)

/-- `writable`: all from the first writable descriptor; `s.1` while none was seen. -/
def writable (mm : MemoryManager) (s : Bool × Collect) (desc : DescriptorChain) :
    (Bool × Collect) × Bool :=
  if s.1 && desc.isReadOnly then (s, true) else ((false, (s.2.add mm desc).1), (s.2.add mm desc).2)

end Collect

/-! ## Consuming the buffers -/

structure DescriptorChainConsumer where
  buffers : List VolatileSlice
  bytesConsumed : Nat
deriving DecidableEq, Repr

namespace DescriptorChainConsumer

/-- The outcome of a collection. -/
def ofCollect (s : Collect) : Except ChainError DescriptorChainConsumer :=
  match s.error with
  | some e => .error e
  | none => .ok ⟨s.buffers, 0⟩

def availableBytes (c : DescriptorChainConsumer) : Nat := (c.buffers.map VolatileSlice.len).sum

/-- The buffers that hold the first `count` bytes; the last one is not cut. -/
def takeBufs : Nat → List VolatileSlice → List VolatileSlice
  | _, [] => []
  | count, vs :: rest => if count = 0 then [] else vs :: takeBufs (count - vs.len) rest

/-- What is left of the buffers after `rem` bytes. -/
def dropBytes : Nat → List VolatileSlice → List VolatileSlice
  | _, [] => []
  | rem, vs :: rest =>
    if rem < vs.len then ⟨vs.host + rem, vs.len - rem⟩ :: rest else dropBytes (rem - vs.len) rest

/-- Consume at most `count` bytes by `f`, of whose result `size` is the number of
bytes consumed and `empty` the result on no buffers. -/
def consume {α : Type} (size : α → Nat) (empty : α) (c : DescriptorChainConsumer) (count : Nat)
    (f : List VolatileSlice → WProg (Except IoError α)) :
    WProg (Except IoError α × DescriptorChainConsumer) :=
  let bufs := takeBufs count c.buffers
  if bufs.isEmpty then pure (.ok empty, c)
  else do
    match ← f bufs with
    | .error e => pure (.error e, c)
    | .ok x =>
      if 2 ^ 64 ≤ c.bytesConsumed + size x then pure (.error .invalidData, c)
      else pure (.ok x, ⟨dropBytes (size x) c.buffers, c.bytesConsumed + size x⟩)

/-- The buffer that the byte at `rem` lies in, and the place of the byte in it; the second is
what is left of `rem` if there is no such buffer. -/
def position : Nat → List VolatileSlice → Option Nat × Nat
  | rem, [] => (none, rem)
  | rem, vs :: rest =>
    if rem < vs.len then (some 0, rem)
    else ((position (rem - vs.len) rest).1.map (· + 1), (position (rem - vs.len) rest).2)

/-- Split off the bytes from `offset`; the second component is what is left of `c`, and `none`
a panic. -/
def splitAt (c : DescriptorChainConsumer) (offset : Nat) :
    Option (Except SplitError DescriptorChainConsumer × DescriptorChainConsumer) :=
  match position offset c.buffers with
  | (some pos, rem) =>
    let buffers := c.buffers.take pos
    let other := c.buffers.drop pos
    if 0 < rem then
      match other with
      | [] => none
      | front :: other =>
        match front.offset rem with
        | none => some (.error .volatileMemoryError, ⟨buffers, c.bytesConsumed⟩)
        -- `front.offset(rem)` goes to both sides
        | some tail => some (.ok ⟨tail :: other, 0⟩, ⟨buffers ++ [tail], c.bytesConsumed⟩)
    else some (.ok ⟨other, 0⟩, ⟨buffers, c.bytesConsumed⟩)
  | (none, rem) =>
    if rem = 0 then some (.ok ⟨[], 0⟩, c) else some (.error (.splitOutOfBounds offset), c)

end DescriptorChainConsumer

/-- The loop of `read_exact_to` and `write_all_from`: `transfer` is called until `count` bytes
are transferred, at most as often as the fuel says. `interrupted` are the errors of the kind
`Interrupted`, and `eof` is the error if nothing is transferred. -/
def transferAll {σ : Type} (interrupted : IoError → Bool) (eof : IoError)
    (transfer : Nat → σ → WProg (Except IoError Nat × σ)) :
    Nat → BitVec 64 → σ → WProg (Option (Except IoError Unit × σ))
  | 0, _, _ => pure none
  | fuel + 1, count, s =>
    if count = 0 then pure (some (.ok (), s))
    else do
      match ← transfer count.toNat s with
      | (.ok 0, s) => pure (some (.error eof, s))
      | (.ok n, s) => do
        let count ← lift (VProg.sub count (BitVec.ofNat 64 n))
        transferAll interrupted eof transfer fuel count s
      | (.error e, s) =>
        if interrupted e then transferAll interrupted eof transfer fuel count s
        else pure (some (.error e, s))

/-- Copy at most `rem` bytes out of the buffers. -/
def copyOut : Nat → List VolatileSlice → WProg (List Byte)
  | _, [] => pure []
  | rem, vs :: rest => do
    let bs ← act (.copyFrom vs.host (min rem vs.len))
    let more ← copyOut (rem - min rem vs.len) rest
    pure (bs ++ more)

/-- Copy bytes into the buffers, as many as fit. -/
def copyIn : List Byte → List VolatileSlice → WProg Nat
  | _, [] => pure 0
  | bytes, vs :: rest => do
    act (.copyTo vs.host (bytes.take vs.len))
    let more ← copyIn (bytes.drop vs.len) rest
    pure (min bytes.length vs.len + more)

/-- The disk image reads into the buffers. -/
def readVectoredAtVolatile (offset : BitVec 64) (bufs : List VolatileSlice) :
    WProg (Except IoError Nat) := do
  let fullLength := (bufs.map VolatileSlice.len).sum
  let r ← io (.readv fullLength offset)
  let _ ← copyIn r.2 bufs
  pure (r.1.map fun _ => fullLength)

/-- The buffers are written to the disk image. -/
def writeVectoredAtVolatile (offset : BitVec 64) (bufs : List VolatileSlice) :
    WProg (Except IoError Nat) := do
  let fullLength := (bufs.map VolatileSlice.len).sum
  let bytes ← copyOut fullLength bufs
  let r ← io (.writev bytes offset)
  pure (r.map fun _ => fullLength)

/-! ## Readers -/

structure Reader where
  buffer : DescriptorChainConsumer
deriving DecidableEq, Repr

namespace Reader

def new (mm : MemoryManager) (chain : DescriptorChain) : VProg (Except ChainError Reader) := do
  let s ← descIter (Collect.readable mm) chain.ttl.toNat chain .start
  pure ((DescriptorChainConsumer.ofCollect s).map Reader.mk)

def availableBytes (r : Reader) : Nat := r.buffer.availableBytes

/-- Read at most `count` bytes. -/
def read (r : Reader) (count : Nat) : WProg (Except IoError (List Byte) × Reader) := do
  let (x, b) ← r.buffer.consume List.length [] count fun bufs => do
    let bytes ← copyOut count bufs
    pure (.ok bytes)
  pure (x, ⟨b⟩)

/-- `read_exact` of `count` bytes; every read but the last gives some. -/
def readLoop : Nat → Nat → Reader → WProg (Except IoError (List Byte) × Reader)
  | _, 0, r => pure (.ok [], r)
  | 0, _ + 1, r => pure (.error .unexpectedEof, r)
  | fuel + 1, count + 1, r => do
    match ← r.read (count + 1) with
    | (.error e, r) => pure (.error e, r)
    | (.ok [], r) => pure (.error .unexpectedEof, r)
    | (.ok (b :: bs), r) => do
      let (x, r) ← readLoop fuel (count - bs.length) r
      pure (x.map fun more => b :: bs ++ more, r)

def readExact (r : Reader) (count : Nat) : WProg (Except IoError (List Byte) × Reader) :=
  readLoop count count r

def readObj (T : Type) [FromBytes T] (r : Reader) : WProg (Except IoError T × Reader) := do
  let (x, r) ← r.readExact (FromBytes.size T)
  pure (x.map FromBytes.ofBytes, r)

/-- Hand the next `count` bytes to a file. -/
def readTo (r : Reader) (dst : List VolatileSlice → WProg (Except IoError Nat)) (count : Nat) :
    WProg (Except IoError Nat × Reader) := do
  let (x, b) ← r.buffer.consume id 0 count dst
  pure (x, ⟨b⟩)

def readExactTo (r : Reader) (interrupted : IoError → Bool)
    (dst : List VolatileSlice → WProg (Except IoError Nat)) (count : BitVec 64) (fuel : Nat) :
    WProg (Option (Except IoError Unit × Reader)) :=
  transferAll interrupted .unexpectedEof (fun n r => r.readTo dst n) fuel count r

/-- `read_to_at` of any file. -/
def readToFileAt (r : Reader) (dst : List VolatileSlice → BitVec 64 → WProg (Except IoError Nat))
    (count : Nat) (offset : BitVec 64) : WProg (Except IoError Nat × Reader) := do
  let (x, b) ← r.buffer.consume id 0 count fun bufs => dst bufs offset
  pure (x, ⟨b⟩)

/-- `read_to_at` of the disk image. -/
def readToAt (r : Reader) (count : Nat) (offset : BitVec 64) : WProg (Except IoError Nat × Reader) := do
  let (x, b) ← r.buffer.consume id 0 count (writeVectoredAtVolatile offset)
  pure (x, ⟨b⟩)

/-- `bytes_read`. -/
def bytesRead (r : Reader) : Nat := r.buffer.bytesConsumed

def splitAt (r : Reader) (offset : Nat) : Option (Except SplitError Reader × Reader) :=
  (r.buffer.splitAt offset).map fun x => (x.1.map Reader.mk, ⟨x.2⟩)

end Reader

/-! ## Writers -/

structure Writer where
  buffer : DescriptorChainConsumer
deriving DecidableEq, Repr

namespace Writer

def new (mm : MemoryManager) (chain : DescriptorChain) : VProg (Except ChainError Writer) := do
  let s ← descIter (Collect.writable mm) chain.ttl.toNat chain (true, .start)
  pure ((DescriptorChainConsumer.ofCollect s.2).map Writer.mk)

def availableBytes (w : Writer) : Nat := w.buffer.availableBytes

/-- Write as many of the bytes as fit. -/
def write (w : Writer) (bytes : List Byte) : WProg (Except IoError Nat × Writer) := do
  let (x, b) ← w.buffer.consume id 0 bytes.length fun bufs => do
    let n ← copyIn bytes bufs
    pure (.ok n)
  pure (x, ⟨b⟩)

/-- `write_all`; every write but the last takes some bytes. -/
def writeLoop : Nat → List Byte → Writer → WProg (Except IoError Unit × Writer)
  | _, [], w => pure (.ok (), w)
  | 0, _ :: _, w => pure (.error .writeZero, w)
  | fuel + 1, bytes, w => do
    match ← w.write bytes with
    | (.error e, w) => pure (.error e, w)
    | (.ok 0, w) => pure (.error .writeZero, w)
    | (.ok n, w) => writeLoop fuel (bytes.drop n) w

def writeAll (w : Writer) (bytes : List Byte) : WProg (Except IoError Unit × Writer) :=
  writeLoop bytes.length bytes w

/-- Fill the next `count` bytes from a file. -/
def writeFrom (w : Writer) (src : List VolatileSlice → WProg (Except IoError Nat)) (count : Nat) :
    WProg (Except IoError Nat × Writer) := do
  let (x, b) ← w.buffer.consume id 0 count src
  pure (x, ⟨b⟩)

def writeAllFrom (w : Writer) (interrupted : IoError → Bool)
    (src : List VolatileSlice → WProg (Except IoError Nat)) (count : BitVec 64) (fuel : Nat) :
    WProg (Option (Except IoError Unit × Writer)) :=
  transferAll interrupted .writeZero (fun n w => w.writeFrom src n) fuel count w

def writeFromAt (w : Writer) (count : Nat) (offset : BitVec 64) :
    WProg (Except IoError Nat × Writer) := do
  let (x, b) ← w.buffer.consume id 0 count (readVectoredAtVolatile offset)
  pure (x, ⟨b⟩)

/-- `bytes_written`. -/
def bytesWritten (w : Writer) : Nat := w.buffer.bytesConsumed

def splitAt (w : Writer) (offset : Nat) : Option (Except SplitError Writer × Writer) :=
  (w.buffer.splitAt offset).map fun x => (x.1.map Writer.mk, ⟨x.2⟩)

end Writer

end Whypa
