import Whypa.Memory.Memory

/-!
# The split virtqueue

The device's side of a virtqueue (`queue.rs`): descriptors and descriptor
chains, the queue's configuration and its two running indices, and the
operations on the rings in guest memory. Each operation is a program over
`Access`, so that its accesses to the rings can be performed one by one with
the driver's in between, or all at once.

```
virtq_avail:  flags le16 | idx le16 | ring le16[size] | used_event le16
virtq_used:   flags le16 | idx le16 | ring (id le32, len le32)[size] | avail_event le16
```
-/

namespace Whypa

open Framework

/-- Virtio queue errors. -/
inductive QueueError
  | addressOverflow
  | guestMemory (e : MemoryError)
  | invalidDescriptorIndex
deriving DecidableEq, Repr

/-- An element of the used ring. -/
structure VirtqUsedElem where
  id : BitVec 32
  len : BitVec 32
deriving DecidableEq, Repr

instance : AsBytes VirtqUsedElem := ⟨fun e => leBytes 4 e.id.toNat ++ leBytes 4 e.len.toNat⟩

def VIRTQ_DESC_F_NEXT : BitVec 16 := 0x1
def VIRTQ_DESC_F_WRITE : BitVec 16 := 0x2
def VIRTQ_USED_RING_HEADER_SIZE : BitVec 64 := 4
def VIRTQ_USED_ELEMENT_SIZE : BitVec 64 := 8
def VIRTQ_AVAIL_RING_HEADER_SIZE : BitVec 64 := 4
def VIRTQ_AVAIL_ELEMENT_SIZE : BitVec 64 := 2
def VRING_USED_F_NO_NOTIFY : BitVec 16 := 1

/-! ## Descriptors -/

/-- An entry of the descriptor table. -/
structure Descriptor where
  addr : BitVec 64
  len : BitVec 32
  flags : BitVec 16
  next : BitVec 16
deriving DecidableEq, Repr

instance : FromBytes Descriptor where
  size := 16
  ofBytes bs :=
    { addr := BitVec.ofNat 64 (ofLE (bs.take 8))
      len := BitVec.ofNat 32 (ofLE ((bs.drop 8).take 4))
      flags := BitVec.ofNat 16 (ofLE ((bs.drop 12).take 2))
      next := BitVec.ofNat 16 (ofLE ((bs.drop 14).take 2)) }

/-- A descriptor of a chain, with what is needed to find the next one. -/
structure DescriptorChain where
  descTable : GuestAddress
  queueSize : BitVec 16
  /-- Bounds the number of descriptors that follow, against cycles. -/
  ttl : BitVec 16
  index : BitVec 16
  addr : GuestAddress
  len : BitVec 32
  flags : BitVec 16
  next : BitVec 16
deriving DecidableEq, Repr

namespace DescriptorChain

def hasNext (c : DescriptorChain) : Bool := c.flags &&& VIRTQ_DESC_F_NEXT ≠ 0 && 1 < c.ttl

def isValid (c : DescriptorChain) : Bool := !c.hasNext || c.next < c.queueSize

def isWriteOnly (c : DescriptorChain) : Bool := c.flags &&& VIRTQ_DESC_F_WRITE ≠ 0

def isReadOnly (c : DescriptorChain) : Bool := c.flags &&& VIRTQ_DESC_F_WRITE = 0

/-- The descriptor of the table entry `d` at `index`, as the head of a chain. -/
def ofDescriptor (descTable : GuestAddress) (queueSize index : BitVec 16) (d : Descriptor) :
    DescriptorChain :=
  { descTable, queueSize, ttl := queueSize, index, addr := d.addr, len := d.len, flags := d.flags,
    next := d.next }

/-- The chain that starts at entry `index` of the table, if the entry can be
read and does not point outside the table. -/
def checkedNew (descTable : GuestAddress) (queueSize index : BitVec 16) :
    VProg (Option DescriptorChain) :=
  if queueSize ≤ index then pure none
  else match checkedAdd descTable (index.setWidth 64 * 16) with
    | none => pure none
    | some descAddr => do
      match ← readObj Descriptor descAddr with
      | .error _ => pure none
      | .ok desc =>
        let chain := ofDescriptor descTable queueSize index desc
        pure (if chain.isValid then some chain else none)

/-- The descriptor that follows `c` in its chain. -/
def nextDescriptor (c : DescriptorChain) : VProg (Option DescriptorChain) :=
  if c.hasNext then do
    let n ← checkedNew c.descTable c.queueSize c.next
    pure (n.map fun n => { n with ttl := c.ttl - 1 })
  else pure none

def descriptor (c : DescriptorChain) : Descriptor := ⟨c.addr, c.len, c.flags, c.next⟩

end DescriptorChain

/-- An iterator over the descriptors of a chain. -/
structure DescIter where
  next : Option DescriptorChain
deriving DecidableEq, Repr

def DescriptorChain.intoIter (c : DescriptorChain) : DescIter := ⟨some c⟩

/-- `Iterator::next`. The descriptor after the one that is yielded is fetched at once. -/
def DescIter.iterNext (it : DescIter) : VProg (Option DescriptorChain × DescIter) :=
  match it.next with
  | some current => do
    let n ← current.nextDescriptor
    pure (some current, ⟨n⟩)
  | none => pure (none, ⟨none⟩)

/-! ## The queue -/

/-- A virtio queue's parameters and the device's position in its rings. -/
structure Queue where
  maxSize : BitVec 16
  size : BitVec 16
  ready : Bool
  descTable : GuestAddress
  availRing : GuestAddress
  usedRing : GuestAddress
  nextAvail : BitVec 16
  nextUsed : BitVec 16
  /-- VIRTIO_F_RING_EVENT_IDX negotiated. -/
  eventIdxEnabled : Bool
  /-- Elements placed in the used ring since the last `needsNotification`. -/
  numAdded : BitVec 16
deriving DecidableEq, Repr

namespace Queue

def new (maxSize : BitVec 16) : Queue :=
  { maxSize, size := 0, ready := false, descTable := 0, availRing := 0, usedRing := 0,
    nextAvail := 0, nextUsed := 0, eventIdxEnabled := false, numAdded := 0 }

def getMaxSize (q : Queue) : BitVec 16 := q.maxSize

/-- The driver may set up a smaller queue than the device offers. -/
def actualSize (q : Queue) : BitVec 16 := if q.size ≤ q.maxSize then q.size else q.maxSize

/-- The address `n` bytes after `a` is in guest memory. -/
def endInRange (mm : MemoryManager) (a n : BitVec 64) : Bool :=
  (checkedAdd a n).any mm.addressInRange

def isValid (q : Queue) (mm : MemoryManager) : Bool :=
  let queueSize := q.actualSize.setWidth 64
  if !q.ready then false
  else if q.maxSize < q.size || q.size = 0 || q.size &&& (q.size - 1) ≠ 0 then false
  else if !endInRange mm q.descTable (16 * queueSize) then false
  else if !endInRange mm q.availRing (6 + 2 * queueSize) then false
  else if !endInRange mm q.usedRing (6 + 8 * queueSize) then false
  else if q.descTable &&& 0xf ≠ 0 then false
  else if q.availRing &&& 0x1 ≠ 0 then false
  else if q.usedRing &&& 0x3 ≠ 0 then false
  else true

def setEventIdx (q : Queue) (enabled : Bool) : Queue := { q with eventIdxEnabled := enabled }

/-! ### The available ring -/

/-- `virtq_avail->idx`. -/
def availIdx (q : Queue) : VProg (Except QueueError (BitVec 16)) :=
  match checkedAdd q.availRing 2 with
  | none => pure (.error .addressOverflow)
  | some addr => do
    let r ← VProg.load addr
    pure (r.mapError .guestMemory)

/-- The number of chains in the available ring that are yet to be popped. -/
def len (q : Queue) : VProg (BitVec 16) := do
  let idx ← VProg.unwrap (← q.availIdx)
  pure (idx - q.nextAvail)

/-- The end of `pop`, from the head the ring names. -/
def popChain (q : Queue) (descIndex : BitVec 16) : VProg (Option DescriptorChain × Queue) := do
  let chain ← DescriptorChain.checkedNew q.descTable q.actualSize descIndex
  -- `nextAvail` moves past the head only when it starts a chain
  pure (chain, if chain.isSome then { q with nextAvail := q.nextAvail + 1 } else q)

/-- The rest of `pop` once `pending` chains are known to be in the ring. -/
def popHead (q : Queue) (pending : BitVec 16) : VProg (Option DescriptorChain × Queue) :=
  if pending = 0 ∨ q.actualSize = 0 then pure (none, q)
  else do
    let indexOffset ← VProg.add 4 (← VProg.mul 2 (q.nextAvail % q.actualSize))
    let addr ← VProg.add q.availRing (indexOffset.setWidth 64)
    let descIndex ← VProg.unwrap (← readObj (BitVec 16) addr)
    q.popChain descIndex

/-- Pop the first available descriptor chain from the available ring. -/
def pop (q : Queue) : VProg (Option DescriptorChain × Queue) := do
  q.popHead (← q.len)

def undoPop (q : Queue) : Queue := { q with nextAvail := q.nextAvail - 1 }

/-! ### The used ring -/

/-- The end of `addUsed`: publish the element just written. -/
def publishUsed (q : Queue) : VProg (Except QueueError Unit × Queue) :=
  let q' := { q with nextUsed := q.nextUsed + 1, numAdded := q.numAdded + 1 }
  match checkedAdd q.usedRing 2 with
  | none => pure (.error .addressOverflow, q')
  | some addr => do
    let r ← VProg.store q'.nextUsed addr
    pure (r.mapError .guestMemory, q')

def addUsed (q : Queue) (headIndex : BitVec 16) (len : BitVec 32) :
    VProg (Except QueueError Unit × Queue) :=
  if q.size ≤ headIndex then pure (.error .invalidDescriptorIndex, q)
  else
    let nextUsedIndex := (q.nextUsed % q.size).setWidth 64
    let offset := VIRTQ_USED_RING_HEADER_SIZE + nextUsedIndex * VIRTQ_USED_ELEMENT_SIZE
    match checkedAdd q.usedRing offset with
    | none => pure (.error .addressOverflow, q)
    | some addr => do
      -- a failure to write the element is dropped
      let _ ← writeObj (⟨headIndex.setWidth 32, len⟩ : VirtqUsedElem) addr
      q.publishUsed

/-- `virtq_avail->used_event`. -/
def usedEvent (q : Queue) : VProg (Except QueueError (BitVec 16)) :=
  match checkedAdd q.availRing
      (VIRTQ_AVAIL_RING_HEADER_SIZE + q.size.setWidth 64 * VIRTQ_AVAIL_ELEMENT_SIZE) with
  | none => pure (.error .addressOverflow)
  | some addr => do
    let r ← VProg.load addr
    pure (r.mapError .guestMemory)

/-- Write `virtq_used->avail_event`. -/
def setAvailEvent (q : Queue) (val : BitVec 16) : VProg (Except QueueError Unit) :=
  match checkedAdd q.usedRing
      (VIRTQ_USED_RING_HEADER_SIZE + VIRTQ_USED_ELEMENT_SIZE * q.size.setWidth 64) with
  | none => pure (.error .addressOverflow)
  | some addr => do
    let r ← VProg.store val addr
    pure (r.mapError .guestMemory)

/-- Write `virtq_used->flags`. -/
def setUsedFlags (q : Queue) (val : BitVec 16) : VProg (Except QueueError Unit) := do
  let r ← VProg.store val q.usedRing
  pure (r.mapError .guestMemory)

/-! ### Notifications -/

def setNotification (q : Queue) (enable : Bool) : VProg (Except QueueError Unit) :=
  if enable then
    if q.eventIdxEnabled then q.setAvailEvent q.nextAvail else q.setUsedFlags 0
  else if !q.eventIdxEnabled then q.setUsedFlags VRING_USED_F_NO_NOTIFY
  else pure (.ok ())

/-- The end of `enableNotification`: has the driver added more entries? -/
def recheckAvail (q : Queue) : VProg (Except QueueError Bool) := do
  let r ← q.availIdx
  pure (r.map fun idx => idx != q.nextAvail)

def enableNotification (q : Queue) : VProg (Except QueueError Bool) := do
  match ← q.setNotification true with
  | .error e => pure (.error e)
  | .ok () => q.recheckAvail

def disableNotification (q : Queue) : VProg (Except QueueError Unit) := q.setNotification false

/-- The decision of `needsNotification` once the driver's event is read. -/
def eventPassed (q : Queue) (usedEvent : BitVec 16) : Bool :=
  let old := q.nextUsed - q.numAdded
  q.nextUsed - usedEvent - 1 < q.nextUsed - old

def needsNotification (q : Queue) : VProg (Except QueueError Bool × Queue) :=
  if q.eventIdxEnabled then do
    match ← q.usedEvent with
    | .error e => pure (.error e, q)
    | .ok ev => pure (.ok (q.eventPassed ev), { q with numAdded := 0 })
  else pure (.ok true, q)

def goToPreviousPosition (q : Queue) : Queue := { q with nextAvail := q.nextAvail - 1 }

end Queue

end Whypa
