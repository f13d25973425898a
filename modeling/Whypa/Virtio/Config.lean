import Whypa.Framework.Splice
import Whypa.Virtio.Mmio

/-!
# Reading a device's registers

A guest's read of a device (`MmioTransport.read`): the registers of the transport, and from
0x100 on the configuration of the device. The configuration is a record of bytes, of which a
read gives what lies at its offset and leaves the rest of the guest's buffer as it is
(`getElem?_readConfig`); so a driver gets the same bytes however it cuts the record into reads, and
whatever happens to the transport between them (`config_in_pieces`).
-/

namespace Whypa

open Framework

/-! ## The configuration of each device -/

structure VirtioBlkGeometry where
  cylinders : BitVec 16
  heads : BitVec 8
  sectors : BitVec 8
deriving DecidableEq, Repr

structure VirtioBlkTopology where
  physicalBlockExp : BitVec 8
  alignmentOffset : BitVec 8
  minIoSize : BitVec 16
  optIoSize : BitVec 32
deriving DecidableEq, Repr

structure VirtioBlkConfig where
  capacity : BitVec 64
  sizeMax : BitVec 32
  segMax : BitVec 32
  geometry : VirtioBlkGeometry
  blkSize : BitVec 32
  topology : VirtioBlkTopology
  writeback : BitVec 8
  unused0 : BitVec 8
  numQueues : BitVec 16
  maxDiscardSectors : BitVec 32
  maxDiscardSeg : BitVec 32
  discardSectorAlignment : BitVec 32
  maxWriteZeroesSectors : BitVec 32
  maxWriteZeroesSeg : BitVec 32
  writeZeroesMayUnmap : BitVec 8
deriving DecidableEq, Repr

structure ConsoleConfig where
  cols : BitVec 16
  rows : BitVec 16
  maxNrPorts : BitVec 32
  emergWr : BitVec 32
deriving DecidableEq, Repr

structure NetConfig where
  mac : Fin 6 → Byte
  status : BitVec 16
  maxVirtqueuePairs : BitVec 16

/-- The bytes of a field. -/
def fieldBytes {w : Nat} (v : BitVec w) : List Byte := leBytes (w / 8) v.toNat

theorem length_fieldBytes {w : Nat} (v : BitVec w) : (fieldBytes v).length = w / 8 := length_leBytes _ _

/-- The record of a packed structure: its fields one after the other. -/
def VirtioBlkConfig.asSlice (c : VirtioBlkConfig) : List Byte :=
  fieldBytes c.capacity ++ fieldBytes c.sizeMax ++ fieldBytes c.segMax ++
    fieldBytes c.geometry.cylinders ++ fieldBytes c.geometry.heads ++ fieldBytes c.geometry.sectors ++
    fieldBytes c.blkSize ++ fieldBytes c.topology.physicalBlockExp ++
    fieldBytes c.topology.alignmentOffset ++ fieldBytes c.topology.minIoSize ++
    fieldBytes c.topology.optIoSize ++ fieldBytes c.writeback ++ fieldBytes c.unused0 ++
    fieldBytes c.numQueues ++ fieldBytes c.maxDiscardSectors ++ fieldBytes c.maxDiscardSeg ++
    fieldBytes c.discardSectorAlignment ++ fieldBytes c.maxWriteZeroesSectors ++
    fieldBytes c.maxWriteZeroesSeg ++ fieldBytes c.writeZeroesMayUnmap

def ConsoleConfig.asSlice (c : ConsoleConfig) : List Byte :=
  fieldBytes c.cols ++ fieldBytes c.rows ++ fieldBytes c.maxNrPorts ++ fieldBytes c.emergWr

def NetConfig.asSlice (c : NetConfig) : List Byte :=
  List.ofFn c.mac ++ fieldBytes c.status ++ fieldBytes c.maxVirtqueuePairs

theorem VirtioBlkConfig.length_asSlice (c : VirtioBlkConfig) : c.asSlice.length = 57 := by
  unfold asSlice
  simp only [List.length_append, length_fieldBytes]

theorem ConsoleConfig.length_asSlice (c : ConsoleConfig) : c.asSlice.length = 12 := by
  simp only [asSlice, List.length_append, length_fieldBytes]

theorem NetConfig.length_asSlice (c : NetConfig) : c.asSlice.length = 10 := by
  simp only [asSlice, List.length_append, List.length_ofFn, length_fieldBytes]

def SECTOR_SHIFT : Nat := 9

/-- The configuration of `Block::new`, for an image of `diskSize` bytes. -/
def blockConfig (diskSize discardAlignment : BitVec 64) : VirtioBlkConfig :=
  { capacity := diskSize >>> SECTOR_SHIFT
    sizeMax := 0
    segMax := 254
    geometry := ⟨0, 0, 0⟩
    blkSize := 0
    topology := ⟨0, 0, 0, 0⟩
    writeback := 0
    unused0 := 0
    numQueues := 0
    maxDiscardSectors := 0xffffffff
    maxDiscardSeg := 1
    discardSectorAlignment := discardAlignment.setWidth 32 / 512
    maxWriteZeroesSectors := 0xffffffff
    maxWriteZeroesSeg := 1
    writeZeroesMayUnmap := 1 }

/-- That of `Console::new`. -/
def consoleConfig (cols rows : BitVec 16) : ConsoleConfig := ⟨cols, rows, 0, 0⟩

/-- That of `Net::new`. -/
def netConfig (mac : Fin 6 → Byte) : NetConfig := ⟨mac, 0, 1⟩

/-- The configuration of a device; the rng has none. -/
inductive DeviceConfig
  | block (c : VirtioBlkConfig)
  | rng
  | console (c : ConsoleConfig)
  | net (c : NetConfig)

namespace DeviceConfig

def asSlice : DeviceConfig → List Byte
  | block c => c.asSlice
  | rng => []
  | console c => c.asSlice
  | net c => c.asSlice

theorem length_asSlice (c : DeviceConfig) : c.asSlice.length ≤ 57 := by
  cases c with
  | block c => exact c.length_asSlice.le
  | rng => exact Nat.zero_le _
  | console c => exact c.length_asSlice.le.trans (by decide)
  | net c => exact c.length_asSlice.le.trans (by decide)

/-- `read_config`: copy the bytes at `offset`, as many as there are, to the front of `data`. -/
def readConfig (c : DeviceConfig) (offset : BitVec 64) (data : List Byte) : List Byte :=
  if c.asSlice.length ≤ offset.toNat then data
  else match checkedAdd offset (BitVec.ofNat 64 data.length) with
    | none => data
    | some stop => splice data 0 (slice c.asSlice offset.toNat
        (min stop.toNat c.asSlice.length - offset.toNat))

/-- Byte by byte: those in the record are read, the others are not touched. -/
theorem getElem?_readConfig (c : DeviceConfig) (offset : BitVec 64) {data : List Byte}
    (hd : data.length < 2 ^ 32) (i : Nat) :
    (c.readConfig offset data)[i]? =
      if i < data.length ∧ offset.toNat + i < c.asSlice.length then c.asSlice[offset.toNat + i]?
      else data[i]? := by
  have hlen := c.length_asSlice
  have hn : (BitVec.ofNat 64 data.length).toNat = data.length := by
    rw [BitVec.toNat_ofNat, Nat.mod_eq_of_lt (by omega)]
  unfold readConfig
  split
  · rw [if_neg (by omega)]
  rename_i hlt
  have hadd : checkedAdd offset (BitVec.ofNat 64 data.length) =
      some (offset + BitVec.ofNat 64 data.length) := checkedAdd_eq_some.mpr ⟨by omega, rfl⟩
  rw [hadd]
  dsimp only
  have hstop : (offset + BitVec.ofNat 64 data.length).toNat = offset.toNat + data.length := by
    rw [BitVec.toNat_add_of_lt (by omega), hn]
  have hs : (slice c.asSlice offset.toNat
      (min (offset + BitVec.ofNat 64 data.length).toNat c.asSlice.length - offset.toNat)).length =
      min (offset.toNat + data.length) c.asSlice.length - offset.toNat := by
    rw [slice, List.length_take, List.length_drop, hstop]
    omega
  rw [getElem?_splice (by rw [hs]; omega), hs, getElem?_slice, hstop, Nat.sub_zero, Nat.zero_add]
  by_cases h : i < data.length ∧ offset.toNat + i < c.asSlice.length
  · rw [if_pos h, if_pos (by omega), if_pos (by omega)]
  · rw [if_neg h, if_neg (by omega)]

theorem length_readConfig (c : DeviceConfig) {offset : BitVec 64} {data : List Byte}
    (hd : data.length < 2 ^ 32) : (c.readConfig offset data).length = data.length := by
  refine le_antisymm ?_ ?_ <;> rw [← not_lt] <;> intro hlt
  · have h := c.getElem?_readConfig offset hd data.length
    rw [if_neg (by omega), List.getElem?_eq_getElem hlt, List.getElem?_eq_none le_rfl] at h
    cases h
  · have h := c.getElem?_readConfig offset hd (c.readConfig offset data).length
    rw [List.getElem?_eq_none le_rfl] at h
    split at h
    · rename_i hin
      rw [List.getElem?_eq_getElem hin.2] at h
      cases h
    · rw [List.getElem?_eq_getElem hlt] at h
      cases h

end DeviceConfig

/-! ## The registers -/

def TYPE_NET : BitVec 32 := 1
def TYPE_BLOCK : BitVec 32 := 2
def TYPE_CONSOLE : BitVec 32 := 3
def TYPE_RNG : BitVec 32 := 4

def VENDOR_ID : BitVec 32 := 0
def MMIO_MAGIC_VALUE : BitVec 32 := 0x74726976
def MMIO_VERSION : BitVec 32 := 2

def DeviceKind.deviceType : DeviceKind → BitVec 32
  | .block .. => TYPE_BLOCK
  | .rng => TYPE_RNG
  | .console => TYPE_CONSOLE
  | .net => TYPE_NET

def VirtioDevice.availFeaturesByPage (d : VirtioDevice) (page : BitVec 32) : BitVec 32 :=
  if page = 0 then d.availFeatures.setWidth 32
  else if page = 1 then (d.availFeatures >>> 32).setWidth 32
  else 0

namespace MmioTransport

/-- `f` of the selected queue, if the transport still has it. -/
def withQueue {U : Type} (t : MmioTransport) (d : U) (f : Queue → U) : U :=
  match t.queues with
  | none => d
  | some qs => match qs[t.queueSelect.toNat]? with
    | none => d
    | some q => f q

/-- The base and the length of the shared memory region. No device has one. -/
def shmRegion : BitVec 64 × BitVec 64 := (0, ~~~0)

/-- The register at `offset`, below 0x100. -/
def readRegister (t : MmioTransport) (offset : BitVec 64) : Option (BitVec 32) :=
  if offset = 0x00 then some MMIO_MAGIC_VALUE
  else if offset = 0x04 then some MMIO_VERSION
  else if offset = 0x08 then some t.device.kind.deviceType
  else if offset = 0x0c then some VENDOR_ID
  else if offset = 0x10 then
    let features := t.device.availFeaturesByPage t.featuresSelect
    some (if t.featuresSelect = 1 then features ||| 0x1 else features)
  else if offset = 0x34 then some (t.withQueue 0 fun q => q.getMaxSize.setWidth 32)
  else if offset = 0x44 then some (t.withQueue 0 fun q => if q.ready then 1 else 0)
  else if offset = 0x60 then some (t.interrupt.status.setWidth 32)
  else if offset = 0x70 then some t.deviceStatus
  else if offset = 0xfc then some t.configGeneration
  else if 0xb0 ≤ offset ∧ offset ≤ 0xbc then
    some (if offset = 0xb0 then shmRegion.2.setWidth 32
      else if offset = 0xb4 then (shmRegion.2 >>> 32).setWidth 32
      else if offset = 0xb8 then shmRegion.1.setWidth 32
      else if offset = 0xbc then (shmRegion.1 >>> 32).setWidth 32
      else 0)
  else none

/-- A guest's read into the buffer `data`. -/
def read (t : MmioTransport) (config : DeviceConfig) (offset : BitVec 64) (data : List Byte) :
    List Byte :=
  if offset ≤ 0xff ∧ data.length = 4 then
    match t.readRegister offset with
    | none => data
    | some v => leBytes 4 v.toNat
  else if 0x100 ≤ offset ∧ offset ≤ 0xfff then config.readConfig (offset - 0x100) data
  else data

/-- A driver reads into the buffers `ds`, one after the other from `offset` on, while the transport
goes on from `t` to `u`: the bytes it gets. -/
inductive ReadPieces (config : DeviceConfig) :
    MmioTransport → BitVec 64 → List (List Byte) → List Byte → MmioTransport → Prop
  | done (t : MmioTransport) (offset : BitVec 64) : ReadPieces config t offset [] [] t
  | step {t t' u : MmioTransport} {l : Mmio.Label} {offset : BitVec 64} {ds : List (List Byte)}
      {bytes : List Byte} (hs : Mmio.step t l = some t') (h : ReadPieces config t' offset ds bytes u) :
      ReadPieces config t offset ds bytes u
  | read {t u : MmioTransport} {offset : BitVec 64} {d : List Byte} {ds : List (List Byte)}
      {bytes : List Byte} (h : ReadPieces config t (offset + BitVec.ofNat 64 d.length) ds bytes u) :
      ReadPieces config t offset (d :: ds) (t.read config offset d ++ bytes) u

section
variable (t : MmioTransport) (config : DeviceConfig) {offset : BitVec 64}

theorem getElem?_read_config (h : 0x100 ≤ offset.toNat) {data : List Byte}
    (hd : data.length < 2 ^ 32) (i : Nat) : (t.read config offset data)[i]? =
      if i < data.length ∧ offset.toNat - 0x100 + i < config.asSlice.length then
        config.asSlice[offset.toNat - 0x100 + i]?
      else data[i]? := by
  have hlen := config.length_asSlice
  have hreg : ¬ (offset ≤ 0xff ∧ data.length = 4) := fun hle => by
    have : offset.toNat ≤ 0xff := hle.1
    omega
  have hsub : (offset - 0x100).toNat = offset.toNat - 0x100 :=
    BitVec.toNat_sub_of_le (by rw [BitVec.le_def]; exact h)
  unfold read
  rw [if_neg hreg]
  split
  · rw [config.getElem?_readConfig _ hd, hsub]
  · rename_i hout
    have hgt : 0xfff < offset.toNat := by
      by_contra hle
      exact hout ⟨h, by rw [BitVec.le_def]; exact Nat.not_lt.mp hle⟩
    rw [if_neg (by omega)]

theorem length_read_config (h : 0x100 ≤ offset.toNat) (data : List Byte)
    (hd : data.length < 2 ^ 32) : (t.read config offset data).length = data.length := by
  have hreg : ¬ (offset ≤ 0xff ∧ data.length = 4) := fun hle => by
    have : offset.toNat ≤ 0xff := hle.1
    omega
  unfold read
  rw [if_neg hreg]
  split
  · exact config.length_readConfig hd
  · rfl

/-- The bytes of the record that lie in the range are read, and nothing else of the driver's buffers
is touched. -/
theorem getElem?_readPieces {t u : MmioTransport} {ds : List (List Byte)} {bytes : List Byte}
    (hr : ReadPieces config t offset ds bytes u) (h : 0x100 ≤ offset.toNat)
    (hd : offset.toNat + ds.flatten.length < 2 ^ 32) (i : Nat) :
    bytes[i]? =
      if i < ds.flatten.length ∧ offset.toNat - 0x100 + i < config.asSlice.length then
        config.asSlice[offset.toNat - 0x100 + i]?
      else ds.flatten[i]? := by
  induction hr generalizing i with
  | done t offset => simp
  | step hs hr ih => exact ih h hd i
  | @read t u offset d ds bytes hr ih =>
    rw [List.flatten_cons, List.length_append] at hd
    have hlen := length_read_config t config h d (by omega)
    have hnext : (offset + BitVec.ofNat 64 d.length).toNat = offset.toNat + d.length := by
      rw [BitVec.toNat_add, BitVec.toNat_ofNat]
      omega
    rw [List.flatten_cons, List.length_append]
    by_cases hi : i < d.length
    · rw [List.getElem?_append_left (by omega), List.getElem?_append_left hi,
        getElem?_read_config t config h (by omega)]
      by_cases hc : offset.toNat - 0x100 + i < config.asSlice.length
      · rw [if_pos ⟨hi, hc⟩, if_pos ⟨by omega, hc⟩]
      · rw [if_neg fun hh => hc hh.2, if_neg fun hh => hc hh.2]
    · rw [List.getElem?_append_right (by omega), List.getElem?_append_right (by omega), hlen,
        ih (by omega) (by omega), hnext,
        show offset.toNat + d.length - 0x100 + (i - d.length) = offset.toNat - 0x100 + i by omega]
      by_cases hc : i < d.length + ds.flatten.length ∧ offset.toNat - 0x100 + i < config.asSlice.length
      · rw [if_pos hc, if_pos ⟨by omega, hc.2⟩]
      · rw [if_neg hc, if_neg fun hh => hc ⟨by omega, hh.2⟩]

/-- However a driver cuts its reads of the configuration, and whatever the guest, the device's worker
and the host do to the transport between them, it gets what one read of the range gives in any state:
the bytes of the record that lie in the range, with the rest of its buffers as it was. -/
theorem config_in_pieces {u : MmioTransport} {ds : List (List Byte)} {bytes : List Byte}
    (hr : ReadPieces config t offset ds bytes u) (h : 0x100 ≤ offset.toNat)
    (hd : offset.toNat + ds.flatten.length < 2 ^ 32) :
    (∀ v : MmioTransport, bytes = v.read config offset ds.flatten) ∧
      ∀ i, bytes[i]? =
        if i < ds.flatten.length ∧ offset.toNat - 0x100 + i < config.asSlice.length then
          config.asSlice[offset.toNat - 0x100 + i]?
        else ds.flatten[i]? := by
  have hb := getElem?_readPieces config hr h hd
  refine ⟨fun v => List.ext_getElem? fun i => ?_, hb⟩
  rw [hb, getElem?_read_config v config h (by omega)]

end

/-- The driver of a network device reads the last byte of the address, acknowledges the device, and
reads on. -/
theorem config_in_pieces_net :
    let t : MmioTransport := new (.new .net) none .new
    let config : DeviceConfig := .net (netConfig fun _ => 0x52)
    ∃ u, ReadPieces config t 0x105 [[0], [7, 7]]
        (t.read config 0x105 [0] ++ u.read config 0x106 [7, 7]) u ∧ u.deviceStatus = 1 ∧
      t.read config 0x105 [0] ++ u.read config 0x106 [7, 7] = t.read config 0x105 [0, 7, 7] := by
  intro t config
  let u := t.write 0x70 [1, 0, 0, 0] true
  have hr : ReadPieces config t 0x105 [[0], [7, 7]]
      (t.read config 0x105 [0] ++ u.read config 0x106 [7, 7]) u := by
    have hread : ReadPieces config u 0x106 [[7, 7]] (u.read config 0x106 [7, 7] ++ []) u :=
      .read (.done u _)
    rw [List.append_nil] at hread
    exact .read (.step (l := .write 0x70 [1, 0, 0, 0] true) rfl hread)
  have hu : ((new (.new .net) none .new).write 0x70 [1, 0, 0, 0] true).deviceStatus = 1 := by decide +kernel
  exact ⟨u, hr, hu, (config_in_pieces t config hr (by decide) (by decide)).1 t⟩

end MmioTransport

end Whypa
