import Whypa.Virtio.Mmio

/-!
# Programming the queues

While features are negotiated and the device has not failed, the driver
describes its queues through nine registers: a selector, and for the selected
queue its size, its ready flag and the halves of three addresses
(`QueueReg`). Each register of each queue keeps the last word written to it
(`lastWritten`), whatever is written in between, and a queue is what its
registers make of it (`Queue.programmed`).
-/

namespace Whypa

open Framework DeviceStatus

/-- The registers that describe the selected queue. -/
inductive QueueReg
  | num
  | ready
  | descLow
  | descHigh
  | availLow
  | availHigh
  | usedLow
  | usedHigh
deriving DecidableEq, Repr

namespace QueueReg

def offset : QueueReg → BitVec 64
  | num => 0x38
  | ready => 0x44
  | descLow => 0x80
  | descHigh => 0x84
  | availLow => 0x90
  | availHigh => 0x94
  | usedLow => 0xa0
  | usedHigh => 0xa4

/-- What the transport does to the selected queue on a write of `v`. -/
def set (v : BitVec 32) : QueueReg → Queue → Queue
  | num, q => { q with size := v.setWidth 16 }
  | ready, q => { q with ready := v = 1 }
  | descLow, q => { q with descTable := MmioTransport.lo q.descTable v }
  | descHigh, q => { q with descTable := MmioTransport.hi q.descTable v }
  | availLow, q => { q with availRing := MmioTransport.lo q.availRing v }
  | availHigh, q => { q with availRing := MmioTransport.hi q.availRing v }
  | usedLow, q => { q with usedRing := MmioTransport.lo q.usedRing v }
  | usedHigh, q => { q with usedRing := MmioTransport.hi q.usedRing v }

end QueueReg

/-- The driver's writes of a word to the selector and to a register of the selected queue. -/
inductive QueueWrite
  | sel (v : BitVec 32)
  | reg (r : QueueReg) (v : BitVec 32)
deriving DecidableEq, Repr

namespace QueueWrite

def offset : QueueWrite → BitVec 64
  | sel _ => 0x30
  | reg r _ => r.offset

def value : QueueWrite → BitVec 32
  | sel v => v
  | reg _ v => v

end QueueWrite

/-- The transport after the writes `ws`. -/
def MmioTransport.program (t : MmioTransport) (ws : List QueueWrite) (backend : Bool) :
    MmioTransport :=
  ws.foldl (fun t w => t.write w.offset (leBytes 4 w.value.toNat) backend) t

/-! ## Last writes -/

/-- The selector after `ws`, when it was `s`. -/
def selected (s : BitVec 32) : List QueueWrite → BitVec 32
  | [] => s
  | .sel v :: ws => selected v ws
  | .reg _ _ :: ws => selected s ws

/-- What `ws` wrote last to the register `r` of queue `k`, when `s` was selected before. -/
def lastWritten (s : BitVec 32) (k : Nat) (r : QueueReg) : List QueueWrite → Option (BitVec 32)
  | [] => none
  | .sel v :: ws => lastWritten v k r ws
  | .reg r' v :: ws =>
    (lastWritten s k r ws).or (if s.toNat = k ∧ r' = r then some v else none)

/-- The address `a` with those of its halves replaced that were written. -/
def halves (high low : Option (BitVec 32)) (a : GuestAddress) : GuestAddress :=
  high.getD (a.extractLsb' 32 32) ++ low.getD (a.extractLsb' 0 32)

/-- The queue `q` after its registers were last written as `last` says. -/
def Queue.programmed (last : QueueReg → Option (BitVec 32)) (q : Queue) : Queue :=
  { q with
    size := ((last .num).map (BitVec.setWidth 16)).getD q.size
    ready := ((last .ready).map fun v => decide (v = 1)).getD q.ready
    descTable := halves (last .descHigh) (last .descLow) q.descTable
    availRing := halves (last .availHigh) (last .availLow) q.availRing
    usedRing := halves (last .usedHigh) (last .usedLow) q.usedRing }

/-! ## Addresses by halves -/

section
variable (a : GuestAddress) (v : BitVec 32) (high low : Option (BitVec 32))

theorem halves_none : halves none none a = a :=
  @BitVec.extractLsb'_append_extractLsb' 32 32 a

theorem halves_hi : halves high low (MmioTransport.hi a v) = halves (high.or (some v)) low a := by
  have h : MmioTransport.hi a v = v ++ a.extractLsb' 0 32 := low_or_shiftLeft a v
  rw [h, halves, halves, extract_high_append, extract_low_append]
  cases high <;> rfl

theorem halves_lo : halves high low (MmioTransport.lo a v) = halves high (low.or (some v)) a := by
  have h : MmioTransport.lo a v = a.extractLsb' 32 32 ++ v := high_or a v
  rw [h, halves, halves, extract_high_append, extract_low_append]
  cases low <;> rfl

end

/-! ## One write -/

namespace Queue

theorem programmed_none (q : Queue) : q.programmed (fun _ => none) = q := by
  simp only [programmed, halves_none]
  rfl

/-- Setting a register first is the same as having it as the oldest write. -/
theorem programmed_set (last : QueueReg → Option (BitVec 32)) (r : QueueReg) (v : BitVec 32)
    (q : Queue) :
    (r.set v q).programmed last =
      q.programmed fun r' => (last r').or (if r = r' then some v else none) := by
  cases r
  case num => cases h : last .num <;> simp [programmed, QueueReg.set, h]
  case ready => cases h : last .ready <;> simp [programmed, QueueReg.set, h]
  all_goals simp [programmed, QueueReg.set, halves_hi, halves_lo]

end Queue

namespace MmioTransport

variable {t : MmioTransport} {backend : Bool}

theorem write_word (t : MmioTransport) {offset : BitVec 64} (ho : offset ≤ 0xff) (v : BitVec 32) :
    t.write offset (leBytes 4 v.toNat) backend = t.writeRegister offset v backend := by
  rw [write, if_pos ⟨ho, length_leBytes 4 _⟩]
  exact congrArg (t.writeRegister offset · backend) (ofNat_ofLE_leBytes 4 v)

theorem write_sel (t : MmioTransport) (v : BitVec 32) :
    t.write (QueueWrite.sel v).offset (leBytes 4 v.toNat) backend = { t with queueSelect := v } :=
  @write_word backend t 0x30 (by decide) v

theorem write_reg (t : MmioTransport) (r : QueueReg) (v : BitVec 32) :
    t.write r.offset (leBytes 4 v.toNat) backend = t.updateQueueField (r.set v) := by
  cases r <;> exact write_word t (by decide) v

/-- The driver may program the queues: it has negotiated the features, and the
device has not failed. -/
structure Programmable (t : MmioTransport) : Prop where
  featuresOk : t.deviceStatus &&& FEATURES_OK ≠ 0
  working : t.deviceStatus &&& FAILED = 0

instance (t : MmioTransport) : Decidable t.Programmable :=
  decidable_of_iff (t.deviceStatus &&& FEATURES_OK ≠ 0 ∧ t.deviceStatus &&& FAILED = 0)
    ⟨fun h => ⟨h.1, h.2⟩, fun h => ⟨h.featuresOk, h.working⟩⟩

theorem Programmable.check (h : t.Programmable) :
    t.checkDeviceStatus FEATURES_OK FAILED = true := by
  have hbit : FEATURES_OK = BitVec.twoPow 32 3 := by decide
  have hok : t.deviceStatus &&& FEATURES_OK = FEATURES_OK := by
    have hne := h.featuresOk
    rw [hbit, BitVec.and_twoPow] at hne ⊢
    cases hb : t.deviceStatus.getLsbD 3 with
    | true => rfl
    | false => exact absurd (by rw [hb]; rfl) hne
  have hs : t.deviceStatus &&& (FEATURES_OK ||| FAILED) = FEATURES_OK := by
    rw [BitVec.and_or_distrib_left, hok, h.working]
    rfl
  exact decide_eq_true hs

/-- What the driver's programming of the queues does to the transport. -/
theorem program_eq {qs : List Queue} (h : t.Programmable) (hq : t.queues = some qs)
    (ws : List QueueWrite) :
    t.program ws backend =
      { t with
        queueSelect := selected t.queueSelect ws
        queues := some (qs.mapIdx fun k q =>
          q.programmed fun r => lastWritten t.queueSelect k r ws) } := by
  induction ws generalizing t qs with
  | nil =>
    have hid : (qs.mapIdx fun k q => q.programmed fun r => lastWritten t.queueSelect k r []) = qs :=
      List.ext_getElem? fun k => by
        rw [List.getElem?_mapIdx]
        cases qs[k]? with
        | none => rfl
        | some q => exact congrArg some q.programmed_none
    rw [hid, ← hq]
    rfl
  | cons w ws ih =>
    cases w with
    | sel v =>
      have hw : t.program (.sel v :: ws) backend =
          { t with queueSelect := v }.program ws backend := by
        rw [program, List.foldl_cons, QueueWrite.value, write_sel]
        rfl
      rw [hw, ih (t := { t with queueSelect := v }) ⟨h.featuresOk, h.working⟩ hq]
      rfl
    | reg r v =>
      have hw : t.program (.reg r v :: ws) backend =
          { t with queues := some (qs.modify t.queueSelect.toNat (r.set v)) }.program ws backend := by
        rw [program, List.foldl_cons, QueueWrite.value, QueueWrite.offset, write_reg,
          updateQueueField, if_pos h.check, withQueueMut, hq]
        rfl
      rw [hw, ih (t := { t with queues := some (qs.modify t.queueSelect.toNat (r.set v)) })
        ⟨h.featuresOk, h.working⟩ rfl]
      have hqs : ((qs.modify t.queueSelect.toNat (r.set v)).mapIdx fun k q =>
            q.programmed fun r' => lastWritten t.queueSelect k r' ws) =
          qs.mapIdx fun k q =>
            q.programmed fun r' => lastWritten t.queueSelect k r' (.reg r v :: ws) := by
        refine List.ext_getElem? fun k => ?_
        rw [List.getElem?_mapIdx, List.getElem?_mapIdx, List.getElem?_modify]
        cases hk : qs[k]? with
        | none => rfl
        | some q =>
          by_cases hs : t.queueSelect.toNat = k
          · simp [hs, lastWritten, Queue.programmed_set]
          · simp [hs, lastWritten]
      rw [hqs]
      rfl

/-- A register keeps what was last written to it: later writes hide earlier ones. -/
theorem lastWritten_append (s : BitVec 32) (k : Nat) (r : QueueReg) (ws ws' : List QueueWrite) :
    lastWritten s k r (ws ++ ws') =
      (lastWritten (selected s ws) k r ws').or (lastWritten s k r ws) := by
  induction ws generalizing s with
  | nil => exact Option.or_none.symm
  | cons w ws ih =>
    cases w with
    | sel v => exact ih v
    | reg r' v => exact (congrArg (Option.or · _) (ih s)).trans Option.or_assoc

/-- One write to register `r` of queue `i`. -/
theorem lastWritten_pair (s i : BitVec 32) (k : Nat) (r r' : QueueReg) (v : BitVec 32) :
    lastWritten s k r' [.sel i, .reg r v] = if i.toNat = k ∧ r = r' then some v else none := rfl

theorem lastWritten_comm {i j : BitVec 32} {r r' : QueueReg} (hne : (i, r) ≠ (j, r'))
    (s : BitVec 32) (v v' : BitVec 32) (k : Nat) (x : QueueReg) :
    lastWritten s k x ([.sel i, .reg r v] ++ [.sel j, .reg r' v']) =
      lastWritten s k x ([.sel j, .reg r' v'] ++ [.sel i, .reg r v]) := by
  rw [lastWritten_append, lastWritten_append]
  simp only [lastWritten_pair]
  by_cases hi : i.toNat = k ∧ r = x
  · have hj : ¬(j.toNat = k ∧ r' = x) := fun hj =>
      hne (Prod.ext (BitVec.eq_of_toNat_eq (hi.1.trans hj.1.symm)) (hi.2.trans hj.2.symm))
    rw [if_pos hi, if_neg hj]
    rfl
  · rw [if_neg hi, Option.or_none, Option.none_or]

/-- A word for a queue that is not there changes nothing. -/
theorem program_out_of_range {qs : List Queue} (h : t.Programmable) (hq : t.queues = some qs)
    (ws : List QueueWrite) (hs : qs.length ≤ (selected t.queueSelect ws).toNat) (r : QueueReg)
    (v : BitVec 32) : t.program (ws ++ [.reg r v]) backend = t.program ws backend := by
  have hsel : ∀ (s : BitVec 32) (ws : List QueueWrite),
      selected s (ws ++ [.reg r v]) = selected s ws := by
    intro s ws
    induction ws generalizing s with
    | nil => rfl
    | cons w ws ih =>
      cases w with
      | sel v => exact ih v
      | reg r' v => exact ih s
  have hqs : (qs.mapIdx fun k q =>
        q.programmed fun x => lastWritten t.queueSelect k x (ws ++ [.reg r v])) =
      qs.mapIdx fun k q => q.programmed fun x => lastWritten t.queueSelect k x ws := by
    refine List.ext_getElem? fun k => ?_
    rw [List.getElem?_mapIdx, List.getElem?_mapIdx]
    cases hk : qs[k]? with
    | none => rfl
    | some q =>
      have hlt := (List.getElem?_eq_some_iff.mp hk).1
      have hne : (selected t.queueSelect ws).toNat ≠ k := by omega
      simp [lastWritten_append, lastWritten, hne]
  rw [program_eq h hq, program_eq h hq, hsel, hqs]

/-- The queues are what was last written to their registers. The size is a
16-bit register, and a queue is ready when exactly 1 was written. -/
theorem queue_programming {qs : List Queue} (h : t.Programmable) (hq : t.queues = some qs) :
    (∀ ws : List QueueWrite,
      (t.program ws backend).queues = some (qs.mapIdx fun k q =>
        q.programmed fun r => lastWritten t.queueSelect k r ws)) ∧
    (∀ (i j : BitVec 32) (r r' : QueueReg) (v v' : BitVec 32), (i, r) ≠ (j, r') →
      (t.program ([.sel i, .reg r v] ++ [.sel j, .reg r' v']) backend).queues =
        (t.program ([.sel j, .reg r' v'] ++ [.sel i, .reg r v]) backend).queues) ∧
    (∀ (ws : List QueueWrite) (r : QueueReg) (v : BitVec 32),
      qs.length ≤ (selected t.queueSelect ws).toNat →
        t.program (ws ++ [.reg r v]) backend = t.program ws backend) ∧
    ∀ (w : QueueWrite) (data : List Byte), data.length ≠ 4 → t.write w.offset data backend = t := by
  refine ⟨fun ws => ?_, fun i j r r' v v' hne => ?_, fun ws r v hs => ?_, fun w data hd => ?_⟩
  · rw [program_eq h hq]
  · rw [program_eq h hq, program_eq h hq]
    simp only [lastWritten_comm hne]
  · exact program_out_of_range h hq ws hs r v
  · rw [write, if_neg fun hw => hd hw.2]

/-- A transport whose driver has negotiated the features. -/
def negotiated : MmioTransport :=
  { MmioTransport.new (.new .rng) none .new with
    deviceStatus := ACKNOWLEDGE ||| DRIVER ||| FEATURES_OK }

theorem queue_programming_negotiated :
    (negotiated.program [.reg .descHigh 1, .sel 7, .reg .descLow 5, .sel 0, .reg .descLow 2]
        true).queues = some [{ Queue.new 256 with descTable := 0x100000002 }] ∧
      negotiated.program [.sel 1, .reg .ready 1] true = negotiated.program [.sel 1] true := by
  have h := @queue_programming negotiated true [Queue.new 256] (by decide) rfl
  exact ⟨(h.1 _).trans (by decide), h.2.2.1 [.sel 1] .ready 1 (by decide)⟩

/-- The registers do not hold every word: sizes lose their upper half, 2 is not
ready, and half a word is not written at all. -/
theorem queue_registers_narrow :
    negotiated.Programmable ∧
      lastWritten negotiated.queueSelect 0 .num [.reg .num 0x10001] = some 0x10001 ∧
      (negotiated.program [.reg .num 0x10001] true).queues.map (List.map Queue.size) = some [1] ∧
      (negotiated.program [.reg .ready 1, .reg .ready 2] true).queues.map (List.map Queue.ready) =
        some [false] ∧
      (negotiated.write QueueReg.num.offset [1, 0] true).queues.map (List.map Queue.size) =
        some [0] := by
  decide

end MmioTransport

end Whypa
