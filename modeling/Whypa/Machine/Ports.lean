import Mathlib.Data.List.Induction
import Whypa.Devices.Bus
import Whypa.Framework.Bytes
import Whypa.Framework.FixedPoint

/-!
# The I/O ports

What the guest's port accesses get (`emulator.rs`): a latch for the address of
PCI configuration accesses, counters that stand in for the legacy timers, and a
bus with the ACPI power management timer (`acpi.rs`). The answer to an access
is a function of the accesses before it and of the time (`ports_history`). The
refresh bits that a guest polls are set in half of any 256 reads
(`refresh_half`), and two reads of the timer are as far apart as the clock says
(`pmTimer_elapsed`).
-/

namespace Whypa

open Framework

/-! ## The power management timer -/

def PM_TIMER_FREQUENCY_HZ : Nat := 3579545
def NANOS_PER_SECOND : Nat := 1000000000

/-- Its ticks in `nanos` nanoseconds. -/
def pmTicks (nanos : Nat) : Nat := nanos * PM_TIMER_FREQUENCY_HZ / NANOS_PER_SECOND

/-- A device on the bus: there is but the timer. -/
inductive PortDevice
  | acpiPmTimer
deriving DecidableEq, Repr

/-- A read into the buffer `data`, `nanos` after the device was made. -/
def PortDevice.read (nanos : Nat) (data : List Byte) : PortDevice → List Byte
  | acpiPmTimer => if data.length ≠ 4 then data else leBytes 4 (pmTicks nanos % 2 ^ 32)

/-- The bus, as `add_acpi_platform_device` leaves it. -/
def ioBus : Bus PortDevice := ⟨[(⟨0x608, 4⟩, .acpiPmTimer)]⟩

theorem insert_ioBus (ck : Bool) :
    Bus.new.insert ck .acpiPmTimer 0x608 4 = some (.ok (), ioBus) := by
  cases ck <;> rfl

/-! ## Accesses -/

/-- `WHV_EMULATOR_IO_ACCESS_INFO`. -/
structure IoAccessInfo where
  /-- 1 for an `OUT`, else an `IN`. -/
  direction : BitVec 8
  port : BitVec 16
  accessSize : BitVec 16
  data : BitVec 32
deriving DecidableEq, Repr

structure Ports where
  dummyRtcTime : BitVec 64
  dummyRtcCounter : BitVec 64
  internalCounter : BitVec 64
  pciAddressConfig : BitVec 32
deriving DecidableEq, Repr

namespace Ports

def new : Ports := ⟨0, 0, 0, 0⟩

/-- The answer at the port 0x61: bit 4 toggles every 128 reads, bit 5 every 64. -/
def refresh (counter : BitVec 64) : BitVec 32 :=
  let bit4 := ((counter >>> 7) &&& 1) <<< 4
  let bit5 := ((counter >>> 6) &&& 1) <<< 5
  (bit4 ||| bit5).setWidth 32

/-- A read of the bus into the first bytes of four zeros. -/
def busRead (nanos : Nat) (port accessSize : BitVec 16) : BitVec 32 :=
  let size := min accessSize.toNat 4
  match ioBus.getDevice (port.setWidth 64) with
  | none => 0
  | some (_, dev) =>
    BitVec.ofNat 32 (ofLE (dev.read nanos (List.replicate size 0) ++ List.replicate (4 - size) 0))

/-- The data after an access, `nanos` after the timer was made, and the ports after it. The devices
on the bus keep nothing of what is written to them. -/
def ioPortCallback (nanos : Nat) (s : Ports) (a : IoAccessInfo) : BitVec 32 × Ports :=
  if a.direction = 1 then
    if a.port = 0xcf8 then (a.data, { s with pciAddressConfig := a.data }) else (a.data, s)
  else if a.port = 43 then (99, s)
  else if a.port = 0x40 ∨ a.port = 0x43 then
    let counter := s.dummyRtcCounter + 1
    let time := if counter.toNat % 100 = 0 then s.dummyRtcTime + 1 else s.dummyRtcTime
    (time.setWidth 32, { s with dummyRtcCounter := counter, dummyRtcTime := time })
  else if a.port = 0x61 then
    let counter := s.internalCounter + 1
    (refresh counter, { s with internalCounter := counter })
  else if a.port = 0x70 ∨ a.port = 0x71 then (0, s)
  else if a.port = 0xcf8 then (s.pciAddressConfig, s)
  else if a.port = 0xcfc then (0xffffffff, s)
  else (busRead nanos a.port a.accessSize, s)

/-- The ports after accesses at the given times. -/
def run (s : Ports) (as : List (Nat × IoAccessInfo)) : Ports :=
  as.foldl (fun s a => (ioPortCallback a.1 s a.2).2) s

/-! ## Histories -/

/-- The access reads one of the legacy timers. -/
def readsRtc (a : IoAccessInfo) : Bool := a.direction ≠ 1 && (a.port = 0x40 || a.port = 0x43)

def readsRefresh (a : IoAccessInfo) : Bool := a.direction ≠ 1 && a.port = 0x61

/-- The access sets the address of the configuration accesses. -/
def latches (a : IoAccessInfo) : Bool := a.direction = 1 && a.port = 0xcf8

/-- The answer to an access after the accesses `hist`. -/
def answer (hist : List IoAccessInfo) (nanos : Nat) (a : IoAccessInfo) : BitVec 32 :=
  if a.direction = 1 then a.data
  else if a.port = 43 then 99
  else if a.port = 0x40 ∨ a.port = 0x43 then BitVec.ofNat 32 ((hist.countP readsRtc + 1) / 100)
  else if a.port = 0x61 then refresh (BitVec.ofNat 64 (hist.countP readsRefresh + 1))
  else if a.port = 0x70 ∨ a.port = 0x71 then 0
  else if a.port = 0xcf8 then (((hist.filter latches).getLast?).map IoAccessInfo.data).getD 0
  else if a.port = 0xcfc then 0xffffffff
  else if 0x608 ≤ a.port.toNat ∧ a.port.toNat < 0x60c ∧ 4 ≤ a.accessSize.toNat then
    BitVec.ofNat 32 (pmTicks nanos)
  else 0

/-- The ports after the accesses `hist`. -/
structure After (hist : List IoAccessInfo) (s : Ports) : Prop where
  rtcCounter : s.dummyRtcCounter = BitVec.ofNat 64 (hist.countP readsRtc)
  rtcTime : s.dummyRtcTime = BitVec.ofNat 64 (hist.countP readsRtc / 100)
  counter : s.internalCounter = BitVec.ofNat 64 (hist.countP readsRefresh)
  latch : s.pciAddressConfig = (((hist.filter latches).getLast?).map IoAccessInfo.data).getD 0

section
variable {nanos : Nat} {s : Ports} {a : IoAccessInfo} {hist : List IoAccessInfo}

/-- What an access does to the ports. -/
theorem ioPortCallback_ports : (ioPortCallback nanos s a).2 =
    { dummyRtcCounter := if readsRtc a then s.dummyRtcCounter + 1 else s.dummyRtcCounter
      dummyRtcTime := if readsRtc a ∧ (s.dummyRtcCounter + 1).toNat % 100 = 0 then s.dummyRtcTime + 1
        else s.dummyRtcTime
      internalCounter := if readsRefresh a then s.internalCounter + 1 else s.internalCounter
      pciAddressConfig := if latches a then a.data else s.pciAddressConfig } := by
  obtain ⟨direction, port, accessSize, data⟩ := a
  by_cases hd : direction = 1#8
  · by_cases hp : port = 0xcf8#16 <;> simp [ioPortCallback, readsRtc, readsRefresh, latches, hd, hp]
  by_cases h40 : port = 0x40#16
  · simp [ioPortCallback, readsRtc, readsRefresh, latches, hd, h40]
  by_cases h43 : port = 0x43#16
  · simp [ioPortCallback, readsRtc, readsRefresh, latches, hd, h43]
  by_cases h61 : port = 0x61#16
  · simp [ioPortCallback, readsRtc, readsRefresh, latches, hd, h61]
  simp only [ioPortCallback, BitVec.ofNat_eq_ofNat, hd, ↓reduceIte, h40, h43, or_self, h61,
    readsRtc, readsRefresh, latches, ne_eq, not_false_eq_true, decide_true, decide_false,
    Bool.or_self, Bool.and_false, Bool.false_eq_true, false_and, Bool.false_and]
  split_ifs <;> rfl

theorem after_new : After [] new := ⟨rfl, rfl, rfl, rfl⟩

/-- The next reading of a counter, of which `n` were had. -/
theorem toNat_ofNat_add_one {n : Nat} (hn : n + 1 < 2 ^ 64) :
    (BitVec.ofNat 64 n + 1).toNat = n + 1 := by
  rw [show BitVec.ofNat 64 n + 1 = BitVec.ofNat 64 (n + 1) from (BitVec.ofNat_add n 1).symm,
    BitVec.toNat_ofNat, Nat.mod_eq_of_lt hn]

/-- The legacy timer goes up with every hundredth reading. -/
theorem rtcTime_step {n : Nat} (hn : n + 1 < 2 ^ 64) :
    (if (BitVec.ofNat 64 n + 1).toNat % 100 = 0 then BitVec.ofNat 64 (n / 100) + 1
      else BitVec.ofNat 64 (n / 100)) = BitVec.ofNat 64 ((n + 1) / 100) := by
  rw [toNat_ofNat_add_one hn]
  split
  · rw [show (n + 1) / 100 = n / 100 + 1 by omega, BitVec.ofNat_add]
    rfl
  · rw [show (n + 1) / 100 = n / 100 by omega]

theorem After.step (h : After hist s) (hn : hist.length + 1 < 2 ^ 64) :
    After (hist ++ [a]) (ioPortCallback nanos s a).2 := by
  have hc : hist.countP readsRtc ≤ hist.length := List.countP_le_length
  rw [ioPortCallback_ports, h.rtcCounter, h.rtcTime, h.counter, h.latch]
  constructor
  · by_cases hr : readsRtc a <;> simp [hr, BitVec.ofNat_add]
  · by_cases hr : readsRtc a
    · simp only [hr, true_and, List.countP_append, List.countP_singleton, if_true]
      exact rtcTime_step (by omega)
    · simp [hr]
  · by_cases hr : readsRefresh a <;> simp [hr, BitVec.ofNat_add]
  · by_cases hl : latches a <;> simp [hl]

theorem after_run (as : List (Nat × IoAccessInfo)) (hn : as.length < 2 ^ 64) :
    After (as.map Prod.snd) (run new as) := by
  induction as using List.reverseRecOn with
  | nil => exact after_new
  | append_singleton as a ih =>
    rw [List.length_append, List.length_singleton] at hn
    have h := @After.step a.1 _ a.2 _ (ih (by omega)) (by rwa [List.length_map])
    rwa [run, List.foldl_append, List.map_append]

theorem ioBus_getDevice (addr : BitVec 64) : ioBus.getDevice addr =
    if 0x608 ≤ addr.toNat ∧ addr.toNat < 0x60c then some (addr - 0x608, .acpiPmTimer) else none := by
  have hfirst : ioBus.firstBefore addr =
      if 0x608 ≤ addr.toNat then some (⟨0x608, 4⟩, .acpiPmTimer) else none := by
    by_cases h : 0x608 ≤ addr.toNat <;>
      simp [Bus.firstBefore, OrdMap.lastLe, ioBus, BusRange.key, h]
  rw [Bus.getDevice, hfirst]
  by_cases h : 0x608 ≤ addr.toNat
  · have hsub : (addr - 0x608#64).toNat = addr.toNat - 0x608 :=
      BitVec.toNat_sub_of_le (BitVec.le_def.mpr h)
    have hlt : addr - 0x608#64 < 4#64 ↔ addr.toNat < 0x60c := by
      rw [BitVec.lt_def, hsub]
      show addr.toNat - 0x608 < 4 ↔ _
      omega
    simp [h, hlt]
  · simp [h]

theorem busRead_eq (nanos : Nat) (port accessSize : BitVec 16) : busRead nanos port accessSize =
    if 0x608 ≤ port.toNat ∧ port.toNat < 0x60c ∧ 4 ≤ accessSize.toNat then
      BitVec.ofNat 32 (pmTicks nanos)
    else 0 := by
  have hport : (port.setWidth 64).toNat = port.toNat := by
    rw [BitVec.toNat_setWidth]
    exact Nat.mod_eq_of_lt (by omega)
  rw [busRead, ioBus_getDevice, hport]
  by_cases hp : 0x608 ≤ port.toNat ∧ port.toNat < 0x60c
  · rw [if_pos hp]
    by_cases hs : 4 ≤ accessSize.toNat
    · rw [if_pos ⟨hp.1, hp.2, hs⟩, Nat.min_eq_right hs]
      show BitVec.ofNat 32 (ofLE (leBytes 4 (pmTicks nanos % 2 ^ 32) ++ [])) = _
      rw [List.append_nil, ofLE_leBytes]
      apply BitVec.eq_of_toNat_eq
      simp only [BitVec.toNat_ofNat]
      omega
    · rw [if_neg fun h => hs h.2.2]
      generalize accessSize.toNat = size at hs
      obtain rfl | rfl | rfl | rfl : size = 0 ∨ size = 1 ∨ size = 2 ∨ size = 3 := by omega
      all_goals rfl
  · rw [if_neg hp, if_neg fun h => hp ⟨h.1, h.2.1⟩]

/-- The answer to an access after any others is what the accesses of its kind make of it. -/
theorem ports_history (as : List (Nat × IoAccessInfo)) (hn : as.length + 1 < 2 ^ 64) (nanos : Nat)
    (a : IoAccessInfo) :
    (ioPortCallback nanos (run new as) a).1 = answer (as.map Prod.snd) nanos a := by
  have h := after_run as (by omega)
  have hc : (as.map Prod.snd).countP readsRtc ≤ as.length :=
    List.countP_le_length.trans_eq (List.length_map _)
  have htime := rtcTime_step (n := (as.map Prod.snd).countP readsRtc) (by omega)
  have hcount : BitVec.ofNat 64 ((as.map Prod.snd).countP readsRefresh) + 1 =
    BitVec.ofNat 64 ((as.map Prod.snd).countP readsRefresh + 1) := (BitVec.ofNat_add _ 1).symm
  simp only [ioPortCallback, answer]
  rw [h.rtcCounter, h.rtcTime, h.counter, h.latch, htime, hcount, busRead_eq,
    BitVec.setWidth_ofNat_of_le (by decide)]
  split_ifs <;> rfl

end

/-- An `IN` of four bytes. -/
def input (port : BitVec 16) : IoAccessInfo := ⟨0, port, 4, 0⟩

theorem ports_history_latch : let as := [(0, ⟨1, 0xcf8, 4, 0x80000000⟩), (5, input 0x40)]
    (ioPortCallback 7 (run new as) (input 0xcf8)).1 = 0x80000000 :=
  (ports_history _ (by decide) 7 (input 0xcf8)).trans (by decide)

/-! ## The refresh bits -/

/-- The accesses with the answers they get. -/
def answers (s : Ports) : List (Nat × IoAccessInfo) → List (IoAccessInfo × BitVec 32)
  | [] => []
  | a :: as => (a.2, (ioPortCallback a.1 s a.2).1) :: answers (ioPortCallback a.1 s a.2).2 as

/-- The answers that the reads of the refresh bits get. -/
def refreshes (s : Ports) (as : List (Nat × IoAccessInfo)) : List (BitVec 32) :=
  ((answers s as).filter fun e => readsRefresh e.1).map Prod.snd

/-- The other accesses leave the refresh bits alone. -/
theorem refreshes_cons (s : Ports) (a : Nat × IoAccessInfo) (as : List (Nat × IoAccessInfo)) :
    refreshes s (a :: as) = if readsRefresh a.2 then
      refresh (s.internalCounter + 1) :: refreshes (ioPortCallback a.1 s a.2).2 as
    else refreshes (ioPortCallback a.1 s a.2).2 as := by
  by_cases hr : readsRefresh a.2
  · have hanswer : (ioPortCallback a.1 s a.2).1 = refresh (s.internalCounter + 1) := by
      simp only [readsRefresh, Bool.and_eq_true, decide_eq_true_eq] at hr
      simp only [ioPortCallback, if_neg hr.1, hr.2]
      rfl
    simp [refreshes, answers, hr, hanswer]
  · simp [refreshes, answers, hr]

/-- Read by read, they follow the counter. -/
theorem refreshes_eq (s : Ports) (as : List (Nat × IoAccessInfo)) : refreshes s as =
    (List.range (as.countP fun a => readsRefresh a.2)).map fun i =>
      refresh (Counter.ahead (s.internalCounter + 1) i) := by
  induction as generalizing s with
  | nil => rfl
  | cons a as ih =>
    rw [refreshes_cons, ih, ioPortCallback_ports]
    by_cases hr : readsRefresh a.2
    · have hnext : ∀ i, Counter.ahead (s.internalCounter + 1 + 1) i =
          Counter.ahead (s.internalCounter + 1) (i + 1) := fun i => by
        rw [Nat.add_comm i 1, ← Counter.ahead_ahead]
        rfl
      simp only [hr, if_true, hnext, List.countP_cons, List.range_succ_eq_map, List.map_cons,
        List.map_map, Counter.ahead_zero]
      rfl
    · simp only [hr, List.countP_cons]
      rfl

theorem getLsbD_refresh (c : BitVec 64) : (refresh c).getLsbD 4 = c.getLsbD 7 ∧
    (refresh c).getLsbD 5 = c.getLsbD 6 := by
  constructor <;> simp [refresh]

/-- Over any 256 reads, whatever the counter was and whatever accesses lie between, each of the two
bits that a guest may poll is set in half of the answers. -/
theorem refresh_half (s : Ports) {as : List (Nat × IoAccessInfo)}
    (h : as.countP (fun a => readsRefresh a.2) = 256) :
    (refreshes s as).countP (·.getLsbD 4) = 128 ∧ (refreshes s as).countP (·.getLsbD 5) = 128 := by
  rw [refreshes_eq, h, List.countP_map, List.countP_map]
  constructor
  · refine Eq.trans (List.countP_congr fun i _ => ?_) (Counter.countP_ahead (s.internalCounter + 1)
      (b := 7) (by decide) 1)
    rw [Function.comp_apply, (getLsbD_refresh _).1]
  · refine Eq.trans (List.countP_congr fun i _ => ?_) (Counter.countP_ahead (s.internalCounter + 1)
      (b := 6) (by decide) 2)
    rw [Function.comp_apply, (getLsbD_refresh _).2]

theorem refresh_half_new : (refreshes new (List.replicate 256 (0, input 0x61))).countP
    (·.getLsbD 4) = 128 :=
  (refresh_half new (by rw [List.countP_replicate]; rfl)).1

/-! ## The timer -/

/-- The access reads the whole power management timer. -/
def readsPmTimer (a : IoAccessInfo) : Bool :=
  a.direction ≠ 1 && 0x608 ≤ a.port && a.port < 0x60c && 4 ≤ a.accessSize

theorem ioPortCallback_pmTimer {nanos : Nat} {s : Ports} {a : IoAccessInfo} (h : readsPmTimer a) :
    (ioPortCallback nanos s a).1 = BitVec.ofNat 32 (pmTicks nanos) := by
  simp only [readsPmTimer, Bool.and_eq_true, decide_eq_true_eq] at h
  obtain ⟨⟨⟨hd, hlow⟩, hhigh⟩, hsize⟩ := h
  have hlow : 0x608 ≤ a.port.toNat := BitVec.le_def.mp hlow
  have hhigh : a.port.toNat < 0x60c := BitVec.lt_def.mp hhigh
  have hsize : 4 ≤ a.accessSize.toNat := BitVec.le_def.mp hsize
  have hport : ∀ p : BitVec 16, p.toNat < 0x608 ∨ 0x60c ≤ p.toNat → a.port ≠ p := by
    rintro p hp rfl
    omega
  have h43 : a.port ≠ 43 := hport _ (by decide)
  have h40 : ¬ (a.port = 0x40 ∨ a.port = 0x43) :=
    not_or.mpr ⟨hport _ (by decide), hport _ (by decide)⟩
  have h61 : a.port ≠ 0x61 := hport _ (by decide)
  have h70 : ¬ (a.port = 0x70 ∨ a.port = 0x71) :=
    not_or.mpr ⟨hport _ (by decide), hport _ (by decide)⟩
  have hcf8 : a.port ≠ 0xcf8 := hport _ (by decide)
  have hcfc : a.port ≠ 0xcfc := hport _ (by decide)
  rw [ioPortCallback, if_neg hd, if_neg h43, if_neg h40, if_neg h61, if_neg h70, if_neg hcf8,
    if_neg hcfc, busRead_eq, if_pos ⟨hlow, hhigh, hsize⟩]

/-- Two reads of the timer in a run are as many ticks apart as passed between them, up to one, though
it wraps: as long as it cannot wrap twice. -/
theorem pmTimer_elapsed {e e' : Nat} (he : e ≤ e')
    (hw : (e' - e) * PM_TIMER_FREQUENCY_HZ ≤ (2 ^ 32 - 1) * NANOS_PER_SECOND) (s : Ports)
    (as : List (Nat × IoAccessInfo)) {a a' : IoAccessInfo} (ha : readsPmTimer a)
    (ha' : readsPmTimer a') :
    let first := (ioPortCallback e s a).1
    let second := (ioPortCallback e' (run (ioPortCallback e s a).2 as) a').1
    (second - first).toNat * NANOS_PER_SECOND <
        (e' - e) * PM_TIMER_FREQUENCY_HZ + NANOS_PER_SECOND ∧
      (e' - e) * PM_TIMER_FREQUENCY_HZ <
        (second - first).toNat * NANOS_PER_SECOND + NANOS_PER_SECOND := by
  rw [ioPortCallback_pmTimer ha, ioPortCallback_pmTimer ha']
  exact wrapped_elapsed (by decide) he hw

/-- The timer wraps after twenty minutes, here between the two reads. -/
theorem pmTimer_elapsed_wrapped :
    let first := (ioPortCallback 1199000000000 new (input 0x608)).1
    let second := (ioPortCallback 1200000000000 new (input 0x608)).1
    second < first ∧ (second - first).toNat * NANOS_PER_SECOND <
      1000000000 * PM_TIMER_FREQUENCY_HZ + NANOS_PER_SECOND :=
  ⟨by decide, (@pmTimer_elapsed 1199000000000 1200000000000 (by decide) (by decide) new []
    (input 0x608) (input 0x608) (by decide) (by decide)).1⟩

end Ports

end Whypa
