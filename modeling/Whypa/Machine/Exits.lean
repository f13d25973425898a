import Whypa.Machine.Composition
import Whypa.Machine.Vcpu

/-!
# Runs of the processor

What the partition keeps for the processor, after any turns of the loop. The
devices are where they can be without a loop (`run_machine`), an MSR reads as the
accesses to it say (`msr_history`), and the timer's interrupt comes once in each
millisecond in which the guest opens a window for it (`timer_once_per_milli`). Each is
about all of the exits: those of one kind do not disturb what belongs to another.
-/

namespace Whypa

open Framework

/-! ## MSRs by their history -/

namespace Msrs

/-- What was last written to the MSR. -/
def lastWrite (n : BitVec 32) (hist : List (Nat × MsrAccess)) : Option (BitVec 64) :=
  ((hist.filter fun a => a.2.isWrite && a.2.msrNumber = n).getLast?).map fun a => a.2.value

/-- When the time was first asked for. -/
def firstAsked (hist : List (Nat × MsrAccess)) : Option Nat :=
  (hist.find? fun a => a.2.msrNumber = 0x40000020).map Prod.fst

/-- What the MSR reads as, after the accesses `hist`. -/
def answer (hist : List (Nat × MsrAccess)) (now : Nat) (n : BitVec 32) : BitVec 64 :=
  if n = 0x40000000 then (lastWrite 0x40000000 hist).getD 0
  else if n = 0x40000001 then 1
  else if n = 0x40000020 then BitVec.ofNat 64 ((now - (firstAsked hist).getD now) / 100)
  else if n = 0x40000021 then
    match lastWrite 0x40000021 hist with
    | none => 0
    | some v => if v &&& 1 ≠ 0 then (v &&& ~~~0xfff) ||| 1 else 0
  else if n = 0x40000118 then (lastWrite 0x40000118 hist).getD 0
  else 0

/-- The MSRs after the accesses `hist`. -/
structure After (hist : List (Nat × MsrAccess)) (s : Msrs) : Prop where
  guestOsId : s.guestOsId = (lastWrite 0x40000000 hist).getD 0
  tscReferenceGpa : s.tscReferenceGpa = (lastWrite 0x40000021 hist).bind fun v =>
    if v &&& 1 ≠ 0 then some (v &&& ~~~0xfff) else none
  vmStartTime : s.vmStartTime = firstAsked hist
  tscInvariantControl : s.tscInvariantControl = (lastWrite 0x40000118 hist).getD 0

section
variable {writePage : GuestAddress → Mem → Option (Except MemoryError Unit × Mem)} {now : Nat}
variable {a : MsrAccess} {s s' : Msrs} {m m' : Mem} {hist : List (Nat × MsrAccess)}

theorem lastWrite_concat (n : BitVec 32) : lastWrite n (hist ++ [(now, a)]) =
    if a.isWrite = true ∧ a.msrNumber = n then some a.value else lastWrite n hist := by
  by_cases h : a.isWrite = true ∧ a.msrNumber = n
  · simp [lastWrite, h]
  · simp only [lastWrite, List.filter_append, if_neg h]
    simp [h]

theorem firstAsked_concat : firstAsked (hist ++ [(now, a)]) =
    if a.msrNumber = 0x40000020 then some ((firstAsked hist).getD now) else firstAsked hist := by
  simp only [firstAsked, List.find?_append]
  by_cases h : a.msrNumber = 0x40000020#32
  · cases hist.find? fun a => a.2.msrNumber = 0x40000020#32 <;> simp [h]
  · simp [h]

theorem writeReferenceTsc_msrs {v : BitVec 64} {r : Unit}
    (h : s.writeReferenceTsc writePage v m = some (.ok r, s', m')) : s' =
      { s with tscReferenceGpa := if v &&& 1 ≠ 0 then some (v &&& ~~~0xfff) else none } := by
  unfold writeReferenceTsc at h
  split at h
  · rename_i hb
    rw [if_pos hb]
    cases hp : writePage (v &&& ~~~0xfff) m with
    | none => simp only [hp, reduceCtorEq] at h
    | some e =>
      obtain ⟨e | ⟨⟩, _⟩ := e
      · simp only [hp, Option.some.injEq, Prod.mk.injEq, reduceCtorEq, false_and] at h
      · simp only [hp, Option.some.injEq, Prod.mk.injEq] at h
        exact h.2.1.symm
  · rename_i hb
    rw [if_neg hb]
    exact (Prod.mk.inj (Prod.mk.inj (Option.some.inj h)).2).1.symm

/-- What an access that succeeds does to the MSRs. -/
theorem access_msrs {r : BitVec 64 × BitVec 64}
    (h : s.access writePage now a m = some (.ok r, s', m')) : s' =
      { guestOsId := if a.isWrite = true ∧ a.msrNumber = 0x40000000 then a.value else s.guestOsId
        tscReferenceGpa := if a.isWrite = true ∧ a.msrNumber = 0x40000021 then
            if a.value &&& 1 ≠ 0 then some (a.value &&& ~~~0xfff) else none
          else s.tscReferenceGpa
        vmStartTime := if a.msrNumber = 0x40000020 then some (s.vmStartTime.getD now)
          else s.vmStartTime
        tscInvariantControl := if a.isWrite = true ∧ a.msrNumber = 0x40000118 then a.value
          else s.tscInvariantControl } := by
  by_cases h0 : a.msrNumber = 0x40000000#32
  · by_cases hw : a.isWrite = true <;> (simp [access, h0, hw] at h; simp [h0, hw, h.2.1.symm])
  by_cases h1 : a.msrNumber = 0x40000001#32
  · by_cases hw : a.isWrite = true <;> (simp [access, h1, hw] at h; simp [h1, h.2.1.symm])
  by_cases h20 : a.msrNumber = 0x40000020#32
  · simp [access, h20] at h
    simp [h20, h.2.1.symm, timeRefCount]
  by_cases h21 : a.msrNumber = 0x40000021#32
  · by_cases hw : a.isWrite = true
    · simp only [access, h21, hw, if_true] at h
      obtain ⟨⟨q | q, s₁, m₁⟩, hq, he⟩ := Option.map_eq_some_iff.mp h
      · cases (Prod.mk.inj he).1
      · rw [← (Prod.mk.inj (Prod.mk.inj he).2).1, writeReferenceTsc_msrs hq]
        simp [h21, hw]
    · cases hg : s.tscReferenceGpa <;>
        (simp [access, h21, hw, hg] at h; simp [h21, hw, h.2.1.symm, ← hg])
  by_cases h118 : a.msrNumber = 0x40000118#32
  · by_cases hw : a.isWrite = true <;> (simp [access, h118, hw] at h; simp [h118, hw, h.2.1.symm])
  simp [access, h0, h1, h20, h21, h118] at h
  simp [h0, h20, h21, h118, h.2.1.symm]

theorem after_new : After [] new := ⟨rfl, rfl, rfl, rfl⟩

theorem After.step (h : After hist s) {r : BitVec 64 × BitVec 64}
    (ha : s.access writePage now a m = some (.ok r, s', m')) :
    After (hist ++ [(now, a)]) s' := by
  rw [access_msrs ha]
  constructor
  · show (if _ then _ else _) = _
    rw [lastWrite_concat, h.guestOsId]
    split <;> rfl
  · show (if _ then _ else _) = _
    rw [lastWrite_concat, h.tscReferenceGpa]
    split <;> rfl
  · show (if _ then _ else _) = _
    rw [firstAsked_concat, h.vmStartTime]
  · show (if _ then _ else _) = _
    rw [lastWrite_concat, h.tscInvariantControl]
    split <;> rfl

/-- The halves of a count of ticks. -/
theorem split_ofNat (ticks : Nat) : (BitVec.ofNat 64 (ticks % 2 ^ 32),
    BitVec.ofNat 64 (ticks / 2 ^ 32 % 2 ^ 32)) = split (BitVec.ofNat 64 ticks) := by
  have hlow : (BitVec.ofNat 64 ticks &&& 0xffffffff#64).toNat = ticks % 2 ^ 64 % 2 ^ 32 := by
    rw [BitVec.toNat_and, BitVec.toNat_ofNat]
    exact Nat.and_two_pow_sub_one_eq_mod _ 32
  have hhigh : (BitVec.ofNat 64 ticks >>> 32).toNat = ticks % 2 ^ 64 / 2 ^ 32 := by
    rw [BitVec.toNat_ushiftRight, BitVec.toNat_ofNat, Nat.shiftRight_eq_div_pow]
  refine Prod.ext (BitVec.eq_of_toNat_eq ?_) (BitVec.eq_of_toNat_eq ?_)
  · refine Eq.trans ?_ hlow.symm
    simp only [BitVec.toNat_ofNat]
    omega
  · refine Eq.trans ?_ hhigh.symm
    simp only [BitVec.toNat_ofNat]
    omega

/-- A read succeeds, and finds what the history says. -/
theorem After.read (h : After hist s) (ha : a.isWrite = false) :
    ∃ s', s.access writePage now a m = some (.ok (split (answer hist now a.msrNumber)), s', m) := by
  simp only [access, answer, ha, Bool.false_eq_true, if_false]
  split_ifs
  · exact ⟨_, by rw [h.guestOsId]⟩
  · exact ⟨_, rfl⟩
  · refine ⟨(s.timeRefCount now).2, ?_⟩
    rw [← split_ofNat, ← h.vmStartTime]
    rfl
  · rw [h.tscReferenceGpa]
    cases lastWrite 0x40000021 hist with
    | none => exact ⟨_, rfl⟩
    | some v =>
      refine ⟨s, ?_⟩
      by_cases hb : v &&& 1#64 = 0#64
      · simp [hb, split]
      · simp [hb]
  · exact ⟨_, by rw [h.tscInvariantControl]⟩
  · exact ⟨_, rfl⟩

end

end Msrs

/-! ## What a turn does -/

def EmulatorEvent.ioAccess : EmulatorEvent → Option (Nat × IoAccessInfo)
  | .ioPort nanos a => some (nanos, a)
  | _ => none

namespace Vm

section
variable {ck : Bool} {cpuid : BitVec 32 → Partition.CpuidResult} {s s' : Vm}

/-- The effects of an exit after which the loop goes on. -/
inductive Handled (ck : Bool) (cpuid : BitVec 32 → Partition.CpuidResult) (s : Vm) : Exit → Vm → Prop
  | memoryAccess {gpa : GuestAddress} {e : Emulation} {s' : Vm} (h : events ck e.events s = some s') :
    Handled ck cpuid s (.memoryAccess gpa e) s'
  | ioPortAccess {e : Emulation} {s' : Vm} (h : events ck e.events s = some s') :
    Handled ck cpuid s (.ioPortAccess e) s'
  | interruptWindow (now : BitVec 64) :
    Handled ck cpuid s (.interruptWindow now) (s.handleInterruptWindow now)
  | halt : Handled ck cpuid s .halt s
  | apicEoi {vector : BitVec 32} {m : Machine} (h : s.machine.step ck (.apicEoi vector) = some m) :
    Handled ck cpuid s (.apicEoi vector) { s with machine := m }
  | cpuid (c : VpContext) (a : CpuidAccess) (h : Hypervisor) (rip : BitVec 64) :
    Handled ck cpuid s (.cpuid c a h) { s with vp := a.results rip }
  | msrAccess {c : VpContext} {a : MsrAccess} {now : Nat} {h : Hypervisor} {r : BitVec 64 × BitVec 64}
    {msrs : Msrs} {mem : Mem} (vp : Vp)
    (ha : s.msrs.access (Partition.writeTscReferencePage ck s.machine.partition.memory cpuid
      s.vmStartTsc) now a s.mem = some (.ok r, msrs, mem)) :
    Handled ck cpuid s (.msrAccess c a now h) { s with msrs := msrs, mem := mem, vp := vp }

theorem advanceRip_ok {c : VpContext} {h : Hypervisor} (ha : s.advanceRip ck c h = some (.ok true, s')) :
    ∃ vp, s' = { s with vp := vp } := by
  obtain ⟨rip, -, he⟩ := Option.map_eq_some_iff.mp ha
  split at he
  · exact ⟨_, (Prod.mk.inj he).2.symm⟩
  · cases (Prod.mk.inj he).1

theorem handled_of_handleExit {x : Exit} (h : s.handleExit ck cpuid x = some (.ok true, s')) :
    Handled ck cpuid s x s' := by
  cases x with
  | memoryAccess gpa e =>
    simp only [handleExit, handleMemoryAccess] at h
    split at h
    · cases h
    · cases h
    · obtain ⟨s₁, hs, he⟩ := Option.map_eq_some_iff.mp h
      split at he
      · cases he
      · obtain rfl := (Prod.mk.inj he).2
        exact .memoryAccess hs
  | ioPortAccess e =>
    obtain ⟨s₁, hs, he⟩ := Option.map_eq_some_iff.mp h
    split at he
    · cases he
    · obtain rfl := (Prod.mk.inj he).2
      exact .ioPortAccess hs
  | interruptWindow now =>
    obtain rfl := (Prod.mk.inj (Option.some.inj h)).2
    exact .interruptWindow now
  | halt =>
    obtain rfl := (Prod.mk.inj (Option.some.inj h)).2
    exact .halt
  | apicEoi vector =>
    obtain ⟨m, hm, he⟩ := Option.map_eq_some_iff.mp h
    obtain rfl := (Prod.mk.inj he).2
    exact .apicEoi hm
  | cpuid c a hv =>
    obtain ⟨rip, -, he⟩ := Option.map_eq_some_iff.mp h
    split at he
    · obtain rfl := (Prod.mk.inj he).2
      exact .cpuid c a hv rip
    · cases he
  | msrAccess c a now hv =>
    simp only [handleExit, handleMsrAccess] at h
    split at h
    · cases h
    · cases h
    rename_i rax rdx msrs mem ha
    split at h
    · obtain ⟨vp, rfl⟩ := advanceRip_ok h
      exact .msrAccess vp ha
    split at h
    · obtain ⟨vp, rfl⟩ := advanceRip_ok h
      exact .msrAccess vp ha
    · cases h
  | none => cases h
  | exception => cases h
  | unrecoverableException => cases h
  | invalidVpRegisterValue => cases h
  | unsupportedFeature => cases h
  | canceled => cases h
  | other reason => cases h

/-- The devices go through steps of theirs, and the ports through the accesses to them; no event does
anything else. -/
theorem events_frame {es : List EmulatorEvent} (h : events ck es s = some s') :
    ∃ machine vp, s' = { s with
        machine := machine, ports := s.ports.run (es.filterMap EmulatorEvent.ioAccess), vp := vp } ∧
      ((Machine.system ck).Reachable s.machine → (Machine.system ck).Reachable machine) := by
  induction es generalizing s with
  | nil =>
    obtain rfl := Option.some.inj h
    exact ⟨_, _, rfl, id⟩
  | cons e es ih =>
    obtain ⟨s₁, he, hs⟩ := Option.bind_eq_some_iff.mp h
    obtain ⟨machine, vp, rfl, hm⟩ := ih hs
    cases e with
    | ioPort nanos a =>
      obtain rfl := Option.some.inj he
      exact ⟨machine, vp, rfl, hm⟩
    | memory a backend =>
      obtain ⟨m, hstep, rfl⟩ := Option.map_eq_some_iff.mp he
      exact ⟨machine, vp, rfl, fun hr => hm (hr.step hstep)⟩
    | setRegisters vp' =>
      obtain rfl := Option.some.inj he
      exact ⟨machine, vp, rfl, hm⟩
    | worker slot w =>
      obtain ⟨m, hstep, rfl⟩ := Option.map_eq_some_iff.mp he
      exact ⟨machine, vp, rfl, fun hr => hm (hr.step hstep)⟩

/-- The workers do not touch the ports. -/
theorem ioAccess_workers (ws : List (Slot × WorkerStep)) :
    (ws.map fun e => EmulatorEvent.worker e.1 e.2).filterMap EmulatorEvent.ioAccess = [] := by
  rw [List.filterMap_map]
  exact List.filterMap_eq_nil_iff.mpr fun _ _ => rfl

/-- A turn after which the loop goes on is an exit that was handled, from a state with the guest's
registers and RAM. -/
theorem turn_cases {t : Turn} (h : s.turn ck cpuid t = some (none, s')) :
    ∃ machine vp exit, t.exit = some exit ∧
      ((Machine.system ck).Reachable s.machine → (Machine.system ck).Reachable machine) ∧
      Handled ck cpuid { s with machine := machine, vp := vp, mem := t.mem } exit s' := by
  rw [turn] at h
  split at h
  · cases (Prod.mk.inj (Option.some.inj h)).1
  split at h
  · cases h
  rename_i s₁ hs
  obtain ⟨machine, vp, rfl, hm⟩ := events_frame hs
  split at h
  · cases (Prod.mk.inj (Option.some.inj h)).1
  rename_i exit hexit
  obtain ⟨⟨r, s₂⟩, hr, he⟩ := Option.map_eq_some_iff.mp h
  rw [ioAccess_workers] at hr
  refine ⟨machine, vp, exit, hexit, hm, ?_⟩
  rcases r with e | b
  · cases (Prod.mk.inj he).1
  · cases b with
    | false => cases (Prod.mk.inj he).1
    | true =>
      obtain rfl := (Prod.mk.inj he).2
      exact handled_of_handleExit hr

/-- The accesses to ports in an exit. -/
def portAccesses : Exit → List (Nat × IoAccessInfo)
  | .memoryAccess _ e | .ioPortAccess e => e.events.filterMap EmulatorEvent.ioAccess
  | _ => []

/-- What is left of the devices and the ports after an exit, whether the loop goes on or not: they have
gone through steps of theirs, and through all of the accesses or none. -/
structure Stepped (ck : Bool) (s : Vm) (as : List (Nat × IoAccessInfo)) (s' : Vm) : Prop where
  machine : (Machine.system ck).Reachable s.machine → (Machine.system ck).Reachable s'.machine
  ports : s'.ports = s.ports ∨ s'.ports = s.ports.run as

theorem stepped_events {e : Emulation} {as : List (Nat × IoAccessInfo)}
    (has : as = e.events.filterMap EmulatorEvent.ioAccess) (h : events ck e.events s = some s') :
    Stepped ck s as s' := by
  obtain ⟨machine, vp, rfl, hm⟩ := events_frame h
  exact ⟨hm, .inr (by rw [has])⟩

theorem advanceRip_frame {c : VpContext} {h : Hypervisor} {r : Except ExitError Bool}
    (ha : s.advanceRip ck c h = some (r, s')) :
    s'.machine = s.machine ∧ s'.ports = s.ports := by
  obtain ⟨rip, -, he⟩ := Option.map_eq_some_iff.mp ha
  split at he <;> obtain rfl := (Prod.mk.inj he).2 <;> exact ⟨rfl, rfl⟩

theorem stepped_handleExit {x : Exit} {r : Except ExitError Bool}
    (h : s.handleExit ck cpuid x = some (r, s')) : Stepped ck s (portAccesses x) s' := by
  have hsame : ∀ {as}, s'.machine = s.machine ∧ s'.ports = s.ports → Stepped ck s as s' :=
    fun he => ⟨fun hr => he.1 ▸ hr, .inl he.2⟩
  cases x with
  | memoryAccess gpa e =>
    simp only [handleExit, handleMemoryAccess] at h
    split at h
    · cases h
    · obtain rfl := (Prod.mk.inj (Option.some.inj h)).2
      exact hsame ⟨rfl, rfl⟩
    · obtain ⟨s₁, hs, he⟩ := Option.map_eq_some_iff.mp h
      split at he <;> obtain rfl := (Prod.mk.inj he).2 <;> exact stepped_events rfl hs
  | ioPortAccess e =>
    obtain ⟨s₁, hs, he⟩ := Option.map_eq_some_iff.mp h
    split at he <;> obtain rfl := (Prod.mk.inj he).2 <;> exact stepped_events rfl hs
  | interruptWindow now =>
    obtain rfl := (Prod.mk.inj (Option.some.inj h)).2
    refine hsame ?_
    unfold handleInterruptWindow
    split <;> exact ⟨rfl, rfl⟩
  | apicEoi vector =>
    obtain ⟨m, hm, he⟩ := Option.map_eq_some_iff.mp h
    obtain rfl := (Prod.mk.inj he).2
    exact ⟨fun hr => hr.step hm, .inl rfl⟩
  | cpuid c a hv =>
    obtain ⟨rip, -, he⟩ := Option.map_eq_some_iff.mp h
    split at he <;> obtain rfl := (Prod.mk.inj he).2 <;> exact hsame ⟨rfl, rfl⟩
  | msrAccess c a now hv =>
    simp only [handleExit, handleMsrAccess] at h
    split at h
    · cases h
    · obtain rfl := (Prod.mk.inj (Option.some.inj h)).2
      exact hsame ⟨rfl, rfl⟩
    split at h
    · exact hsame ⟨(advanceRip_frame h).1, (advanceRip_frame h).2⟩
    split at h
    · exact hsame ⟨(advanceRip_frame h).1, (advanceRip_frame h).2⟩
    · obtain rfl := (Prod.mk.inj (Option.some.inj h)).2
      exact hsame ⟨rfl, rfl⟩
  | none | halt | exception | unrecoverableException | invalidVpRegisterValue | unsupportedFeature
  | canceled | other =>
    obtain rfl := (Prod.mk.inj (Option.some.inj h)).2
    exact hsame ⟨rfl, rfl⟩

/-- Every turn, the last one too. -/
theorem stepped_turn {t : Turn} {r : Option Ended} (h : s.turn ck cpuid t = some (r, s')) :
    Stepped ck s (t.exit.elim [] portAccesses) s' := by
  rw [turn] at h
  split at h
  · obtain rfl := (Prod.mk.inj (Option.some.inj h)).2
    exact ⟨id, .inl rfl⟩
  split at h
  · cases h
  rename_i s₁ hs
  obtain ⟨machine, vp, rfl, hm⟩ := events_frame hs
  rw [ioAccess_workers] at h
  split at h
  · obtain rfl := (Prod.mk.inj (Option.some.inj h)).2
    exact ⟨hm, .inl rfl⟩
  · rename_i exit hexit
    obtain ⟨⟨q, s₂⟩, hr, he⟩ := Option.map_eq_some_iff.mp h
    have hx := stepped_handleExit hr
    have hs₂ : s' = s₂ := by
      rcases q with e | b
      · exact (Prod.mk.inj he).2.symm
      · cases b <;> exact (Prod.mk.inj he).2.symm
    rw [hexit, hs₂]
    exact ⟨fun h => hx.machine (hm h), hx.ports⟩

/-! ## Runs -/

theorem run_concat {ts : List Turn} {t : Turn} : run ck cpuid (ts ++ [t]) s = some (none, s') ↔
    ∃ s₁, run ck cpuid ts s = some (none, s₁) ∧ s₁.turn ck cpuid t = some (none, s') := by
  induction ts generalizing s with
  | nil =>
    simp only [List.nil_append, run]
    split <;> simp_all
  | cons t' ts ih =>
    simp only [List.cons_append, run]
    split <;> simp_all

def msrOf : Exit → Option (Nat × MsrAccess)
  | .msrAccess _ a now _ => some (now, a)
  | _ => none

def windowOf : Exit → Option (BitVec 64)
  | .interruptWindow now => some now
  | _ => none

/-- The exits of some turns. -/
def exits (ts : List Turn) : List Exit := ts.filterMap Turn.exit

/-- What a window at `now` does to the time of the last request, and to the requests. -/
def timerStep (p : BitVec 64 × List (BitVec 64)) (now : BitVec 64) : BitVec 64 × List (BitVec 64) :=
  if 1 ≤ now.toNat - p.1.toNat ∨ p.1 = 0 then (now, now :: p.2) else p

/-- A loop that has ended went on over the turns before the one that ended it. -/
theorem run_ended {ts : List Turn} {ended : Ended} (h : run ck cpuid ts s = some (some ended, s')) :
    ∃ pre t post s₁, ts = pre ++ t :: post ∧ run ck cpuid pre s = some (none, s₁) ∧
      s₁.turn ck cpuid t = some (some ended, s') := by
  induction ts generalizing s with
  | nil => cases (Prod.mk.inj (Option.some.inj h)).1
  | cons t ts ih =>
    rw [run] at h
    split at h
    · cases h
    · rename_i s₁ ht
      obtain ⟨pre, t', post, s₂, rfl, hpre, ht'⟩ := ih h
      exact ⟨t :: pre, t', post, s₂, rfl, by rw [run, ht]; exact hpre, ht'⟩
    · rename_i e s₁ ht
      exact ⟨[], t, ts, s, rfl, rfl, ht.trans h⟩

/-- What the partition has after some exits: each part is what the exits for it make of it. -/
structure Kept (ck : Bool) (xs : List Exit) (s : Vm) : Prop where
  machine : (Machine.system ck).Reachable s.machine
  ports : s.ports = Ports.new.run (xs.flatMap portAccesses)
  msrs : s.msrs.After (xs.filterMap msrOf)
  timer : (s.lastInterruptTime, s.timerRequests) = (xs.filterMap windowOf).foldl timerStep (0, [])

theorem Ports.run_append (p : Ports) (as bs : List (Nat × IoAccessInfo)) :
    p.run (as ++ bs) = (p.run as).run bs := List.foldl_append

/-- An exit that is for none of the parts, but perhaps for a device. -/
theorem Kept.same {xs : List Exit} (h : Kept ck xs s) {x : Exit} (hp : portAccesses x = [])
    (hm : msrOf x = none) (hw : windowOf x = none) {machine : Machine} (vp : Vp)
    (hr : (Machine.system ck).Reachable machine) :
    Kept ck (xs ++ [x]) { s with machine := machine, vp := vp } := by
  constructor
  · exact hr
  · simpa [hp] using h.ports
  · simpa [hm] using h.msrs
  · simpa [hw] using h.timer

/-- An exit for the emulator. -/
theorem Kept.events {xs : List Exit} (h : Kept ck xs s) {x : Exit} {e : Emulation}
    (hp : portAccesses x = e.events.filterMap EmulatorEvent.ioAccess) (hm : msrOf x = none)
    (hw : windowOf x = none) (he : Vm.events ck e.events s = some s') : Kept ck (xs ++ [x]) s' := by
  obtain ⟨machine, vp, rfl, hr⟩ := events_frame he
  constructor
  · exact hr h.machine
  · show s.ports.run _ = _
    rw [h.ports, List.flatMap_append, List.flatMap_singleton, hp, ← Ports.run_append]
  · simpa [hm] using h.msrs
  · simpa [hw] using h.timer

theorem Kept.window {xs : List Exit} (h : Kept ck xs s) (now : BitVec 64) :
    Kept ck (xs ++ [.interruptWindow now]) (s.handleInterruptWindow now) := by
  have ht : ((s.handleInterruptWindow now).lastInterruptTime,
      (s.handleInterruptWindow now).timerRequests) =
      timerStep (s.lastInterruptTime, s.timerRequests) now := by
    rw [handleInterruptWindow, timerStep]
    split <;> rfl
  have hrest : (s.handleInterruptWindow now).machine = s.machine ∧
      (s.handleInterruptWindow now).ports = s.ports ∧ (s.handleInterruptWindow now).msrs = s.msrs := by
    rw [handleInterruptWindow]
    split <;> exact ⟨rfl, rfl, rfl⟩
  constructor
  · rw [hrest.1]
    exact h.machine
  · rw [hrest.2.1]
    simpa [portAccesses] using h.ports
  · have hm : msrOf (.interruptWindow now) = none := rfl
    rw [hrest.2.2]
    simpa [hm] using h.msrs
  · rw [ht, h.timer]
    simp [windowOf]

theorem Kept.handled {xs : List Exit} {x : Exit} (h : Kept ck xs s) (hx : Handled ck cpuid s x s') :
    Kept ck (xs ++ [x]) s' := by
  cases hx with
  | memoryAccess he => exact h.events rfl rfl rfl he
  | ioPortAccess he => exact h.events rfl rfl rfl he
  | interruptWindow now => exact h.window now
  | halt => exact h.same rfl rfl rfl s.vp h.machine
  | apicEoi hm => exact h.same rfl rfl rfl s.vp (h.machine.step hm)
  | cpuid c a hv rip => exact h.same rfl rfl rfl _ h.machine
  | @msrAccess c a now hv r msrs mem vp ha =>
    have hw : windowOf (.msrAccess c a now hv) = none := rfl
    constructor
    · exact h.machine
    · simpa [portAccesses] using h.ports
    · rw [List.filterMap_append]
      exact h.msrs.step ha
    · simpa [hw] using h.timer

theorem Kept.run {machine : Machine} {vmStartTsc : BitVec 64} {mem : Mem} {vp : Vp}
    (hm : (Machine.system ck).Reachable machine) {ts : List Turn}
    (h : run ck cpuid ts (start machine vmStartTsc mem vp) = some (none, s)) :
    Kept ck (exits ts) s := by
  induction ts using List.reverseRecOn generalizing s with
  | nil =>
    obtain rfl := (Prod.mk.inj (Option.some.inj h)).2
    exact ⟨hm, rfl, Msrs.after_new, rfl⟩
  | append_singleton ts t ih =>
    obtain ⟨s₁, hs, ht⟩ := run_concat.mp h
    obtain ⟨machine, vp, x, hx, hr, hh⟩ := turn_cases ht
    have hk := ih hs
    have hk : Kept ck (exits ts) { s₁ with machine := machine, vp := vp, mem := t.mem } :=
      ⟨hr hk.machine, hk.ports, hk.msrs, hk.timer⟩
    have he : exits (ts ++ [t]) = exits ts ++ [x] := by simp [exits, hx]
    rw [he]
    exact hk.handled hh

theorem timerStep_same {now : BitVec 64} (h : now ≠ 0) (requests : List (BitVec 64)) :
    timerStep (now, requests) now = (now, requests) := by
  refine if_neg (not_or.mpr ⟨?_, h⟩)
  show ¬ 1 ≤ now.toNat - now.toNat
  omega

theorem timerStep_later {last now : BitVec 64} (h : last < now) (requests : List (BitVec 64)) :
    timerStep (last, requests) now = (now, now :: requests) := by
  have h : last.toNat < now.toNat := h
  refine if_pos (.inl ?_)
  show 1 ≤ now.toNat - last.toNat
  omega

/-- The requests go up, and are at the times of the windows, as long as the clock does not go back. -/
theorem foldl_timerStep {ws : List (BitVec 64)} (hw : ws.Pairwise (· ≤ ·)) (h0 : ∀ t ∈ ws, 0 < t) :
    (ws.foldl timerStep (0, [])).2.Pairwise (· > ·) ∧
      (∀ t, t ∈ (ws.foldl timerStep (0, [])).2 ↔ t ∈ ws) ∧
      (ws.foldl timerStep (0, [])).1 = (ws.foldl timerStep (0, [])).2.headD 0 := by
  induction ws using List.reverseRecOn with
  | nil => exact ⟨.nil, fun _ => .rfl, rfl⟩
  | append_singleton ws now ih =>
    obtain ⟨hws, -, hle⟩ := List.pairwise_append.mp hw
    obtain ⟨hdesc, hmem, hlast⟩ := ih hws fun t ht => h0 t (List.mem_append_left _ ht)
    have hnow : 0 < now := h0 now (by simp)
    rw [List.foldl_append, List.foldl_cons, List.foldl_nil]
    generalize ws.foldl timerStep (0, []) = p at hdesc hmem hlast
    obtain ⟨last, requests⟩ := p
    simp only at hdesc hmem hlast
    cases requests with
    | nil =>
      obtain rfl : ws = [] := List.eq_nil_iff_forall_not_mem.mpr fun t ht =>
        absurd ((hmem t).mpr ht) List.not_mem_nil
      rw [hlast, List.headD_nil, timerStep_later hnow]
      exact ⟨List.pairwise_singleton _ _, fun t => by simp, rfl⟩
    | cons first requests =>
      obtain rfl : last = first := hlast
      have hin : last ∈ ws := (hmem last).mp List.mem_cons_self
      have hll : last ≤ now := hle last hin now (by simp)
      by_cases heq : last = now
      · subst heq
        rw [timerStep_same fun h => by rw [h] at hnow; exact absurd hnow (by decide)]
        refine ⟨hdesc, fun t => ?_, rfl⟩
        rw [hmem t, List.mem_append, List.mem_singleton]
        exact ⟨.inl, fun h => h.elim id fun h => h ▸ hin⟩
      · have hlt : last < now := BitVec.lt_of_le_ne hll heq
        rw [timerStep_later hlt]
        refine ⟨List.pairwise_cons.mpr ⟨fun t ht => ?_, hdesc⟩, fun t => ?_, rfl⟩
        · rcases List.mem_cons.mp ht with rfl | ht
          · exact hlt
          · exact BitVec.lt_trans (List.rel_of_pairwise_cons hdesc ht) hlt
        · rw [List.mem_cons, hmem t, List.mem_append, List.mem_singleton, or_comm]

/-! ## Results -/

section
variable {machine : Machine} {vmStartTsc : BitVec 64} {mem : Mem} {vp : Vp} {ts : List Turn}
variable (hm : (Machine.system ck).Reachable machine)
include hm

/-- Whether the loop goes on or has ended, the devices are in a state that they reach by accesses, ends
of interrupts and steps of their workers, and the ports are where the accesses to them in the exits
have led, whatever else exits: in all of them while the loop goes on. -/
theorem run_machine {r : Option Ended}
    (h : run ck cpuid ts (start machine vmStartTsc mem vp) = some (r, s)) :
    (Machine.system ck).Reachable s.machine ∧
      ∃ xs, xs <+: exits ts ∧ (r = none → xs = exits ts) ∧
        s.ports = Ports.new.run (xs.flatMap portAccesses) := by
  cases r with
  | none =>
    have hk := Kept.run hm h
    exact ⟨hk.machine, exits ts, List.prefix_rfl, fun _ => rfl, hk.ports⟩
  | some ended =>
    obtain ⟨pre, t, post, s₁, rfl, hpre, ht⟩ := run_ended h
    have hk := Kept.run hm hpre
    have hs := stepped_turn ht
    have hexits : exits (pre ++ t :: post) = exits (pre ++ [t]) ++ exits post := by
      rw [List.append_cons, exits, List.filterMap_append]
      rfl
    refine ⟨hs.machine hk.machine, ?_⟩
    rcases hs.ports with hp | hp
    · refine ⟨exits pre, ?_, nofun, hp.trans hk.ports⟩
      rw [exits, exits, List.filterMap_append]
      exact List.prefix_append _ _
    · refine ⟨exits (pre ++ [t]), ?_, nofun, ?_⟩
      · rw [hexits]
        exact List.prefix_append _ _
      · rw [hp, hk.ports, ← Ports.run_append, exits, exits, List.filterMap_append, List.flatMap_append]
        cases hx : t.exit <;> simp [hx]

variable (h : run ck cpuid ts (start machine vmStartTsc mem vp) = some (none, s))
include h

/-- At any point of the loop a guest that reads an MSR gets what its accesses to MSRs say, in the low
halves of `rax` and `rdx`, and goes on after the instruction. -/
theorem msr_history {c : VpContext} {a : MsrAccess} (hr : a.isWrite = false)
    (hrip : c.rip.toNat + c.instructionLength.toNat < 2 ^ 64) (now : Nat) :
    ∃ s', s.handleExit ck cpuid (.msrAccess c a now ⟨true, true⟩) = some (.ok true, s') ∧
      let v := Msrs.answer ((exits ts).filterMap msrOf) now a.msrNumber
      s'.vp = { s.vp with
        rax := v &&& 0xffffffff, rdx := v >>> 32, rip := c.rip + c.instructionLength } := by
  obtain ⟨msrs, ha⟩ := @Msrs.After.read (Partition.writeTscReferencePage ck
    s.machine.partition.memory cpuid s.vmStartTsc) now a s.msrs s.mem _ (Kept.run hm h).msrs hr
  simp only [handleExit, handleMsrAccess, ha, hr, advanceRip, plainAdd_of_lt ck hrip]
  exact ⟨_, rfl, rfl⟩

/-- While the clock does not go back, the timer's interrupt is requested exactly once in each
millisecond in which the guest opens a window. -/
theorem timer_once_per_milli (hclock : ((exits ts).filterMap windowOf).Pairwise (· ≤ ·))
    (hpos : ∀ t ∈ (exits ts).filterMap windowOf, 0 < t) :
    s.timerRequests.Pairwise (· > ·) ∧
      ∀ t, t ∈ s.timerRequests ↔ t ∈ (exits ts).filterMap windowOf := by
  have hf := foldl_timerStep hclock hpos
  rw [← (Kept.run hm h).timer] at hf
  exact ⟨hf.1, hf.2.1⟩

end

end

/-- The guest exits, and leaves nothing in its registers and its RAM. -/
def Turn.plain (exit : Exit) : Turn := ⟨true, [], ⟨0, 0, 0, 0, 0⟩, fun _ => 0, some exit⟩

/-- The guest tells who it is, and opens a window. -/
def identify : List Turn :=
  [.plain (.msrAccess ⟨0x1000, 2⟩ ⟨1, 0x40000000, 0x8100, 1⟩ 0 ⟨true, true⟩),
    .plain (.interruptWindow 5)]

/-- The small machine, on a processor without the leaves that give the frequency. -/
def runSmall (ts : List Turn) : Option (Option Ended × Vm) :=
  run true (fun _ => ⟨0, 0, 0, 0⟩) ts (start Machine.small 0 (fun _ => 0) ⟨0, 0, 0, 0, 0⟩)

theorem runSmall_identify : ∃ s, runSmall identify = some (none, s) := ⟨_, rfl⟩

theorem run_machine_identify : ∃ s, runSmall identify = some (none, s) ∧
    (Machine.system true).Reachable s.machine := by
  obtain ⟨s, hs⟩ := runSmall_identify
  exact ⟨s, hs, (run_machine (.init Machine.small_init) hs).1⟩

theorem msr_history_identify : ∃ s s', runSmall identify = some (none, s) ∧
    s.handleExit true (fun _ => ⟨0, 0, 0, 0⟩)
      (.msrAccess ⟨0x1002, 2⟩ ⟨0, 0x40000000, 0, 0⟩ 7 ⟨true, true⟩) = some (.ok true, s') ∧
    s'.vp.rax = 0x8100 ∧ s'.vp.rdx = 1 ∧ s'.vp.rip = 0x1004 := by
  obtain ⟨s, hs⟩ := runSmall_identify
  obtain ⟨s', hx, hv⟩ := msr_history (.init Machine.small_init) hs (c := ⟨0x1002, 2⟩)
    (a := ⟨0, 0x40000000, 0, 0⟩) rfl (by decide) 7
  exact ⟨s, s', hs, hx, (congrArg Vp.rax hv).trans rfl, (congrArg Vp.rdx hv).trans rfl,
    (congrArg Vp.rip hv).trans rfl⟩

theorem timer_once_per_milli_identify : ∃ s, runSmall identify = some (none, s) ∧
    ∀ t, t ∈ s.timerRequests ↔ t = 5 := by
  obtain ⟨s, hs⟩ := runSmall_identify
  have hw : (exits identify).filterMap windowOf = [5] := rfl
  refine ⟨s, hs, fun t => ?_⟩
  rw [(timer_once_per_milli (.init Machine.small_init) hs (by rw [hw]; decide)
    (by rw [hw]; simp)).2, hw]
  exact List.mem_singleton

end Vm

end Whypa
