import Whypa.Virtio.Tame

/-!
# The workers and the host's memory

The workers of the devices run as threads of the host, beside the guest. Whatever the guest puts
into its memory and however it programs the queues, and however the accesses of the workers and of
the guest are interleaved, no byte of the host outside the guest's RAM changes
(`outside_unchanged`), and what the workers do does not depend on any such byte
(`outside_unobserved`). The byte after the RAM is the one exception, if a ring may be at an odd
address.
-/

namespace Whypa

open Framework WProg

variable {ε : Type} {env : Env ε} {ck : Bool} {mm : MemoryManager}

/-! ## The workers beside the guest -/

/-- What a worker can be woken for. -/
inductive Job
  | block (disk : BlockWorker.DiskProperties)
  | rng
  | consoleTx
  | consoleRx
  | netTx
  | netRx
deriving DecidableEq, Repr

/-- The program that the worker then runs on the queue `q`. -/
def Job.prog (mm : MemoryManager) (fuel n : Nat) (q : Queue) : Job → WProg (Option Queue)
  | .block disk => BlockWorker.processVirtioQueues mm disk fuel n q
  | .rng => RngWorker.processVirtioQueues mm fuel n q
  | .consoleTx => ConsoleWorker.processTxVirtioQueue mm fuel n q
  | .consoleRx => ConsoleWorker.processRxInput mm fuel q
  | .netTx => NetWorker.processTxVirtioQueue mm fuel n q
  | .netRx => do
    let q ← NetWorker.processRxVirtioQueue mm q
    pure (some q)

theorem stays_job {S : Nat → Prop} {even : Prop} (hc : mm.Covered S even) (job : Job)
    (fuel n : Nat) {q : Queue} (hq : q.Even even) :
    Stays S even (fun _ => True) (job.prog mm fuel n q) := by
  have hsignal : ∀ q used, q.Even even → Stays S even (Queue.Even even) (signalUsed q used) :=
    fun _ used h => stays_signalUsed h used
  have hnotify : ∀ q used, q.Even even → Stays S even (Queue.Even even) (notifyUsed q used) :=
    fun _ used h => stays_notifyUsed h used
  cases job with
  | block disk =>
    refine stays_drain (fun q hq => stays_processWith (fun c q hq => ?_) hnotify fuel hq) n hq
    exact BlockWorker.tidy_serve hc disk c hq
  | rng =>
    refine stays_drain (fun q hq => stays_processWith (fun c q hq => ?_) hnotify fuel hq) n hq
    exact RngWorker.tidy_serve hc c hq
  | consoleTx =>
    refine stays_drain (fun q hq => stays_processWith (fun c q hq => ?_) hsignal fuel hq) n hq
    exact ConsoleWorker.tidy_serveTx hc c hq
  | consoleRx => exact ConsoleWorker.stays_processRxInput hc fuel hq
  | netTx =>
    refine stays_drain (fun q hq => stays_processWith (fun c q hq => ?_) hsignal fuel hq) n hq
    exact NetWorker.tidy_serveTx hc c hq
  | netRx => exact (NetWorker.stays_processRxVirtioQueue hc hq).bind fun _ _ => trivial

/-- The workers that run, each with what is left of its program, and the world they share with
the guest. -/
structure Host (ε : Type) where
  workers : List (WProg (Option Queue))
  world : World ε

/-- A worker is woken, with the queue as the guest has set it up; one of them makes its next
access; the guest writes a byte of its RAM. -/
inductive Host.Label
  | wake (job : Job) (fuel n : Nat) (q : Queue)
  | access (i : Nat)
  | guest (host : Nat) (b : Byte)

/-- If a worker is woken, the rings it is given are at even addresses. -/
def Host.Label.RingsEven : Host.Label → Prop
  | .wake _ _ _ q => q.availRing.toNat % 2 = 0 ∧ q.usedRing.toNat % 2 = 0
  | _ => True

/-- One step of a host whose guest has the `total` bytes of RAM at `source`. -/
def Host.step (ck : Bool) (mm : MemoryManager) (env : Env ε) (source total : Nat) (s : Host ε) :
    Host.Label → Option (Host ε)
  | .wake job fuel n q => some { s with workers := s.workers ++ [job.prog mm fuel n q] }
  | .access i => match s.workers[i]? with
    | none => none
    | some p => (Prog.next (mm.world ck env) p s.world).map fun r => ⟨s.workers.set i r.1, r.2⟩
  | .guest host b =>
    if source ≤ host ∧ host < source + total then
      some { s with world := { s.world with mem := s.world.mem.write host [b] } }
    else none

/-- The bytes of the RAM, with the one after them if a ring may be at an odd address. -/
def ramBytes (source total : Nat) (even : Prop) (x : Nat) : Prop :=
  source ≤ x ∧ (x < source + total ∨ x = source + total ∧ ¬ even)

theorem covered_allocate {total : BitVec 64} {source : Nat} {even : Prop} (hpos : 0 < total.toNat)
    (hfits : 0x40000000 + total.toNat ≤ 2 ^ 64) (hsize : total.toNat ≤ 2 ^ 47)
    (he : even → total.toNat % 2 = 0) :
    (allocateMemoryWithSize total source hpos hfits).Covered (ramBytes source total.toNat even) even := by
  unfold allocateMemoryWithSize
  split
  · refine ⟨?_, ?_, ?_⟩ <;> simp only [List.forall_mem_singleton, Option.mem_some_iff, forall_eq']
    · exact fun i hi => ⟨by omega, .inl (by omega)⟩
    · show 0 + total.toNat + 16 ≤ 2 ^ 64
      omega
    · intro i hi hev
      refine ⟨by omega, ?_⟩
      by_cases h : even
      · have h1 : (0 + i) % 2 = 0 := hev h
        have := he h
        exact .inl (by omega)
      · rcases Nat.lt_or_ge (i + 1) total.toNat with hlt | hge
        · exact .inl (by omega)
        · exact .inr ⟨by omega, h⟩
  · rename_i hbig
    have hlt : 0xfec00000 < total.toNat := by
      simpa [MEM_32BIT_RESERVED_START, BitVec.lt_def] using hbig
    have hsub : (total - MEM_32BIT_DEVICES_START).toNat = total.toNat - 0xc0000000 :=
      BitVec.toNat_sub_of_le (by rw [BitVec.le_def]; exact (show 0xc0000000 ≤ total.toNat by omega))
    refine ⟨?_, ?_, ?_⟩ <;>
      simp only [List.forall_mem_cons, List.not_mem_nil, false_implies, implies_true, and_true,
        Option.mem_some_iff, forall_eq', hsub]
    · refine ⟨fun i hi => ?_, fun i hi => ?_⟩
      · have hi' : i < 0xc0000000 := hi
        exact ⟨by omega, .inl (by omega)⟩
      · show ramBytes source total.toNat even (source + 0xc0000000 + i)
        exact ⟨by omega, .inl (by omega)⟩
    · refine ⟨by decide, ?_⟩
      show 0x100000000 + (total.toNat - 0xc0000000) + 16 ≤ 2 ^ 64
      omega
    · refine ⟨fun i hi _ => ?_, fun i hi hev => ?_⟩
      · have hi' : i < 0xc0000000 := hi
        exact ⟨by omega, .inl (by omega)⟩
      · show ramBytes source total.toNat even (source + 0xc0000000 + (i + 1))
        refine ⟨by omega, ?_⟩
        by_cases h : even
        · have h1 : (0x100000000 + i) % 2 = 0 := hev h
          have := he h
          exact .inl (by omega)
        · rcases Nat.lt_or_ge (0xc0000000 + (i + 1)) total.toNat with hlt | hge
          · exact .inl (by omega)
          · exact .inr ⟨by omega, h⟩

namespace Host

variable {S : Nat → Prop} {even : Prop} {source total : Nat} {s s' t : Host ε} {l : Label}

/-- Every worker that runs stays in `S`. -/
def Tame (S : Nat → Prop) (even : Prop) (s : Host ε) : Prop :=
  ∀ p ∈ s.workers, Stays S even (fun _ => True) p

/-- The same programs are left, the outside and the memory in `S` are the same. -/
def Alike (S : Nat → Prop) (s t : Host ε) : Prop :=
  s.workers = t.workers ∧ World.Alike S s.world t.world

/-- The guest's bytes are in `S`. -/
theorem step_outside (hc : mm.Covered S even)
    (hram : ∀ x, source ≤ x → x < source + total → S x) (hl : even → l.RingsEven)
    (hs : s.Tame S even) (hr : s.step ck mm env source total l = some s') :
    s'.Tame S even ∧ ∀ x, ¬ S x → s'.world.mem x = s.world.mem x := by
  cases l with
  | wake job fuel n q =>
    obtain rfl := Option.some.inj hr
    refine ⟨fun p hp => ?_, fun _ _ => rfl⟩
    rcases List.mem_append.mp hp with h | h
    · exact hs p h
    · rw [List.mem_singleton.mp h]
      exact stays_job hc job fuel n hl
  | access i =>
    simp only [step] at hr
    split at hr
    · cases hr
    rename_i p hp
    obtain ⟨⟨p', w'⟩, hn, rfl⟩ := Option.map_eq_some_iff.mp hr
    obtain ⟨hp', hw⟩ := (hs p (List.mem_of_getElem? hp)).next hn
    refine ⟨fun p'' h => ?_, fun x hx => ?_⟩
    · rcases List.mem_or_eq_of_mem_set h with h | rfl
      · exact hs p'' h
      · exact hp'
    · rcases hw with rfl | ⟨a, r, ha, hr⟩
      · rfl
      · exact world_outside hc ha hr hx
  | guest host b =>
    obtain ⟨hin, h⟩ := Option.ite_none_right_eq_some.mp hr
    obtain rfl := Option.some.inj h
    refine ⟨hs, fun x hx => write_outside (fun i hi => hram _ ?_ ?_) hx⟩ <;>
      · rw [List.length_singleton] at hi
        omega

theorem step_alike (hc : mm.Covered S even) (hs : s.Tame S even) (h : s.Alike S t) :
    (s.step ck mm env source total l = none ∧ t.step ck mm env source total l = none) ∨
      ∃ s' t', s.step ck mm env source total l = some s' ∧
        t.step ck mm env source total l = some t' ∧ s'.Alike S t' := by
  obtain ⟨hw, hm, he⟩ := h
  cases l with
  | wake job fuel n q => exact .inr ⟨_, _, rfl, rfl, congrArg (· ++ [_]) hw, hm, he⟩
  | access i =>
    simp only [step, ← hw]
    cases hp : s.workers[i]? with
    | none => exact .inl ⟨rfl, rfl⟩
    | some p =>
      have hstay := hs p (List.mem_of_getElem? hp)
      rcases hstay.next_related (h := mm.world ck env) (fun a ha => world_respects hc ha) ⟨hm, he⟩
        with ⟨h₁, h₂⟩ | ⟨p', w, v, h₁, h₂, h⟩
      · exact .inl ⟨by dsimp only; rw [h₁]; rfl, by dsimp only; rw [h₂]; rfl⟩
      · exact .inr ⟨⟨s.workers.set i p', w⟩, ⟨s.workers.set i p', v⟩, by dsimp only; rw [h₁]; rfl,
          by dsimp only; rw [h₂]; rfl, rfl, h⟩
  | guest host b =>
    simp only [step]
    split
    · exact .inr ⟨_, _, rfl, rfl, hw, hm.write host [b], he⟩
    · exact .inl ⟨rfl, rfl⟩

theorem run_outside (hc : mm.Covered S even)
    (hram : ∀ x, source ≤ x → x < source + total → S x) {ls : List Label}
    (hl : even → ∀ l ∈ ls, l.RingsEven) (hs : s.Tame S even)
    (hr : ls.foldlM (step ck mm env source total) s = some s') (x : Nat) (hx : ¬ S x) :
    s'.world.mem x = s.world.mem x := by
  induction ls generalizing s with
  | nil =>
    obtain rfl := Option.some.inj hr
    rfl
  | cons l ls ih =>
    rw [List.foldlM_cons, Option.bind_eq_bind, Option.bind_eq_some_iff] at hr
    obtain ⟨u, hu, hr⟩ := hr
    obtain ⟨htame, hkeep⟩ := step_outside hc hram (fun h => hl h l List.mem_cons_self) hs hu
    rw [ih (fun h l' hm => hl h l' (List.mem_cons_of_mem l hm)) htame hr, hkeep x hx]

theorem run_alike (hc : mm.Covered S even)
    (hram : ∀ x, source ≤ x → x < source + total → S x) {ls : List Label}
    (hl : even → ∀ l ∈ ls, l.RingsEven) (hs : s.Tame S even) (h : s.Alike S t) :
    (ls.foldlM (step ck mm env source total) s = none ∧
        ls.foldlM (step ck mm env source total) t = none) ∨
      ∃ s' t', ls.foldlM (step ck mm env source total) s = some s' ∧
        ls.foldlM (step ck mm env source total) t = some t' ∧ s'.Alike S t' := by
  induction ls generalizing s t with
  | nil => exact .inr ⟨s, t, rfl, rfl, h⟩
  | cons l ls ih =>
    simp only [List.foldlM_cons, Option.bind_eq_bind]
    rcases step_alike hc hs h (l := l) with ⟨h₁, h₂⟩ | ⟨s', t', h₁, h₂, h'⟩
    · rw [h₁, h₂]
      exact .inl ⟨rfl, rfl⟩
    · rw [h₁, h₂]
      have htame := (step_outside hc hram (fun h => hl h l List.mem_cons_self) hs h₁).1
      exact ih (fun h l' hm => hl h l' (List.mem_cons_of_mem l hm)) htame h'

theorem tame_of_idle (h : s.workers = []) : s.Tame S even := by
  intro p hp
  rw [h] at hp
  exact absurd hp List.not_mem_nil

end Host

theorem ramBytes_of_lt {source total : Nat} {even : Prop} :
    ∀ x, source ≤ x → x < source + total → ramBytes source total even x :=
  fun _ h₁ h₂ => ⟨h₁, .inl h₂⟩

/-- No run of the workers beside the guest changes a byte of the host outside the guest's RAM,
but for the one after it if a ring is at an odd address. -/
theorem outside_unchanged (total : BitVec 64) {source : Nat} {even : Prop} (hpos : 0 < total.toNat)
    (hfits : 0x40000000 + total.toNat ≤ 2 ^ 64) (hsize : total.toNat ≤ 2 ^ 47)
    {ls : List Host.Label} (he : even → total.toNat % 2 = 0 ∧ ∀ l ∈ ls, l.RingsEven)
    {s s' : Host ε} (h0 : s.workers = [])
    (hr : ls.foldlM (Host.step ck (allocateMemoryWithSize total source hpos hfits) env source
      total.toNat) s = some s') (x : Nat) (hx : ¬ ramBytes source total.toNat even x) :
    s'.world.mem x = s.world.mem x :=
  Host.run_outside (covered_allocate hpos hfits hsize fun h => (he h).1) ramBytes_of_lt
    (fun h => (he h).2) (Host.tame_of_idle h0) hr x hx

theorem outside_unchanged_rng : ∃ s',
    [.wake .rng 2 2 smallQueue, .access 0, .guest 5 0xff, .access 0, .access 0].foldlM
      (Host.step true smallRam idleEnv 0 0x10000) ⟨[], ⟨oneChain 0 0x4000, (), []⟩⟩ = some s' ∧
    ∀ x, ¬ ramBytes 0 0x10000 True x → s'.world.mem x = oneChain 0 0x4000 x := by
  obtain ⟨s', hs⟩ := Option.isSome_iff_exists.mp (show
    ([.wake .rng 2 2 smallQueue, .access 0, .guest 5 0xff, .access 0, .access 0].foldlM
      (Host.step true smallRam idleEnv 0 0x10000) ⟨[], ⟨oneChain 0 0x4000, (), []⟩⟩).isSome = true by
    decide)
  refine ⟨s', hs, outside_unchanged 0x10000 (by decide) (by decide) (by decide)
    (fun _ => ⟨by decide, ?_⟩) rfl hs⟩
  simp [Host.Label.RingsEven, smallQueue]

/-- From two worlds that differ in such bytes only, the same steps can be made; they leave the
workers with the same programs, and the outside and the RAM the same. -/
theorem outside_unobserved (ck : Bool) (env : Env ε) (total : BitVec 64) {source : Nat} {even : Prop}
    (hpos : 0 < total.toNat) (hfits : 0x40000000 + total.toNat ≤ 2 ^ 64)
    (hsize : total.toNat ≤ 2 ^ 47) {ls : List Host.Label}
    (he : even → total.toNat % 2 = 0 ∧ ∀ l ∈ ls, l.RingsEven) {s t : Host ε} (h0 : s.workers = [])
    (h : s.Alike (ramBytes source total.toNat even) t) :
    let run := ls.foldlM (Host.step ck (allocateMemoryWithSize total source hpos hfits) env source
      total.toNat)
    (run s = none ∧ run t = none) ∨
      ∃ s' t', run s = some s' ∧ run t = some t' ∧ s'.Alike (ramBytes source total.toNat even) t' :=
  Host.run_alike (covered_allocate hpos hfits hsize fun h => (he h).1) ramBytes_of_lt
    (fun h => (he h).2) (Host.tame_of_idle h0) h

theorem outside_unobserved_rng :
    let run := [Host.Label.wake .rng 2 2 smallQueue, .access 0, .guest 5 0xff, .access 0].foldlM
      (Host.step true smallRam idleEnv 0 0x10000)
    let s : Host Unit := ⟨[], ⟨oneChain 0 0x4000, (), []⟩⟩
    let t : Host Unit := ⟨[], ⟨(oneChain 0 0x4000).write 0x10000 [1], (), []⟩⟩
    (run s = none ∧ run t = none) ∨
      ∃ s' t', run s = some s' ∧ run t = some t' ∧ s'.Alike (ramBytes 0 0x10000 True) t' := by
  refine outside_unobserved true idleEnv 0x10000 (by decide) (by decide) (by decide)
    (fun _ => ⟨by decide, ?_⟩) rfl ⟨rfl, fun x hx => ?_, rfl⟩
  · simp [Host.Label.RingsEven, smallQueue]
  · exact (Mem.write_of_lt (hx.2.resolve_right fun h => h.2 trivial)).symm

end Whypa
