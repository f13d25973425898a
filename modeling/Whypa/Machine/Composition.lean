import Whypa.Irq.Pins
import Whypa.Machine.Dispatch

/-!
# The machine is its devices

An access goes to the device whose window has its address, at its offset into
the window, and no other device sees it (`dispatched`). Hence in every run each
device does what it does alone: it is in a state that a transport of its own
can reach, but for the interrupt controller, and that is in a state that an
IOAPIC alone can reach (`devices_alone`). An interrupt is injected for a pin
only if the device on it has signalled (`pin_silent`).
-/

namespace Whypa

open Framework

namespace Machine

/-! ## Windows -/

/-- The handlers, and the addresses of their windows. -/
def windows : List (Span × MmioHandler) :=
  [(⟨0xfec00000, 0x1000⟩, .ioapic), (⟨0xe8000000, 0x10000000⟩, .pciEcam),
    (⟨0xfeb00000, 0x1000⟩, .virtio .block), (⟨0xfeb01000, 0x1000⟩, .virtio .rng),
    (⟨0xfeb02000, 0x1000⟩, .virtio .console), (⟨0xfeb03000, 0x1000⟩, .virtio .net)]

/-- The windows that are registered, and the handlers of their names. -/
theorem windows_eq : Partition.deviceWindows.map (fun q => (q.span, q.handler.bind (mmioHandlers.lookup ·))) =
    windows.map fun w => (w.1, some w.2) := by decide

def registered : List MmioRegion := Partition.deviceWindows.map Partition.Request.region

theorem registered_valid : ∀ w ∈ registered, w.Valid := by
  intro w hw
  obtain ⟨q, hq, rfl⟩ := List.mem_map.mp hw
  have h := Partition.deviceWindows_range q hq
  exact ⟨q.size_pos, show q.gpa.toNat + q.size.toNat < 2 ^ 64 by omega⟩

theorem registered_separate : Span.Separate MmioRegion.span registered :=
  List.pairwise_map.mpr (Partition.deviceWindows_apart.imp fun h => h.symm)

variable {ck : Bool} {m m' : Machine} {a : MemoryAccessInfo} {backend : Bool}

/-- An access in a window goes to its handler. -/
theorem memoryCallback_window (hm : m.partition.mmioRegions = registered) {w : Span × MmioHandler}
    (hw : w ∈ windows) (ha : w.1.Has a.gpaAddress.toNat) :
    m.memoryCallback ck a backend =
      m.access ck w.2 (a.gpaAddress - BitVec.ofNat 64 w.1.lo) a backend := by
  have hmem : (w.1, some w.2) ∈ Partition.deviceWindows.map fun q =>
      (q.span, q.handler.bind (mmioHandlers.lookup ·)) := by
    rw [windows_eq]
    exact List.mem_map_of_mem hw
  obtain ⟨q, hq, he⟩ := List.mem_map.mp hmem
  obtain ⟨hspan, hhandler⟩ := Prod.mk.inj he
  have hfind : registered.find? (fun w => w.span.Has a.gpaAddress.toNat) = some q.region := by
    refine (registered_separate.find?_eq_some_iff fun y _ => decide_eq_true_iff).mpr
      ⟨List.mem_map_of_mem hq, ?_⟩
    show q.span.Has a.gpaAddress.toNat
    rw [hspan]
    exact ha
  have hlo : w.1.lo = q.gpa.toNat := by rw [← hspan]; rfl
  have hle : q.gpa.toNat ≤ a.gpaAddress.toNat := hlo ▸ ha.1
  obtain ⟨name, hn, hlook⟩ := Option.bind_eq_some_iff.mp hhandler
  have hsub : plainSub ck a.gpaAddress q.region.gpa = some (a.gpaAddress - q.gpa) :=
    plainSub_of_le ck hle
  unfold memoryCallback
  rw [hm, Partition.findMmio_eq registered_valid, hfind]
  simp only [hsub, show q.region.handler = some name from hn, hlook, hlo, BitVec.ofNat_toNat,
    BitVec.setWidth_eq]

/-- No other access is handled. -/
theorem memoryCallback_outside (hm : m.partition.mmioRegions = registered)
    (ha : ∀ w ∈ windows, ¬ w.1.Has a.gpaAddress.toNat) :
    m.memoryCallback ck a backend = some (.notFound, a.data, m) := by
  have hfind : registered.find? (fun w => w.span.Has a.gpaAddress.toNat) = none := by
    refine List.find?_eq_none.mpr fun w hw hh => ?_
    obtain ⟨q, hq, rfl⟩ := List.mem_map.mp hw
    have hmem : (q.span, q.handler.bind (mmioHandlers.lookup ·)) ∈ windows.map fun w => (w.1, some w.2) := by
      rw [← windows_eq]
      exact List.mem_map_of_mem hq
    obtain ⟨w, hw, he⟩ := List.mem_map.mp hmem
    refine ha w hw ?_
    rw [(Prod.mk.inj he).1]
    exact of_decide_eq_true hh
  unfold memoryCallback
  rw [hm, Partition.findMmio_eq registered_valid, hfind]

/-! ## Steps -/

/-- What a step of the machine can do. -/
inductive StepEffect (m : Machine) (l : Label) : Machine → Prop
  | idle : StepEffect m l m
  | ioapic (offset : BitVec 64) (data : List Byte) :
      StepEffect m l { m with intc := m.intc.write offset data }
  | write (s : Slot) (offset : BitVec 64) (data : List Byte) (backend : Bool)
      (hp : ¬ ((m.view s).panicked = true ∨ (m.view s).waits offset data = true)) :
      StepEffect m l (m.put s ((m.view s).write offset data backend))
  | worker (s : Slot) (w : WorkerStep) (hl : l = .worker s w) {t : MmioTransport}
      (hw : (m.view s).workerStep w = some t) : StepEffect m l (m.put s t)

theorem access_effect {h : MmioHandler} {offset : BitVec 64} {l : Label} {r : HResult × List Byte × Machine}
    (hp : m.panicked = false) (hr : m.access ck h offset a backend = some r) : StepEffect m l r.2.2 := by
  have hview : ∀ s, (m.view s).panicked = false := fun s => by
    have h := List.any_eq_false.mp hp s s.mem_all
    exact Bool.not_eq_true _ ▸ h
  unfold access at hr
  simp only at hr
  split at hr
  · obtain ⟨-, h⟩ := Option.ite_none_left_eq_some.mp hr
    obtain ⟨read, -, rfl⟩ := Option.map_eq_some_iff.mp h
    exact .idle
  split at hr
  · obtain ⟨hw, hr⟩ := Option.ite_none_left_eq_some.mp hr
    obtain rfl := Option.some.inj hr
    cases h with
    | ioapic => exact .ioapic offset _
    | pciEcam => exact .idle
    | virtio s =>
      refine .write s offset _ backend fun h => h.elim (fun hp => ?_) fun hwait => hw (.inr hwait)
      rw [hview s] at hp
      cases hp
  · obtain rfl := Option.some.inj hr
    exact .idle

/-- An access to a window does not change another device. -/
theorem access_frame {h : MmioHandler} {offset : BitVec 64} {r : HResult × List Byte × Machine}
    (hr : m.access ck h offset a backend = some r) : r.2.2.partition = m.partition ∧
      ∀ s, h ≠ .virtio s → r.2.2.transports s = m.transports s := by
  unfold access at hr
  simp only at hr
  split at hr
  · obtain ⟨-, hr⟩ := Option.ite_none_left_eq_some.mp hr
    obtain ⟨read, -, rfl⟩ := Option.map_eq_some_iff.mp hr
    exact ⟨rfl, fun _ _ => rfl⟩
  split at hr
  · obtain ⟨-, hr⟩ := Option.ite_none_left_eq_some.mp hr
    obtain rfl := Option.some.inj hr
    cases h with
    | ioapic => exact ⟨rfl, fun _ _ => rfl⟩
    | pciEcam => exact ⟨rfl, fun _ _ => rfl⟩
    | virtio s =>
      exact ⟨rfl, fun s' hne => Function.update_of_ne (fun he => hne (congrArg _ he.symm)) _ _⟩
  · obtain rfl := Option.some.inj hr
    exact ⟨rfl, fun _ _ => rfl⟩

theorem step_effect {l : Label} (hm : m.partition.mmioRegions = registered)
    (hs : m.step ck l = some m') : StepEffect m l m' := by
  obtain ⟨hp, hs⟩ := Option.ite_none_left_eq_some.mp hs
  have hp : m.panicked = false := Bool.not_eq_true _ ▸ hp
  cases l with
  | access a backend =>
    obtain ⟨r, hr, rfl⟩ := Option.map_eq_some_iff.mp hs
    by_cases hw : ∃ w ∈ windows, w.1.Has a.gpaAddress.toNat
    · obtain ⟨w, hw, ha⟩ := hw
      rw [memoryCallback_window hm hw ha] at hr
      exact access_effect hp hr
    · rw [memoryCallback_outside hm fun w hw' ha => hw ⟨w, hw', ha⟩] at hr
      obtain rfl := Option.some.inj hr
      exact .idle
  | apicEoi vector =>
    obtain rfl := Option.some.inj hs
    exact .ioapic IO_EOI _
  | worker s w =>
    obtain ⟨t, hw, rfl⟩ := Option.map_eq_some_iff.mp hs
    exact .worker s w rfl hw

theorem view_put_self (m : Machine) (s : Slot) (t : MmioTransport) : (m.put s t).view s = t := by
  simp [view, put]

theorem view_put_ne (m : Machine) {s s' : Slot} (h : s' ≠ s) (t : MmioTransport) :
    (m.put s t).view s' = { m.view s' with intc := t.intc } := by
  simp [view, put, h]

theorem alike_put {s s' : Slot} (h : s' ≠ s) (t : MmioTransport) :
    MmioTransport.Alike True (m.view s') ((m.put s t).view s') := by
  rw [view_put_ne m h t]
  exact MmioTransport.alike_intc _ _

/-! ## Each device alone -/

/-- The device is where a transport alone can be, but for the interrupt controller. -/
def Alone (m : Machine) (s : Slot) : Prop :=
  ∃ t, Mmio.system.Reachable t ∧ MmioTransport.Alike True t (m.view s)

/-- A step of the transport alone is one of the device. -/
theorem Alone.step {s : Slot} {t' : MmioTransport} {l : Mmio.Label} (h : m.Alone s)
    (hs : ∀ t, MmioTransport.Alike True t (m.view s) →
      ∃ t₁, Mmio.step t l = some t₁ ∧ MmioTransport.Alike True t₁ t') : (m.put s t').Alone s := by
  obtain ⟨t, ht, ha⟩ := h
  obtain ⟨t₁, h₁, ha₁⟩ := hs t ha
  exact ⟨t₁, ht.step h₁, by rw [view_put_self]; exact ha₁⟩

theorem Alone.other {s s' : Slot} {t : MmioTransport} (h : m.Alone s') (hne : s' ≠ s) :
    (m.put s t).Alone s' := by
  obtain ⟨t', ht, ha⟩ := h
  exact ⟨t', ht, ha.trans (alike_put hne t)⟩

theorem Alone.write {s s' : Slot} (h : m.Alone s') (offset : BitVec 64) (data : List Byte)
    (backend : Bool) (hp : ¬ ((m.view s).panicked = true ∨ (m.view s).waits offset data = true)) :
    (m.put s ((m.view s).write offset data backend)).Alone s' := by
  by_cases he : s' = s
  · subst he
    refine h.step (l := .write offset data backend) fun t ha => ⟨_, ?_, ha.write offset data backend⟩
    rw [ha.eq_of_kept] at hp
    exact if_neg hp
  · exact h.other he

theorem Alone.worker {s s' : Slot} (h : m.Alone s') {w : WorkerStep} {t : MmioTransport}
    (hw : (m.view s).workerStep w = some t) : (m.put s t).Alone s' := by
  by_cases he : s' = s
  · subst he
    exact h.step (l := .worker w) fun u ha => ha.workerStep hw
  · exact h.other he

/-- What a run keeps: the windows and the wiring are as registered, and each device does what it
does alone. -/
structure Inv (m : Machine) : Prop where
  started : ∃ n source h1 hn, m.partition = Partition.started n source h1 hn
  irqLine : ∀ s, (m.view s).interrupt.irqLine = some s.irqLine
  kind : ∀ s, (m.view s).device.kind = s.kind
  alone : ∀ s, m.Alone s
  ioapic : IoApic.system.Reachable m.intc

theorem Inv.windows (hi : m.Inv) : m.partition.mmioRegions = registered := by
  obtain ⟨n, source, h1, hn, e⟩ := hi.started
  rw [e]
  rfl

/-- An address in RAM is in no window. -/
theorem Inv.outside_of_ram (hi : m.Inv) {gpa : BitVec 64} {r : MemoryRegion}
    (hf : m.partition.memory.findRegion gpa = some r) : ∀ w ∈ Machine.windows, ¬ w.1.Has gpa.toNat := by
  obtain ⟨n, source, h1, hn, e⟩ := hi.started
  have hr := List.mem_of_find?_eq_some hf
  rw [e] at hr
  have hram := (Partition.machine_regions source h1 hn r hr).2
  have hc : r.span.Has gpa.toNat := MemoryManager.findRegion_contains hf
  have hrange : ∀ w ∈ Machine.windows, 0xc0000000 ≤ w.1.lo ∧ w.1.stop ≤ 0x100000000 := by decide
  intro w hw hh
  have := hrange w hw
  unfold Span.Has at *
  omega

theorem kind_step {t t' : MmioTransport} {l : Mmio.Label} (hs : Mmio.step t l = some t') :
    t'.device.kind = t.device.kind := by
  cases Mmio.step_effect hs with
  | quiet h => rw [h.device]
  | queue f hf => rfl
  | ack hg page value => rfl
  | status data backend hl hd =>
    have he := MmioTransport.setDeviceStatus_effect t (BitVec.ofNat 32 (ofLE data)) backend
    generalize t.setDeviceStatus (BitVec.ofNat 32 (ofLE data)) backend = t' at he ⊢
    cases he with
    | advance h hn => rfl
    | activate h =>
      rcases MmioTransport.activate_cases
          { t with deviceStatus := BitVec.ofNat 32 (ofLE data) } backend with
        ⟨-, e⟩ | ⟨queues, device, panicked, -, e, hd⟩
      · rw [e]
      · rw [e]
        rcases hd with rfl | rfl <;> rfl
    | failed hn h => rfl
    | reset h =>
      unfold MmioTransport.stopped
      split <;> split <;> rfl
    | invalid hn h h0 => rfl

theorem Inv.put {s : Slot} {t : MmioTransport} (hi : m.Inv) {l : Mmio.Label}
    (hs : Mmio.step (m.view s) l = some t) (hl : t.interrupt.irqLine = (m.view s).interrupt.irqLine)
    (ha : ∀ s', (m.put s t).Alone s') {o : Option IoApic.Op}
    (ho : t.intc = o.elim m.intc m.intc.apply) : (m.put s t).Inv := by
  refine ⟨hi.started, fun s' => ?_, fun s' => ?_, ha, ?_⟩
  · by_cases he : s' = s
    · rw [he, view_put_self, hl, hi.irqLine]
    · rw [view_put_ne m he]
      exact hi.irqLine s'
  · by_cases he : s' = s
    · rw [he, view_put_self, kind_step hs, hi.kind]
    · rw [view_put_ne m he]
      exact hi.kind s'
  · show IoApic.system.Reachable t.intc
    rw [ho]
    cases o with
    | none => exact hi.ioapic
    | some o => exact hi.ioapic.step (l := o) rfl

theorem Inv.step {l : Label} (hi : m.Inv) (hs : m.step ck l = some m') : m'.Inv := by
  cases step_effect hi.windows hs with
  | idle => exact hi
  | ioapic offset data =>
    refine ⟨hi.started, hi.irqLine, hi.kind, fun s => ?_, hi.ioapic.step (l := .write offset data) rfl⟩
    obtain ⟨t, ht, ha⟩ := hi.alone s
    exact ⟨t, ht, ha.trans (MmioTransport.alike_intc _ _)⟩
  | write s offset data backend hp =>
    have hstep : Mmio.step (m.view s) (.write offset data backend) =
        some ((m.view s).write offset data backend) := if_neg hp
    have halone : ∀ s', (m.put s ((m.view s).write offset data backend)).Alone s' :=
      fun s' => (hi.alone s').write offset data backend hp
    rcases MmioTransport.write_intc (t := m.view s) offset data backend with h | h
    · exact hi.put hstep (MmioTransport.write_irqLine offset data backend) halone (o := none) h
    · exact hi.put hstep (MmioTransport.write_irqLine offset data backend) halone
        (o := some (.clearIrq (m.view s).interrupt.irqLine)) h
  | worker s w hl hw =>
    obtain ⟨hline, hintc⟩ := MmioTransport.workerStep_outside hw
    have hstep : Mmio.step (m.view s) (.worker w) = some _ := hw
    have halone := fun s' => (hi.alone s').worker hw
    cases w with
    | signal status =>
      exact hi.put hstep hline halone (o := some (.setIrq (m.view s).interrupt.irqLine)) hintc
    | _ => exact hi.put hstep hline halone (o := none) hintc

theorem inv_of_reachable (h : (system ck).Reachable m) : m.Inv := by
  refine h.invariant (I := Inv) ?_ fun m l m' hi hs => hi.step hs
  rintro m ⟨n, source, h1, hn, configs, rfl⟩
  refine ⟨⟨n, source, h1, hn, rfl⟩, fun s => rfl, fun s => rfl, fun s => ?_, .init rfl⟩
  exact ⟨_, .init ⟨s.kind, some s.irqLine, .new, rfl⟩, .refl _⟩

/-- After every run, an access goes to the device whose window has its address, at its offset into
the window, or to none; an address in RAM is in no window; and no other device sees the access. -/
theorem dispatched (h : (system ck).Reachable m) (a : MemoryAccessInfo) (backend : Bool) :
    (∀ w ∈ windows, w.1.Has a.gpaAddress.toNat →
      m.memoryCallback ck a backend =
        m.access ck w.2 (a.gpaAddress - BitVec.ofNat 64 w.1.lo) a backend) ∧
    ((∀ w ∈ windows, ¬ w.1.Has a.gpaAddress.toNat) →
      m.memoryCallback ck a backend = some (.notFound, a.data, m)) ∧
    (∀ r, m.partition.memory.findRegion a.gpaAddress = some r →
      m.memoryCallback ck a backend = some (.notFound, a.data, m)) ∧
    ∀ r, m.memoryCallback ck a backend = some r → r.2.2.partition = m.partition ∧
      ∀ s, (∀ w ∈ windows, w.1.Has a.gpaAddress.toNat → w.2 ≠ .virtio s) →
        r.2.2.transports s = m.transports s := by
  have hi := inv_of_reachable h
  have hout := @memoryCallback_outside ck m a backend hi.windows
  refine ⟨fun w hw ha => memoryCallback_window hi.windows hw ha, hout,
    fun r hf => hout (hi.outside_of_ram hf), fun r hr => ?_⟩
  by_cases hw : ∃ w ∈ windows, w.1.Has a.gpaAddress.toNat
  · obtain ⟨w, hw, ha⟩ := hw
    rw [memoryCallback_window hi.windows hw ha] at hr
    obtain ⟨hp, ht⟩ := access_frame hr
    exact ⟨hp, fun s hs => ht s (hs w hw ha)⟩
  · rw [hout fun w hw' ha => hw ⟨w, hw', ha⟩] at hr
    obtain rfl := Option.some.inj hr
    exact ⟨rfl, fun _ _ => rfl⟩

/-- A machine with 4 GiB of RAM, and no configuration of its devices. -/
def small : Machine := start 4 0 (by decide) (by decide) fun _ => .rng

theorem small_init : ∃ n source h1 hn configs, small = start n source h1 hn configs :=
  ⟨4, 0, by decide, by decide, _, rfl⟩

/-- The guest acknowledges the console. -/
def acknowledge : MemoryAccessInfo := ⟨0xfeb02070, 1, 4, [1, 0, 0, 0, 0, 0, 0, 0], rfl⟩

theorem dispatched_small : small.memoryCallback true acknowledge true =
    small.access true (.virtio .console) 0x70 acknowledge true :=
  (@dispatched true small (.init small_init) acknowledge true).1
    (⟨0xfeb02000, 0x1000⟩, .virtio .console) (by decide) (by decide)

/-- After every run each device is where it can be alone, but for the interrupt controller, and the
interrupt controller is where it can be alone. -/
theorem devices_alone (h : (system ck).Reachable m) :
    (∀ s, (m.view s).device.kind = s.kind ∧ (m.view s).interrupt.irqLine = some s.irqLine ∧
      ∃ t, Mmio.system.Reachable t ∧ m.view s = { t with intc := m.intc }) ∧
    IoApic.system.Reachable m.intc := by
  have hi := inv_of_reachable h
  refine ⟨fun s => ⟨hi.kind s, hi.irqLine s, ?_⟩, hi.ioapic⟩
  obtain ⟨t, ht, ha⟩ := hi.alone s
  exact ⟨t, ht, ha.eq_of_kept⟩

theorem devices_alone_small : ∃ m, (small.step true (.access acknowledge true)) = some m ∧
    (m.view .console).deviceStatus = 1 ∧ ∃ t, Mmio.system.Reachable t ∧
      m.view .console = { t with intc := m.intc } := by
  refine ⟨_, rfl, rfl, ((@devices_alone true _ ?_).1 .console).2.2⟩
  exact .step (.init small_init) (l := .access acknowledge true) rfl

/-! ## Pins -/

/-- Only a request of the pin makes it requested, and only a requested pin gets an interrupt. -/
theorem pin_unrequested {p : Pin} {act : Pin.Action} (hr : p.requested = false) (ha : act ≠ .assert) :
    (p.step act).requested = false ∧ (p.step act).sent = p.sent := by
  cases act with
  | none => exact ⟨hr, rfl⟩
  | assert => exact absurd rfl ha
  | withdraw => exact ⟨rfl, rfl⟩
  | route upper val =>
    rw [Pin.step, Pin.serve_idle (by rw [hr]; rfl)]
    exact ⟨hr, rfl⟩
  | eoi v =>
    show (p.eoi v).requested = false ∧ (p.eoi v).sent = p.sent
    unfold Pin.eoi
    split
    · rw [if_neg (by rw [hr]; exact Bool.false_ne_true)]
      exact ⟨hr, rfl⟩
    · exact ⟨hr, rfl⟩

/-- The pin is not requested, and no interrupt was injected for it. -/
def Silent (i : Fin IOAPIC_NUM_PINS) (c : IoApic) : Prop := c.requested i = false ∧ c.sent i = 0

theorem Silent.apply {i : Fin IOAPIC_NUM_PINS} {c : IoApic} (h : Silent i c) (hs : c.Settled)
    {o : IoApic.Op} (ho : o ≠ .setIrq (IoApic.line i)) : Silent i (c.apply o) := by
  have ha : c.action i o ≠ .assert := by
    cases o with
    | setIrq irqLine =>
      have hne : irqLine ≠ IoApic.line i := fun he => ho (congrArg _ he)
      simp [IoApic.action, hne]
    | clearIrq irqLine =>
      simp only [IoApic.action]
      split <;> simp
    | write offset data =>
      simp only [IoApic.action]
      split
      · simp
      split
      · split <;> simp
      split <;> simp
  have hp := IoApic.apply_pin hs o i
  obtain ⟨hr, hsent⟩ := pin_unrequested (p := c.pin i) h.1 ha
  rw [← hp] at hr hsent
  exact ⟨hr, hsent.trans h.2⟩

/-- As long as the device on a pin does not signal, nothing that the guest or the other devices do
injects an interrupt for the pin; for a pin without a device, nothing ever does. -/
theorem pin_silent {i : Fin IOAPIC_NUM_PINS} (h : ((system ck).under fun _ l =>
      ∀ s status, l = .worker s (.signal status) → s.irqLine.toNat ≠ i).Reachable m) :
    m.intc.requested i = false ∧ ∀ n ∈ m.intc.injected, n.pin ≠ i := by
  have hinv : m.Inv ∧ Silent i m.intc := by
    refine h.invariant (I := fun m => m.Inv ∧ Silent i m.intc) ?_ ?_
    · rintro m ⟨n, source, h1, hn, configs, rfl⟩
      exact ⟨@inv_of_reachable ck _ (.init ⟨n, source, h1, hn, configs, rfl⟩),
        BitVec.getLsbD_zero, rfl⟩
    · rintro m l m' ⟨hi, hq⟩ ⟨hl, hs⟩
      have hset := IoApic.settled_of_reachable hi.ioapic
      refine ⟨hi.step hs, ?_⟩
      cases step_effect hi.windows hs with
      | idle => exact hq
      | ioapic offset data => exact hq.apply hset (o := .write offset data) nofun
      | write s offset data backend hp =>
        rcases MmioTransport.write_intc (t := m.view s) offset data backend with h | h
        · exact (congrArg (Silent i) h).mpr hq
        · exact (congrArg (Silent i) h).mpr (hq.apply hset (o := .clearIrq _) nofun)
      | worker s w hlab hw =>
        have hintc := (MmioTransport.workerStep_outside hw).2
        cases w with
        | signal status =>
          refine (congrArg (Silent i) hintc).mpr
            (hq.apply hset (o := .setIrq (m.view s).interrupt.irqLine) fun he => hl s status hlab ?_)
          rw [hi.irqLine] at he
          have he := Option.some.inj (IoApic.Op.setIrq.inj he)
          rw [he, IoApic.line_toNat]
        | _ => exact (congrArg (Silent i) hintc).mpr hq
  refine ⟨hinv.2.1, fun n hn he => ?_⟩
  exact List.countP_eq_zero.mp hinv.2.2 n hn (decide_eq_true he)

theorem pin_silent_rng : ∃ m, (small.step true (.access acknowledge true)).bind
      (step true · (.apicEoi 0x30)) = some m ∧
    m.intc.requested 21 = false ∧ ∀ n ∈ m.intc.injected, n.pin ≠ 21 := by
  refine ⟨_, rfl, @pin_silent true _ _ ?_⟩
  exact .step (l := .apicEoi 0x30) (.step (l := .access acknowledge true) (.init small_init)
    ⟨nofun, rfl⟩) ⟨nofun, rfl⟩

end Machine

end Whypa
