import Whypa.Virtio.NetDevice

/-!
# Frames in order, and none stranded

Two properties of the network device over all interleavings of its threads and
the guest, which `process_rx_virtio_queue` both breaks when it has no buffer for
a frame. It puts the frames back at the end of `rx_pending`, behind those that
were pushed after the drain (`frames_in_order`); and it then waits for events of
which none tells that the guest has posted buffers (`no_stranded_frames`), since
the event of the receive queue is not among them.
-/

namespace Whypa

open Framework NetWorker

namespace NetDevice

variable {ε : Type} {ck : Bool} {mm : MemoryManager} {env : Env ε} {s : State ε}

/-! ## Order -/

/-- In every run in which frames are put back only while `rx_pending` is empty, the
frames written into buffers of the guest are a subsequence of those received. -/
theorem frames_in_order
    (h : ((system ck mm env).under fun s l => s.putsBack l = true → s.pending = []).Reachable s) :
    s.delivered.Sublist s.produced := by
  have ho : s.mailbox.Ordered := by
    refine mailbox_invariant (I := Mailbox.Ordered) (fun s hi => ?_) ?_ h
    · obtain ⟨hp, hw, -, -, hd⟩ := hi
      unfold Mailbox.Ordered State.mailbox
      simp [hp, hw, hd, Worker.held]
    · intro s l a m hC ho hm hp
      exact ho.step (fun ha => hC (hp ha)) hm
  unfold Mailbox.Ordered at ho
  rw [List.append_assoc] at ho
  exact (List.sublist_append_left ..).trans ho

/-- The device of `smallRam` after its threads have started. -/
def started : State Unit where
  world := ⟨fun _ => 0, ((), []), []⟩
  transport := .new (.new .net) none .new
  rxQueue := smallQueue
  txQueue := smallQueue
  worker := .waiting
  rxReady := false
  stopEvent := false
  reader := .reading
  produced := []
  delivered := []
  notified := false

/-- Memory in which the guest has posted two chains to `smallQueue`, each of one
descriptor with 16 bytes. -/
def posted : Mem :=
  let m : Mem := fun _ => 0
  let m := ((m.putWord 0x2002 (2 : BitVec 16)).putWord 0x2004 (0 : BitVec 16)).putWord 0x2006
    (1 : BitVec 16)
  let m := ((m.putWord 0x1000 (0x4000 : BitVec 64)).putWord 0x1008 (16 : BitVec 32)).putWord 0x100c
    (2 : BitVec 16)
  ((m.putWord 0x1010 (0x5000 : BitVec 64)).putWord 0x1018 (16 : BitVec 32)).putWord 0x101c
    (2 : BitVec 16)

/-- A frame is received, drained and put back, as there are no buffers. -/
def starved : List Label :=
  [.reader (.push [1]), .reader .signal, .wake 0 0] ++ List.replicate 6 .worker

/-- The guest posts buffers, and a second frame wakes the worker for both. -/
def retried : List Label :=
  starved ++ [.guest posted, .reader (.push [2]), .reader .signal, .wake 0 0] ++
    List.replicate 28 .worker

theorem frames_in_order_retried : ∃ s,
    ((system true smallRam idleEnv).under fun s l => s.putsBack l = true → s.pending = []).Reachable s ∧
      s.delivered = [[1], [2]] ∧ s.delivered.Sublist s.produced := by
  have h0 : ((system true smallRam idleEnv).under fun s l =>
      s.putsBack l = true → s.pending = []).Reachable started := .init ⟨rfl, rfl, rfl, rfl, rfl⟩
  have hr : (retried.foldlM (fun s l => if s.putsBack l = true → s.pending = [] then
      step true smallRam idleEnv s l else none) started).map State.delivered = some [[1], [2]] := by
    decide +kernel
  obtain ⟨s, hs, hd⟩ := Option.map_eq_some_iff.mp hr
  have h := h0.foldlM_under _ hs
  exact ⟨s, h, hd, frames_in_order h⟩

/-- A second frame is pushed after the drain and before the put-back. -/
def overtaken : List Label :=
  [.reader (.push [1]), .reader .signal, .wake 0 0, .worker, .reader (.push [2]), .reader .signal] ++
    List.replicate 5 .worker ++ [.guest posted, .wake 0 0] ++ List.replicate 28 .worker

/-- It is delivered first. -/
theorem frames_reordered : ∃ s, (system true smallRam idleEnv).Reachable s ∧
    s.produced = [[1], [2]] ∧ s.delivered = [[2], [1]] ∧
      (s.world.mem.read 0x400c 1, s.world.mem.read 0x500c 1) = ([2], [1]) ∧
      ¬ s.delivered.Sublist s.produced := by
  have h0 : (system true smallRam idleEnv).Reachable started := .init ⟨rfl, rfl, rfl, rfl, rfl⟩
  have hr : (overtaken.foldlM (step true smallRam idleEnv) started).map (fun s =>
      (s.produced, s.delivered, s.world.mem.read 0x400c 1, s.world.mem.read 0x500c 1)) =
      some ([[1], [2]], [[2], [1]], [2], [1]) := by decide +kernel
  obtain ⟨s, hs, he⟩ := Option.map_eq_some_iff.mp hr
  obtain ⟨hp, he⟩ := Prod.mk.inj he
  obtain ⟨hd, hm⟩ := Prod.mk.inj he
  refine ⟨s, h0.foldlM _ hs, hp, hd, hm, ?_⟩
  rw [hp, hd]
  decide

/-! ## Waiting -/

/-- The receive queue holds an available chain. -/
def State.available (ck : Bool) (mm : MemoryManager) (s : State ε) : Bool :=
  match Prog.run (mm.handler ck) s.rxQueue.pop s.world.mem with
  | some ((some _, _), _) => true
  | _ => false

/-- The worker waits, none of its events is signaled, and none is about to be as
the reader has signaled all that it pushed; yet there are a frame to deliver and
a chain to deliver it into. A reader that has pushed a frame may block in the
inner `read_frame` before it signals, while the rest of the next frame is on its
way; that wait is not of this kind, the signal comes after it. -/
structure Stranded (ck : Bool) (mm : MemoryManager) (s : State ε) : Prop where
  worker : s.worker.waits = true
  txEvent : s.txEvent = false
  rxReady : s.rxReady = false
  stopEvent : s.stopEvent = false
  reader : s.reader = .reading
  pending : s.pending ≠ []
  available : s.available ck mm = true

/-- In every run in which frames are put back only with `rx_ready` signaled again,
or the reader about to signal it, no frame is stranded, whether or not the guest
has notified the receive queue. -/
theorem no_stranded_frames (h : ((system ck mm env).under fun s l =>
    s.putsBack l = true → s.rxReady = true ∨ s.reader = .batching).Reachable s) :
    ¬ Stranded ck mm s := by
  have hc : s.mailbox.Covered := by
    refine mailbox_invariant (I := Mailbox.Covered) (fun s hi hne => absurd hi.1 hne) ?_ h
    intro s l a m hC hc hm hp
    refine hc.step (fun ha => ?_) hm
    exact (hC (hp ha)).imp id decide_eq_true
  rintro ⟨hw, -, hready, -, hrd, hne, -⟩
  rcases hc hne with hsig | hbat | hwok
  · exact absurd (hready.symm.trans hsig) (by decide)
  · exact absurd (hrd.symm.trans (of_decide_eq_true hbat)) (by decide)
  · have hwok : s.worker.drains = true := hwok
    cases hk : s.worker with
    | draining =>
      rw [hk] at hw
      cases hw
    | _ =>
      rw [hk] at hwok
      cases hwok

/-- A second frame is pushed and signaled before the first one is put back, so that
the worker comes back for both once the guest has posted buffers. -/
theorem no_stranded_frames_overtaken : ∃ s, ((system true smallRam idleEnv).under fun s l =>
    s.putsBack l = true → s.rxReady = true ∨ s.reader = .batching).Reachable s ∧
      s.delivered.length = 2 ∧ ¬ Stranded true smallRam s := by
  have h0 : ((system true smallRam idleEnv).under fun s l => s.putsBack l = true →
      s.rxReady = true ∨ s.reader = .batching).Reachable started := .init ⟨rfl, rfl, rfl, rfl, rfl⟩
  have hr : (overtaken.foldlM (fun s l => if s.putsBack l = true →
      s.rxReady = true ∨ s.reader = .batching then step true smallRam idleEnv s l else none)
        started).map (fun s => s.delivered.length) = some 2 := by decide +kernel
  obtain ⟨s, hs, hd⟩ := Option.map_eq_some_iff.mp hr
  have h := h0.foldlM_under _ hs
  exact ⟨s, h, hd, no_stranded_frames h⟩

/-- After a frame was put back the guest posts buffers and notifies the receive
queue. -/
def abandoned : List Label := starved ++ [.guest posted, .notify 0]

/-- Nothing wakes the worker: it does not wait for the event that the guest has
signaled. -/
theorem frame_stranded : ∃ s, (system true smallRam idleEnv).Reachable s ∧
    Stranded true smallRam s ∧ s.notified = true := by
  have h0 : (system true smallRam idleEnv).Reachable started := .init ⟨rfl, rfl, rfl, rfl, rfl⟩
  have hr : (abandoned.foldlM (step true smallRam idleEnv) started).map (fun s =>
      ((s.worker.waits, s.txEvent, s.rxReady, s.stopEvent),
        (s.reader, s.pending, s.available true smallRam, s.notified))) =
      some ((true, false, false, false), (.reading, [[1]], true, true)) := by
    decide +kernel
  obtain ⟨s, hs, he⟩ := Option.map_eq_some_iff.mp hr
  simp only [Prod.mk.injEq] at he
  obtain ⟨⟨hw, ht, hrd, hst⟩, hre, hp, ha, hn⟩ := he
  exact ⟨s, h0.foldlM _ hs, ⟨hw, ht, hrd, hst, hre, by rw [hp]; decide, ha⟩, hn⟩

end NetDevice

end Whypa
