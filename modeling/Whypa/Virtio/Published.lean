import Whypa.Framework.Filling
import Whypa.Virtio.AddUsed
import Whypa.Virtio.Announce
import Whypa.Virtio.Status

/-!
# What a run leaves for the guest

It is read off the trace of the run: the elements that it publishes (`published`), and the
bytes that it stores in buffers (`stores`). A run that returns chains publishes their
elements exactly if guest memory accepts them (`published_spec`).
-/

namespace Whypa

open Framework WProg

variable {ε : Type} {env : Env ε} {ck : Bool} {mm : MemoryManager}

/-! ## Elements and bytes -/

def VirtqUsedElem.ofBytes (bytes : List Byte) : VirtqUsedElem :=
  ⟨BitVec.ofNat 32 (ofLE (bytes.take 4)), BitVec.ofNat 32 (ofLE ((bytes.drop 4).take 4))⟩

theorem VirtqUsedElem.ofBytes_bytes (e : VirtqUsedElem) : ofBytes (AsBytes.bytes e) = e := by
  have hid : (AsBytes.bytes e).take 4 = leBytes 4 e.id.toNat := List.take_left' (length_leBytes ..)
  have hlen : (AsBytes.bytes e).drop 4 = leBytes 4 e.len.toNat := List.drop_left' (length_leBytes ..)
  rw [ofBytes, hid, hlen, List.take_of_length_le (length_leBytes ..).le]
  exact congrArg₂ VirtqUsedElem.mk (ofNat_ofLE_leBytes 4 e.id) (ofNat_ofLE_leBytes 4 e.len)

namespace Queue

/-- The queue, once `n` more elements are in the used ring. -/
def later (q : Queue) (n : Nat) : Queue := { q with nextUsed := Counter.ahead q.nextUsed n }

theorem later_zero (q : Queue) : q.later 0 = q := by rw [later, Counter.ahead_zero]

theorem sameConfig_later (q : Queue) (n : Nat) : q.SameConfig (q.later n) :=
  ⟨rfl, rfl, rfl, rfl, rfl, rfl, rfl⟩

variable {q q' : Queue} {n k : Nat}

theorem usedElemAddr_congr (hc : q.SameConfig q') (hn : q'.nextUsed = q.nextUsed) :
    q'.usedElemAddr = q.usedElemAddr := by
  simp only [usedElemAddr, hc.usedRing, hc.size, hn]

/-- Guest memory accepts the next `n` elements of the used ring, and its index after each. -/
def Accepts (mm : MemoryManager) (q : Queue) (n : Nat) : Prop :=
  ∀ i < n, (∃ h, (q.later i).ElementAt false mm h) ∧ ∃ h, q.IndexAt mm h

theorem accepts_zero (q : Queue) : q.Accepts mm 0 := fun i hi => absurd hi (Nat.not_lt_zero i)

theorem accepts_one : q.Accepts mm 1 ↔ (∃ h, q.ElementAt false mm h) ∧ ∃ h, q.IndexAt mm h := by
  constructor
  · intro h
    have := h 0 Nat.zero_lt_one
    rwa [later_zero] at this
  · intro h i hi
    obtain rfl : i = 0 := by omega
    rwa [later_zero]

/-- `n` elements and then `k`. -/
theorem accepts_add (hc : q.SameConfig q') (hn : q'.nextUsed = Counter.ahead q.nextUsed n) :
    q.Accepts mm (n + k) ↔ q.Accepts mm n ∧ q'.Accepts mm k := by
  have haddr : ∀ i, (q'.later i).usedElemAddr = (q.later (n + i)).usedElemAddr := fun i => by
    simp only [later, usedElemAddr, hc.usedRing, hc.size, hn, Counter.ahead_ahead]
  have hidx : ∀ h, q'.IndexAt mm h ↔ q.IndexAt mm h := fun h => by
    simp only [IndexAt, hc.usedRing]
  simp only [Accepts, ElementAt, haddr, hidx]
  constructor
  · exact fun h => ⟨fun i hi => h i (by omega), fun i hi => h (n + i) (by omega)⟩
  · rintro ⟨h, h'⟩ i hi
    rcases Nat.lt_or_ge i n with hlt | hge
    · exact h i hlt
    · obtain ⟨j, rfl⟩ := Nat.exists_eq_add_of_le hge
      exact h' j (by omega)

/-- Memory that backs the used ring accepts any number of elements. -/
theorem accepts_of_backs {us : Nat} (hu : mm.Backs q.usedRing (6 + 8 * q.size.toNat) us)
    (h0 : 0 < n → 0 < q.size.toNat) : q.Accepts mm n := by
  intro i hi
  have hpos := h0 (Nat.zero_lt_of_lt hi)
  constructor
  · have ho : _ = 4 + 8 * ((Counter.ahead q.nextUsed i).toNat % q.size.toNat) :=
      toNat_usedOffset (q.later i) hpos
    have hlt := Nat.mod_lt (Counter.ahead q.nextUsed i).toNat hpos
    have hol := ho.trans_lt (show _ < 6 + 8 * q.size.toNat by omega)
    have hb := hu.sub (n := 9) ((hu.toNat_add hol).trans (by rw [ho])) (by omega)
    exact ⟨_, _, hu.checkedAdd hol, hb.locate false (by omega) fun _ _ hw => hw⟩
  · have h2 : (2 : BitVec 64).toNat = 2 := rfl
    have hlt := h2.trans_lt (show 2 < 6 + 8 * q.size.toNat by omega)
    have hb := hu.sub (n := 2) ((hu.toNat_add hlt).trans (by rw [h2])) (by omega)
    exact ⟨_, _, hu.checkedAdd hlt, hb.locateAtomic_write (by omega)⟩

/-- The index of the used ring can be stored. -/
def Indexed (mm : MemoryManager) (q : Queue) : Prop :=
  ∃ h, mm.locateAtomic (q.usedRing + 2) MemoryPerms.write .readOnly = .ok h

end Queue

/-- The elements published since the queue was `q`, and the next one, once it is written. -/
def Done.ring (q : Queue) (s : List VirtqUsedElem × Option VirtqUsedElem) (d : Done) :
    List VirtqUsedElem × Option VirtqUsedElem :=
  match d with
  | ⟨.mem (.write bytes addr), .ok ()⟩ =>
    if (q.later s.1.length).usedElemAddr = some addr then (s.1, some (.ofBytes bytes)) else s
  | d => if d.publishes q.usedRing then (s.1 ++ s.2.toList, none) else s

/-- The elements that a run publishes, in order. -/
def published (q : Queue) (t : List Done) : List VirtqUsedElem := (t.foldl (Done.ring q) ([], none)).1

/-- Of the elements `es`, a part of a run from `q` to `q'` publishes `pub`: all of them exactly if guest
memory accepts them. -/
structure Publishes (mm : MemoryManager) (q q' : Queue) (es pub : List VirtqUsedElem) : Prop where
  all : q.Accepts mm es.length → pub = es ∧ q'.nextUsed = Counter.ahead q.nextUsed es.length
  accepts : pub.length = es.length → q.Accepts mm es.length

/-- The trace `t` from `q` to `q'` adds these to what was published since the queue was `q₀`. Once an element
could not be written, the next ones may be in slots that the driver has passed. -/
def Adds (mm : MemoryManager) (q q' : Queue) (es : List VirtqUsedElem) (t : List Done) : Prop :=
  ∀ q₀ s, q₀.SameConfig q → ∃ pub, t.foldl (Done.ring q₀) (s, none) = (s ++ pub, none) ∧
    pub.length ≤ es.length ∧
    (q.nextUsed = Counter.ahead q₀.nextUsed s.length → Publishes mm q q' es pub)

/-- What a part of a run from `q` to `q'` leaves: it publishes those of the elements `es` that guest memory
accepts, stores `sts` in buffers, and writes nothing outside the used ring but these. -/
structure Leaves (mm : MemoryManager) (q q' : Queue) (es : List VirtqUsedElem) (sts : List (Nat × Byte))
    (w w' : World ε) (t : List Done) : Prop where
  config : q.SameConfig q'
  ring : q.Indexed mm → Adds mm q q' es t
  stores : stores t = sts
  mem : ∀ us, mm.Backs q.usedRing (6 + 8 * q.size.toNat) us → ∀ x,
    (x < us ∨ us + (6 + 8 * q.size.toNat) ≤ x) → w'.mem x = (w.mem.put sts) x

section
variable {q q' q'' : Queue} {es es' pub pub' : List VirtqUsedElem} {sts sts' : List (Nat × Byte)}
  {w w' w'' : World ε} {t t' : List Done}

theorem Publishes.trans (hc : q.SameConfig q') (hle : pub.length ≤ es.length)
    (hle' : pub'.length ≤ es'.length) (h : Publishes mm q q' es pub)
    (h' : q'.nextUsed = Counter.ahead q.nextUsed pub.length → Publishes mm q' q'' es' pub') :
    Publishes mm q q'' (es ++ es') (pub ++ pub') := by
  constructor
  · intro hacc
    rw [List.length_append] at hacc ⊢
    have hfirst : q.Accepts mm es.length := fun i hi => hacc i (by omega)
    obtain ⟨rfl, hn⟩ := h.all hfirst
    obtain ⟨rfl, hn'⟩ := (h' hn).all ((Queue.accepts_add hc hn).mp hacc).2
    exact ⟨rfl, by rw [hn', hn, Counter.ahead_ahead]⟩
  · intro hlen
    rw [List.length_append, List.length_append] at hlen
    have hfirst := h.accepts (by omega)
    obtain ⟨rfl, hn⟩ := h.all hfirst
    rw [List.length_append, Queue.accepts_add hc hn]
    exact ⟨hfirst, (h' hn).accepts (by omega)⟩

theorem Adds.trans (hc : q.SameConfig q') (h : Adds mm q q' es t) (h' : Adds mm q' q'' es' t') :
    Adds mm q q'' (es ++ es') (t ++ t') := by
  intro q₀ s hc₀
  obtain ⟨pub, hring, hle, hpub⟩ := h q₀ s hc₀
  obtain ⟨pub', hring', hle', hpub'⟩ := h' q₀ (s ++ pub) (hc₀.trans hc)
  refine ⟨pub ++ pub', ?_, ?_, fun hn => ?_⟩
  · rw [List.foldl_append, hring, hring', List.append_assoc]
  · rw [List.length_append, List.length_append]
    omega
  · refine (hpub hn).trans hc hle hle' fun hn' => hpub' ?_
    rw [hn', hn, Counter.ahead_ahead, List.length_append]

theorem Leaves.trans (h : Leaves mm q q' es sts w w' t) (h' : Leaves mm q' q'' es' sts' w' w'' t') :
    Leaves mm q q'' (es ++ es') (sts ++ sts') w w'' (t ++ t') := by
  refine ⟨h.config.trans h'.config, fun hidx => ?_, ?_, fun us hu x hx => ?_⟩
  · exact (h.ring hidx).trans h.config (h'.ring (by rwa [Queue.Indexed, h.config.usedRing]))
  · rw [stores_append, h.stores, h'.stores]
  · have hmem' := h'.mem us
    rw [h.config.usedRing, h.config.size] at hmem'
    rw [hmem' hu x hx, Mem.put_append]
    exact Mem.scatter_congr (h.mem us hu x hx)

end

/-! ## Parts of a run -/

/-- No write to guest memory. -/
def Act.Reads : Act → Prop
  | .mem a => a.isRead
  | _ => True

theorem Act.Confined.reads {S : Nat → Prop} {a : Act} (h : a.Confined S) : a.Reads := by
  cases a with
  | mem a => exact h
  | _ => trivial

theorem Act.Inert.reads {a : Act} (h : a.Inert) : a.Reads := by
  cases a with
  | mem a => exact h
  | _ => trivial

theorem Act.Inert.stores_eq {a : Act} (h : a.Inert) : a.stores = [] := by
  cases a with
  | copyTo host bytes =>
    rw [Act.stores, show bytes = [] from h]
    rfl
  | _ => rfl

theorem Act.Confined.inert {a : Act} (h : a.Confined fun _ => False) : a.Inert := by
  cases a with
  | mem a => exact h
  | copyTo host bytes => exact List.length_eq_zero_iff.mp (Nat.eq_zero_of_not_pos fun h0 => h 0 h0)
  | _ => trivial

/-- Reading publishes nothing. -/
theorem foldl_ring_reads {q : Queue} {t : List Done} (ht : ∀ d ∈ t, d.1.Reads)
    (s : List VirtqUsedElem × Option VirtqUsedElem) : t.foldl (Done.ring q) s = s := by
  induction t with
  | nil => rfl
  | cons d t ih =>
    obtain ⟨hd, ht⟩ := List.forall_mem_cons.mp ht
    have hstep : Done.ring q s d = s := by
      rcases d with ⟨a, r⟩
      cases a with
      | mem a =>
        cases a with
        | write bytes gpa => exact hd.elim
        | store v addr => exact hd.elim
        | _ => rfl
      | _ => rfl
    rw [List.foldl_cons, hstep, ih ht]

/-- An access to guest memory is what its manager makes of it. -/
theorem world_mem {a : Access} {w w' : World ε} {r : a.Answer}
    (h : mm.world ck env (.mem a) w = some (r, w')) : mm.handler ck a w.mem = some (r, w'.mem) := by
  obtain ⟨⟨r', m'⟩, hh, he⟩ := Option.map_eq_some_iff.mp h
  obtain ⟨rfl, rfl⟩ := Prod.mk.inj he
  exact hh

theorem mem_of_inert {a : Act} {w w' : World ε} {r : a.Answer} (ha : a.Inert)
    (he : mm.world false env a w = some (r, w')) : w'.mem = w.mem := by
  cases a with
  | mem a => exact handler_isRead ha (world_mem he)
  | copyTo host bytes =>
    obtain ⟨-, rfl⟩ := Prod.mk.inj (Option.some.inj he)
    obtain rfl : bytes = [] := ha
    exact funext fun x => Mem.write_apply (by rw [List.length_nil]; omega)
  | _ =>
    obtain ⟨-, rfl⟩ := Prod.mk.inj (Option.some.inj he)
    rfl

section
variable {α : Type} {q q' : Queue}

theorem Publishes.nil (hn : q'.nextUsed = q.nextUsed) : Publishes mm q q' [] [] :=
  ⟨fun _ => ⟨rfl, hn.trans (Counter.ahead_zero _).symm⟩, fun _ => q.accepts_zero⟩

theorem Adds.of_reads {t : List Done} (hn : q'.nextUsed = q.nextUsed) (ht : ∀ d ∈ t, d.1.Reads) :
    Adds mm q q' [] t :=
  fun _ _ _ => ⟨[], by rw [foldl_ring_reads ht, List.append_nil], Nat.le_refl 0, fun _ => .nil hn⟩

theorem Leaves.of_inert {w w' : World ε} {t : List Done} (hc : q.SameConfig q')
    (hn : q'.nextUsed = q.nextUsed) (ht : ∀ d ∈ t, d.1.Inert) (hm : w'.mem = w.mem) :
    Leaves mm q q' [] [] w w' t := by
  refine ⟨hc, fun _ => .of_reads hn fun d hd => (ht d hd).reads,
    List.flatMap_eq_nil_iff.mpr fun d hd => (ht d hd).stores_eq, fun us _ x _ => ?_⟩
  rw [hm]
  rfl

/-- A run whose actions are inert leaves nothing. -/
theorem leaves_inert {p : WProg α} {w w' : World ε} {x : α}
    (hr : Prog.run (mm.world false env) p w = some (x, w'))
    (ht : ∀ d ∈ Prog.trace (mm.world false env) p w, d.1.Inert) (hc : q.SameConfig q')
    (hn : q'.nextUsed = q.nextUsed) :
    Leaves mm q q' [] [] w w' (Prog.trace (mm.world false env) p w) := by
  have hmem : Prog.Runs (mm.world false env) (fun _ w' t => (∀ d ∈ t, d.1.Inert) → w'.mem = w.mem) p w := by
    clear hr ht
    induction p generalizing w with
    | pure x => exact .pure fun _ => rfl
    | panic => exact fun _ _ hr => by cases hr
    | access a k ih =>
      refine .access fun r w₁ he => (ih r).mono fun _ _ _ h ht => ?_
      obtain ⟨ha, ht⟩ := List.forall_mem_cons.mp ht
      exact (h ht).trans (mem_of_inert ha he)
  exact .of_inert hc hn ht (hmem x w' hr ht)

/-- Bytes for which there is room are stored at the next addresses. -/
theorem leaves_writeAll (q : Queue) {wr : Writer} (hb : wr.Bounded) {bytes : List Byte}
    (hle : bytes.length ≤ wr.availableBytes) (w : World ε) :
    Prog.Runs (mm.world false env) (fun r w' t => r.1 = .ok () ∧ Leaves mm q q [] (wr.addrs.zip bytes) w w' t)
      (wr.writeAll bytes) w := by
  intro r w' hr
  have hconf := (Prog.Always.runs (Writer.calm_writeAll (within_true wr.buffer.buffers) bytes) w r w' hr).2
  have hst := Writer.stores_writeAll false mm env hb bytes w
  obtain ⟨y, wr', hr', -, hy⟩ := Writer.run_writeAll false mm env hb bytes w
  obtain rfl := hy.mpr hle
  obtain ⟨rfl, rfl⟩ := Prod.mk.inj (Option.some.inj (hr'.symm.trans hr))
  refine ⟨rfl, .refl q, fun _ => .of_reads rfl fun d hd => (hconf d hd).reads, hst,
    fun us _ x _ => ?_⟩
  rw [Mem.put_zip]

/-- Returning a chain writes to the used ring only. -/
theorem mem_addUsed {i : BitVec 16} {len us : Nat} {w w' : World ε}
    (hr : Prog.run (mm.world false env) (addUsed q i len) w = some (q', w'))
    (hu : mm.Backs q.usedRing (6 + 8 * q.size.toNat) us) {x : Nat}
    (hx : x < us ∨ us + (6 + 8 * q.size.toNat) ≤ x) : w'.mem x = w.mem x := by
  obtain ⟨⟨r, w₁⟩, hlift, he⟩ := Option.bind_eq_some_iff.mp ((Prog.run_bind (lift _) _ _).symm.trans hr)
  obtain ⟨-, rfl⟩ := Prod.mk.inj (Option.some.inj he)
  rw [run_lift] at hlift
  obtain ⟨⟨r', m'⟩, hadd, he'⟩ := Option.map_eq_some_iff.mp hlift
  obtain ⟨-, rfl⟩ := Prod.mk.inj he'
  exact Queue.run_addUsed_frame hu hadd hx

theorem write_ok_iff {bs : List Byte} {addr : GuestAddress} {m m' : Mem} {r : Except MemoryError Unit}
    (hr : mm.handler false (.write bs addr) m = some (r, m')) :
    r = .ok () ↔ ∃ h, mm.locate false addr bs.length MemoryPerms.write .readOnly = some (.ok h) := by
  obtain ⟨x, hx, he⟩ := Option.map_eq_some_iff.mp hr
  rw [hx]
  cases x with
  | error e =>
    obtain ⟨rfl, -⟩ := Prod.mk.inj he
    simp
  | ok h =>
    obtain ⟨rfl, -⟩ := Prod.mk.inj he
    simp

theorem store_ok_iff {v : BitVec 16} {addr : GuestAddress} {m : Mem} :
    (mm.store v addr m).1 = .ok () ↔ ∃ h, mm.locateAtomic addr MemoryPerms.write .readOnly = .ok h := by
  unfold MemoryManager.store
  cases mm.locateAtomic addr MemoryPerms.write .readOnly <;> simp

theorem Done.ring_store (q : Queue) (v : BitVec 16) (s : List VirtqUsedElem) (x : Option VirtqUsedElem) :
    Done.ring q (s, x) ⟨.mem (.store v (q.usedRing + 2)), .ok ()⟩ = (s ++ x.toList, none) := by
  simp [Done.ring, Done.publishes]

theorem Done.ring_write (q : Queue) (e : VirtqUsedElem) (addr : GuestAddress) (s : List VirtqUsedElem) :
    Done.ring q (s, none) ⟨.mem (.write (AsBytes.bytes e) addr), .ok ()⟩ =
      (s, if (q.later s.length).usedElemAddr = some addr then some e else none) := by
  simp only [Done.ring, VirtqUsedElem.ofBytes_bytes]
  split <;> rfl

/-- An element and the index after it. -/
theorem adds_one {addr : GuestAddress} (ha : q.usedElemAddr = some addr) {r : Except MemoryError Unit}
    (hacc : r = .ok () ↔ q.Accepts mm 1) (e : VirtqUsedElem) (v : BitVec 16) :
    Adds mm q q.counted [e] [⟨.mem (.write (AsBytes.bytes e) addr), r⟩,
      ⟨.mem (.store v (q.usedRing + 2)), .ok ()⟩] := by
  intro q₀ s hc
  rw [hc.usedRing, List.foldl_cons, List.foldl_cons, List.foldl_nil]
  cases r with
  | error err =>
    have hno : ¬ q.Accepts mm 1 := fun h => by cases hacc.mpr h
    exact ⟨[], Done.ring_store q₀ v s none, Nat.zero_le 1,
      fun _ => ⟨fun h => absurd h hno, fun h => by cases h⟩⟩
  | ok u =>
    rw [show u = () from rfl, Done.ring_write, Done.ring_store]
    refine ⟨_, rfl, ?_, fun hn => ?_⟩
    · split
      · exact Nat.le_refl 1
      · exact Nat.zero_le 1
    · have hslot : (q₀.later s.length).usedElemAddr = some addr := by
        rw [← ha]
        exact Queue.usedElemAddr_congr (hc.symm.trans (q₀.sameConfig_later _)) hn.symm
      rw [if_pos hslot]
      exact ⟨fun _ => ⟨rfl, rfl⟩, fun _ => hacc.mp rfl⟩

/-- Returning a chain publishes one element, if guest memory accepts it. -/
theorem publishes_one {i : BitVec 16} (hi : i < q.size) (len : BitVec 32) (w : World ε) :
    Prog.Runs (mm.world false env) (fun r _ t => q.SameConfig r.2 ∧ stores t = [] ∧
      (q.Indexed mm → Adds mm q r.2 [⟨i.setWidth 32, len⟩] t)) (lift (q.addUsed i len)) w := by
  unfold Queue.addUsed
  rw [if_neg (BitVec.not_le.mpr hi)]
  dsimp only
  split
  · rename_i hnone
    have hno : ¬ q.Accepts mm 1 := fun h => by
      obtain ⟨⟨_, addr, ha, -⟩, -⟩ := Queue.accepts_one.mp h
      cases hnone.symm.trans ha
    refine .pure ⟨.refl q, rfl, fun _ q₀ s _ => ⟨[], ?_, Nat.zero_le 1, fun _ => ⟨fun h => absurd h hno, ?_⟩⟩⟩
    · rw [List.append_nil]
      rfl
    · exact fun h => by cases h
  · rename_i addr ha
    obtain ⟨iaddr, hia⟩ := Queue.exists_indexAddr ha
    refine .access fun r w₁ h₁ => ?_
    show Prog.Runs _ _ (lift q.publishUsed) w₁
    simp only [Queue.publishUsed, hia]
    refine .access fun r₂ w₂ h₂ => .pure ⟨⟨rfl, rfl, rfl, rfl, rfl, rfl, rfl⟩, rfl, fun hidx => ?_⟩
    obtain rfl : iaddr = q.usedRing + 2 := (checkedAdd_eq_some.mp hia).2
    obtain rfl : r₂ = .ok () := (Prod.mk.inj (Option.some.inj h₂)).1.symm.trans (store_ok_iff.mpr hidx)
    have hlen : (AsBytes.bytes (⟨i.setWidth 32, len⟩ : VirtqUsedElem)).length = 8 := by simp [AsBytes.bytes]
    have hindex : ∃ h, q.IndexAt mm h := hidx.imp fun h hl => ⟨_, hia, hl⟩
    refine adds_one ha ?_ ⟨i.setWidth 32, len⟩ _
    rw [write_ok_iff (world_mem h₁), hlen, Queue.accepts_one, and_iff_left hindex]
    refine exists_congr fun h => ⟨fun hl => ⟨addr, ha, hl⟩, ?_⟩
    rintro ⟨addr', ha', hl⟩
    obtain rfl := Option.some.inj (ha.symm.trans ha')
    exact hl

theorem leaves_addUsed {i : BitVec 16} (hi : i < q.size) (len : Nat) (w : World ε) :
    Prog.Runs (mm.world false env) (fun q' w' t =>
      Leaves mm q q' [⟨i.setWidth 32, BitVec.ofNat 32 len⟩] [] w w' t) (addUsed q i len) w := by
  intro q' w' hr
  have hruns : Prog.Runs (mm.world false env) (fun q' _ t => q.SameConfig q' ∧ stores t = [] ∧
      (q.Indexed mm → Adds mm q q' [⟨i.setWidth 32, BitVec.ofNat 32 len⟩] t)) (addUsed q i len) w := by
    refine .access fun r w₁ _ => ?_
    show Prog.Runs _ _ (lift (q.addUsed i (BitVec.ofNat 32 len)) >>= fun r => pure r.2) w₁
    refine .bind ((publishes_one hi _ w₁).mono fun x w₂ t h => .pure ?_)
    rw [List.append_nil]
    exact h
  obtain ⟨hc, hst, hring⟩ := hruns q' w' hr
  exact ⟨hc, hring, hst, fun us hu x hx => mem_addUsed hr hu hx⟩

end

/-! ## A whole run -/

section
variable {α : Type} {q q' : Queue}

/-- Without an index that can be stored, nothing is published. -/
theorem not_publishes_of_not_indexed (hno : ¬ q.Indexed mm) (p : WProg α) (w : World ε) :
    Prog.Runs (mm.world false env) (fun _ _ t => ∀ d ∈ t, Done.publishes q.usedRing d = false) p w := by
  induction p generalizing w with
  | pure x => exact .pure (List.forall_mem_nil _)
  | panic => exact fun _ _ hr => by cases hr
  | access a k ih =>
    refine .access fun r w₁ he => (ih r w₁).mono fun _ _ _ h => List.forall_mem_cons.mpr ⟨?_, h⟩
    by_contra hpub
    rcases a with a | _ | _ | _
    · cases a with
      | store v addr =>
        rcases r with e | u
        · exact hpub rfl
        · obtain rfl : addr = q.usedRing + 2 := of_decide_eq_true (Bool.not_eq_false _ ▸ hpub)
          exact hno (store_ok_iff.mp (Prod.mk.inj (Option.some.inj (world_mem he))).1)
      | _ => exact hpub rfl
    all_goals exact hpub rfl

theorem fst_foldl_ring {t : List Done} (ht : ∀ d ∈ t, Done.publishes q.usedRing d = false)
    (s : List VirtqUsedElem × Option VirtqUsedElem) : (t.foldl (Done.ring q) s).1 = s.1 := by
  induction t generalizing s with
  | nil => rfl
  | cons d t ih =>
    obtain ⟨hd, ht⟩ := List.forall_mem_cons.mp ht
    rw [List.foldl_cons, ih ht]
    unfold Done.ring
    split
    · split <;> rfl
    · rw [if_neg (by rw [hd]; exact Bool.false_ne_true)]

/-- Of the elements that a run leaves, all are published exactly if guest memory accepts them. -/
theorem published_spec {p : WProg α} {w w' : World ε} {x : α} {es : List VirtqUsedElem}
    {sts : List (Nat × Byte)} (hr : Prog.run (mm.world false env) p w = some (x, w'))
    (hl : Leaves mm q q' es sts w w' (Prog.trace (mm.world false env) p w)) :
    ((published q (Prog.trace (mm.world false env) p w)).length = es.length → q.Accepts mm es.length) ∧
    (q.Accepts mm es.length → published q (Prog.trace (mm.world false env) p w) = es) := by
  by_cases hidx : q.Indexed mm
  · obtain ⟨pub, hring, -, hpub⟩ := hl.ring hidx q [] (.refl q)
    have heq : published q (Prog.trace (mm.world false env) p w) = pub := congrArg Prod.fst hring
    obtain ⟨hall, haccepts⟩ := hpub (Counter.ahead_zero _).symm
    rw [heq]
    exact ⟨haccepts, fun h => (hall h).1⟩
  · have heq : published q (Prog.trace (mm.world false env) p w) = [] :=
      fst_foldl_ring (not_publishes_of_not_indexed hidx p w x w' hr) ([], none)
    rw [heq]
    cases es with
    | nil => exact ⟨fun _ => q.accepts_zero, fun _ => rfl⟩
    | cons e es =>
      refine ⟨(fun h => by cases h), fun h => absurd ?_ hidx⟩
      obtain ⟨-, hi, addr, ha, hloc⟩ := h 0 (Nat.succ_pos _)
      obtain ⟨-, rfl⟩ := checkedAdd_eq_some.mp ha
      exact ⟨hi, hloc⟩

end

end Whypa
