import Whypa.Framework.Counter
import Whypa.Virtio.Served

/-!
# The heads a worker has yet to pop

The heads that are pending in the available ring (`pending`, `headAt`), and
which of them `pop` accepts (`accepted`). Memory that `Awaits` has the same of
them as at the start. `At` follows them while a worker pops one after another and
nothing it writes reaches the available ring or the descriptor table, so that
the rest stays as it was.
-/

namespace Whypa

open Framework WProg

variable {mm : MemoryManager} {q : Queue} {dt av us : Nat} {m m' : Mem}

/-! ## Memory that the worker leaves alone -/

namespace Queue

/-- The rings and the descriptor table are mapped, from `av`, `us` and `dt` in the host's memory;
they may overlap. A device offers at most 1024 entries. -/
structure Placed (q : Queue) (mm : MemoryManager) (dt av us : Nat) : Prop where
  desc : q.descTable.toNat + 16 * q.size.toNat < 2 ^ 64
  table : mm.Backs q.descTable (16 * q.size.toNat) dt
  avail : mm.Backs q.availRing (6 + 2 * q.size.toNat) av
  used : mm.Backs q.usedRing (6 + 8 * q.size.toNat) us
  max_le : q.maxSize.toNat ≤ 1024

theorem Placed.config {q' : Queue} (hM : q.Placed mm dt av us) (hc : q.SameConfig q') :
    q'.Placed mm dt av us := by
  obtain ⟨hd, ht, ha, hu, hm⟩ := hM
  rw [← hc.descTable, ← hc.size] at hd ht
  rw [← hc.availRing, ← hc.size] at ha
  rw [← hc.usedRing, ← hc.size] at hu
  rw [← hc.maxSize] at hm
  exact ⟨hd, ht, ha, hu, hm⟩

/-- The rings and the descriptor table are mapped, from `av`, `us` and `dt` in the
host's memory, and the device's own writes to the used ring do not overlap the
others. A device offers at most 1024 entries. -/
structure Layout (q : Queue) (mm : MemoryManager) (dt av us : Nat) : Prop where
  rings : q.Rings mm av us
  table : mm.Backs q.descTable (16 * q.size.toNat) dt
  tableUsed : dt + 16 * q.size.toNat ≤ us ∨ us + (6 + 8 * q.size.toNat) ≤ dt
  max_le : q.maxSize.toNat ≤ 1024

theorem Layout.placed (hL : q.Layout mm dt av us) : q.Placed mm dt av us :=
  ⟨hL.rings.desc, hL.table, hL.rings.avail, hL.rings.used, hL.max_le⟩

/-- The available ring and the descriptor table are the same. -/
structure Steady (q : Queue) (dt av : Nat) (m m' : Mem) : Prop where
  table : m.SameOn m' dt (16 * q.size.toNat)
  avail : m.SameOn m' av (6 + 2 * q.size.toNat)

theorem Steady.refl (q : Queue) (dt av : Nat) (m : Mem) : q.Steady dt av m m :=
  ⟨.refl _ _ _, .refl _ _ _⟩

theorem Steady.trans {m'' : Mem} (h : q.Steady dt av m m') (h' : q.Steady dt av m' m'') :
    q.Steady dt av m m'' :=
  ⟨h.table.trans h'.table, h.avail.trans h'.avail⟩

theorem actualSize_le (q : Queue) : q.actualSize.toNat ≤ q.size.toNat := by
  unfold actualSize
  split
  · exact Nat.le_refl _
  · rename_i h
    exact (BitVec.lt_def.mp (BitVec.not_le.mp h)).le

theorem actualSize_le_max (q : Queue) : q.actualSize.toNat ≤ q.maxSize.toNat := by
  unfold actualSize
  split
  · rename_i h
    exact BitVec.le_def.mp h
  · exact Nat.le_refl _

end Queue

/-- Where a read in a mapped range goes to. -/
theorem locate_backs {ck : Bool} {gpa : GuestAddress} {len h h' n : Nat}
    {allowed : MemoryPerms → Bool} {denied : MemoryError} (hb : mm.Backs gpa len h) (hl : 0 < len)
    (he : mm.locate ck gpa n allowed denied = some (.ok h')) : h' = h := by
  obtain ⟨r, hpa, -, -, hp, hh, -, hfind⟩ := hb
  have hf := hfind gpa (Nat.le_refl _) (by omega)
  have hc := MemoryManager.findRegion_contains hf
  obtain ⟨r', hpa', -, hf', -, -, -, hp', rfl⟩ := MemoryManager.locate_eq_ok.mp he
  rw [hf] at hf'
  obtain rfl := Option.some.inj hf'
  rw [hp] at hp'
  obtain rfl := Option.some.inj hp'
  unfold MemoryManager.hostAddr
  omega

/-- A read that does not run over the end of the address space is the same in
either build. -/
theorem readGuestMemory_checked (ck : Bool) (mm : MemoryManager) (gpa : GuestAddress) {n : Nat}
    (hn : gpa.toNat + n < 2 ^ 64) (m : Mem) :
    mm.readGuestMemory ck gpa n m = mm.readGuestMemory false gpa n m := by
  have hn' : gpa.toNat + (BitVec.ofNat 64 n).toNat < 2 ^ 64 := by
    rw [BitVec.toNat_ofNat, Nat.mod_eq_of_lt (by omega)]
    exact hn
  simp only [MemoryManager.readGuestMemory, MemoryManager.locate, plainAdd_of_lt _ hn']

theorem read_congr_backs (ck : Bool) {gpa : GuestAddress} {h n : Nat} (hb : mm.Backs gpa n h)
    (hn : 0 < n) (hs : m.SameOn m' h n) :
    mm.readGuestMemory ck gpa n m' = mm.readGuestMemory ck gpa n m := by
  unfold MemoryManager.readGuestMemory
  cases hl : mm.locate ck gpa n MemoryPerms.read .notReadable with
  | none => rfl
  | some x =>
    cases x with
    | error e => rfl
    | ok h' =>
      obtain rfl := locate_backs hb hn hl
      simp only [Option.map_some, Mem.read_congr hs]

namespace DescriptorChain

/-- `checkedNew` looks at the descriptor table only. -/
theorem run_checkedNew_congr (hL : q.Layout mm dt av us) (hs : q.Steady dt av m m')
    (i : BitVec 16) :
    (Prog.run (mm.handler false) (checkedNew q.descTable q.actualSize i) m').map Prod.fst =
      (Prog.run (mm.handler false) (checkedNew q.descTable q.actualSize i) m).map Prod.fst := by
  unfold checkedNew
  split
  · rfl
  rename_i hi
  have hi := BitVec.lt_def.mp (BitVec.not_le.mp hi)
  have hle := q.actualSize_le
  have ho := toNat_tableOffset i
  have ha := hL.table.toNat_add (o := i.setWidth 64 * 16) (by omega)
  have hb := hL.table.sub (n := 16) ha (by omega)
  rw [hL.table.checkedAdd (by omega)]
  have hr := read_congr_backs false hb (by decide) (hs.table.sub (by omega) (by omega))
  simp only [readObj, VProg.read, FromBytes.size, Prog.access_bind, Prog.run_access,
    MemoryManager.handler, hr]
  cases mm.readGuestMemory false (q.descTable + i.setWidth 64 * 16) 16 m with
  | none => rfl
  | some r => cases r <;> rfl

/-- What follows `c` depends on the descriptor table only. -/
theorem next?_congr (hL : q.Layout mm dt av us) (hs : q.Steady dt av m m') {c : DescriptorChain}
    (hc : OfTable q.descTable q.actualSize c) : c.next? mm m' = c.next? mm m := by
  unfold next? nextDescriptor
  split
  · have h := run_checkedNew_congr hL hs c.next
    rw [hc.1, hc.2, Prog.run_bind, Prog.run_bind]
    obtain ⟨x, hx, -⟩ := run_isRead (always_checkedNew_unchecked mm q.descTable q.actualSize c.next) m
    obtain ⟨y, hy, -⟩ := run_isRead (always_checkedNew_unchecked mm q.descTable q.actualSize c.next) m'
    rw [hx, hy] at h
    obtain rfl : y = x := Option.some.inj h
    rw [hx, hy]
    rfl
  · rfl

theorem chainFrom_congr (hL : q.Layout mm dt av us) (hs : q.Steady dt av m m') (n : Nat)
    {c : DescriptorChain} (hc : OfTable q.descTable q.actualSize c) :
    c.chainFrom mm m' n = c.chainFrom mm m n := by
  induction n generalizing c with
  | zero => rfl
  | succ n ih =>
    have hd := (run_nextDescriptor mm c m).2
    unfold chainFrom
    rw [next?_congr hL hs hc]
    cases e : c.next? mm m with
    | none => rfl
    | some d =>
      have hdt := hd d e
      rw [hc.1, hc.2] at hdt
      simp only [ih hdt]

theorem writable_congr (hL : q.Layout mm dt av us) (hs : q.Steady dt av m m') {c : DescriptorChain}
    (hc : OfTable q.descTable q.actualSize c) : c.writable mm m' = c.writable mm m := by
  rw [writable, writable, chain, chain, chainFrom_congr hL hs _ hc]

theorem inBuffers_congr (hL : q.Layout mm dt av us) (hs : q.Steady dt av m m') {c : DescriptorChain}
    (hc : OfTable q.descTable q.actualSize c) : c.InBuffers mm m' = c.InBuffers mm m := by
  unfold InBuffers
  rw [writable_congr hL hs hc]

end DescriptorChain

/-! ## The heads that are pending -/

namespace Queue

/-- The chain that starts at entry `i`, if `pop` accepts it. -/
def headChain (q : Queue) (mm : MemoryManager) (m : Mem) (i : BitVec 16) : Option DescriptorChain :=
  (Prog.run (mm.handler false) (DescriptorChain.checkedNew q.descTable q.actualSize i) m).bind
    Prod.fst

/-- The number of heads in the available ring that are yet to be popped. -/
def pending (q : Queue) (av : Nat) (m : Mem) : Nat := (m.word (av + 2) 16 - q.nextAvail).toNat

/-- The head of index `k` among those. -/
def headAt (q : Queue) (av : Nat) (m : Mem) (k : Nat) : BitVec 16 :=
  m.word (av + (4 + 2 * ((Counter.ahead q.nextAvail k).toNat % q.actualSize.toNat))) 16

theorem run_headChain (mm : MemoryManager) (q : Queue) (m : Mem) (i : BitVec 16) :
    Prog.run (mm.handler false) (DescriptorChain.checkedNew q.descTable q.actualSize i) m =
      some (q.headChain mm m i, m) ∧
    ∀ c ∈ q.headChain mm m i, DescriptorChain.OfTable q.descTable q.actualSize c := by
  obtain ⟨x, hr, hx⟩ := run_isRead
    (DescriptorChain.always_checkedNew_unchecked mm q.descTable q.actualSize i) m
  rw [headChain, hr]
  exact ⟨rfl, hx⟩

theorem headChain_congr (hL : q.Layout mm dt av us) (hs : q.Steady dt av m m') (i : BitVec 16) :
    q.headChain mm m' i = q.headChain mm m i := by
  have h := DescriptorChain.run_checkedNew_congr hL hs i
  rw [(run_headChain mm q m' i).1, (run_headChain mm q m i).1] at h
  exact Option.some.inj h

theorem headChain_config {q' : Queue} (hc : q.SameConfig q') (i : BitVec 16) :
    q'.headChain mm m i = q.headChain mm m i := by
  unfold headChain
  rw [hc.descTable, hc.actualSize]

/-- `pop` accepts the heads that are valid. -/
theorem validHead_iff {ck : Bool} (hM : q.Placed mm dt av us) (i : BitVec 16) :
    validHead ck mm q m i = (q.headChain mm m i).isSome := by
  unfold validHead headChain DescriptorChain.checkedNew
  by_cases hi : i < q.actualSize
  · have hlt := BitVec.lt_def.mp hi
    have hle := q.actualSize_le
    have hend := hM.desc
    have ho := DescriptorChain.toNat_tableOffset i
    have hadd := hM.table.toNat_add (o := i.setWidth 64 * 16) (by omega)
    rw [if_neg (BitVec.not_le.mpr hi), hM.table.checkedAdd (by omega)]
    have hr := readGuestMemory_checked ck mm (q.descTable + i.setWidth 64 * 16) (n := 16)
      (by rw [hadd, ho]; omega) m
    simp only [hi, decide_true, Bool.true_and, hr, readObj, VProg.read, FromBytes.size,
      Prog.access_bind, Prog.run_access, MemoryManager.handler]
    cases mm.readGuestMemory false (q.descTable + i.setWidth 64 * 16) 16 m with
    | none => rfl
    | some r =>
      cases r with
      | error e => rfl
      | ok bs =>
        simp only [Option.map_some, Option.bind_some, Except.map, Prog.pure_bind', Prog.pure_eq,
          Prog.run_pure]
        split
        · rename_i h
          rw [h]
          rfl
        · rename_i h
          simpa using h
  · rw [if_pos (BitVec.not_lt.mp hi), decide_eq_false hi]
    rfl

theorem headChain_of_zero (h0 : q.actualSize = 0) (i : BitVec 16) : q.headChain mm m i = none := by
  have hle : q.actualSize ≤ i := by
    rw [h0]
    exact BitVec.le_def.mpr (Nat.zero_le _)
  rw [headChain, DescriptorChain.checkedNew, if_pos hle]
  rfl

theorem run_popChain (q : Queue) (m : Mem) (i : BitVec 16) :
    Prog.run (mm.handler false) (q.popChain i) m = some ((q.headChain mm m i,
      if (q.headChain mm m i).isSome then { q with nextAvail := q.nextAvail + 1 } else q), m) := by
  rw [popChain, Prog.run_bind, (run_headChain mm q m i).1]
  rfl

/-- `pop` takes the first of the pending heads, if it accepts it. -/
theorem run_pop (hM : q.Placed mm dt av us) (m : Mem) :
    ∃ o, o = (if q.pending av m = 0 then none else q.headChain mm m (q.headAt av m 0)) ∧
      Prog.run (mm.handler false) q.pop m =
        some ((o, if o.isSome then { q with nextAvail := q.nextAvail + 1 } else q), m) := by
  refine ⟨_, rfl, ?_⟩
  have hb := hM.avail
  rw [Prog.run_of_next (next_pop hb)]
  by_cases hz : m.word (av + 2) 16 - q.nextAvail = 0
  · have hp : q.pending av m = 0 := by rw [pending, hz]; rfl
    rw [hz, popHead_zero, if_pos hp]
    rfl
  have hp : q.pending av m ≠ 0 := fun h => hz (BitVec.eq_of_toNat_eq h)
  rw [if_neg hp]
  by_cases h0 : q.actualSize = 0
  · rw [headChain_of_zero h0, popHead, if_pos (.inr h0)]
    rfl
  have hpos : 0 < q.actualSize.toNat := Nat.pos_of_ne_zero fun h => h0 (BitVec.eq_of_toNat_eq h)
  have hsz := q.actualSize_le
  have hend := hb.end_le
  obtain ⟨o, ho, e⟩ := popHead_eq hz hpos (q.actualSize_le_max.trans hM.max_le) (by omega)
  have hlt := Nat.mod_lt q.nextAvail.toNat hpos
  have hr := (hb.sub (n := 3) (hb.toNat_add (o := o) (by omega)) (by omega)).read false
    (show 2 < 3 by decide) m
  have hat : q.headAt av m 0 = m.word (av + o.toNat) 16 := by
    rw [headAt, Counter.ahead_zero, ho]
  rw [e, hat, Prog.run_access, hr, Option.bind_some]
  exact run_popChain q m _

theorem Layout.config {q' : Queue} (hL : q.Layout mm dt av us) (hc : q.SameConfig q') :
    q'.Layout mm dt av us := by
  obtain ⟨hr, ht, hu, hm⟩ := hL
  refine ⟨hr.config hc, ?_, ?_, ?_⟩
  · rw [hc.descTable, hc.size]
    exact ht
  · rw [hc.size]
    exact hu
  · rw [hc.maxSize]
    exact hm

/-- `q` is the queue `q₀` after `k` of the heads pending in the memory `m₀` were
popped, and `m` still has the rest. -/
structure At (q₀ : Queue) (dt av : Nat) (m₀ : Mem) (k : Nat) (q : Queue) (m : Mem) : Prop where
  config : q₀.SameConfig q
  nextAvail : q.nextAvail = Counter.ahead q₀.nextAvail k
  steady : q₀.Steady dt av m₀ m
  le : k ≤ q₀.pending av m₀

/-- The chain of the pending head of index `k`, if `pop` accepts it. -/
def accepted (q : Queue) (mm : MemoryManager) (av : Nat) (m : Mem) (k : Nat) :
    Option DescriptorChain := q.headChain mm m (q.headAt av m k)

/-- The driver's index in `m'` is that in `m`, and so are the chains that `pop` finds at the heads
that are pending. -/
structure Awaits (q : Queue) (mm : MemoryManager) (av : Nat) (m m' : Mem) : Prop where
  idx : m'.word (av + 2) 16 = m.word (av + 2) 16
  accepted : ∀ k < q.pending av m, q.accepted mm av m' k = q.accepted mm av m k

/-- The chains of at most `n` pending heads from index `k`, up to the first one that
is not accepted. -/
def acceptedFrom (q : Queue) (mm : MemoryManager) (av : Nat) (m : Mem) :
    Nat → Nat → List DescriptorChain
  | 0, _ => []
  | n + 1, k =>
    match q.accepted mm av m k with
    | none => []
    | some c => c :: acceptedFrom q mm av m n (k + 1)

/-- The chains that the driver has submitted, in order. -/
def submitted (q : Queue) (mm : MemoryManager) (av : Nat) (m : Mem) : List DescriptorChain :=
  q.acceptedFrom mm av m (q.pending av m) 0

section
variable {q₀ : Queue} {m₀ : Mem} {k : Nat}

/-- The next head, if it is accepted, is the first of the rest. -/
theorem acceptedFrom_of_accepted (hk : k < q₀.pending av m₀) {c : DescriptorChain}
    (hc : c ∈ q₀.accepted mm av m₀ k) : q₀.acceptedFrom mm av m₀ (q₀.pending av m₀ - k) k =
      c :: q₀.acceptedFrom mm av m₀ (q₀.pending av m₀ - (k + 1)) (k + 1) := by
  rw [show q₀.pending av m₀ - k = (q₀.pending av m₀ - (k + 1)) + 1 by omega, Queue.acceptedFrom,
    show q₀.accepted mm av m₀ k = some c from hc]

theorem acceptedFrom_of_stop (h : k = q₀.pending av m₀ ∨ q₀.accepted mm av m₀ k = none) :
    q₀.acceptedFrom mm av m₀ (q₀.pending av m₀ - k) k = [] := by
  rcases h with rfl | h
  · rw [Nat.sub_self]
    rfl
  · cases q₀.pending av m₀ - k with
    | zero => rfl
    | succ n =>
      rw [Queue.acceptedFrom, h]

/-- The pending heads after the first `k`, in memory with the same index. -/
theorem pending_ahead (hn : q.nextAvail = Counter.ahead q₀.nextAvail k)
    (hi : m.word (av + 2) 16 = m₀.word (av + 2) 16) (hle : k ≤ q₀.pending av m₀) :
    q.pending av m = q₀.pending av m₀ - k := by
  have hle : k ≤ (m₀.word (av + 2) 16 - q₀.nextAvail).toNat := hle
  unfold Queue.pending
  rw [hi, hn, Counter.ahead]
  generalize m₀.word (av + 2) 16 = idx at hle ⊢
  generalize q₀.nextAvail = n at hle ⊢
  bv_omega

theorem accepted_ahead (hc : q₀.SameConfig q) (hn : q.nextAvail = Counter.ahead q₀.nextAvail k) :
    q.accepted mm av m 0 = q₀.accepted mm av m k := by
  unfold Queue.accepted
  rw [headChain_config hc]
  unfold headAt
  rw [hn, hc.actualSize, Counter.ahead_zero]

/-- The heads are those of the memory before. -/
theorem Steady.accepted (hL : q.Layout mm dt av us) (hs : q.Steady dt av m m') (k : Nat) :
    q.accepted mm av m' k = q.accepted mm av m k := by
  unfold Queue.accepted
  rw [headChain_congr hL hs]
  by_cases h0 : q.actualSize = 0
  · rw [headChain_of_zero h0, headChain_of_zero h0]
  have hpos : 0 < q.actualSize.toNat := Nat.pos_of_ne_zero fun h => h0 (BitVec.eq_of_toNat_eq h)
  have hsz := q.actualSize_le
  have hlt := Nat.mod_lt (Counter.ahead q.nextAvail k).toNat hpos
  have hat : q.headAt av m' k = q.headAt av m k :=
    Mem.word_congr (hs.avail.sub (by omega) (by omega))
  rw [hat]

theorem Steady.awaits (hL : q.Layout mm dt av us) (hs : q.Steady dt av m m') : q.Awaits mm av m m' :=
  ⟨Mem.word_congr (hs.avail.sub (by omega) (by omega)), fun k _ => hs.accepted hL k⟩

theorem At.pending (h : q₀.At dt av m₀ k q m) : q.pending av m = q₀.pending av m₀ - k :=
  pending_ahead h.nextAvail (Mem.word_congr (h.steady.avail.sub (by omega) (by omega))) h.le

theorem At.accepted (hL : q₀.Layout mm dt av us) (h : q₀.At dt av m₀ k q m) :
    q.accepted mm av m 0 = q₀.accepted mm av m₀ k :=
  (accepted_ahead h.config h.nextAvail).trans (h.steady.accepted hL k)

/-- The same memory, and a queue with the same position. -/
theorem At.same {q' : Queue} {m' : Mem} (h : q₀.At dt av m₀ k q m) (hc : q.SameConfig q')
    (hn : q'.nextAvail = q.nextAvail) (hs : q₀.Steady dt av m m') : q₀.At dt av m₀ k q' m' :=
  ⟨h.config.trans hc, hn.trans h.nextAvail, h.steady.trans hs, h.le⟩

theorem At.pop (h : q₀.At dt av m₀ k q m) (hk : k < q₀.pending av m₀) :
    q₀.At dt av m₀ (k + 1) { q with nextAvail := q.nextAvail + 1 } m := by
  refine ⟨h.config.trans ⟨rfl, rfl, rfl, rfl, rfl, rfl, rfl⟩, ?_, h.steady, hk⟩
  rw [← Counter.ahead_succ, ← h.nextAvail]
  rfl

/-- A write to the used ring leaves the rest of the heads. -/
theorem steady_of_used (hL : q.Layout mm dt av us)
    (h : ∀ x, x < us ∨ us + (6 + 8 * q.size.toNat) ≤ x → m' x = m x) : q.Steady dt av m m' := by
  have hu := hL.tableUsed
  have hd := hL.rings.disjoint
  exact ⟨fun i hi => h _ (by omega), fun i hi => h _ (by omega)⟩

end

end Queue

end Whypa
