import Whypa.Framework.Related
import Whypa.Virtio.Accounts

/-!
# Where the workers access the host's memory

The addresses and indices that a worker uses come from the guest. `Act.Tame` says of one of its
accesses that it stays in a set of host addresses; an access that does changes nothing else
(`world_outside`) and answers the same whatever else there is (`world_respects`). Every access of
every program of the workers is one (`Stays`), in any memory that the regions are in
(`MemoryManager.Covered`): one lemma for each function, up to the loops over the queues.
-/

namespace Whypa

open Framework WProg

variable {ε : Type} {env : Env ε} {ck : Bool} {mm : MemoryManager}

/-! ## Accesses that stay in a set of host addresses -/

/-- The atomic accesses go to even addresses if `even` says so, those to buffers stay in `S`. -/
def Act.Tame (S : Nat → Prop) (even : Prop) : Act → Prop
  | .mem (.read _ n) => n ≤ 16
  | .mem (.write bytes _) => bytes.length ≤ 16
  | .mem (.load addr) => even → addr.toNat % 2 = 0
  | .mem (.store _ addr) => even → addr.toNat % 2 = 0
  | .copyFrom host n => ∀ i < n, S (host + i)
  | .copyTo host bytes => ∀ i < bytes.length, S (host + i)
  | _ => True

/-- The bytes that the regions map are in `S`, and so is the one after a byte that an atomic
access may start at; no region ends near the end of the address space. -/
structure MemoryManager.Covered (mm : MemoryManager) (S : Nat → Prop) (even : Prop) : Prop where
  block : ∀ r ∈ mm.regions, ∀ hpa ∈ r.hpa, ∀ i < r.size.toNat, S (hpa + i)
  room : ∀ r ∈ mm.regions, r.gpa.toNat + r.size.toNat + 16 ≤ 2 ^ 64
  word : ∀ r ∈ mm.regions, ∀ hpa ∈ r.hpa, ∀ i < r.size.toNat,
    (even → (r.gpa.toNat + i) % 2 = 0) → S (hpa + (i + 1))

section
variable {S : Nat → Prop} {even : Prop}

namespace MemoryManager.Covered

theorem mem_regions {gpa : GuestAddress} {r : MemoryRegion} (h : mm.findRegion gpa = some r) :
    r ∈ mm.regions := List.mem_of_find?_eq_some h

theorem locate (hc : mm.Covered S even) {gpa : GuestAddress} {n h : Nat}
    {allowed : MemoryPerms → Bool} {denied : MemoryError} (hn : n ≤ 16)
    (hl : mm.locate ck gpa n allowed denied = some (.ok h)) : ∀ i < n, S (h + i) := by
  obtain ⟨r, hpa, -, hf, -⟩ := locate_eq_ok.mp hl
  have hin := findRegion_contains hf
  have hroom := hc.room r (mem_regions hf)
  obtain ⟨r', hpa, hf', -, hh, rfl, hlt⟩ := (locate_eq_ok_of_lt (by omega)).mp hl
  obtain rfl := Option.some.inj (hf.symm.trans hf')
  intro i hi
  rw [hostAddr, Nat.add_assoc]
  exact hc.block r (mem_regions hf) hpa hh _ (by omega)

theorem locateAtomic (hc : mm.Covered S even) {gpa : GuestAddress} {h : Nat}
    {allowed : MemoryPerms → Bool} {denied : MemoryError} (he : even → gpa.toNat % 2 = 0)
    (hl : mm.locateAtomic gpa allowed denied = .ok h) : ∀ i < 2, S (h + i) := by
  obtain ⟨r, hpa, hf, -, hh, rfl⟩ := locateAtomic_eq_ok.mp hl
  have hin := findRegion_contains hf
  intro i hi
  rw [hostAddr, Nat.add_assoc]
  rcases Nat.lt_or_ge i 1 with h0 | h1
  · exact hc.block r (mem_regions hf) hpa hh _ (by omega)
  · have hi1 : i = 1 := by omega
    rw [hi1]
    refine hc.word r (mem_regions hf) hpa hh _ (by omega) fun h => ?_
    have := he h
    rwa [show r.gpa.toNat + (gpa.toNat - r.gpa.toNat) = gpa.toNat by omega]

/-- The buffer of a descriptor. -/
theorem slice (hc : mm.Covered S even) {total : Nat} {d : DescriptorChain} {vs : VolatileSlice}
    (hs : Collect.slice mm total d = .ok vs) : ∀ i < vs.len, S (vs.host + i) := by
  unfold Collect.slice at hs
  split at hs
  · cases hs
  split at hs
  · cases hs
  rename_i r hf
  unfold MemoryRegion.getSlice at hs
  split at hs
  · cases hs
  split at hs
  · cases hs
  rename_i hle
  split at hs
  · cases hs
  rename_i hpa hh
  obtain rfl := Except.ok.inj hs
  intro i hi
  dsimp only [MemoryRegion.len] at hle hi ⊢
  rw [Nat.add_assoc]
  exact hc.block r (mem_regions hf) hpa hh _ (by omega)

end MemoryManager.Covered

/-- Two memories hold the same bytes in `S`. -/
def AgreeOn (S : Nat → Prop) (m m' : Mem) : Prop := ∀ x, S x → m x = m' x

namespace AgreeOn

variable {m m' : Mem}

theorem read (h : AgreeOn S m m') {a n : Nat} (hS : ∀ i < n, S (a + i)) :
    m.read a n = m'.read a n := Mem.read_congr fun i hi => h _ (hS i hi)

theorem word (h : AgreeOn S m m') {a w : Nat} (hS : ∀ i < w / 8, S (a + i)) :
    m.word a w = m'.word a w := Mem.word_congr fun i hi => h _ (hS i hi)

theorem write (h : AgreeOn S m m') (a : Nat) (bs : List Byte) :
    AgreeOn S (m.write a bs) (m'.write a bs) := by
  intro x hx
  unfold Mem.write
  rw [h x hx]

end AgreeOn

theorem write_outside {m : Mem} {a x : Nat} {bs : List Byte} (hS : ∀ i < bs.length, S (a + i))
    (hx : ¬ S x) : m.write a bs x = m x := by
  refine Mem.write_apply ?_
  by_contra h
  refine hx ?_
  have := hS (x - a) (by omega)
  rwa [show a + (x - a) = x by omega] at this

/-- The outside and the memory in `S` are the same. -/
def World.Alike (S : Nat → Prop) (w w' : World ε) : Prop := AgreeOn S w.mem w'.mem ∧ w.ext = w'.ext

/-- An access to guest memory changes `S` only. -/
theorem handler_outside (hc : mm.Covered S even) {a : Access} {m m' : Mem} {r : a.Answer}
    (ha : Act.Tame S even (.mem a)) (hr : mm.handler ck a m = some (r, m')) {x : Nat} (hx : ¬ S x) :
    m' x = m x := by
  cases a with
  | read gpa n =>
    obtain ⟨y, -, hy⟩ := Option.map_eq_some_iff.mp hr
    obtain ⟨-, rfl⟩ := Prod.mk.inj hy
    rfl
  | write bytes gpa =>
    obtain ⟨y, hl, hy⟩ := Option.map_eq_some_iff.mp hr
    cases y with
    | error e =>
      obtain ⟨-, rfl⟩ := Prod.mk.inj hy
      rfl
    | ok h =>
      obtain ⟨-, rfl⟩ := Prod.mk.inj hy
      exact write_outside (hc.locate ha hl) hx
  | load addr =>
    obtain ⟨-, rfl⟩ := Prod.mk.inj (Option.some.inj hr)
    rfl
  | store val addr =>
    have hs : (mm.store val addr m).2 = m' := (Prod.mk.inj (Option.some.inj hr)).2
    unfold MemoryManager.store at hs
    split at hs
    · rename_i h hl
      rw [← hs]
      exact write_outside (by simpa using hc.locateAtomic ha hl) hx
    · rw [← hs]
  | overflow =>
    obtain ⟨-, h⟩ := Option.ite_none_left_eq_some.mp hr
    obtain ⟨-, rfl⟩ := Prod.mk.inj (Option.some.inj h)
    rfl

/-- What it answers depends on the memory in `S` only. -/
theorem handler_respects (ck : Bool) (hc : mm.Covered S even) {a : Access} (ha : Act.Tame S even (.mem a)) :
    (mm.handler ck).Respects (AgreeOn S) a := by
  intro m m' h
  cases a with
  | read gpa n =>
    simp only [MemoryManager.handler, MemoryManager.readGuestMemory]
    cases hl : mm.locate ck gpa n MemoryPerms.read .notReadable with
    | none => exact .inl ⟨rfl, rfl⟩
    | some y =>
      cases y with
      | error e => exact .inr ⟨.error e, m, m', rfl, rfl, h⟩
      | ok host =>
        refine .inr ⟨.ok (m.read host n), m, m', rfl, ?_, h⟩
        rw [h.read (hc.locate ha hl)]
        rfl
  | write bytes gpa =>
    simp only [MemoryManager.handler, MemoryManager.writeGuestMemory]
    cases hl : mm.locate ck gpa bytes.length MemoryPerms.write .readOnly with
    | none => exact .inl ⟨rfl, rfl⟩
    | some y =>
      cases y with
      | error e => exact .inr ⟨.error e, m, m', rfl, rfl, h⟩
      | ok host => exact .inr ⟨.ok (), _, _, rfl, rfl, h.write host bytes⟩
  | load addr =>
    refine .inr ⟨mm.load 16 addr m, m, m', rfl, ?_, h⟩
    simp only [MemoryManager.handler, MemoryManager.load]
    cases hl : mm.locateAtomic addr MemoryPerms.read .notReadable with
    | error e => rfl
    | ok host => simp only [h.word (w := 16) (hc.locateAtomic ha hl)]
  | store val addr =>
    simp only [MemoryManager.handler, MemoryManager.store]
    cases hl : mm.locateAtomic addr MemoryPerms.write .readOnly with
    | error e => exact .inr ⟨.error e, m, m', rfl, rfl, h⟩
    | ok host => exact .inr ⟨.ok (), _, _, rfl, rfl, h.write host _⟩
  | overflow =>
    cases ck with
    | true => exact .inl ⟨rfl, rfl⟩
    | false => exact .inr ⟨(), m, m', rfl, rfl, h⟩

theorem world_outside (hc : mm.Covered S even) {a : Act} {w w' : World ε} {r : a.Answer}
    (ha : a.Tame S even) (hr : mm.world ck env a w = some (r, w')) {x : Nat} (hx : ¬ S x) :
    w'.mem x = w.mem x := by
  cases a with
  | mem a =>
    obtain ⟨⟨y, m'⟩, hy, he⟩ := Option.map_eq_some_iff.mp hr
    obtain ⟨-, rfl⟩ := Prod.mk.inj he
    exact handler_outside hc ha hy hx
  | copyTo host bytes =>
    obtain ⟨-, rfl⟩ := Prod.mk.inj (Option.some.inj hr)
    exact write_outside ha hx
  | _ =>
    obtain ⟨-, rfl⟩ := Prod.mk.inj (Option.some.inj hr)
    rfl

theorem world_respects (hc : mm.Covered S even) {a : Act} (ha : a.Tame S even) :
    (mm.world ck env).Respects (World.Alike S) a := by
  rintro w v ⟨hm, he⟩
  cases a with
  | mem a =>
    simp only [MemoryManager.world]
    rcases handler_respects ck hc ha _ _ hm with ⟨h₁, h₂⟩ | ⟨r, m₁, m₂, h₁, h₂, h⟩
    · exact .inl ⟨by rw [h₁]; rfl, by rw [h₂]; rfl⟩
    · exact .inr ⟨r, { w with mem := m₁ }, { v with mem := m₂ }, by rw [h₁]; rfl, by rw [h₂]; rfl, h, he⟩
  | copyFrom host n =>
    refine .inr ⟨w.mem.read host n, w, v, rfl, ?_, hm, he⟩
    rw [hm.read ha]
    rfl
  | copyTo host bytes => exact .inr ⟨(), _, _, rfl, rfl, hm.write host bytes, he⟩
  | io op =>
    refine .inr ⟨(env op w.ext).1, _, { v with ext := (env op w.ext).2 }, rfl, ?_, hm, rfl⟩
    rw [he]
    rfl
  | popped c => exact .inr ⟨(), _, _, rfl, rfl, hm, he⟩
  | used index => exact .inr ⟨(), _, _, rfl, rfl, hm, he⟩

/-! ## The workers' programs -/

/-- The buffers lie in `S`. -/
def BufsIn (S : Nat → Prop) (bufs : List VolatileSlice) : Prop :=
  ∀ vs ∈ bufs, ∀ i < vs.len, S (vs.host + i)

theorem bufsIn_nil : BufsIn S [] := List.forall_mem_nil _

theorem bufsIn_cons {vs : VolatileSlice} {bufs : List VolatileSlice} :
    BufsIn S (vs :: bufs) ↔ (∀ i < vs.len, S (vs.host + i)) ∧ BufsIn S bufs := List.forall_mem_cons

/-- Every access of `p` is tame, and every result is in `Q`. -/
abbrev Stays (S : Nat → Prop) (even : Prop) {α : Type} (Q : α → Prop) (p : WProg α) : Prop :=
  Prog.Partly (Act.Tame S even) Q p

section
variable {α : Type}

theorem stays_takeBufs {bufs : List VolatileSlice} (hb : BufsIn S bufs) (n : Nat) :
    BufsIn S (DescriptorChainConsumer.takeBufs n bufs) := by
  induction bufs generalizing n with
  | nil => exact bufsIn_nil
  | cons vs bufs ih =>
    obtain ⟨hv, hb⟩ := bufsIn_cons.mp hb
    unfold DescriptorChainConsumer.takeBufs
    split
    · exact bufsIn_nil
    · exact bufsIn_cons.mpr ⟨hv, ih hb _⟩

theorem stays_dropBytes {bufs : List VolatileSlice} (hb : BufsIn S bufs) (n : Nat) :
    BufsIn S (DescriptorChainConsumer.dropBytes n bufs) := by
  induction bufs generalizing n with
  | nil => exact bufsIn_nil
  | cons vs bufs ih =>
    obtain ⟨hv, hb⟩ := bufsIn_cons.mp hb
    unfold DescriptorChainConsumer.dropBytes
    split
    · refine bufsIn_cons.mpr ⟨fun i hi => ?_, hb⟩
      show S (vs.host + n + i)
      rw [Nat.add_assoc]
      exact hv _ (by dsimp only at hi; omega)
    · exact ih hb _

theorem stays_copyOut {bufs : List VolatileSlice} (hb : BufsIn S bufs) (n : Nat) :
    Stays S even (fun _ => True) (copyOut n bufs) := by
  induction bufs generalizing n with
  | nil => trivial
  | cons vs bufs ih =>
    obtain ⟨hv, hb⟩ := bufsIn_cons.mp hb
    exact ⟨fun i hi => hv i (by omega), fun _ => (ih hb _).bind fun _ _ => trivial⟩

theorem stays_copyIn {bufs : List VolatileSlice} (hb : BufsIn S bufs) (bytes : List Byte) :
    Stays S even (fun _ => True) (copyIn bytes bufs) := by
  induction bufs generalizing bytes with
  | nil => trivial
  | cons vs bufs ih =>
    obtain ⟨hv, hb⟩ := bufsIn_cons.mp hb
    refine ⟨fun i hi => hv i ?_, fun _ => (ih hb _).bind fun _ _ => trivial⟩
    have := List.length_take_le vs.len bytes
    omega

theorem stays_readVectoredAtVolatile {bufs : List VolatileSlice} (hb : BufsIn S bufs)
    (offset : BitVec 64) : Stays S even (fun _ => True) (readVectoredAtVolatile offset bufs) :=
  ⟨trivial, fun _ => (stays_copyIn hb _).bind fun _ _ => trivial⟩

theorem stays_writeVectoredAtVolatile {bufs : List VolatileSlice} (hb : BufsIn S bufs)
    (offset : BitVec 64) : Stays S even (fun _ => True) (writeVectoredAtVolatile offset bufs) :=
  (stays_copyOut hb _).bind fun _ _ => ⟨trivial, fun _ => trivial⟩

/-- Consuming keeps the buffers in `S`. -/
theorem stays_consume {size : α → Nat} {empty : α} {c : DescriptorChainConsumer} {n : Nat}
    {f : List VolatileSlice → WProg (Except IoError α)} (hc : BufsIn S c.buffers)
    (hf : ∀ bufs, BufsIn S bufs → Stays S even (fun _ => True) (f bufs)) :
    Stays S even (fun r => BufsIn S r.2.buffers) (c.consume size empty n f) := by
  unfold DescriptorChainConsumer.consume
  dsimp only
  split
  · exact hc
  refine (hf _ (stays_takeBufs hc n)).bind fun x _ => ?_
  cases x with
  | error e => exact hc
  | ok x =>
    dsimp only
    split
    · exact hc
    · exact stays_dropBytes hc _

end

theorem stays_read {r : Reader} (hr : BufsIn S r.buffer.buffers) (n : Nat) :
    Stays S even (fun x => BufsIn S x.2.buffer.buffers) (r.read n) := by
  refine (stays_consume hr fun bufs hb => ?_).bind fun _ h => h
  exact (stays_copyOut hb n).bind fun _ _ => trivial

theorem stays_readLoop {r : Reader} (hr : BufsIn S r.buffer.buffers) (fuel n : Nat) :
    Stays S even (fun x => BufsIn S x.2.buffer.buffers) (Reader.readLoop fuel n r) := by
  induction fuel generalizing n r with
  | zero => cases n <;> exact hr
  | succ fuel ih =>
    cases n with
    | zero => exact hr
    | succ n =>
      refine (stays_read hr (n + 1)).bind fun x hx => ?_
      rcases x with ⟨_ | _ | ⟨b, bs⟩, r'⟩
      · exact hx
      · exact hx
      · exact (ih hx _).bind fun _ h => h

theorem stays_readObj (T : Type) [FromBytes T] {r : Reader} (hr : BufsIn S r.buffer.buffers) :
    Stays S even (fun x => BufsIn S x.2.buffer.buffers) (r.readObj T) :=
  (stays_readLoop hr _ _).bind fun _ h => h

theorem stays_write {wr : Writer} (hw : BufsIn S wr.buffer.buffers) (bytes : List Byte) :
    Stays S even (fun x => BufsIn S x.2.buffer.buffers) (wr.write bytes) := by
  refine (stays_consume hw fun bufs hb => ?_).bind fun _ h => h
  exact (stays_copyIn hb bytes).bind fun _ _ => trivial

theorem stays_writeLoop {wr : Writer} (hw : BufsIn S wr.buffer.buffers) (fuel : Nat)
    (bytes : List Byte) :
    Stays S even (fun x => BufsIn S x.2.buffer.buffers) (Writer.writeLoop fuel bytes wr) := by
  induction fuel generalizing bytes wr with
  | zero => cases bytes <;> exact hw
  | succ fuel ih =>
    cases bytes with
    | nil => exact hw
    | cons b bytes =>
      refine (stays_write hw (b :: bytes)).bind fun x hx => ?_
      rcases x with ⟨_ | _ | n, wr'⟩
      · exact hx
      · exact hx
      · exact ih hx _

theorem stays_writeAll {wr : Writer} (hw : BufsIn S wr.buffer.buffers) (bytes : List Byte) :
    Stays S even (fun x => BufsIn S x.2.buffer.buffers) (wr.writeAll bytes) :=
  stays_writeLoop hw _ _

theorem stays_writeFromAt {wr : Writer} (hw : BufsIn S wr.buffer.buffers) (n : Nat)
    (offset : BitVec 64) :
    Stays S even (fun x => BufsIn S x.2.buffer.buffers) (wr.writeFromAt n offset) :=
  (stays_consume hw fun _ hb => stays_readVectoredAtVolatile hb offset).bind fun _ h => h

theorem stays_readToAt {r : Reader} (hr : BufsIn S r.buffer.buffers) (n : Nat)
    (offset : BitVec 64) :
    Stays S even (fun x => BufsIn S x.2.buffer.buffers) (r.readToAt n offset) :=
  (stays_consume hr fun _ hb => stays_writeVectoredAtVolatile hb offset).bind fun _ h => h

/-! ## Chains and rings -/

theorem stays_checkedNew (descTable : GuestAddress) (queueSize index : BitVec 16) :
    Prog.Partly (fun a => Act.Tame S even (.mem a)) (fun _ => True)
      (DescriptorChain.checkedNew descTable queueSize index) := by
  unfold DescriptorChain.checkedNew
  split
  · trivial
  split
  · trivial
  · refine ⟨Nat.le_refl 16, fun r => ?_⟩
    cases r <;> trivial

theorem stays_descIter {σ : Type} {f : σ → DescriptorChain → σ × Bool} {I : σ → Prop}
    (hf : ∀ s d, I s → I (f s d).1) (n : Nat) (c : DescriptorChain) {s : σ} (hs : I s) :
    Prog.Partly (fun a => Act.Tame S even (.mem a)) I (descIter f n c s) := by
  induction n generalizing c s with
  | zero => exact hf s c hs
  | succ n ih =>
    have hnext : Prog.Partly (fun a => Act.Tame S even (.mem a)) (fun _ => True)
        c.nextDescriptor := by
      unfold DescriptorChain.nextDescriptor
      split
      · exact (stays_checkedNew _ _ _).bind fun _ _ => trivial
      · trivial
    refine hnext.bind fun next _ => ?_
    cases next with
    | none => exact hf s c hs
    | some d =>
      dsimp only
      split
      · exact ih d (hf s c hs)
      · exact hf s c hs

theorem bufsIn_add (hc : mm.Covered S even) {s : Collect} (hs : BufsIn S s.buffers)
    (d : DescriptorChain) : BufsIn S (s.add mm d).1.buffers := by
  unfold Collect.add
  split
  · exact hs
  · rename_i vs hvs
    intro v hv
    rcases List.mem_append.mp hv with h | h
    · exact hs v h
    · rw [List.mem_singleton.mp h]
      exact hc.slice hvs

theorem bufsIn_ofCollect {α : Type} {s : Collect} (hs : BufsIn S s.buffers)
    {f : DescriptorChainConsumer → α} {x : α}
    (h : (DescriptorChainConsumer.ofCollect s).map f = .ok x) :
    ∃ c, BufsIn S c.buffers ∧ x = f c := by
  unfold DescriptorChainConsumer.ofCollect at h
  split at h
  · cases h
  · exact ⟨_, hs, (Except.ok.inj h).symm⟩

theorem stays_readerNew (hc : mm.Covered S even) (c : DescriptorChain) :
    Stays S even (fun x => ∀ r, x = .ok r → BufsIn S r.buffer.buffers) (lift (Reader.new mm c)) := by
  refine partly_lift ((stays_descIter (I := fun s : Collect => BufsIn S s.buffers)
    (fun s d hs => ?_) _ c bufsIn_nil).bind fun s hs r hr => ?_) fun _ h => h
  · unfold Collect.readable
    split
    · exact bufsIn_add hc hs d
    · exact hs
  · obtain ⟨b, hb, rfl⟩ := bufsIn_ofCollect hs hr
    exact hb

theorem stays_writerNew (hc : mm.Covered S even) (c : DescriptorChain) :
    Stays S even (fun x => ∀ wr, x = .ok wr → BufsIn S wr.buffer.buffers) (lift (Writer.new mm c)) := by
  refine partly_lift ((stays_descIter (I := fun s : Bool × Collect => BufsIn S s.2.buffers)
    (fun s d hs => ?_) _ c bufsIn_nil).bind fun s hs r hr => ?_) fun _ h => h
  · unfold Collect.writable
    split
    · exact hs
    · exact bufsIn_add hc hs d
  · obtain ⟨b, hb, rfl⟩ := bufsIn_ofCollect hs hr
    exact hb

/-! ### The rings -/

/-- The rings that the device loads and stores words of are at even addresses, if `even` says so. -/
def Queue.Even (even : Prop) (q : Queue) : Prop :=
  even → q.availRing.toNat % 2 = 0 ∧ q.usedRing.toNat % 2 = 0

theorem Queue.Even.of_sameConfig {q q' : Queue} (h : q.Even even) (hs : q.SameConfig q') :
    q'.Even even := fun he => by
  rw [hs.availRing, hs.usedRing]
  exact h he

theorem even_add {a b c : GuestAddress} (h : checkedAdd a b = some c) (ha : a.toNat % 2 = 0)
    (hb : b.toNat % 2 = 0) : c.toNat % 2 = 0 := by
  obtain ⟨hlt, rfl⟩ := checkedAdd_eq_some.mp h
  rw [BitVec.toNat_add]
  omega

theorem stays_addUsed {q : Queue} (hq : q.Even even) (i : BitVec 16) (len : Nat) :
    Stays S even (Queue.Even even) (addUsed q i len) := by
  have hp : Prog.Partly (fun a => Act.Tame S even (.mem a)) (fun _ => True)
      (q.addUsed i (BitVec.ofNat 32 len)) := by
    unfold Queue.addUsed
    split
    · trivial
    dsimp only
    split
    · trivial
    refine ⟨show (leBytes 4 _ ++ leBytes 4 _).length ≤ 16 by simp, fun _ => ?_⟩
    unfold Queue.publishUsed
    dsimp only
    split
    · trivial
    · rename_i addr hadd
      exact ⟨fun he => even_add hadd (hq he).2 rfl, fun _ => trivial⟩
  have hall := hp.and (q.partly_addUsed i (BitVec.ofNat 32 len))
  exact ⟨trivial, fun _ => (partly_lift hall fun _ h => h.1).bind fun r hr =>
    hq.of_sameConfig hr.2.config⟩

theorem stays_pop {q : Queue} (hq : q.Even even) :
    Stays S even (fun r => r.2.Even even) (popChain q) := by
  have hidx : Prog.Partly (fun a => Act.Tame S even (.mem a)) (fun _ => True) q.availIdx := by
    unfold Queue.availIdx
    split
    · trivial
    · rename_i addr hadd
      exact ⟨fun he => even_add hadd (hq he).1 rfl, fun _ => trivial⟩
  have hlen : Prog.Partly (fun a => Act.Tame S even (.mem a)) (fun _ => True) q.len := by
    refine hidx.bind fun r _ => ?_
    cases r <;> trivial
  have harith : ∀ {w : Nat} {c : Prop} [Decidable c] (x : BitVec w),
      Prog.Partly (fun a => Act.Tame S even (.mem a)) (fun _ => True)
        (if c then pure x else Prog.access Access.overflow fun _ => pure x : VProg (BitVec w)) := by
    intro w c _ x
    split
    · trivial
    · exact ⟨trivial, fun _ => trivial⟩
  have hp : Prog.Partly (fun a => Act.Tame S even (.mem a)) (fun _ => True) q.pop := by
    refine hlen.bind fun pending _ => ?_
    unfold Queue.popHead
    split
    · trivial
    refine (harith _).bind fun _ _ => (harith _).bind fun _ _ => (harith _).bind fun _ _ => ?_
    refine ⟨show 2 ≤ 16 by decide, fun r => ?_⟩
    cases r with
    | error e => trivial
    | ok bs => exact (stays_checkedNew _ _ _).bind fun _ _ => trivial
  refine (partly_lift (hp.and q.partly_pop) fun _ h => h.1).bind fun r hr => ?_
  have hr' := hq.of_sameConfig hr.2.steps.config
  rcases r with ⟨_ | head, q'⟩
  · exact hr'
  · exact ⟨trivial, fun _ => hr'⟩

/-- Storing one of the two words by which the device asks for notifications. -/
theorem stays_setNotification {q : Queue} (hq : q.Even even) (enable : Bool) :
    Prog.Partly (fun a => Act.Tame S even (.mem a)) (fun _ => True) (q.setNotification enable) := by
  have hflags : ∀ v, Prog.Partly (fun a => Act.Tame S even (.mem a)) (fun _ => True)
      (q.setUsedFlags v) := fun v => ⟨fun he => (hq he).2, fun _ => trivial⟩
  unfold Queue.setNotification
  split
  · split
    · unfold Queue.setAvailEvent
      split
      · trivial
      · rename_i addr hadd
        refine ⟨fun he => even_add hadd (hq he).2 ?_, fun _ => trivial⟩
        rw [BitVec.toNat_add, BitVec.toNat_mul]
        show (4 + 8 * (q.size.setWidth 64).toNat % 2 ^ 64) % 2 ^ 64 % 2 = 0
        omega
    · exact hflags 0
  · split
    · exact hflags _
    · trivial

theorem stays_enableNotification {q : Queue} (hq : q.Even even) :
    Prog.Partly (fun a => Act.Tame S even (.mem a)) (fun _ => True) q.enableNotification := by
  refine (stays_setNotification hq true).bind fun r _ => ?_
  cases r with
  | error e => trivial
  | ok u =>
    dsimp only
    unfold Queue.recheckAvail Queue.availIdx
    split
    · trivial
    · rename_i addr hadd
      exact ⟨fun he => even_add hadd (hq he).1 rfl, fun _ => trivial⟩

theorem stays_unwrap {ε' α : Type} {Q : α → Prop} (x : Except ε' α) (hx : ∀ y, x = .ok y → Q y) :
    Stays S even Q (lift (VProg.unwrap x)) := by
  cases x with
  | error e => trivial
  | ok y => exact hx y rfl

/-! ### The loops -/

/-- A function that serves a chain stays in `S`, and keeps the queue's rings. -/
abbrev Tidy (S : Nat → Prop) (even : Prop) {α : Type} (p : WProg (Queue × α)) : Prop :=
  Stays S even (fun r => r.1.Even even) p

theorem stays_popLoop {serve : DescriptorChain → Queue → WProg (Queue × Bool)}
    (hs : ∀ c q, q.Even even → Tidy S even (serve c q)) (fuel : Nat) {q : Queue} (hq : q.Even even)
    (used : Bool) : Stays S even (fun r => ∀ x ∈ r, x.1.Even even) (popLoop serve fuel q used) := by
  induction fuel generalizing q used with
  | zero => exact fun x hx => absurd hx (Option.not_mem_none x)
  | succ fuel ih =>
    refine (stays_pop hq).bind fun r hr => ?_
    rcases r with ⟨_ | head, q'⟩
    · intro x hx
      obtain rfl := Option.some.inj hx
      exact hr
    · exact (hs head q' hr).bind fun r' hr' => ih hr' _

theorem stays_needsNotification {q : Queue} (hq : q.Even even) :
    Prog.Partly (fun a => Act.Tame S even (.mem a)) (fun r => r.2.Even even) q.needsNotification := by
  unfold Queue.needsNotification
  split
  · unfold Queue.usedEvent
    split
    · exact hq
    · rename_i addr hadd
      refine ⟨fun he => even_add hadd (hq he).1 ?_, fun r => ?_⟩
      · rw [BitVec.toNat_add, BitVec.toNat_mul]
        show (4 + (q.size.setWidth 64).toNat * 2 % 2 ^ 64) % 2 ^ 64 % 2 = 0
        omega
      · cases r <;> exact hq
  · exact hq

theorem stays_notifyUsed {q : Queue} (hq : q.Even even) (used : Bool) :
    Stays S even (Queue.Even even) (notifyUsed q used) := by
  unfold notifyUsed
  split
  · refine (partly_lift (stays_needsNotification hq) fun _ h => h).bind fun r hr => ?_
    refine (stays_unwrap (Q := fun _ => True) _ fun _ _ => trivial).bind fun b _ => ?_
    cases b
    · exact hr
    · exact ⟨trivial, fun _ => hr⟩
  · exact hq

theorem stays_signalUsed {q : Queue} (hq : q.Even even) (used : Bool) :
    Stays S even (Queue.Even even) (signalUsed q used) := by
  unfold signalUsed
  split
  · exact ⟨trivial, fun _ => hq⟩
  · exact hq

theorem stays_processWith {serve : DescriptorChain → Queue → WProg (Queue × Bool)}
    {notify : Queue → Bool → WProg Queue} (hs : ∀ c q, q.Even even → Tidy S even (serve c q))
    (hn : ∀ q used, q.Even even → Stays S even (Queue.Even even) (notify q used)) (fuel : Nat)
    {q : Queue} (hq : q.Even even) :
    Stays S even (fun r => ∀ q' ∈ r, q'.Even even) (processWith serve notify fuel q) := by
  refine (stays_popLoop hs fuel hq false).bind fun r hr => ?_
  cases r with
  | none => exact fun x hx => absurd hx (Option.not_mem_none x)
  | some r =>
    refine (hn r.1 r.2 (hr r rfl)).bind fun q' hq' x hx => ?_
    obtain rfl := Option.some.inj hx
    exact hq'

theorem stays_drain {process : Nat → Queue → WProg (Option Queue)} {fuel : Nat}
    (hp : ∀ q, q.Even even → Stays S even (fun r => ∀ q' ∈ r, q'.Even even) (process fuel q))
    (n : Nat) {q : Queue} (hq : q.Even even) : Stays S even (fun _ => True) (drain process fuel n q) := by
  induction n generalizing q with
  | zero => trivial
  | succ n ih =>
    refine (partly_lift (stays_setNotification hq false) fun _ h => h).bind fun x _ => ?_
    refine (stays_unwrap (Q := fun _ => True) x fun _ _ => trivial).bind fun _ _ => ?_
    refine (hp q hq).bind fun r hr => ?_
    cases r with
    | none => trivial
    | some q' =>
      have hq' := hr q' rfl
      refine (partly_lift (stays_enableNotification hq') fun _ h => h).bind fun x _ => ?_
      refine (stays_unwrap (Q := fun _ => True) x fun _ _ => trivial).bind fun b _ => ?_
      cases b
      · trivial
      · exact ih hq'

/-! ### The requests -/

theorem stays_mul {w : Nat} (a b : BitVec w) : Stays S even (fun _ => True) (lift (VProg.mul a b)) := by
  unfold VProg.mul
  split
  · trivial
  · exact ⟨trivial, fun _ => trivial⟩

theorem stays_sub {w : Nat} (a b : BitVec w) : Stays S even (fun _ => True) (lift (VProg.sub a b)) := by
  unfold VProg.sub
  split
  · trivial
  · exact ⟨trivial, fun _ => trivial⟩

/-- The end of serving a chain. -/
theorem tidy_addUsed {α : Type} {q : Queue} (hq : q.Even even) (i : BitVec 16) (len : Nat) (x : α) :
    Tidy S even (addUsed q i len >>= fun q => pure (q, x)) :=
  (stays_addUsed hq i len).bind fun _ h => h

/-- Serving a chain whose stream the worker opens, or that it drops. -/
theorem tidy_opened {α σ : Type} {f : σ → DescriptorChainConsumer} {o : VProg (Except ChainError σ)}
    {p : Except ChainError σ → WProg (Queue × α)}
    (ho : Stays S even (fun x => ∀ s, x = .ok s → BufsIn S (f s).buffers) (lift o))
    (herr : ∀ e, Tidy S even (p (.error e)))
    (hok : ∀ s, BufsIn S (f s).buffers → Tidy S even (p (.ok s))) : Tidy S even (lift o >>= p) := by
  refine ho.bind fun x hx => ?_
  cases x with
  | error e => exact herr e
  | ok s => exact hok s (hx s rfl)

namespace BlockWorker

theorem stays_processDiscard {r : Reader} (hr : BufsIn S r.buffer.buffers) {wr : Writer}
    (hw : BufsIn S wr.buffer.buffers)
    {op : DiscardWriteData → BitVec 64 → BitVec 64 → WProg (Except RequestError Unit)}
    (ho : ∀ d o l, Stays S even (fun _ => True) (op d o l)) :
    Stays S even (fun x => BufsIn S x.2.2.buffer.buffers) (processDiscard r wr op) := by
  refine (stays_readObj DiscardWriteData hr).bind fun x _ => ?_
  rcases x with ⟨_ | data, r'⟩
  · exact hw
  · exact (stays_mul ..).bind fun o _ => (stays_mul ..).bind fun l _ => (ho data o l).bind fun _ _ => hw

theorem stays_processRequest (disk : DiskProperties) (header : RequestHeader) {r : Reader}
    (hr : BufsIn S r.buffer.buffers) {wr : Writer} (hw : BufsIn S wr.buffer.buffers) :
    Stays S even (fun x => BufsIn S x.2.2.buffer.buffers) (processRequest disk header r wr) := by
  unfold processRequest
  split
  · refine (stays_sub ..).bind fun len _ => ?_
    split
    · exact hw
    · exact (stays_mul ..).bind fun o _ => (stays_writeFromAt hw len.toNat o).bind fun _ h => h
  split
  · split
    · exact hw
    · exact (stays_mul ..).bind fun o _ => (stays_readToAt hr r.availableBytes o).bind fun _ _ => hw
  split
  · split
    · refine ⟨trivial, fun x => ?_⟩
      cases x with
      | error e => exact hw
      | ok u => exact ⟨trivial, fun _ => hw⟩
    · exact hw
  split
  · split
    · exact hw
    · exact (stays_writeAll hw disk.imageId).bind fun _ h => h
  split
  · exact stays_processDiscard hr hw fun _ _ _ => ⟨trivial, fun _ => trivial⟩
  split
  · refine stays_processDiscard hr hw fun d _ _ => ?_
    split <;> exact ⟨trivial, fun _ => trivial⟩
  · exact hw

theorem tidy_serve (hc : mm.Covered S even) (disk : DiskProperties) (head : DescriptorChain)
    {q : Queue} (hq : q.Even even) : Tidy S even (serve mm disk head q) := by
  refine tidy_opened (stays_readerNew hc head) (fun _ => hq) fun r hr => ?_
  refine tidy_opened (stays_writerNew hc head) (fun _ => hq) fun wr hw => ?_
  refine (stays_readObj RequestHeader hr).bind fun x hx => ?_
  rcases x with ⟨_ | header, r'⟩
  · exact hq
  · refine (stays_processRequest disk header hx hw).bind fun y hy => ?_
    exact (stays_writeAll hy _).bind fun _ _ => tidy_addUsed hq _ _ true

end BlockWorker

theorem RngWorker.tidy_serve (hc : mm.Covered S even) (head : DescriptorChain) {q : Queue}
    (hq : q.Even even) : Tidy S even (RngWorker.serve mm head q) := by
  refine tidy_opened (stays_writerNew hc head) (fun _ => hq) fun wr hw => ?_
  dsimp only
  split
  · exact tidy_addUsed hq _ _ true
  · refine ⟨trivial, fun x => ?_⟩
    cases x with
    | none => exact tidy_addUsed hq _ _ true
    | some buf => exact (stays_writeAll hw _).bind fun _ _ => tidy_addUsed hq _ _ true

namespace ConsoleWorker

theorem tidy_serveTx (hc : mm.Covered S even) (head : DescriptorChain) {q : Queue}
    (hq : q.Even even) : Tidy S even (serveTx mm head q) := by
  refine tidy_opened (stays_readerNew hc head) (fun _ => hq) fun r hr => ?_
  have hemit : Stays S even (fun _ => True) (emit r) := by
    unfold emit
    split
    · refine (stays_read hr _).bind fun x _ => ?_
      rcases x with ⟨_ | buf, r'⟩
      · trivial
      · have hf : Stays S even (fun _ => True) (filterDsrAndRespond buf) := by
          unfold filterDsrAndRespond
          dsimp only
          split
          · exact ⟨trivial, fun _ => trivial⟩
          · trivial
        refine hf.bind fun filtered _ => ?_
        split
        · exact ⟨trivial, fun _ => trivial⟩
        · trivial
    · trivial
  exact hemit.bind fun _ _ => tidy_addUsed hq _ _ true

theorem tidy_serveRx (hc : mm.Covered S even) (chunk : List Byte) (head : DescriptorChain)
    {q : Queue} (hq : q.Even even) : Tidy S even (serveRx mm chunk head q) := by
  refine tidy_opened (stays_writerNew hc head) (fun _ => hq) fun wr hw => ?_
  exact (stays_writeAll hw _).bind fun _ _ => tidy_addUsed hq _ _ _

theorem stays_rxLoop (hc : mm.Covered S even) (data : List Byte) (fuel offset : Nat) {q : Queue}
    (hq : q.Even even) (used : Bool) :
    Stays S even (fun r => ∀ x ∈ r, x.1.Even even) (rxLoop mm data fuel offset q used) := by
  have hsome : ∀ (q : Queue) (b : Bool), q.Even even → ∀ x ∈ some (q, b), x.1.Even even := by
    intro q b h x hx
    obtain rfl := Option.some.inj hx
    exact h
  induction fuel generalizing offset q used with
  | zero => exact fun x hx => absurd hx (Option.not_mem_none x)
  | succ fuel ih =>
    unfold rxLoop
    split
    · exact hsome q used hq
    refine (stays_pop hq).bind fun r hr => ?_
    rcases r with ⟨_ | head, q'⟩
    · exact hsome q' used hr
    · refine (tidy_serveRx hc _ head hr).bind fun x hx => ?_
      rcases x with ⟨q'', _ | n⟩
      · exact ih _ hx _
      · exact ih _ hx _

theorem stays_processRxInput (hc : mm.Covered S even) (fuel : Nat) {q : Queue} (hq : q.Even even) :
    Stays S even (fun _ => True) (processRxInput mm fuel q) := by
  refine ⟨trivial, fun data => ?_⟩
  show Stays S even _ (if List.isEmpty data then _ else _)
  split
  · trivial
  · refine (stays_rxLoop hc data fuel 0 hq false).bind fun r hr => ?_
    cases r with
    | none => trivial
    | some x => exact (stays_notifyUsed (hr x rfl) x.2).bind fun _ _ => trivial

end ConsoleWorker

namespace NetWorker

theorem tidy_serveTx (hc : mm.Covered S even) (head : DescriptorChain) {q : Queue}
    (hq : q.Even even) : Tidy S even (serveTx mm head q) := by
  refine tidy_opened (stays_readerNew hc head) (fun _ => hq) fun r hr => ?_
  have hsend : Stays S even (fun _ => True) (transmit r) := by
    unfold transmit
    split
    · refine (stays_read hr _).bind fun x _ => ?_
      rcases x with ⟨_ | buf, r'⟩
      · trivial
      · dsimp only
        split
        · exact ⟨trivial, fun _ => trivial⟩
        · trivial
    · trivial
  exact hsend.bind fun _ _ => tidy_addUsed hq _ _ true

theorem tidy_serveRx (hc : mm.Covered S even) (frame : List Byte) (head : DescriptorChain)
    {q : Queue} (hq : q.Even even) : Tidy S even (serveRx mm frame head q) := by
  refine tidy_opened (stays_writerNew hc head) (fun _ => hq) fun wr hw => ?_
  dsimp only
  split
  · exact tidy_addUsed hq _ _ false
  · refine (stays_writeAll hw defaultRxHeader).bind fun x hx => ?_
    rcases x with ⟨_ | _, wr'⟩
    · exact tidy_addUsed hq _ _ false
    · exact (stays_writeAll hx frame).bind fun _ _ => tidy_addUsed hq _ _ true

theorem stays_rxLoop (hc : mm.Covered S even) (packets : List (List Byte)) {q : Queue}
    (hq : q.Even even) (used : Bool) : Tidy S even (rxLoop mm packets q used) := by
  induction packets generalizing q used with
  | nil => exact hq
  | cons frame packets ih =>
    unfold rxLoop
    split
    · exact ih hq used
    refine (stays_pop hq).bind fun r hr => ?_
    rcases r with ⟨_ | head, q'⟩
    · exact ⟨trivial, fun _ => hr⟩
    · exact (tidy_serveRx hc frame head hr).bind fun x hx => ih hx _

theorem stays_processRxVirtioQueue (hc : mm.Covered S even) {q : Queue} (hq : q.Even even) :
    Stays S even (fun _ => True) (processRxVirtioQueue mm q) := by
  refine ⟨trivial, fun packets => ?_⟩
  show Stays S even _ (if List.isEmpty packets then _ else _)
  split
  · trivial
  · refine (stays_rxLoop hc packets hq false).bind fun x hx => ?_
    exact (stays_notifyUsed hx x.2).mono (fun _ h => h) fun _ _ => trivial

end NetWorker

end

end Whypa
