import Whypa.Virtio.Workers
import Whypa.Virtio.Rings

/-!
# What readers and writers make of a chain

The descriptors of a chain as the memory has them (`DescriptorChain.chain`),
and when a reader or a writer of the chain can be created: exactly if the
descriptors on its side lie in guest memory (`Reader.run_new`,
`Writer.run_new`). A worker that uses the streams touches no memory but the
buffers of its writer (`Confined`).
-/

namespace Whypa

open Framework WProg

variable {mm : MemoryManager} {m : Mem}

/-- The rule for programs that only read. -/
theorem run_isRead {α : Type} {Q : α → Prop} {p : VProg α}
    (hp : Prog.Always (mm.handler false) Access.isRead Q p) (m : Mem) :
    ∃ x, Prog.run (mm.handler false) p m = some (x, m) ∧ Q x := by
  obtain ⟨x, m', hr, hx, rfl⟩ := hp.run_keeps (K := fun m m' => m' = m) (fun _ => rfl)
    (fun _ _ _ h h' => h'.trans h) (fun _ _ _ _ ha he => handler_isRead ha he) m
  exact ⟨x, hr, hx⟩

/-! ## The descriptors of a chain -/

namespace DescriptorChain

/-- The descriptor that follows `c`, as the memory has it. -/
def next? (mm : MemoryManager) (m : Mem) (c : DescriptorChain) : Option DescriptorChain :=
  (Prog.run (mm.handler false) c.nextDescriptor m).bind Prod.fst

/-- The descriptors of the chain from `c`. -/
def chainFrom (mm : MemoryManager) (m : Mem) : Nat → DescriptorChain → List DescriptorChain
  | 0, c => [c]
  | n + 1, c => c :: match next? mm m c with
    | none => []
    | some d => chainFrom mm m n d

def chain (mm : MemoryManager) (m : Mem) (c : DescriptorChain) : List DescriptorChain :=
  chainFrom mm m c.ttl.toNat c

def readable (mm : MemoryManager) (m : Mem) (c : DescriptorChain) : List DescriptorChain :=
  (c.chain mm m).takeWhile isReadOnly

def writable (mm : MemoryManager) (m : Mem) (c : DescriptorChain) : List DescriptorChain :=
  (c.chain mm m).dropWhile isReadOnly

theorem length_chainFrom (n : Nat) (c : DescriptorChain) : (chainFrom mm m n c).length ≤ n + 1 := by
  induction n generalizing c with
  | zero => exact Nat.le_refl 1
  | succ n ih =>
    unfold chainFrom
    cases next? mm m c with
    | none => simp
    | some d => simpa using ih d

theorem length_chain (c : DescriptorChain) : (c.chain mm m).length ≤ 2 ^ 16 :=
  (length_chainFrom ..).trans c.ttl.isLt

/-- `d` is a descriptor of the table at `descTable`, of `queueSize` entries. -/
def OfTable (descTable : GuestAddress) (queueSize : BitVec 16) (d : DescriptorChain) : Prop :=
  d.descTable = descTable ∧ d.queueSize = queueSize

/-- In either build, if the table does not run over the end of the address space. -/
theorem always_checkedNew_ofTable {ck : Bool} (mm : MemoryManager) {descTable : GuestAddress}
    {queueSize : BitVec 16} (hd : ck = true → descTable.toNat + 16 * queueSize.toNat < 2 ^ 64)
    (index : BitVec 16) :
    Prog.Always (mm.handler ck) Access.isRead (fun c => ∀ d ∈ c, OfTable descTable queueSize d)
      (checkedNew descTable queueSize index) := by
  unfold checkedNew
  split
  · intro d hd; cases hd
  rename_i hi
  split
  · intro d hd; cases hd
  rename_i a ha
  refine ⟨trivial, ?_, fun m r m' _ => ?_⟩
  · cases ck with
    | false => exact handler_unchecked _
    | true =>
      have hi := BitVec.lt_def.mp (BitVec.not_le.mp hi)
      have ho := toNat_tableOffset index
      have hd := hd rfl
      obtain ⟨hlt, rfl⟩ := checkedAdd_eq_some.mp ha
      refine handler_read_ne_none ?_
      rw [BitVec.toNat_add_of_lt hlt, ho]
      show descTable.toNat + 16 * index.toNat + 16 < 2 ^ 64
      omega
  cases r with
  | error e => intro d hd; cases hd
  | ok bs =>
    intro d hd
    simp only [Option.mem_def] at hd
    split at hd
    · obtain rfl := Option.some.inj hd
      exact ⟨rfl, rfl⟩
    · cases hd

theorem always_checkedNew_unchecked (mm : MemoryManager) (descTable : GuestAddress)
    (queueSize index : BitVec 16) :
    Prog.Always (mm.handler false) Access.isRead (fun c => ∀ d ∈ c, OfTable descTable queueSize d)
      (checkedNew descTable queueSize index) :=
  always_checkedNew_ofTable mm (fun h => absurd h Bool.false_ne_true) index

/-- The table of the chain does not run over the end of the address space; this matters to a build
that checks for overflow. -/
def TableFits (ck : Bool) (c : DescriptorChain) : Prop :=
  ck = true → c.descTable.toNat + 16 * c.queueSize.toNat < 2 ^ 64

theorem tableFits_false (c : DescriptorChain) : c.TableFits false := fun h => absurd h Bool.false_ne_true

theorem always_nextDescriptor {ck : Bool} (mm : MemoryManager) {c : DescriptorChain}
    (hc : c.TableFits ck) :
    Prog.Always (mm.handler ck) Access.isRead
      (fun n => ∀ d ∈ n, OfTable c.descTable c.queueSize d) c.nextDescriptor := by
  unfold nextDescriptor
  split
  · refine (always_checkedNew_ofTable mm hc _).bind fun n hn d hd => ?_
    obtain ⟨d', rfl, rfl⟩ := Option.map_eq_some_iff.mp hd
    exact hn d' rfl
  · intro d hd
    cases hd

theorem run_nextDescriptor (mm : MemoryManager) (c : DescriptorChain) (m : Mem) :
    Prog.run (mm.handler false) c.nextDescriptor m = some (next? mm m c, m) ∧
      ∀ d ∈ next? mm m c, OfTable c.descTable c.queueSize d := by
  obtain ⟨o, hr, ho⟩ := run_isRead (always_nextDescriptor mm (tableFits_false c)) m
  rw [next?, hr]
  exact ⟨rfl, ho⟩

end DescriptorChain

/-! ## Collecting the buffers -/

/-- Fold `f` over the list for as long as it says so. -/
def foldWhile {σ α : Type} (f : σ → α → σ × Bool) : List α → σ → σ
  | [], s => s
  | a :: as, s => if (f s a).2 then foldWhile f as (f s a).1 else (f s a).1

theorem run_descIter {σ : Type} (f : σ → DescriptorChain → σ × Bool) (n : Nat)
    (c : DescriptorChain) (s : σ) (m : Mem) :
    Prog.run (mm.handler false) (descIter f n c s) m =
      some (foldWhile f (c.chainFrom mm m n) s, m) := by
  induction n generalizing c s with
  | zero =>
    simp only [descIter, DescriptorChain.chainFrom, foldWhile, ite_self]
    rfl
  | succ n ih =>
    rw [descIter, Prog.run_bind, (DescriptorChain.run_nextDescriptor mm c m).1, Option.bind_some]
    simp only [DescriptorChain.chainFrom, foldWhile]
    cases c.next? mm m with
    | none =>
      simp only [foldWhile, ite_self]
      rfl
    | some d =>
      simp only
      split
      · exact ih d _
      · rfl

/-- The descriptor's bytes lie in one region of guest memory. -/
def mapped (mm : MemoryManager) (d : DescriptorChain) : Bool :=
  match mm.findRegion d.addr with
  | none => false
  | some r => decide (d.addr.toNat + d.len.toNat ≤ r.gpa.toNat + r.size.toNat) && r.hpa.isSome

/-- The buffer of a descriptor whose bytes do. -/
def buffer (mm : MemoryManager) (d : DescriptorChain) : VolatileSlice :=
  match mm.findRegion d.addr with
  | none => ⟨0, 0⟩
  | some r => ⟨r.hpa.getD 0 + (d.addr.toNat - r.gpa.toNat), d.len.toNat⟩

theorem slice_eq (mm : MemoryManager) {total : Nat} (d : DescriptorChain) (ht : total + 2 ^ 32 ≤ 2 ^ 64) :
    (mapped mm d = true ∧ Collect.slice mm total d = .ok (buffer mm d)) ∨
      (mapped mm d = false ∧ ∃ e, Collect.slice mm total d = .error e) := by
  have hl := d.len.isLt
  unfold Collect.slice mapped buffer
  rw [if_neg (by omega)]
  cases hf : mm.findRegion d.addr with
  | none => exact .inr ⟨rfl, _, rfl⟩
  | some r =>
    have hc := MemoryManager.findRegion_contains hf
    have hfits := r.fits
    simp only [MemoryRegion.getSlice, MemoryRegion.len, MemoryRegion.startAddr]
    by_cases h : d.addr.toNat + d.len.toNat ≤ r.gpa.toNat + r.size.toNat
    · have h64 : ¬ 2 ^ 64 ≤ d.addr.toNat - r.gpa.toNat + d.len.toNat := by omega
      have hle : ¬ r.size.toNat < d.addr.toNat - r.gpa.toNat + d.len.toNat := by omega
      simp only [h64, hle, if_false]
      cases r.hpa with
      | none => exact .inr ⟨by simp, _, rfl⟩
      | some hpa => exact .inl ⟨by simp [h], rfl⟩
    · refine .inr ⟨by simp [h], ?_⟩
      have hlt : r.size.toNat < d.addr.toNat - r.gpa.toNat + d.len.toNat := by omega
      simp only [hlt, if_true, ite_self]
      exact ⟨_, rfl⟩

/-- Collecting the buffers of `ds` succeeds exactly if all of them are mapped. -/
theorem foldWhile_add (mm : MemoryManager) (ds : List DescriptorChain) (s : Collect) (he : s.error = none)
    (ht : s.totalLen + ds.length * 2 ^ 32 ≤ 2 ^ 64) :
    (ds.all (mapped mm) = true ∧ (foldWhile (Collect.add mm) ds s).error = none ∧
      (foldWhile (Collect.add mm) ds s).buffers = s.buffers ++ ds.map (buffer mm)) ∨
    (ds.all (mapped mm) = false ∧ ∃ e, (foldWhile (Collect.add mm) ds s).error = some e) := by
  induction ds generalizing s with
  | nil => exact .inl ⟨rfl, he, (List.append_nil _).symm⟩
  | cons d ds ih =>
    rw [List.length_cons] at ht
    have hl := d.len.isLt
    rw [List.all_cons]
    rcases slice_eq mm d (show s.totalLen + 2 ^ 32 ≤ 2 ^ 64 by omega) with ⟨hm, hs⟩ | ⟨hm, e, hs⟩
    · have ha : s.add mm d = (⟨s.totalLen + d.len.toNat, s.buffers ++ [buffer mm d], none⟩, true) := by
        simp only [Collect.add, hs]
      have hf : foldWhile (Collect.add mm) (d :: ds) s = foldWhile (Collect.add mm) ds
          ⟨s.totalLen + d.len.toNat, s.buffers ++ [buffer mm d], none⟩ := by
        simp only [foldWhile, ha, if_true]
      have hi := ih ⟨s.totalLen + d.len.toNat, s.buffers ++ [buffer mm d], none⟩ rfl (by dsimp only; omega)
      rw [hf, hm, Bool.true_and]
      simpa only [List.append_assoc, List.singleton_append, List.map_cons] using hi
    · have ha : s.add mm d = ({ s with error := some e }, false) := by
        simp only [Collect.add, hs]
      refine .inr ⟨by rw [hm]; rfl, e, ?_⟩
      simp only [foldWhile, ha, Bool.false_eq_true, if_false]

theorem foldWhile_readable (ds : List DescriptorChain) (s : Collect) :
    foldWhile (Collect.readable mm) ds s =
      foldWhile (Collect.add mm) (ds.takeWhile DescriptorChain.isReadOnly) s := by
  induction ds generalizing s with
  | nil => rfl
  | cons d ds ih =>
    cases h : d.isReadOnly with
    | true =>
      rw [List.takeWhile_cons_of_pos h]
      simp only [foldWhile, Collect.readable, h, if_true, ih]
    | false =>
      rw [List.takeWhile_cons_of_neg (by simp [h])]
      simp only [foldWhile, Collect.readable, h, Bool.false_eq_true, if_false]

theorem foldWhile_writable_false (ds : List DescriptorChain) (s : Collect) :
    (foldWhile (Collect.writable mm) ds (false, s)).2 = foldWhile (Collect.add mm) ds s := by
  induction ds generalizing s with
  | nil => rfl
  | cons d ds ih =>
    simp only [foldWhile, Collect.writable, Bool.false_and, Bool.false_eq_true, if_false]
    split
    · exact ih _
    · rfl

theorem foldWhile_writable (mm : MemoryManager) (ds : List DescriptorChain) (s : Collect) :
    (foldWhile (Collect.writable mm) ds (true, s)).2 =
      foldWhile (Collect.add mm) (ds.dropWhile DescriptorChain.isReadOnly) s := by
  induction ds with
  | nil => rfl
  | cons d ds ih =>
    cases h : d.isReadOnly with
    | true =>
      rw [List.dropWhile_cons_of_pos h, ← ih]
      simp only [foldWhile, Collect.writable, h, Bool.and_self, if_true]
    | false =>
      rw [List.dropWhile_cons_of_neg (by simp [h]), ← foldWhile_writable_false]
      simp only [foldWhile, Collect.writable, h, Bool.and_false, Bool.false_eq_true, if_false]

/-- The stream over the descriptors `ds`, or an error. -/
def StreamOf (mm : MemoryManager) (ds : List DescriptorChain)
    (r : Except ChainError DescriptorChainConsumer) : Prop :=
  (ds.all (mapped mm) = true ∧ r = .ok ⟨ds.map (buffer mm), 0⟩) ∨
    (ds.all (mapped mm) = false ∧ ∃ e, r = .error e)

theorem streamOf_add (ds : List DescriptorChain) (hl : ds.length ≤ 2 ^ 16) :
    StreamOf mm ds (DescriptorChainConsumer.ofCollect (foldWhile (Collect.add mm) ds .start)) := by
  rcases foldWhile_add mm ds .start rfl (by simp only [Collect.start]; omega) with
    ⟨ha, he, hb⟩ | ⟨ha, e, he⟩
  · exact .inl ⟨ha, by simp only [DescriptorChainConsumer.ofCollect, he, hb]; rfl⟩
  · exact .inr ⟨ha, e, by simp only [DescriptorChainConsumer.ofCollect, he]⟩

/-- Going through a chain only reads, and never panics. -/
theorem always_descIter {ck : Bool} {σ : Type} (mm : MemoryManager) (f : σ → DescriptorChain → σ × Bool)
    (n : Nat) {c : DescriptorChain} (hc : c.TableFits ck) (s : σ) :
    Prog.Always (mm.handler ck) Access.isRead (fun _ => True) (descIter f n c s) := by
  induction n generalizing c s with
  | zero => trivial
  | succ n ih =>
    refine (DescriptorChain.always_nextDescriptor mm hc).bind fun next hn => ?_
    cases next with
    | none => trivial
    | some d =>
      obtain ⟨ht, hs⟩ := hn d rfl
      dsimp only
      split
      · exact ih (fun hck => by rw [ht, hs]; exact hc hck) _
      · trivial

theorem Reader.always_new {ck : Bool} (mm : MemoryManager) {c : DescriptorChain} (hc : c.TableFits ck) :
    Prog.Always (mm.handler ck) Access.isRead (fun _ => True) (Reader.new mm c) :=
  (always_descIter mm _ _ hc _).bind fun _ _ => trivial

theorem Writer.always_new {ck : Bool} (mm : MemoryManager) {c : DescriptorChain} (hc : c.TableFits ck) :
    Prog.Always (mm.handler ck) Access.isRead (fun _ => True) (Writer.new mm c) :=
  (always_descIter mm _ _ hc _).bind fun _ _ => trivial

theorem Reader.run_new_eq (mm : MemoryManager) (c : DescriptorChain) (m : Mem) :
    Prog.run (mm.handler false) (Reader.new mm c) m =
      some ((DescriptorChainConsumer.ofCollect
        (foldWhile (Collect.add mm) (c.readable mm m) .start)).map Reader.mk, m) := by
  rw [Reader.new, Prog.run_bind, run_descIter, Option.bind_some, foldWhile_readable]
  rfl

theorem Writer.run_new_eq (mm : MemoryManager) (c : DescriptorChain) (m : Mem) :
    Prog.run (mm.handler false) (Writer.new mm c) m =
      some ((DescriptorChainConsumer.ofCollect
        (foldWhile (Collect.add mm) (c.writable mm m) .start)).map Writer.mk, m) := by
  rw [Writer.new, Prog.run_bind, run_descIter, Option.bind_some]
  have hw := foldWhile_writable mm (c.chainFrom mm m c.ttl.toNat) .start
  simp only [hw]
  rfl

theorem length_readable (c : DescriptorChain) : (c.readable mm m).length ≤ 2 ^ 16 :=
  (List.takeWhile_sublist _).length_le.trans (DescriptorChain.length_chain c)

theorem length_writable (c : DescriptorChain) : (c.writable mm m).length ≤ 2 ^ 16 :=
  (List.dropWhile_sublist _).length_le.trans (DescriptorChain.length_chain c)

theorem Reader.run_new (mm : MemoryManager) (c : DescriptorChain) (m : Mem) :
    ∃ r, StreamOf mm (c.readable mm m) r ∧
      Prog.run (mm.handler false) (Reader.new mm c) m = some (r.map Reader.mk, m) :=
  ⟨_, streamOf_add _ (length_readable c), Reader.run_new_eq mm c m⟩

theorem Writer.run_new (mm : MemoryManager) (c : DescriptorChain) (m : Mem) :
    ∃ r, StreamOf mm (c.writable mm m) r ∧
      Prog.run (mm.handler false) (Writer.new mm c) m = some (r.map Writer.mk, m) :=
  ⟨_, streamOf_add _ (length_writable c), Writer.run_new_eq mm c m⟩

section
variable {ε : Type} {env : Env ε}

/-! ## What a worker touches -/

/-- An action that notes nothing, and writes only to memory in `S`. -/
def Act.Confined (S : Nat → Prop) : Act → Prop
  | .mem a => a.isRead
  | .copyTo host bytes => ∀ i < bytes.length, S (host + i)
  | .copyFrom .. | .io _ => True
  | .popped _ | .used _ => False

/-- A program whose actions are confined to `S`, and which ends in `Q`. -/
abbrev Calm (mm : MemoryManager) (env : Env ε) (S : Nat → Prop) {α : Type} (Q : α → Prop)
    (p : WProg α) : Prop := Prog.Always (mm.world false env) (Act.Confined S) Q p

/-- The same notes, and the same memory outside `S`. -/
structure Kept (S : Nat → Prop) (w w' : World ε) : Prop where
  log : w'.log = w.log
  mem : ∀ x, ¬ S x → w'.mem x = w.mem x

theorem confined_kept {S : Nat → Prop} {a : Act} {w w' : World ε} {r : a.Answer}
    (ha : a.Confined S) (he : mm.world false env a w = some (r, w')) : Kept S w w' := by
  cases a with
  | mem a =>
    obtain ⟨⟨r', m'⟩, hh, e⟩ := Option.map_eq_some_iff.mp he
    obtain ⟨-, rfl⟩ := Prod.mk.inj e
    refine ⟨rfl, fun x _ => ?_⟩
    show m' x = w.mem x
    rw [handler_isRead ha hh]
  | copyFrom host len =>
    obtain ⟨-, rfl⟩ := Prod.mk.inj (Option.some.inj he)
    exact ⟨rfl, fun _ _ => rfl⟩
  | copyTo host bytes =>
    obtain ⟨-, rfl⟩ := Prod.mk.inj (Option.some.inj he)
    refine ⟨rfl, fun x hx => Mem.write_apply ?_⟩
    by_contra hc
    have hi := ha (x - host) (by omega)
    rw [show host + (x - host) = x by omega] at hi
    exact hx hi
  | io op =>
    obtain ⟨-, rfl⟩ := Prod.mk.inj (Option.some.inj he)
    exact ⟨rfl, fun _ _ => rfl⟩
  | popped c => exact ha.elim
  | used index => exact ha.elim

theorem Calm.run {S : Nat → Prop} {α : Type} {Q : α → Prop} {p : WProg α}
    (hp : Calm mm env S Q p) (w : World ε) :
    ∃ x w', Prog.run (mm.world false env) p w = some (x, w') ∧ Q x ∧ Kept S w w' :=
  Prog.Always.run_keeps hp (fun _ => ⟨rfl, fun _ _ => rfl⟩)
    (fun _ _ _ h h' => ⟨h'.log.trans h.log, fun x hx => (h'.mem x hx).trans (h.mem x hx)⟩)
    (fun _ _ _ _ ha he => confined_kept ha he) w

section
variable {S : Nat → Prop} {α β : Type}

theorem calm_io {Q : Prop} (hQ : Q) (op : Io) : Calm mm env S (fun _ => Q) (io op) :=
  ⟨trivial, world_unchecked _, fun _ _ _ _ => hQ⟩

theorem calm_lift {Q : α → Prop} {p : VProg α}
    (hp : Prog.Always (mm.handler false) Access.isRead Q p) : Calm mm env S Q (lift p) := by
  induction p with
  | pure x => exact hp
  | panic => exact hp
  | access a k ih =>
    refine ⟨hp.1, world_unchecked _, fun w r w' he => ih r ?_⟩
    obtain ⟨⟨r', m'⟩, hh, e⟩ := Option.map_eq_some_iff.mp he
    obtain ⟨rfl, -⟩ := Prod.mk.inj e
    exact hp.2.2 w.mem r' m' hh

theorem always_arith {w : Nat} {c : Prop} [Decidable c] (x : BitVec w) :
    Prog.Always (mm.handler false) Access.isRead (fun _ => True)
      (if c then pure x else Prog.access Access.overflow fun _ => pure x : VProg (BitVec w)) := by
  split
  · trivial
  · exact ⟨trivial, handler_unchecked _, fun _ _ _ _ => trivial⟩

theorem calm_mul {w : Nat} (a b : BitVec w) :
    Calm mm env S (fun _ => True) (lift (VProg.mul a b)) := calm_lift (always_arith _)

theorem calm_sub {w : Nat} (a b : BitVec w) :
    Calm mm env S (fun _ => True) (lift (VProg.sub a b)) := calm_lift (always_arith _)

/-- The buffers lie in `S`. -/
def Within (S : Nat → Prop) (bufs : List VolatileSlice) : Prop :=
  ∀ vs ∈ bufs, ∀ i < vs.len, S (vs.host + i)

theorem Within.takeBufs {bufs : List VolatileSlice} (h : Within S bufs) (n : Nat) :
    Within S (DescriptorChainConsumer.takeBufs n bufs) := by
  induction bufs generalizing n with
  | nil => exact h
  | cons vs bufs ih =>
    unfold DescriptorChainConsumer.takeBufs
    split
    · intro v hv
      cases hv
    · intro v hv
      rcases List.mem_cons.mp hv with rfl | hv
      · exact h v (List.mem_cons_self ..)
      · exact ih (fun v hv => h v (List.mem_cons_of_mem _ hv)) _ v hv

theorem Within.dropBytes {bufs : List VolatileSlice} (h : Within S bufs) (n : Nat) :
    Within S (DescriptorChainConsumer.dropBytes n bufs) := by
  induction bufs generalizing n with
  | nil => exact h
  | cons vs bufs ih =>
    have ht : Within S bufs := fun v hv => h v (List.mem_cons_of_mem _ hv)
    unfold DescriptorChainConsumer.dropBytes
    split
    · intro v hv i hi
      rcases List.mem_cons.mp hv with rfl | hv
      · have := h vs (List.mem_cons_self ..) (n + i) (by dsimp only at hi; omega)
        rwa [← Nat.add_assoc] at this
      · exact ht v hv i hi
    · exact ih ht _

theorem calm_copyOut (n : Nat) (bufs : List VolatileSlice) :
    Calm mm env S (fun _ => True) (copyOut n bufs) := by
  induction bufs generalizing n with
  | nil => trivial
  | cons vs bufs ih =>
    refine ⟨trivial, world_unchecked _, fun _ _ _ _ => ?_⟩
    exact (ih _).bind fun _ _ => trivial

theorem calm_copyIn {bufs : List VolatileSlice} (h : Within S bufs) (bytes : List Byte) :
    Calm mm env S (fun _ => True) (copyIn bytes bufs) := by
  induction bufs generalizing bytes with
  | nil => trivial
  | cons vs bufs ih =>
    refine ⟨fun i hi => ?_, world_unchecked _, fun _ _ _ _ => ?_⟩
    · refine h vs (List.mem_cons_self ..) i ?_
      rw [List.length_take] at hi
      omega
    · exact (ih (fun v hv => h v (List.mem_cons_of_mem _ hv)) _).bind fun _ _ => trivial

/-- `I` holds of any part of buffers of which it holds. -/
def Hereditary (I : List VolatileSlice → Prop) : Prop :=
  ∀ n bufs, I bufs → I (DescriptorChainConsumer.takeBufs n bufs) ∧
    I (DescriptorChainConsumer.dropBytes n bufs)

theorem hereditary_within (S : Nat → Prop) : Hereditary (Within S) :=
  fun n _ h => ⟨h.takeBufs n, h.dropBytes n⟩

theorem hereditary_true : Hereditary fun _ => True := fun _ _ _ => ⟨trivial, trivial⟩

theorem calm_consume {I : List VolatileSlice → Prop} (hI : Hereditary I) {size : α → Nat} {empty : α}
    {c : DescriptorChainConsumer} {n : Nat} {f : List VolatileSlice → WProg (Except IoError α)}
    (h : I c.buffers) (hf : ∀ bufs, I bufs → Calm mm env S (fun _ => True) (f bufs)) :
    Calm mm env S (fun r => I r.2.buffers) (c.consume size empty n f) := by
  unfold DescriptorChainConsumer.consume
  simp only
  split
  · exact h
  refine (hf _ (hI n _ h).1).bind fun x _ => ?_
  cases x with
  | error e => exact h
  | ok x =>
    simp only
    split
    · exact h
    · exact (hI _ _ h).2

/-! ### Readers -/

namespace Reader

theorem calm_read (r : Reader) (n : Nat) : Calm mm env S (fun _ => True) (r.read n) := by
  refine (calm_consume hereditary_true trivial fun bufs _ => ?_).bind fun _ _ => trivial
  exact (calm_copyOut n bufs).bind fun _ _ => trivial

theorem calm_readLoop (fuel n : Nat) (r : Reader) :
    Calm mm env S (fun _ => True) (readLoop fuel n r) := by
  induction fuel generalizing n r with
  | zero =>
    cases n with
    | zero => trivial
    | succ n => trivial
  | succ fuel ih =>
    cases n with
    | zero => trivial
    | succ n =>
      refine (calm_read r (n + 1)).bind fun x _ => ?_
      rcases x with ⟨_ | _ | ⟨b, bs⟩, r⟩
      · trivial
      · trivial
      · exact (ih _ r).bind fun _ _ => trivial

theorem calm_readObj (T : Type) [FromBytes T] (r : Reader) :
    Calm mm env S (fun _ => True) (r.readObj T) :=
  (calm_readLoop ..).bind fun _ _ => trivial

theorem calm_readToAt (r : Reader) (n : Nat) (offset : BitVec 64) :
    Calm mm env S (fun _ => True) (r.readToAt n offset) := by
  refine (calm_consume hereditary_true trivial fun bufs _ => ?_).bind fun _ _ => trivial
  refine (calm_copyOut _ bufs).bind fun bytes _ => ?_
  exact (calm_io trivial _).bind fun _ _ => trivial

end Reader

/-! ### Writers -/

namespace Writer

variable {w : Writer}

theorem calm_write (h : Within S w.buffer.buffers) (bytes : List Byte) :
    Calm mm env S (fun r => Within S r.2.buffer.buffers) (w.write bytes) := by
  refine (calm_consume (hereditary_within S) h fun bufs hb => ?_).bind fun x hx => hx
  exact (calm_copyIn hb bytes).bind fun _ _ => trivial

theorem calm_writeLoop (h : Within S w.buffer.buffers) (fuel : Nat) (bytes : List Byte) :
    Calm mm env S (fun r => Within S r.2.buffer.buffers) (writeLoop fuel bytes w) := by
  induction fuel generalizing bytes w with
  | zero =>
    cases bytes with
    | nil => exact h
    | cons b bytes => exact h
  | succ fuel ih =>
    cases bytes with
    | nil => exact h
    | cons b bytes =>
      refine (calm_write h (b :: bytes)).bind fun x hx => ?_
      rcases x with ⟨_ | _ | n, w⟩
      · exact hx
      · exact hx
      · exact ih hx _

theorem calm_writeAll (h : Within S w.buffer.buffers) (bytes : List Byte) :
    Calm mm env S (fun r => Within S r.2.buffer.buffers) (w.writeAll bytes) :=
  calm_writeLoop h _ bytes

theorem calm_writeFromAt (h : Within S w.buffer.buffers) (n : Nat) (offset : BitVec 64) :
    Calm mm env S (fun r => Within S r.2.buffer.buffers) (w.writeFromAt n offset) := by
  refine (calm_consume (hereditary_within S) h fun bufs hb => ?_).bind fun x hx => hx
  refine (calm_io trivial _).bind fun r _ => ?_
  exact (calm_copyIn hb _).bind fun _ _ => trivial

end Writer

end

end

end Whypa
