import Whypa.Virtio.Chains

/-!
# Iterating over a descriptor chain

Whatever the links of the descriptor table are, the iterator over a chain yields at most as many
descriptors as the table has, each of them an entry of the table that the one before links to; if
the links end within the table's size, it yields the entries on the way (`descIter_exact`). The
`ttl` of the descriptor to be yielded bounds how many there are left.
-/

namespace Whypa

open Framework

variable {ck : Bool} {mm : MemoryManager} {m m' : Mem}

namespace DescIter

/-- Call `next` up to `k` times, until it yields nothing. -/
def takeN : Nat → DescIter → VProg (List DescriptorChain × DescIter)
  | 0, it => pure ([], it)
  | k + 1, it => do
    match ← it.iterNext with
    | (none, it) => pure ([], it)
    | (some c, it) => do
      let (cs, it) ← takeN k it
      pure (c :: cs, it)

end DescIter

namespace DescriptorChain

/-! ## Entries of the table -/

/-- Entry `index` of a table of `queueSize` entries, if it can be read. -/
def entry (ck : Bool) (mm : MemoryManager) (m : Mem) (descTable : GuestAddress)
    (queueSize index : BitVec 16) : Option Descriptor :=
  if queueSize ≤ index then none
  else (checkedAdd descTable (index.setWidth 64 * 16)).bind fun descAddr =>
    match mm.readGuestMemory ck descAddr 16 m with
    | some (.ok bytes) => some (FromBytes.ofBytes bytes)
    | _ => none

variable {descTable : GuestAddress} {queueSize index : BitVec 16} {c : DescriptorChain}

theorem entry_lt {d : Descriptor} (h : entry ck mm m descTable queueSize index = some d) :
    index < queueSize := by
  unfold entry at h
  split at h
  · cases h
  · rename_i hi
    exact BitVec.not_le.mp hi

/-- What `checkedNew` makes of an entry. -/
def ofEntry (descTable : GuestAddress) (queueSize index : BitVec 16) (d : Descriptor) :
    Option DescriptorChain :=
  if (ofDescriptor descTable queueSize index d).isValid then some (ofDescriptor descTable queueSize index d)
  else none

/-- `checkedNew` panics only if there is no entry. -/
theorem run_checkedNew (ck : Bool) (mm : MemoryManager) (descTable : GuestAddress)
    (queueSize index : BitVec 16) (m : Mem) :
    Prog.run (mm.handler ck) (checkedNew descTable queueSize index) m =
        some ((entry ck mm m descTable queueSize index).bind (ofEntry descTable queueSize index), m) ∨
      Prog.run (mm.handler ck) (checkedNew descTable queueSize index) m = none ∧
        entry ck mm m descTable queueSize index = none := by
  unfold checkedNew entry
  split
  · exact .inl rfl
  cases checkedAdd descTable (index.setWidth 64 * 16) with
  | none => exact .inl rfl
  | some descAddr =>
    have hrun : Prog.run (mm.handler ck) (readObj Descriptor descAddr) m =
        (mm.readGuestMemory ck descAddr 16 m).map fun r => (r.map FromBytes.ofBytes, m) := by
      simp only [readObj, VProg.read, FromBytes.size, Prog.access_bind, Prog.run_access, MemoryManager.handler]
      cases mm.readGuestMemory ck descAddr 16 m <;> rfl
    dsimp only
    rw [Prog.run_bind, hrun, Option.bind_some]
    cases mm.readGuestMemory ck descAddr 16 m with
    | none => exact .inr ⟨rfl, rfl⟩
    | some r =>
      cases r with
      | error e => exact .inl rfl
      | ok bytes => exact .inl rfl

/-- `c` is an entry of the table, with a number of descriptors left to it. -/
structure Fetched (ck : Bool) (mm : MemoryManager) (m : Mem) (descTable : GuestAddress)
    (queueSize : BitVec 16) (c : DescriptorChain) : Prop where
  ofTable : OfTable descTable queueSize c
  entry : entry ck mm m descTable queueSize c.index = some c.descriptor
  ttl : 0 < c.ttl.toNat

/-- `c` links to `d`. -/
def LinksTo (c d : DescriptorChain) : Prop := c.flags &&& VIRTQ_DESC_F_NEXT ≠ 0 ∧ d.index = c.next

theorem mem_ofEntry {d : Descriptor} (h : c ∈ ofEntry descTable queueSize index d) :
    c = ofDescriptor descTable queueSize index d := by
  unfold ofEntry at h
  split at h
  · exact (Option.some.inj h).symm
  · cases h

/-- What `checkedNew` returns starts a chain. -/
theorem fetched_checkedNew (h : Prog.run (mm.handler ck) (checkedNew descTable queueSize index) m =
    some (some c, m')) :
    m' = m ∧ c.index = index ∧ c.ttl = queueSize ∧ Fetched ck mm m descTable queueSize c := by
  rcases run_checkedNew ck mm descTable queueSize index m with hr | ⟨hr, -⟩
  · rw [hr] at h
    obtain ⟨ho, rfl⟩ := Prod.mk.inj (Option.some.inj h)
    obtain ⟨d, he, hd⟩ := Option.bind_eq_some_iff.mp ho
    obtain rfl := mem_ofEntry hd
    have hlt := BitVec.lt_def.mp (entry_lt he)
    exact ⟨rfl, rfl, rfl, ⟨rfl, rfl⟩, he, show 0 < queueSize.toNat by omega⟩
  · rw [hr] at h
    cases h

theorem hasNext_iff : c.hasNext = true ↔ c.flags &&& VIRTQ_DESC_F_NEXT ≠ 0 ∧ 1 < c.ttl.toNat := by
  unfold hasNext
  rw [Bool.and_eq_true, decide_eq_true_eq, decide_eq_true_eq, BitVec.lt_def]
  rfl

/-- The next descriptor is fetched from the entry that `c` links to. -/
theorem run_nextDescriptor_entry (hc : OfTable descTable queueSize c) (hn : c.hasNext = true) (m : Mem) :
    Prog.run (mm.handler ck) c.nextDescriptor m =
        some (((entry ck mm m descTable queueSize c.next).bind (ofEntry descTable queueSize c.next)).map
          fun d => { d with ttl := c.ttl - 1 }, m) ∨
      Prog.run (mm.handler ck) c.nextDescriptor m = none ∧
        entry ck mm m descTable queueSize c.next = none := by
  obtain ⟨rfl, rfl⟩ := hc
  rw [nextDescriptor, if_pos hn, Prog.run_bind]
  rcases run_checkedNew ck mm c.descTable c.queueSize c.next m with hr | ⟨hr, he⟩
  · exact .inl (by rw [hr]; rfl)
  · exact .inr ⟨by rw [hr]; rfl, he⟩

theorem run_nextDescriptor_last (hn : ¬ c.hasNext = true) (m : Mem) :
    Prog.run (mm.handler ck) c.nextDescriptor m = some (none, m) := by
  rw [nextDescriptor, if_neg hn]
  rfl

/-- What follows a fetched descriptor is one that it links to, with one less left to it. -/
theorem Fetched.next (hc : Fetched ck mm m descTable queueSize c) {o : Option DescriptorChain}
    (h : Prog.run (mm.handler ck) c.nextDescriptor m = some (o, m')) :
    m' = m ∧ ∀ d ∈ o, Fetched ck mm m descTable queueSize d ∧ LinksTo c d ∧
      d.ttl.toNat + 1 = c.ttl.toNat := by
  by_cases hn : c.hasNext = true
  · obtain ⟨hflag, httl⟩ := hasNext_iff.mp hn
    rcases run_nextDescriptor_entry hc.ofTable hn m with hr | ⟨hr, -⟩
    · rw [hr] at h
      obtain ⟨rfl, rfl⟩ := Prod.mk.inj (Option.some.inj h)
      refine ⟨rfl, fun d hd => ?_⟩
      obtain ⟨d', hd', rfl⟩ := Option.map_eq_some_iff.mp hd
      obtain ⟨e, he, hd'⟩ := Option.bind_eq_some_iff.mp hd'
      obtain rfl := mem_ofEntry hd'
      have ht : (c.ttl - 1).toNat = c.ttl.toNat - 1 := BitVec.toNat_sub_of_le (BitVec.le_def.mpr httl.le)
      refine ⟨⟨⟨rfl, rfl⟩, he, ?_⟩, ⟨hflag, rfl⟩, ?_⟩
      · show 0 < (c.ttl - 1).toNat
        omega
      · show (c.ttl - 1).toNat + 1 = c.ttl.toNat
        omega
    · rw [hr] at h
      cases h
  · rw [run_nextDescriptor_last hn] at h
    obtain ⟨rfl, rfl⟩ := Prod.mk.inj (Option.some.inj h)
    exact ⟨rfl, fun d hd => absurd hd (Option.not_mem_none d)⟩

/-! ## The iteration -/

theorem takeN_ended (k : Nat) : DescIter.takeN k ⟨none⟩ = pure ([], ⟨none⟩) := by
  cases k <;> rfl

theorem run_takeN_succ (k : Nat) (c : DescriptorChain) (m : Mem) :
    Prog.run (mm.handler ck) (DescIter.takeN (k + 1) ⟨some c⟩) m =
      (Prog.run (mm.handler ck) c.nextDescriptor m).bind fun r =>
        (Prog.run (mm.handler ck) (DescIter.takeN k ⟨r.1⟩) r.2).map fun s => ((c :: s.1.1, s.1.2), s.2) := by
  rw [DescIter.takeN, DescIter.iterNext, Prog.bind_assoc, Prog.run_bind]
  refine Option.bind_congr fun r _ => ?_
  show Prog.run _ (DescIter.takeN k ⟨r.1⟩ >>= _) r.2 = _
  rw [Prog.run_bind]
  exact Option.map_eq_bind.symm

/-- What up to `k` calls yield from a fetched descriptor on. -/
theorem Fetched.takeN (hc : Fetched ck mm m descTable queueSize c) {k : Nat} {cs : List DescriptorChain}
    {it : DescIter} (h : Prog.run (mm.handler ck) (DescIter.takeN k ⟨some c⟩) m = some ((cs, it), m')) :
    m' = m ∧ cs.length ≤ c.ttl.toNat ∧ (∀ d ∈ cs, Fetched ck mm m descTable queueSize d) ∧
      cs.IsChain LinksTo ∧ (∀ d ∈ cs.head?, d = c) ∧ (c.ttl.toNat ≤ k → it.next = none) := by
  induction k generalizing c cs it m' with
  | zero =>
    obtain ⟨hcs, rfl⟩ := Prod.mk.inj (Option.some.inj h)
    obtain ⟨rfl, rfl⟩ := Prod.mk.inj hcs
    have httl := hc.ttl
    exact ⟨rfl, Nat.zero_le _, fun d hd => absurd hd List.not_mem_nil, .nil,
      fun d hd => absurd hd (Option.not_mem_none d), fun hk => by omega⟩
  | succ k ih =>
    rw [run_takeN_succ] at h
    obtain ⟨⟨o, m₁⟩, hnext, h⟩ := Option.bind_eq_some_iff.mp h
    obtain ⟨⟨⟨ds, it'⟩, m₂⟩, hrest, h⟩ := Option.map_eq_some_iff.mp h
    obtain ⟨hcs, rfl⟩ := Prod.mk.inj h
    obtain ⟨rfl, rfl⟩ := Prod.mk.inj hcs
    obtain ⟨rfl, ho⟩ := hc.next hnext
    have httl := hc.ttl
    cases o with
    | none =>
      rw [takeN_ended] at hrest
      obtain ⟨hds, rfl⟩ := Prod.mk.inj (Option.some.inj hrest)
      obtain ⟨rfl, rfl⟩ := Prod.mk.inj hds
      refine ⟨rfl, httl, fun d hd => ?_, .singleton c, fun d hd => ?_, fun _ => rfl⟩
      · rw [List.mem_singleton.mp hd]
        exact hc
      · exact (Option.some.inj hd).symm
    | some d =>
      obtain ⟨hd, hlink, hd1⟩ := ho d rfl
      obtain ⟨rfl, hlen, hall, hchain, hhead, hend⟩ := ih hd hrest
      refine ⟨rfl, ?_, ?_, ?_, fun d hd => (Option.some.inj hd).symm, fun hk => hend (by omega)⟩
      · show ds.length + 1 ≤ c.ttl.toNat
        omega
      · exact List.forall_mem_cons.mpr ⟨hc, hall⟩
      · cases ds with
        | nil => exact .singleton c
        | cons e es =>
          obtain rfl := hhead e rfl
          exact .cons_cons hlink hchain

/-- The links from entry `index` lead over `l` to an entry without one. -/
inductive Walk (entry : BitVec 16 → Option Descriptor) : BitVec 16 → List (BitVec 16 × Descriptor) → Prop
  | last {i : BitVec 16} {d : Descriptor} (h : entry i = some d) (hn : d.flags &&& VIRTQ_DESC_F_NEXT = 0) :
    Walk entry i [(i, d)]
  | link {i : BitVec 16} {d : Descriptor} {l : List (BitVec 16 × Descriptor)} (h : entry i = some d)
    (hn : d.flags &&& VIRTQ_DESC_F_NEXT ≠ 0) (hl : Walk entry d.next l) : Walk entry i ((i, d) :: l)

theorem Walk.head {entry : BitVec 16 → Option Descriptor} {i : BitVec 16}
    {l : List (BitVec 16 × Descriptor)} (h : Walk entry i l) : (entry i).isSome ∧ 0 < l.length := by
  cases h with
  | last h | link h => exact ⟨by rw [h]; rfl, Nat.succ_pos _⟩

/-- On the way each entry is accepted. -/
theorem Walk.ofEntry {l : List (BitVec 16 × Descriptor)} {d : Descriptor}
    (h : Walk (DescriptorChain.entry ck mm m descTable queueSize) index l)
    (hd : DescriptorChain.entry ck mm m descTable queueSize index = some d) :
    ofEntry descTable queueSize index d = some (ofDescriptor descTable queueSize index d) := by
  refine if_pos ?_
  unfold isValid
  cases h with
  | last h hn =>
    obtain rfl := Option.some.inj (h.symm.trans hd)
    have hnext : (ofDescriptor descTable queueSize index _).hasNext = false :=
      Bool.eq_false_iff.mpr fun hn' => (hasNext_iff.mp hn').1 hn
    rw [hnext]
    rfl
  | link h hn hl =>
    obtain rfl := Option.some.inj (h.symm.trans hd)
    obtain ⟨e, he⟩ := Option.isSome_iff_exists.mp hl.head.1
    exact Bool.or_eq_true_iff.mpr (.inr (decide_eq_true (entry_lt he)))

/-- With enough left to it, the iterator walks to the end. -/
theorem Fetched.takeN_walk (hc : Fetched ck mm m descTable queueSize c) {l : List (BitVec 16 × Descriptor)}
    (hl : Walk (DescriptorChain.entry ck mm m descTable queueSize) c.index l) (httl : l.length ≤ c.ttl.toNat)
    {k : Nat} (hk : l.length ≤ k) :
    ∃ cs, Prog.run (mm.handler ck) (DescIter.takeN k ⟨some c⟩) m = some ((cs, ⟨none⟩), m) ∧
      cs.map (fun d => (d.index, d.descriptor)) = l := by
  induction k generalizing c l with
  | zero => exact absurd hl.head.2 (by omega)
  | succ k ih =>
    rw [run_takeN_succ]
    generalize hi : c.index = i at hl
    cases hl with
    | last h hn =>
      obtain rfl := Option.some.inj (hc.entry.symm.trans (hi ▸ h))
      have hn : ¬ c.hasNext = true := fun hn' => (hasNext_iff.mp hn').1 hn
      rw [run_nextDescriptor_last hn, Option.bind_some, takeN_ended]
      exact ⟨[c], rfl, by rw [← hi]; rfl⟩
    | @link _ d l h hn hl =>
      obtain rfl := Option.some.inj (hc.entry.symm.trans (hi ▸ h))
      rw [List.length_cons] at httl hk
      have hl : Walk (DescriptorChain.entry ck mm m descTable queueSize) c.next l := hl
      obtain ⟨hsome, hpos⟩ := hl.head
      obtain ⟨e, he⟩ := Option.isSome_iff_exists.mp hsome
      have hn : c.hasNext = true := hasNext_iff.mpr ⟨hn, by omega⟩
      rcases run_nextDescriptor_entry hc.ofTable hn m with hr | ⟨-, hnone⟩
      · rw [he, Option.bind_some, hl.ofEntry he] at hr
        obtain ⟨-, hd⟩ := hc.next hr
        obtain ⟨hf, -, ht⟩ := hd _ rfl
        obtain ⟨cs, hcs, hmap⟩ := ih hf hl (by omega) (by omega)
        rw [hr, Option.bind_some]
        refine ⟨c :: cs, congrArg (Option.map _) hcs, ?_⟩
        rw [List.map_cons, hmap, hi]
      · exact absurd (hnone.symm.trans he) (Option.some_ne_none e).symm

/-- The calls return if the table fits into the address space. -/
theorem always_takeN (mm : MemoryManager) (k : Nat) {it : DescIter} (hit : ∀ c ∈ it.next, c.TableFits ck) :
    Prog.Always (mm.handler ck) Access.isRead (fun _ => True) (it.takeN k) := by
  induction k generalizing it with
  | zero => trivial
  | succ k ih =>
    obtain ⟨_ | c⟩ := it
    · rw [takeN_ended]
      trivial
    have hc := hit c rfl
    rw [DescIter.takeN, DescIter.iterNext, Prog.bind_assoc]
    refine (always_nextDescriptor mm hc).bind fun o ho => ?_
    refine (ih fun d hd => ?_).bind fun _ _ => trivial
    obtain ⟨ht, hs⟩ := ho d hd
    rw [TableFits, ht, hs]
    exact hc

theorem ttl_next? {d : DescriptorChain} (h : next? mm m c = some d) :
    1 < c.ttl.toNat ∧ d.ttl.toNat + 1 = c.ttl.toNat := by
  have hr := (run_nextDescriptor mm c m).1
  rw [h] at hr
  by_cases hn : c.hasNext = true
  · obtain ⟨-, httl⟩ := hasNext_iff.mp hn
    rcases run_nextDescriptor_entry ⟨rfl, rfl⟩ hn m with hr' | ⟨hr', -⟩
    · rw [hr'] at hr
      obtain ⟨d', -, rfl⟩ := Option.map_eq_some_iff.mp (Prod.mk.inj (Option.some.inj hr)).1
      have ht : (c.ttl - 1).toNat = c.ttl.toNat - 1 := BitVec.toNat_sub_of_le (BitVec.le_def.mpr httl.le)
      exact ⟨httl, show (c.ttl - 1).toNat + 1 = c.ttl.toNat by omega⟩
    · rw [hr'] at hr
      cases hr
  · rw [run_nextDescriptor_last hn] at hr
    cases hr

theorem run_takeN_chainFrom {n : Nat} {c : DescriptorChain} (hc : c.ttl.toNat ≤ n + 1) (m : Mem) :
    Prog.run (mm.handler false) (DescIter.takeN (n + 1) ⟨some c⟩) m =
      some ((c.chainFrom mm m n, ⟨none⟩), m) := by
  induction n generalizing c with
  | zero =>
    rw [run_takeN_succ, (run_nextDescriptor mm c m).1]
    cases h : next? mm m c with
    | none => rfl
    | some d =>
      have := (ttl_next? h).1
      omega
  | succ n ih =>
    rw [run_takeN_succ, (run_nextDescriptor mm c m).1, Option.bind_some, chainFrom]
    cases h : next? mm m c with
    | none => rfl
    | some d =>
      have := (ttl_next? h).2
      exact congrArg (Option.map _) (ih (by omega))

/-- The descriptors of a chain are what its iterator yields. -/
theorem run_takeN_chain (mm : MemoryManager) (c : DescriptorChain) (m : Mem) :
    Prog.run (mm.handler false) (c.intoIter.takeN (c.ttl.toNat + 1)) m = some ((c.chain mm m, ⟨none⟩), m) :=
  run_takeN_chainFrom (Nat.le_succ _) m

end DescriptorChain

open DescriptorChain in
/-- The iterator over a chain of `checkedNew` yields at most as many descriptors as the table has, each
an entry of it that the one before links to, and is then at its end; links that end are followed to
their end. -/
theorem descIter_exact {descTable : GuestAddress} {q head : BitVec 16} {c : DescriptorChain}
    (hc : Prog.run (mm.handler ck) (checkedNew descTable q head) m = some (some c, m')) :
    (∀ k cs it m₁, Prog.run (mm.handler ck) (c.intoIter.takeN k) m = some ((cs, it), m₁) →
      m₁ = m ∧ cs.length ≤ q.toNat ∧
      (∀ d ∈ cs, d.index < q ∧ entry ck mm m descTable q d.index = some d.descriptor) ∧
      cs.IsChain LinksTo ∧ (∀ d ∈ cs.head?, d.index = head) ∧ (q.toNat ≤ k → it.next = none)) ∧
    (∀ k, c.TableFits ck → Prog.run (mm.handler ck) (c.intoIter.takeN k) m ≠ none) ∧
    ∀ l, Walk (entry ck mm m descTable q) head l → l.length ≤ q.toNat → ∀ k, l.length ≤ k →
      ∃ cs, Prog.run (mm.handler ck) (c.intoIter.takeN k) m = some ((cs, ⟨none⟩), m) ∧
        cs.map (fun d => (d.index, d.descriptor)) = l := by
  obtain ⟨-, hi, ht, hf⟩ := fetched_checkedNew hc
  refine ⟨fun k cs it m₁ h => ?_, fun k hfits h => ?_, fun l hl hlen k hk => ?_⟩
  · obtain ⟨hm, hlen, hall, hchain, hhead, hend⟩ := hf.takeN h
    rw [ht] at hlen hend
    refine ⟨hm, hlen, fun d hd => ⟨entry_lt (hall d hd).entry, (hall d hd).entry⟩, hchain, fun d hd => ?_, hend⟩
    rw [hhead d hd, hi]
  · have hit : ∀ d ∈ c.intoIter.next, d.TableFits ck := fun d hd => by
      rw [← Option.some.inj hd]
      exact hfits
    obtain ⟨x, m', hr, -⟩ := (always_takeN mm k hit).run m
    rw [hr] at h
    cases h
  · exact hf.takeN_walk (hi ▸ hl) (ht ▸ hlen) hk

/-- The memory of a table whose first entry links to itself. -/
def loopRam : Mem := Mem.write (fun _ => 0) 0x100c [1]

open DescriptorChain in
/-- Of a table of two entries, the entry is yielded at most twice. -/
theorem descIter_exact_loop :
    Prog.run (smallRam.handler true) (checkedNew 0x1000 2 0) loopRam =
        some (some (ofDescriptor 0x1000 2 0 ⟨0, 0, 1, 0⟩), loopRam) ∧
      ∀ k cs it m₁, Prog.run (smallRam.handler true)
          ((ofDescriptor 0x1000 2 0 ⟨0, 0, 1, 0⟩).intoIter.takeN k) loopRam = some ((cs, it), m₁) →
        cs.length ≤ 2 ∧ (2 ≤ k → it.next = none) := by
  have hc : Prog.run (smallRam.handler true) (checkedNew 0x1000 2 0) loopRam =
      some (some (ofDescriptor 0x1000 2 0 ⟨0, 0, 1, 0⟩), loopRam) := rfl
  refine ⟨hc, fun k cs it m₁ h => ?_⟩
  obtain ⟨-, hlen, -, -, -, hend⟩ := (descIter_exact hc).1 k cs it m₁ h
  exact ⟨hlen, hend⟩

end Whypa
