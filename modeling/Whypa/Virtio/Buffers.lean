import Mathlib.Data.List.Forall2
import Whypa.Memory.Bounds
import Whypa.Virtio.Iteration

/-!
# The buffers of readers and writers

For a chain whose readable descriptors are `c.readable` and whose descriptors from the first
writable one on are `c.writable`, a reader and a writer are created exactly if their
descriptors lie inside regions of guest memory, and their buffers are then the host images of
those descriptors, in order (`streams_cover`).
-/

namespace Whypa

open Framework

variable {mm : MemoryManager}

/-- The descriptor's bytes lie inside a region. -/
def Inside (mm : MemoryManager) (d : DescriptorChain) : Prop :=
  ∃ r ∈ mm.regions, r.contains d.addr ∧ d.addr.toNat - r.startAddr.toNat + d.len.toNat ≤ r.len.toNat

/-- `vs` is where the host has the descriptor's bytes. -/
structure Image (mm : MemoryManager) (d : DescriptorChain) (vs : VolatileSlice) : Prop where
  len : vs.len = d.len.toNat
  host : ∀ i < vs.len, mm.hostOf (d.addr + BitVec.ofNat 64 i) = some (vs.host + i)
  region : ∃ r ∈ mm.regions, ∃ hpa, r.hpa = some hpa ∧ hpa ≤ vs.host ∧ vs.host + vs.len ≤ hpa + r.len.toNat

/-- What the constructors are to make of the descriptors of their side. -/
structure Covers (mm : MemoryManager) (ds : List DescriptorChain)
    (x : Except ChainError DescriptorChainConsumer) : Prop where
  ok_iff : (∃ c, x = .ok c) ↔ ∀ d ∈ ds, Inside mm d
  images : ∀ c, x = .ok c → List.Forall₂ (Image mm) ds c.buffers ∧
    c.availableBytes = (ds.map fun d => d.len.toNat).sum ∧ c.bytesConsumed = 0
  not_overflow : x ≠ .error .descriptorChainOverflow

section
variable (hd : mm.Disjoint) (hh : ∀ r ∈ mm.regions, r.hpa.isSome) {d : DescriptorChain}
include hd hh

theorem mapped_iff : mapped mm d = true ↔ Inside mm d := by
  unfold mapped Inside
  constructor
  · intro h
    split at h
    · cases h
    rename_i r hf
    have hle := of_decide_eq_true (Bool.and_eq_true_iff.mp h).1
    have hc := MemoryManager.findRegion_contains hf
    refine ⟨r, MemoryManager.mem_of_findRegion hf, MemoryRegion.contains_iff.mpr hc, ?_⟩
    simp only [MemoryRegion.startAddr, MemoryRegion.len]
    omega
  · rintro ⟨r, hr, hc, hle⟩
    have hc := MemoryRegion.contains_iff.mp hc
    simp only [MemoryRegion.startAddr, MemoryRegion.len] at hle
    rw [MemoryManager.findRegion_of_mem hd hr hc]
    exact Bool.and_eq_true_iff.mpr ⟨decide_eq_true (by omega), hh r hr⟩

theorem image_buffer (h : Inside mm d) : Image mm d (buffer mm d) := by
  obtain ⟨r, hr, hc, hle⟩ := h
  have hc := MemoryRegion.contains_iff.mp hc
  have hf := MemoryManager.findRegion_of_mem hd hr hc
  obtain ⟨hpa, hp⟩ := Option.isSome_iff_exists.mp (hh r hr)
  simp only [MemoryRegion.startAddr, MemoryRegion.len] at hle
  have hb : buffer mm d = ⟨hpa + (d.addr.toNat - r.gpa.toNat), d.len.toNat⟩ := by
    simp only [buffer, hf, hp, Option.getD_some]
  rw [hb]
  refine ⟨rfl, fun i (hi : i < d.len.toNat) => ?_, r, hr, hpa, hp, Nat.le_add_right .., ?_⟩
  · exact (MemoryManager.hostOf_add hd hf hp (by omega)).2
  · simp only [MemoryRegion.len]
    omega

end

/-- As long as the lengths before a descriptor leave room for its own, they do not overflow. -/
theorem slice_ne_overflow (mm : MemoryManager) {total : Nat} (d : DescriptorChain)
    (ht : total + 2 ^ 32 ≤ 2 ^ 64) :
    Collect.slice mm total d ≠ .error .descriptorChainOverflow := by
  have hl := d.len.isLt
  unfold Collect.slice
  rw [if_neg (by omega)]
  cases mm.findRegion d.addr with
  | none => exact fun h => by cases h
  | some r =>
    dsimp only
    cases r.getSlice (d.addr.toNat - r.startAddr.toNat) d.len.toNat <;> exact fun h => by cases h

theorem foldWhile_add_ne_overflow (mm : MemoryManager) (ds : List DescriptorChain) (s : Collect)
    (he : s.error ≠ some .descriptorChainOverflow) (ht : s.totalLen + ds.length * 2 ^ 32 ≤ 2 ^ 64) :
    (foldWhile (Collect.add mm) ds s).error ≠ some .descriptorChainOverflow := by
  induction ds generalizing s with
  | nil => exact he
  | cons d ds ih =>
    rw [List.length_cons] at ht
    have hl := d.len.isLt
    have hs := slice_ne_overflow mm d (show s.totalLen + 2 ^ 32 ≤ 2 ^ 64 by omega)
    unfold foldWhile Collect.add
    cases h : Collect.slice mm s.totalLen d with
    | error e =>
      rw [if_neg Bool.false_ne_true]
      exact fun he' => hs (by rw [h, Option.some.inj he'])
    | ok vs =>
      rw [if_pos rfl]
      exact ih _ (fun he' => by cases he') (by dsimp only; omega)

/-- Collecting the buffers of at most `2 ^ 16` descriptors covers them. -/
theorem covers_add (hd : mm.Disjoint) (hh : ∀ r ∈ mm.regions, r.hpa.isSome) {ds : List DescriptorChain}
    (hl : ds.length ≤ 2 ^ 16) :
    Covers mm ds (DescriptorChainConsumer.ofCollect (foldWhile (Collect.add mm) ds .start)) := by
  have hover := foldWhile_add_ne_overflow mm ds .start (fun h => by cases h)
    (by simp only [Collect.start]; omega)
  have hne : DescriptorChainConsumer.ofCollect (foldWhile (Collect.add mm) ds .start) ≠
      .error .descriptorChainOverflow := fun h => by
    unfold DescriptorChainConsumer.ofCollect at h
    split at h
    · rename_i e he
      exact hover (by rw [he, Except.error.inj h])
    · cases h
  have hall : ds.all (mapped mm) = true ↔ ∀ d ∈ ds, Inside mm d := by
    rw [List.all_eq_true]
    exact forall₂_congr fun d _ => mapped_iff hd hh
  rcases @streamOf_add mm ds hl with ⟨ha, hx⟩ | ⟨ha, e, hx⟩
  · refine ⟨⟨fun _ => hall.mp ha, fun _ => ⟨_, hx⟩⟩, fun c hc => ?_, hne⟩
    obtain rfl := Except.ok.inj (hx.symm.trans hc)
    refine ⟨?_, ?_, rfl⟩
    · exact List.forall₂_map_right_iff.mpr (List.forall₂_same.mpr fun d hmem =>
        image_buffer hd hh (hall.mp ha d hmem))
    · have hlen : ∀ d ∈ ds, (VolatileSlice.len ∘ buffer mm) d = d.len.toNat := fun d hmem =>
        (image_buffer hd hh (hall.mp ha d hmem)).len
      rw [DescriptorChainConsumer.availableBytes, List.map_map, List.map_congr_left hlen]
  · refine ⟨⟨?_, fun h => ?_⟩, fun c hc => ?_, hne⟩
    · rintro ⟨c, hc⟩
      cases hx.symm.trans hc
    · rw [hall.mpr h] at ha
      cases ha
    · cases hx.symm.trans hc

theorem Reader.map_buffer_mk (x : Except ChainError DescriptorChainConsumer) :
    (x.map Reader.mk).map Reader.buffer = x := by
  cases x <;> rfl

theorem Writer.map_buffer_mk (x : Except ChainError DescriptorChainConsumer) :
    (x.map Writer.mk).map Writer.buffer = x := by
  cases x <;> rfl

/-- In either build, a program that only reads returns what it returns in the other. -/
theorem run_eq_of_checked {α : Type} {ck : Bool} {p : VProg α} {m m' : Mem} {x y : α}
    (hp : Prog.run (mm.handler false) p m = some (y, m)) (h : Prog.run (mm.handler ck) p m = some (x, m')) :
    m' = m ∧ x = y := by
  rcases Prog.run_of_refuses (handler_refuses ck mm) p m with hr | hr
  · cases hr.symm.trans h
  · obtain ⟨rfl, rfl⟩ := Prod.mk.inj (Option.some.inj ((hr.symm.trans h).symm.trans hp))
    exact ⟨rfl, rfl⟩

/-- A reader covers the descriptors before the first writable one, and a writer those from it on. In
`Reader.new` and `Writer.new` the address is not below its region, so that the subtraction of the
region's start does not fail. -/
theorem streams_cover (hd : mm.Disjoint) (hh : ∀ r ∈ mm.regions, r.hpa.isSome) (c : DescriptorChain) (m : Mem) :
    Prog.run (mm.handler false) (c.intoIter.takeN (c.ttl.toNat + 1)) m =
      some ((c.readable mm m ++ c.writable mm m, ⟨none⟩), m) ∧
    (∀ d ∈ c.readable mm m, d.isReadOnly = true) ∧ (∀ d ∈ (c.writable mm m).head?, d.isReadOnly = false) ∧
    (∀ (d : DescriptorChain) r, mm.findRegion d.addr = some r → r.startAddr ≤ d.addr) ∧
    ∀ ck, (c.TableFits ck → Prog.run (mm.handler ck) (Reader.new mm c) m ≠ none ∧
        Prog.run (mm.handler ck) (Writer.new mm c) m ≠ none) ∧
      (∀ x m', Prog.run (mm.handler ck) (Reader.new mm c) m = some (x, m') →
        m' = m ∧ Covers mm (c.readable mm m) (x.map Reader.buffer)) ∧
      ∀ x m', Prog.run (mm.handler ck) (Writer.new mm c) m = some (x, m') →
        m' = m ∧ Covers mm (c.writable mm m) (x.map Writer.buffer) := by
  refine ⟨?_, List.all_eq_true.mp List.all_takeWhile, fun d hmem => ?_, fun d r hf => ?_,
    fun ck => ⟨fun hfits => ?_, fun x m' h => ?_, fun x m' h => ?_⟩⟩
  · rw [DescriptorChain.run_takeN_chain, DescriptorChain.readable, DescriptorChain.writable,
      List.takeWhile_append_dropWhile]
  · have hnot := List.head?_dropWhile_not DescriptorChain.isReadOnly (c.chain mm m)
    rwa [show (List.dropWhile DescriptorChain.isReadOnly (c.chain mm m)).head? = some d from hmem] at hnot
  · exact BitVec.le_def.mpr (MemoryManager.findRegion_contains hf).1
  · obtain ⟨x, m₁, hr, -⟩ := (Reader.always_new mm hfits).run m
    obtain ⟨y, m₂, hw, -⟩ := (Writer.always_new mm hfits).run m
    rw [hr, hw]
    exact ⟨Option.some_ne_none _, Option.some_ne_none _⟩
  · obtain ⟨rfl, rfl⟩ := run_eq_of_checked (Reader.run_new_eq mm c m) h
    refine ⟨rfl, ?_⟩
    rw [Reader.map_buffer_mk]
    exact covers_add hd hh (length_readable c)
  · obtain ⟨rfl, rfl⟩ := run_eq_of_checked (Writer.run_new_eq mm c m) h
    refine ⟨rfl, ?_⟩
    rw [Writer.map_buffer_mk]
    exact covers_add hd hh (length_writable c)

/-- A descriptor of four bytes in RAM, which is the whole chain. -/
def fourBytes : DescriptorChain := .ofDescriptor 0x1000 2 0 ⟨0x4000, 4, 0, 0⟩

theorem streams_cover_fourBytes : ∃ x,
    Prog.run (smallRam.handler true) (Reader.new smallRam fourBytes) (fun _ => 0) = some (x, fun _ => 0) ∧
      Covers smallRam (fourBytes.readable smallRam fun _ => 0) (x.map Reader.buffer) := by
  have hh : ∀ r ∈ smallRam.regions, r.hpa.isSome := fun r hr => (MemoryManager.usable_smallRam r hr).2.2
  obtain ⟨-, -, -, -, hck⟩ := streams_cover MemoryManager.disjoint_smallRam hh fourBytes fun _ => 0
  obtain ⟨hruns, hreader, -⟩ := hck true
  obtain ⟨⟨x, m'⟩, hr⟩ := Option.ne_none_iff_exists'.mp (hruns fun _ => by decide).1
  obtain ⟨rfl, hc⟩ := hreader x m' hr
  exact ⟨x, hr, hc⟩

end Whypa
