import Whypa.Framework.Span
import Whypa.Memory.Flat

/-!
# Windows of memory-mapped I/O

How a partition registers the windows of its devices beside the guest's RAM
(`Partition.registerMmioRegion`), and which registrations keep windows and RAM
apart (`windows_apart`): the check against the RAM compares a window's start to
the last address of a region as if that was exclusive, so that a window may
start at it.
-/

namespace Whypa

open Framework

/-- A window of memory-mapped I/O. -/
structure MmioRegion where
  gpa : GuestAddress
  size : BitVec 64
  name : String
  /-- The name of the device that handles it. -/
  handler : Option String
deriving DecidableEq, Repr

/-- Why a window is not registered: with its name and range, and those of what it
overlaps. -/
inductive RegisterError
  | sizeOverflow
  | overlapsMemory (gpa mmioEnd : BitVec 64) (name : String) (start last : BitVec 64)
  | overlapsMmio (gpa mmioEnd : BitVec 64) (name : String) (start existingEnd : BitVec 64)
      (existing : String)
deriving DecidableEq, Repr

/-- The memory of a partition: the regions of RAM, and the windows. -/
structure Partition where
  memory : MemoryManager
  mmioRegions : List MmioRegion

namespace Partition

/-- The first existing window that overlaps the range from `gpa` to `mmioEnd`, with
its end; `none` if its end overflows. -/
def overlapping (ck : Bool) (gpa mmioEnd : BitVec 64) :
    List MmioRegion → Option (Option (MmioRegion × BitVec 64))
  | [] => some none
  | w :: ws =>
    match plainAdd ck w.gpa w.size with
    | none => none
    | some existingEnd =>
      if gpa < existingEnd ∧ w.gpa < mmioEnd then some (some (w, existingEnd))
      else overlapping ck gpa mmioEnd ws

def registerMmioRegion (ck : Bool) (p : Partition) (gpa size : BitVec 64) (name : String)
    (handler : Option String) : Option (Except RegisterError Unit × Partition) :=
  match checkedAdd gpa size with
  | none => some (.error .sizeOverflow, p)
  | some mmioEnd =>
    match p.memory.regions.find? fun r => gpa < r.lastAddr ∧ r.startAddr < mmioEnd with
    | some r => some (.error (.overlapsMemory gpa mmioEnd name r.startAddr r.lastAddr), p)
    | none =>
      match overlapping ck gpa mmioEnd p.mmioRegions with
      | none => none
      | some (some (w, existingEnd)) =>
        some (.error (.overlapsMmio gpa mmioEnd name w.gpa existingEnd w.name), p)
      | some none => some (.ok (), { p with mmioRegions := p.mmioRegions ++ [⟨gpa, size, name, handler⟩] })

/-- The window that contains `gpa`; the end of a window that starts after it is not
computed. -/
def findMmio (ck : Bool) (gpa : BitVec 64) : List MmioRegion → Option (Option MmioRegion)
  | [] => some none
  | w :: ws =>
    if gpa < w.gpa then findMmio ck gpa ws
    else match plainAdd ck w.gpa w.size with
      | none => none
      | some stop => if gpa < stop then some (some w) else findMmio ck gpa ws

end Partition

/-! ## Ranges -/

def MemoryRegion.span (r : MemoryRegion) : Span := ⟨r.gpa.toNat, r.size.toNat⟩

def MmioRegion.span (w : MmioRegion) : Span := ⟨w.gpa.toNat, w.size.toNat⟩

/-- The window has an address, and so has its end. -/
structure MmioRegion.Valid (w : MmioRegion) : Prop where
  size_pos : 0 < w.size.toNat
  fits : w.gpa.toNat + w.size.toNat < 2 ^ 64

namespace MmioRegion

variable {w : MmioRegion} (ck : Bool)

theorem Valid.plainAdd (h : w.Valid) : plainAdd ck w.gpa w.size = some (w.gpa + w.size) :=
  plainAdd_of_lt ck h.fits

theorem Valid.toNat_add (h : w.Valid) : (w.gpa + w.size).toNat = w.span.stop :=
  BitVec.toNat_add_of_lt h.fits

end MmioRegion

namespace Partition

/-- What each call of `register_mmio_region` keeps: the windows are valid, and no two
of them and no window and region share an address. -/
structure Separated (p : Partition) : Prop where
  valid : ∀ w ∈ p.mmioRegions, w.Valid
  windows : Span.Separate MmioRegion.span p.mmioRegions
  ram : ∀ w ∈ p.mmioRegions, ∀ r ∈ p.memory.regions, ¬ w.span.Meets r.span

section
variable {ck : Bool} {gpa mmioEnd size a : BitVec 64} {ws : List MmioRegion}

/-- The check against the existing windows. -/
theorem overlapping_eq_none (hv : ∀ w ∈ ws, w.Valid) :
    overlapping ck gpa mmioEnd ws = some none ↔
      ∀ w ∈ ws, ¬ (gpa.toNat < w.span.stop ∧ w.gpa.toNat < mmioEnd.toNat) := by
  induction ws with
  | nil => simp [overlapping]
  | cons w ws ih =>
    obtain ⟨hw, hv⟩ := List.forall_mem_cons.mp hv
    rw [overlapping, hw.plainAdd ck, List.forall_mem_cons, ← ih hv, ← hw.toNat_add]
    simp only [BitVec.lt_def]
    split
    · rename_i h
      exact ⟨fun hn => absurd (Option.some.inj hn) (Option.some_ne_none _), fun hn => absurd h hn.1⟩
    · rename_i h
      exact (and_iff_right h).symm

theorem overlapping_ne_none (hv : ∀ w ∈ ws, w.Valid) : overlapping ck gpa mmioEnd ws ≠ none := by
  induction ws with
  | nil => exact Option.some_ne_none _
  | cons w ws ih =>
    obtain ⟨hw, hv⟩ := List.forall_mem_cons.mp hv
    rw [overlapping, hw.plainAdd ck]
    simp only
    split
    · exact Option.some_ne_none _
    · exact ih hv

/-- A search by address. -/
theorem findMmio_eq (hv : ∀ w ∈ ws, w.Valid) :
    findMmio ck a ws = some (ws.find? fun w => w.span.Has a.toNat) := by
  induction ws with
  | nil => rfl
  | cons w ws ih =>
    obtain ⟨hw, hv⟩ := List.forall_mem_cons.mp hv
    rw [findMmio, hw.plainAdd ck, List.find?_cons, ih hv]
    simp only [BitVec.lt_def, hw.toNat_add, Span.Has, MmioRegion.span]
    split
    · rename_i h
      simp [show ¬ w.gpa.toNat ≤ a.toNat by omega]
    · rename_i h
      by_cases hs : a.toNat < Span.stop ⟨w.gpa.toNat, w.size.toNat⟩
      · simp [hs, show w.gpa.toNat ≤ a.toNat by omega]
      · simp [hs]

end

/-! ## Calls -/

/-- A call of `register_mmio_region` for at least one byte. -/
structure Request where
  gpa : BitVec 64
  size : BitVec 64
  name : String
  handler : Option String
  size_pos : 0 < size.toNat

namespace Request

def span (q : Request) : Span := ⟨q.gpa.toNat, q.size.toNat⟩

def region (q : Request) : MmioRegion := ⟨q.gpa, q.size, q.name, q.handler⟩

/-- The end of the window is no address, or the window shares one with the RAM or with
another window. -/
def Blocked (q : Request) (p : Partition) : Prop :=
  2 ^ 64 ≤ q.gpa.toNat + q.size.toNat ∨ (∃ r ∈ p.memory.regions, q.span.Meets r.span) ∨
    ∃ w ∈ p.mmioRegions, q.span.Meets w.span

/-- The window does not start at the last address of a region. -/
def Clear (q : Request) (p : Partition) : Prop := ∀ r ∈ p.memory.regions, q.gpa ≠ r.lastAddr

instance (q : Request) (p : Partition) : Decidable (q.Clear p) :=
  inferInstanceAs (Decidable (∀ r ∈ p.memory.regions, q.gpa ≠ r.lastAddr))

end Request

/-- The call with the arguments of the request. -/
def register (ck : Bool) (p : Partition) (q : Request) : Option (Except RegisterError Unit × Partition) :=
  p.registerMmioRegion ck q.gpa q.size q.name q.handler

/-- The partition with one more window. -/
def add (p : Partition) (q : Request) : Partition :=
  { p with mmioRegions := p.mmioRegions ++ [q.region] }

variable {ck : Bool} {p : Partition} {q : Request}

/-- The check against the RAM, for a window that does not start at the last address of
a region. -/
theorem ramCheck_iff {r : MemoryRegion} (hne : q.gpa ≠ r.lastAddr) {mmioEnd : BitVec 64}
    (he : mmioEnd.toNat = q.span.stop) :
    (q.gpa < r.lastAddr ∧ r.startAddr < mmioEnd) ↔ q.span.Meets r.span := by
  have hne : q.gpa.toNat ≠ r.lastAddr.toNat := fun h => hne (BitVec.eq_of_toNat_eq h)
  have hpos := r.size_pos
  rw [Span.meets_iff q.size_pos hpos, BitVec.lt_def, BitVec.lt_def, he, r.toNat_lastAddr]
  rw [r.toNat_lastAddr] at hne
  simp only [Request.span, MemoryRegion.span, MemoryRegion.startAddr, Span.stop]
  omega

/-- A call fails, and changes nothing, exactly if the window is blocked. -/
theorem register_spec (hs : p.Separated) (hc : q.Clear p) :
    (q.Blocked p → ∃ e, p.register ck q = some (.error e, p)) ∧
      (¬ q.Blocked p → p.register ck q = some (.ok (), p.add q)) := by
  unfold register registerMmioRegion
  by_cases hov : q.gpa.toNat + q.size.toNat < 2 ^ 64
  · have he : (q.gpa + q.size).toNat = q.span.stop := BitVec.toNat_add_of_lt hov
    rw [checkedAdd_of_lt hov]
    simp only
    cases hf : p.memory.regions.find? fun r => q.gpa < r.lastAddr ∧ r.startAddr < q.gpa + q.size with
    | some r =>
      have hr := List.mem_of_find?_eq_some hf
      have hm := (ramCheck_iff (hc r hr) he).mp (by simpa using List.find?_some hf)
      exact ⟨fun _ => ⟨_, rfl⟩, fun h => absurd (.inr (.inl ⟨r, hr, hm⟩)) h⟩
    | none =>
      have hram : ∀ r ∈ p.memory.regions, ¬ q.span.Meets r.span := fun r hr hm =>
        List.find?_eq_none.mp hf r hr (by simpa using (ramCheck_iff (hc r hr) he).mpr hm)
      have hwin : ∀ w ∈ p.mmioRegions, (q.gpa.toNat < w.span.stop ∧
          w.gpa.toNat < (q.gpa + q.size).toNat) ↔ q.span.Meets w.span := fun w hw => by
        rw [Span.meets_iff q.size_pos (hs.valid w hw).size_pos, he]
        rfl
      cases ho : overlapping ck q.gpa (q.gpa + q.size) p.mmioRegions with
      | none => exact absurd ho (overlapping_ne_none hs.valid)
      | some o =>
        cases o with
        | some e =>
          refine ⟨fun _ => ⟨_, rfl⟩, fun h => ?_⟩
          have hno : overlapping ck q.gpa (q.gpa + q.size) p.mmioRegions = some none :=
            (overlapping_eq_none hs.valid).mpr fun w hw hm =>
              h (.inr (.inr ⟨w, hw, (hwin w hw).mp hm⟩))
          cases ho.symm.trans hno
        | none =>
          refine ⟨fun h => ?_, fun _ => rfl⟩
          have hno := (overlapping_eq_none hs.valid).mp ho
          rcases h with h | ⟨r, hr, hm⟩ | ⟨w, hw, hm⟩
          · omega
          · exact absurd hm (hram r hr)
          · exact absurd ((hwin w hw).mpr hm) (hno w hw)
  · have hn : checkedAdd q.gpa q.size = none := if_neg hov
    rw [hn]
    exact ⟨fun _ => ⟨_, rfl⟩, fun h => absurd (.inl (Nat.not_lt.mp hov)) h⟩

theorem Separated.add (hs : p.Separated) (hb : ¬ q.Blocked p) : (p.add q).Separated := by
  obtain ⟨hov, hram, hwin⟩ : q.gpa.toNat + q.size.toNat < 2 ^ 64 ∧
      (∀ r ∈ p.memory.regions, ¬ q.span.Meets r.span) ∧
      ∀ w ∈ p.mmioRegions, ¬ q.span.Meets w.span := by
    simpa [Request.Blocked] using hb
  refine ⟨?_, ?_, ?_⟩
  · intro w hw
    rcases List.mem_append.mp hw with hw | hw
    · exact hs.valid w hw
    · obtain rfl := List.mem_singleton.mp hw
      exact ⟨q.size_pos, hov⟩
  · refine List.pairwise_append.mpr ⟨hs.windows, List.pairwise_singleton .., fun w hw w' hw' => ?_⟩
    obtain rfl := List.mem_singleton.mp hw'
    have hn : ¬ q.region.span.Meets w.span := hwin w hw
    exact ((Span.apart_iff_not_meets q.size_pos (hs.valid w hw).size_pos).mpr hn).symm
  · intro w hw
    rcases List.mem_append.mp hw with hw | hw
    · exact hs.ram w hw
    · obtain rfl := List.mem_singleton.mp hw
      exact hram

/-! ## Runs -/

/-- A partition with any RAM, on which windows are registered in any order. -/
def system (ck : Bool) : System Partition Request :=
  .ofStep (fun p => p.mmioRegions = []) fun p q => (p.register ck q).map Prod.snd

theorem separated_of_reachable (h : ((system ck).under fun p q => q.Clear p).Reachable p) :
    p.Separated := by
  refine h.invariant (I := Separated) (fun p hp => ?_) ?_
  · have hp : p.mmioRegions = [] := hp
    refine ⟨?_, ?_, ?_⟩
    · simp [hp]
    · rw [hp]
      exact List.Pairwise.nil
    · simp [hp]
  · rintro p q p' hs ⟨hc, hr⟩
    obtain ⟨_, ho, rfl⟩ := Option.map_eq_some_iff.mp hr
    obtain ⟨hfail, hok⟩ := @register_spec ck p q hs hc
    by_cases hb : q.Blocked p
    · obtain ⟨e', he⟩ := hfail hb
      obtain rfl := Option.some.inj (ho.symm.trans he)
      exact hs
    · obtain rfl := Option.some.inj (ho.symm.trans (hok hb))
      exact hs.add hb

/-- An address of a region is in no window. -/
theorem Separated.findMmio_of_findRegion (hs : p.Separated) {a : BitVec 64} {r : MemoryRegion}
    (hf : p.memory.findRegion a = some r) : findMmio ck a p.mmioRegions = some none := by
  rw [findMmio_eq hs.valid, List.find?_eq_none.mpr fun w hw hh => ?_]
  have hw' : w.span.Has a.toNat := by simpa using hh
  exact hs.ram w hw r (List.mem_of_find?_eq_some hf)
    ⟨_, hw', MemoryManager.findRegion_contains hf⟩

theorem Separated.findMmio_perm (hs : p.Separated) {a : BitVec 64} {ws : List MmioRegion}
    (hp : ws.Perm p.mmioRegions) : findMmio ck a ws = findMmio ck a p.mmioRegions := by
  rw [findMmio_eq hs.valid, findMmio_eq fun w hw => hs.valid w (hp.mem_iff.mp hw),
    hs.windows.find?_perm hp fun w _ => decide_eq_true_iff]

/-- If no call asks for a window that starts at the last address of a region, after
every call windows and RAM share no address, the next call fails exactly if its window
shares one with them or has no end and then changes nothing, no address is both in RAM
and in a window, and the window of an address does not depend on the order of the
calls. -/
theorem windows_apart (h : ((system ck).under fun p q => q.Clear p).Reachable p) :
    (Span.Separate MmioRegion.span p.mmioRegions ∧
      ∀ w ∈ p.mmioRegions, ∀ r ∈ p.memory.regions, ¬ w.span.Meets r.span) ∧
      (∀ q : Request, q.Clear p →
        (q.Blocked p → ∃ e, p.register ck q = some (.error e, p)) ∧
          (¬ q.Blocked p → p.register ck q = some (.ok (), p.add q))) ∧
      (∀ a r, p.memory.findRegion a = some r → findMmio ck a p.mmioRegions = some none) ∧
      ∀ a ws, ws.Perm p.mmioRegions → findMmio ck a ws = findMmio ck a p.mmioRegions := by
  have hs := separated_of_reachable h
  exact ⟨⟨hs.windows, hs.ram⟩, fun q hc => register_spec hs hc,
    fun a r hf => hs.findMmio_of_findRegion hf, fun a ws hp => hs.findMmio_perm hp⟩

theorem smallSize_pos : 0 < (0x10000 : BitVec 64).toNat := by decide

/-- 64 KiB of RAM, and no window yet. -/
def smallPartition : Partition :=
  ⟨⟨[⟨0, 0x10000, .RWX, some 0, smallSize_pos, by decide⟩]⟩, []⟩

/-- A window right after the RAM. -/
def nextPage : Request := ⟨0x10000, 0x1000, "next", none, by decide⟩

/-- A window that starts at the last byte of the RAM. -/
def lastByte : Request := ⟨0xffff, 0x1000, "last", none, by decide⟩

theorem windows_apart_next : findMmio true 0x10004 (smallPartition.add nextPage).mmioRegions =
    some (some nextPage.region) ∧
    Span.Separate MmioRegion.span (smallPartition.add nextPage).mmioRegions := by
  have h : ((system true).under fun p q => q.Clear p).Reachable (smallPartition.add nextPage) :=
    .step (.init (s := smallPartition) rfl) (l := nextPage) ⟨by decide, rfl⟩
  exact ⟨by decide, (windows_apart h).1.1⟩

/-- The window is accepted, although it has the last byte of the RAM, which is then
both in RAM and in a window. -/
theorem lastByte_accepted :
    smallPartition.register true lastByte = some (.ok (), smallPartition.add lastByte) ∧
      lastByte.Blocked smallPartition ∧
      (smallPartition.memory.findRegion 0xffff).isSome ∧
      findMmio true 0xffff (smallPartition.add lastByte).mmioRegions =
        some (some lastByte.region) := by
  refine ⟨rfl, .inr (.inl ⟨_, List.mem_singleton_self _, 0xffff, ?_, ?_⟩), by decide, by decide⟩ <;>
  decide

end Partition

end Whypa
