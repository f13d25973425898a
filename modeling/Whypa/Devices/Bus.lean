import Whypa.Framework.Arith
import Whypa.Framework.OrdMap
import Whypa.Framework.Reach
import Whypa.Framework.Span

/-!
# The bus

How the bus routes an address to a device (`Bus.getDevice`) and takes a device in
(`Bus.insert`). Both look only at the last device that starts up to an address; as
the ranges of the devices are apart and each has an address (`Bus.Apart`), this
device is the only candidate (`Bus.Apart.getDevice_eq_some_iff`), and `insert`
refuses exactly what would break that (`Bus.Apart.insert_spec`). `bus_routes` is
about every sequence of calls.
-/

namespace Whypa

open Framework

/-- The range of a device: its first address and its length. Two ranges are equal, and
are ordered, by their first address. -/
structure BusRange where
  start : BitVec 64
  len : BitVec 64
deriving DecidableEq, Repr

namespace BusRange

def key (r : BusRange) : Nat := r.start.toNat

def span (r : BusRange) : Span := ⟨r.start.toNat, r.len.toNat⟩

end BusRange

inductive BusError
  /-- "New device overlaps with an old device." -/
  | overlap
deriving DecidableEq, Repr

/-- The devices, each under its range, in the order of the ranges. -/
structure Bus (D : Type) where
  devices : List (BusRange × D)

namespace Bus

variable {D : Type}

def new : Bus D := ⟨[]⟩

def firstBefore (bus : Bus D) (addr : BitVec 64) : Option (BusRange × D) :=
  OrdMap.lastLe BusRange.key addr.toNat bus.devices

def getDevice (bus : Bus D) (addr : BitVec 64) : Option (BitVec 64 × D) :=
  match bus.firstBefore addr with
  | none => none
  | some (⟨start, len⟩, dev) => if addr - start < len then some (addr - start, dev) else none

/-- Puts the device at the range. The end of the range is a plain sum: `none` if it
overflows in a build that checks for that. -/
def insert (ck : Bool) (bus : Bus D) (device : D) (base len : BitVec 64) :
    Option (Except BusError Unit × Bus D) :=
  if len = 0 then some (.error .overlap, bus)
  else if (bus.getDevice base).isSome then some (.error .overlap, bus)
  else match plainAdd ck base len with
    | none => none
    | some stop =>
      if (bus.firstBefore (stop - 1)).any fun e => base ≤ e.1.start then some (.error .overlap, bus)
      else match OrdMap.insert BusRange.key ⟨base, len⟩ device bus.devices with
        | (devices, some _) => some (.error .overlap, ⟨devices⟩)
        | (devices, none) => some (.ok (), ⟨devices⟩)

/-- What the lookups rely on and each call keeps: the devices are in order, each has an
address, and no two share one. -/
structure Apart (bus : Bus D) : Prop where
  ascending : OrdMap.Ascending BusRange.key bus.devices
  len_pos : ∀ e ∈ bus.devices, 0 < e.1.len.toNat
  separate : Span.Separate (fun e => e.1.span) bus.devices

variable {bus : Bus D} {a : BitVec 64} {e : BusRange × D}

theorem Apart.new : (Bus.new : Bus D).Apart := ⟨.nil, nofun, .nil⟩

/-- The device of an address is the last one that starts up to it. -/
theorem Apart.firstBefore_of_has (h : bus.Apart) (he : e ∈ bus.devices) (ha : e.1.span.Has a.toNat) :
    bus.firstBefore a = some e := by
  obtain ⟨x, hx, hle⟩ := h.ascending.exists_lastLe he ha.1
  obtain ⟨hmem, hxa, -⟩ := h.ascending.of_lastLe_eq_some hx
  have hpos := h.len_pos x hmem
  have hxe : e.1.span.Has x.1.key := ⟨hle, lt_of_le_of_lt hxa ha.2⟩
  have hxx : x.1.span.Has x.1.key := ⟨le_rfl, Nat.lt_add_of_pos_right hpos⟩
  rw [firstBefore, hx, h.separate.unique he hmem hxe hxx]

theorem Apart.getDevice_eq_some_iff (h : bus.Apart) {off : BitVec 64} {dev : D} :
    bus.getDevice a = some (off, dev) ↔
      ∃ r, (r, dev) ∈ bus.devices ∧ r.span.Has a.toNat ∧ off = a - r.start := by
  unfold getDevice
  constructor
  · intro hg
    split at hg
    · cases hg
    rename_i start len dev' hf
    obtain ⟨hmem, hle, -⟩ := h.ascending.of_lastLe_eq_some hf
    have hle : start.toNat ≤ a.toNat := hle
    obtain ⟨hlt, hg⟩ := Option.ite_none_right_eq_some.mp hg
    obtain ⟨rfl, rfl⟩ := Prod.mk.inj (Option.some.inj hg)
    rw [BitVec.lt_def, BitVec.toNat_sub_of_le (BitVec.le_def.mpr hle)] at hlt
    exact ⟨_, hmem, ⟨hle, (by omega : a.toNat < start.toNat + len.toNat)⟩, rfl⟩
  · rintro ⟨⟨start, len⟩, hmem, ha, rfl⟩
    have hle : start.toNat ≤ a.toNat := ha.1
    have hlt : a.toNat < start.toNat + len.toNat := ha.2
    rw [h.firstBefore_of_has hmem ha]
    have : a - start < len := by
      rw [BitVec.lt_def, BitVec.toNat_sub_of_le (BitVec.le_def.mpr hle)]
      omega
    exact if_pos this

theorem Apart.getDevice_eq_none_iff (h : bus.Apart) :
    bus.getDevice a = none ↔ ∀ e ∈ bus.devices, ¬ e.1.span.Has a.toNat := by
  rw [Option.eq_none_iff_forall_ne_some]
  constructor
  · intro hn e he ha
    exact hn (a - e.1.start, e.2) (h.getDevice_eq_some_iff.mpr ⟨e.1, he, ha, rfl⟩)
  · rintro hn ⟨off, dev⟩ hg
    obtain ⟨r, hmem, ha, -⟩ := h.getDevice_eq_some_iff.mp hg
    exact hn _ hmem ha

/-! ## Calls -/

/-- A call of `insert` for a range whose end is an address. -/
structure Request (D : Type) where
  device : D
  base : BitVec 64
  len : BitVec 64
  fits : base.toNat + len.toNat < 2 ^ 64

namespace Request

def range (q : Request D) : BusRange := ⟨q.base, q.len⟩

/-- The range has an address, and shares none with a device's. -/
def Free (q : Request D) (bus : Bus D) : Prop :=
  0 < q.len.toNat ∧ ∀ e ∈ bus.devices, ¬ q.range.span.Meets e.1.span

end Request

variable {ck : Bool} {q : Request D}

/-- The two lookups find a device that the range meets, if there is one. -/
theorem Apart.meets_iff (h : bus.Apart) (hpos : 0 < q.len.toNat) :
    (∃ e ∈ bus.devices, q.range.span.Meets e.1.span) ↔ (bus.getDevice q.base).isSome ∨
      (bus.firstBefore (q.base + q.len - 1)).any fun e => q.base ≤ e.1.start := by
  have hfits := q.fits
  have hlast : (q.base + q.len - 1).toNat = q.base.toNat + q.len.toNat - 1 := by
    rw [BitVec.toNat_sub_of_le, BitVec.toNat_add_of_lt q.fits]
    · rfl
    · rw [BitVec.le_def, BitVec.toNat_add_of_lt q.fits]
      exact (by omega : 1 ≤ q.base.toNat + q.len.toNat)
  constructor
  · rintro ⟨e, he, hm⟩
    obtain ⟨h1, h2⟩ := (Span.meets_iff (s := q.range.span) hpos (h.len_pos e he)).mp hm
    have h2 : e.1.start.toNat < q.base.toNat + q.len.toNat := h2
    by_cases hle : e.1.start.toNat ≤ q.base.toNat
    · have hsome : bus.getDevice q.base = some (q.base - e.1.start, e.2) :=
        h.getDevice_eq_some_iff.mpr ⟨e.1, he, ⟨hle, h1⟩, rfl⟩
      exact .inl (by rw [hsome]; rfl)
    · obtain ⟨x, hx, hex⟩ := h.ascending.exists_lastLe he
        (a := (q.base + q.len - 1).toNat) (by rw [hlast]; exact Nat.le_sub_one_of_lt h2)
      have hex : e.1.start.toNat ≤ x.1.start.toNat := hex
      refine .inr ?_
      rw [firstBefore, hx, Option.any_some, decide_eq_true_iff, BitVec.le_def]
      omega
  · rintro (hg | hf)
    · obtain ⟨⟨off, dev⟩, hg⟩ := Option.isSome_iff_exists.mp hg
      obtain ⟨r, hmem, ha, -⟩ := h.getDevice_eq_some_iff.mp hg
      exact ⟨_, hmem, q.base.toNat, ⟨le_rfl, Nat.lt_add_of_pos_right hpos⟩, ha⟩
    · obtain ⟨x, hx, hle⟩ := (Option.any_eq_true _ _).mp hf
      obtain ⟨hmem, hxa, -⟩ := h.ascending.of_lastLe_eq_some hx
      have hxa : x.1.start.toNat ≤ q.base.toNat + q.len.toNat - 1 := hlast ▸ hxa
      have hle : q.base.toNat ≤ x.1.start.toNat := by simpa [BitVec.le_def] using hle
      refine ⟨x, hmem, x.1.start.toNat, ⟨hle, ?_⟩, le_rfl, Nat.lt_add_of_pos_right (h.len_pos x hmem)⟩
      exact (by omega : x.1.start.toNat < q.base.toNat + q.len.toNat)

/-- A call takes the device in exactly if its range is free, and else changes nothing. -/
theorem Apart.insert_spec (h : bus.Apart) :
    (q.Free bus → ∃ bus' : Bus D, bus.insert ck q.device q.base q.len = some (.ok (), bus') ∧
      bus'.devices.Perm ((q.range, q.device) :: bus.devices) ∧ bus'.Apart) ∧
      (¬ q.Free bus → bus.insert ck q.device q.base q.len = some (.error .overlap, bus)) := by
  unfold insert
  by_cases hlen : q.len = 0
  · rw [if_pos hlen]
    exact ⟨fun hf => absurd hf.1 (by rw [hlen]; decide), fun _ => rfl⟩
  have hpos : 0 < q.len.toNat := Nat.pos_of_ne_zero fun h0 => hlen (BitVec.eq_of_toNat_eq h0)
  have hmeets := h.meets_iff (q := q) hpos
  rw [if_neg hlen, plainAdd_of_lt ck q.fits]
  by_cases hm : ∃ e ∈ bus.devices, q.range.span.Meets e.1.span
  · refine ⟨fun hf => ?_, fun _ => ?_⟩
    · obtain ⟨e, he, hm⟩ := hm
      exact absurd hm (hf.2 e he)
    · rcases hmeets.mp hm with hg | hf
      · rw [if_pos hg]
      · simp only [hf, if_true, ite_self]
  · obtain ⟨hg, hf⟩ := not_or.mp fun ho => hm (hmeets.mpr ho)
    have hapart : ∀ e ∈ bus.devices, ¬ q.range.span.Meets e.1.span := fun e he hme => hm ⟨e, he, hme⟩
    refine ⟨fun _ => ?_, fun hn => absurd ⟨hpos, hapart⟩ hn⟩
    simp only [if_neg hg, if_neg hf]
    have hne : ∀ e ∈ bus.devices, q.range.key ≠ e.1.key := fun e he hk =>
      hapart e he ⟨q.range.key, ⟨le_rfl, Nat.lt_add_of_pos_right hpos⟩,
        hk ▸ ⟨le_rfl, Nat.lt_add_of_pos_right (h.len_pos e he)⟩⟩
    obtain ⟨hnone, hp⟩ := OrdMap.insert_of_forall_ne q.range q.device hne
    have hasc := h.ascending.insert q.range q.device hne
    refine ⟨⟨(OrdMap.insert BusRange.key q.range q.device bus.devices).1⟩, ?_, hp, hasc, ?_, ?_⟩
    · generalize ho : OrdMap.insert BusRange.key _ q.device bus.devices = o
      have ho : OrdMap.insert BusRange.key q.range q.device bus.devices = o := ho
      rw [ho] at hnone ⊢
      obtain ⟨ds, old⟩ := o
      obtain rfl : old = none := hnone
      rfl
    · intro e he
      rcases List.mem_cons.mp (hp.mem_iff.mp he) with rfl | he
      · exact hpos
      · exact h.len_pos e he
    · refine Span.Separate.perm (List.pairwise_cons.mpr ⟨fun e he => ?_, h.separate⟩) hp
      exact (Span.apart_iff_not_meets hpos (h.len_pos e he)).mpr (hapart e he)

/-! ## Sequences of calls -/

/-- A bus, and the devices it has taken in, in the order of the calls. -/
structure History (D : Type) where
  bus : Bus D
  taken : List (BusRange × D)

def History.insert (ck : Bool) (s : History D) (q : Request D) : Option (History D) :=
  (s.bus.insert ck q.device q.base q.len).map fun
    | (.ok (), bus) => ⟨bus, s.taken ++ [(q.range, q.device)]⟩
    | (.error _, bus) => ⟨bus, s.taken⟩

/-- Any calls, in any order. -/
def system (ck : Bool) : System (History D) (Request D) :=
  .ofStep (fun s => s = ⟨new, []⟩) (History.insert ck)

theorem apart_of_reachable {s : History D} (h : (system ck).Reachable s) :
    s.bus.Apart ∧ s.bus.devices.Perm s.taken := by
  refine h.invariant (I := fun s => s.bus.Apart ∧ s.bus.devices.Perm s.taken) ?_ ?_
  · rintro s rfl
    exact ⟨.new, .refl _⟩
  · rintro s q s' ⟨ha, hp⟩ hs
    obtain ⟨o, ho, rfl⟩ := Option.map_eq_some_iff.mp hs
    obtain ⟨hfree, hfail⟩ := @Apart.insert_spec D s.bus ck q ha
    by_cases hf : q.Free s.bus
    · obtain ⟨bus', hok, hp', ha'⟩ := hfree hf
      obtain rfl := Option.some.inj (ho.symm.trans hok)
      exact ⟨ha', hp'.trans ((hp.cons _).trans (List.perm_append_singleton ..).symm)⟩
    · obtain rfl := Option.some.inj (ho.symm.trans (hfail hf))
      exact ⟨ha, hp⟩

/-- After any calls, in any order: the ranges are apart; the next call takes its device
in exactly if its range has an address and shares none, and else changes nothing; an
address is routed to the device that was taken in for a range that has it, with its
offset there, and to none if there is none; and the order of the calls does not matter. -/
theorem bus_routes {s : History D} (h : (system ck).Reachable s) :
    Span.Separate (fun e => e.1.span) s.bus.devices ∧
      (∀ q : Request D,
        (q.Free s.bus → ∃ bus' : Bus D, s.bus.insert ck q.device q.base q.len = some (.ok (), bus') ∧
          bus'.devices.Perm ((q.range, q.device) :: s.bus.devices)) ∧
        (¬ q.Free s.bus → s.bus.insert ck q.device q.base q.len = some (.error .overlap, s.bus))) ∧
      (∀ a off dev, s.bus.getDevice a = some (off, dev) ↔
        ∃ r, (r, dev) ∈ s.taken ∧ r.span.Has a.toNat ∧ off = a - r.start) ∧
      (∀ a, s.bus.getDevice a = none ↔ ∀ e ∈ s.taken, ¬ e.1.span.Has a.toNat) ∧
      ∀ s' : History D, (system ck).Reachable s' → s'.taken.Perm s.taken →
        ∀ a, s'.bus.getDevice a = s.bus.getDevice a := by
  have hroute : ∀ {s : History D}, (system ck).Reachable s → ∀ a off dev,
      s.bus.getDevice a = some (off, dev) ↔
        ∃ r, (r, dev) ∈ s.taken ∧ r.span.Has a.toNat ∧ off = a - r.start := fun h a off dev => by
    obtain ⟨ha, hp⟩ := apart_of_reachable h
    simp only [ha.getDevice_eq_some_iff, hp.mem_iff]
  obtain ⟨ha, hp⟩ := apart_of_reachable h
  refine ⟨ha.separate, fun q => ⟨fun hf => ?_, ha.insert_spec.2⟩, hroute h, fun a => ?_, ?_⟩
  · obtain ⟨bus', hok, hp', -⟩ := ha.insert_spec.1 hf
    exact ⟨bus', hok, hp'⟩
  · simp only [ha.getDevice_eq_none_iff, hp.mem_iff]
  · intro s' h' hperm a
    refine Option.ext fun ⟨off, dev⟩ => ?_
    simp only [hroute h, hroute h', hperm.mem_iff]

/-- Two adjacent ranges, the upper one taken in first. -/
def adjacent : History Nat :=
  ⟨⟨[(⟨0x10, 0x10⟩, 1), (⟨0x20, 0x10⟩, 2)]⟩, [(⟨0x20, 0x10⟩, 2), (⟨0x10, 0x10⟩, 1)]⟩

theorem bus_routes_adjacent : adjacent.bus.getDevice 0x1f = some (0xf, 1) ∧
    adjacent.bus.getDevice 0x20 = some (0, 2) := by
  have h0 : (system true).Reachable (⟨new, []⟩ : History Nat) := .init rfl
  have h : (system true).Reachable adjacent :=
    h0.foldlM [⟨2, 0x20, 0x10, by decide⟩, ⟨1, 0x10, 0x10, by decide⟩] rfl
  have hr := (bus_routes h).2.2.1
  exact ⟨(hr _ _ _).mpr ⟨⟨0x10, 0x10⟩, by decide, by decide, by decide⟩,
    (hr _ _ _).mpr ⟨⟨0x20, 0x10⟩, by decide, by decide, by decide⟩⟩

end Bus

end Whypa
