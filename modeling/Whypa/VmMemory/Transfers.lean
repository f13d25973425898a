import Whypa.VmMemory.Access

/-!
# Transfers between the guest and devices

The loops of the `vm-memory` crate that bring bytes of the guest to a device and from
it (`io.rs`, `guest_memory.rs`), over slices and regions. A device takes or gives as
many bytes as it likes, fails, or is interrupted, and then the call is made again.
Whatever it does, it gets the guest's bytes, in order and each once
(`write_volatile_to`), and the guest gets those that it gives (`read_volatile_from`).
-/

namespace Whypa.VmMemory

open Framework

/-- A call that is made again if it was interrupted: `none` if it was so `n` times. -/
def retryEintr {σ α : Type} (call : σ → Except VolatileMemoryError α × σ) :
    Nat → σ → Option (Except VolatileMemoryError α × σ)
  | 0, _ => none
  | n + 1, s => match call s with
    | (.error (.ioError .interrupted), s) => retryEintr call n s
    | r => some r

section
variable {σ α β : Type} {call : σ → Except VolatileMemoryError α × σ} {tries : Nat}

/-- What the interrupted calls leave as it is, the last one finds as it was. -/
theorem retryEintr_eq_some {g : σ → β} {s : σ} {r : Except VolatileMemoryError α × σ}
    (hg : ∀ s s', call s = (.error (.ioError .interrupted), s') → g s' = g s)
    (h : retryEintr call tries s = some r) : ∃ s₁, g s₁ = g s ∧ call s₁ = r := by
  induction tries generalizing s with
  | zero => cases h
  | succ tries ih =>
    rw [retryEintr] at h
    split at h
    · rename_i s₁ hcall
      obtain ⟨s₂, hs, hr⟩ := ih h
      exact ⟨s₂, hs.trans (hg s s₁ hcall), hr⟩
    · exact ⟨s, rfl, Option.some.inj h⟩

/-- Without interruptions there is one call. -/
theorem retryEintr_calm (hcall : ∀ s s', call s ≠ (.error (.ioError .interrupted), s'))
    (ht : 0 < tries) (s : σ) : retryEintr call tries s = some (call s) := by
  obtain ⟨tries, rfl⟩ := Nat.exists_eq_add_of_lt ht
  rw [Nat.zero_add, retryEintr]
  split
  · rename_i s' hinterrupted
    exact absurd hinterrupted (hcall s s')
  · rfl

end

/-- A device that takes bytes: the first of those that it is given, as many as it says. -/
structure Sink (σ : Type) where
  writeVolatile : List Byte → σ → Except VolatileMemoryError Nat × σ
  received : σ → List Byte
  of_ok {bs : List Byte} {s s' : σ} {n : Nat} : writeVolatile bs s = (.ok n, s') →
    n ≤ bs.length ∧ received s' = received s ++ bs.take n
  of_error {bs : List Byte} {s s' : σ} {e : VolatileMemoryError} : writeVolatile bs s = (.error e, s') →
    received s' = received s

/-- A file, by what the host answers to the next calls; then it takes what it is given. -/
def fileSink : Sink (List (Except ErrorKind Nat) × List Byte) where
  writeVolatile
    | bs, ([], got) => (.ok bs.length, [], got ++ bs)
    | _, (.error kind :: answers, got) => (.error (.ioError kind), answers, got)
    | bs, (.ok n :: answers, got) => (.ok (min n bs.length), answers, got ++ bs.take (min n bs.length))
  received := Prod.snd
  of_ok {bs s s' n} h := by
    obtain ⟨_ | ⟨_ | k, answers⟩, got⟩ := s
    · cases h
      exact ⟨le_rfl, by rw [List.take_length]⟩
    · cases h
    · cases h
      exact ⟨Nat.min_le_right .., rfl⟩
  of_error {bs s s' e} h := by
    obtain ⟨_ | ⟨_ | k, answers⟩, got⟩ := s <;> cases h
    rfl

/-- `Cursor<&mut [u8]>`. -/
structure Cursor where
  inner : List Byte
  position : Nat
deriving DecidableEq, Repr

/-- A buffer takes what there is room for behind the position. -/
def cursorSink : Sink Cursor where
  writeVolatile bs s :=
    let pos := min s.position s.inner.length
    let n := min bs.length (s.inner.length - pos)
    (.ok n, ⟨s.inner.take pos ++ bs.take n ++ s.inner.drop (pos + n), s.position + n⟩)
  received s := s.inner.take s.position
  of_ok {bs s s' n} h := by
    obtain ⟨hn, rfl⟩ := Prod.mk.inj h
    obtain rfl := Except.ok.inj hn
    refine ⟨Nat.min_le_left .., ?_⟩
    rcases Nat.le_total s.position s.inner.length with hle | hle
    · rw [min_eq_left hle]
      refine List.take_left' ?_
      rw [List.length_append, List.length_take, List.length_take, min_eq_left hle, Nat.min_assoc,
        Nat.min_comm _ bs.length, ← Nat.min_assoc, Nat.min_self]
    · rw [min_eq_right hle, Nat.sub_self, Nat.min_zero, List.take_zero, List.append_nil, Nat.add_zero,
        List.append_nil, Nat.add_zero, List.take_append_drop]
  of_error := nofun

variable {σ : Type}

/-- The loop of `write_all_volatile`; an iteration takes a byte at least. -/
def writeAllVolatile (d : Sink σ) (m : Mem) (tries : Nat) : Nat → VolatileSlice → σ →
    Option (Except VolatileMemoryError Unit × σ)
  | 0, _, _ => none
  | n + 1, buf, s =>
    if buf.size = 0 then some (.ok (), s)
    else match retryEintr (d.writeVolatile (m.read buf.addr.toNat buf.size.toNat)) tries s with
      | none => none
      | some (.error e, s) => some (.error e, s)
      | some (.ok 0, s) => some (.error (.ioError .writeZero), s)
      | some (.ok k, s) => match buf.offset (BitVec.ofNat 64 k) with
        | .error e => some (.error e, s)
        | .ok buf => writeAllVolatile d m tries n buf s

namespace VolatileSlice

def writeAllVolatileTo (v : VolatileSlice) (d : Sink σ) (m : Mem) (tries : Nat) (addr count : BitVec 64)
    (s : σ) : Option (Except VolatileMemoryError Unit × σ) :=
  match v.subslice addr count with
  | .error e => some (.error e, s)
  | .ok v => match v.offset 0 with
    | .error e => some (.error e, s)
    | .ok buf => writeAllVolatile d m tries (buf.size.toNat + 1) buf s

end VolatileSlice

namespace GuestRegionCollection

/-- The slices, each written as a whole, behind the `acc` bytes that are written. -/
def writeSlicesTo (d : Sink σ) (m : Mem) (tries : Nat) : List VolatileSlice → Nat → σ →
    Option (Except GuestMemoryError Nat × σ)
  | [], acc, s => some (.ok acc, s)
  | v :: l, acc, s => match v.writeAllVolatileTo d m tries 0 v.size s with
    | none => none
    | some (.error e, s) => some (.error (.ofVolatile e), s)
    | some (.ok (), s) => writeSlicesTo d m tries l (acc + v.size.toNat) s

def writeVolatileTo (c : GuestRegionCollection) (d : Sink σ) (m : Mem) (tries : Nat) (addr : GuestAddress)
    (count : BitVec 64) (s : σ) : Option (Except GuestMemoryError Nat × σ) :=
  match stopOnError (c.getSlices addr count) with
  | .error e => some (.error e, s)
  | .ok l => writeSlicesTo d m tries l 0 s

def writeAllVolatileTo (c : GuestRegionCollection) (d : Sink σ) (m : Mem) (tries : Nat)
    (addr : GuestAddress) (count : BitVec 64) (s : σ) : Option (Except GuestMemoryError Unit × σ) :=
  (c.writeVolatileTo d m tries addr count s).map fun r => (whole count.toNat r.1, r.2)

end GuestRegionCollection

/-! ## What a device gets -/

/-- The device has got the bytes, or a first part of them and there was an error. -/
def Sink.Sent {ε α : Type} (d : Sink σ) (s : σ) (bs : List Byte) : Option (Except ε α × σ) → Prop
  | none => True
  | some (.ok _, s') => d.received s' = d.received s ++ bs
  | some (.error _, s') => ∃ part, part <+: bs ∧ d.received s' = d.received s ++ part

section
variable {ε α : Type} {d : Sink σ} {s s' : σ} {bs cs : List Byte} {m : Mem} {tries n : Nat}

theorem Sink.Sent.behind {r : Option (Except ε α × σ)} (h : d.received s' = d.received s ++ bs)
    (hr : d.Sent s' cs r) : d.Sent s (bs ++ cs) r := by
  rcases r with _ | ⟨_ | _, s''⟩
  · trivial
  · obtain ⟨part, hp, hs⟩ := hr
    exact ⟨bs ++ part, (List.prefix_append_right_inj bs).mpr hp, by rw [hs, h, List.append_assoc]⟩
  · have hs : d.received s'' = d.received s' ++ cs := hr
    show d.received s'' = d.received s ++ (bs ++ cs)
    rw [hs, h, List.append_assoc]

theorem Sink.retry_ok (h : retryEintr (d.writeVolatile bs) tries s = some (.ok n, s')) :
    n ≤ bs.length ∧ d.received s' = d.received s ++ bs.take n := by
  obtain ⟨s₁, hs, hcall⟩ := retryEintr_eq_some (g := d.received) (fun _ _ => d.of_error) h
  rw [← hs]
  exact d.of_ok hcall

theorem Sink.retry_error {e : VolatileMemoryError}
    (h : retryEintr (d.writeVolatile bs) tries s = some (.error e, s')) :
    d.received s' = d.received s := by
  obtain ⟨s₁, hs, hcall⟩ := retryEintr_eq_some (g := d.received) (fun _ _ => d.of_error) h
  rw [← hs]
  exact d.of_error hcall

theorem offset_of_le {v : VolatileSlice} {k : Nat} (hv : v.addr.toNat + v.size.toNat < 2 ^ 64)
    (hk : k ≤ v.size.toNat) :
    ∃ v', v.offset (BitVec.ofNat 64 k) = .ok v' ∧ v'.addr.toNat = v.addr.toNat + k ∧
      v'.size.toNat = v.size.toNat - k := by
  have hk64 : (BitVec.ofNat 64 k).toNat = k := toNat_ofNat_of_lt (by omega)
  have hsum : v.addr.toNat + (BitVec.ofNat 64 k).toNat < 2 ^ 64 := by omega
  have hsize : ¬ v.size < BitVec.ofNat 64 k := by
    rw [BitVec.lt_def, hk64]
    omega
  refine ⟨⟨v.addr + BitVec.ofNat 64 k, v.size - BitVec.ofNat 64 k,
    ⟨v.bitmap.inner, v.bitmap.baseOffset + BitVec.ofNat 64 k⟩⟩, ?_, ?_, ?_⟩
  · rw [VolatileSlice.offset, checkedAdd_of_lt hsum]
    exact if_neg hsize
  · show (v.addr + BitVec.ofNat 64 k).toNat = _
    rw [BitVec.toNat_add_of_lt hsum, hk64]
  · show (v.size - BitVec.ofNat 64 k).toNat = _
    rw [BitVec.toNat_sub_of_le (BitVec.le_def.mpr (by omega)), hk64]

/-- The loop gives the device the bytes of the slice, or a first part of them. -/
theorem writeAllVolatile_sent (d : Sink σ) (m : Mem) (tries : Nat) {v : VolatileSlice} (s : σ)
    (hv : v.addr.toNat + v.size.toNat < 2 ^ 64) (hn : v.size.toNat < n) :
    d.Sent s (m.read v.addr.toNat v.size.toNat) (writeAllVolatile d m tries n v s) := by
  induction n generalizing v s with
  | zero => cases hn
  | succ n ih =>
    rw [writeAllVolatile]
    split
    · rename_i hz
      show d.received s = d.received s ++ m.read v.addr.toNat v.size.toNat
      rw [hz]
      exact (List.append_nil _).symm
    · split
      · trivial
      · rename_i e s' hcall
        exact ⟨[], List.nil_prefix, by rw [Sink.retry_error hcall, List.append_nil]⟩
      · rename_i s' hcall
        obtain ⟨-, hs'⟩ := Sink.retry_ok hcall
        exact ⟨[], List.nil_prefix, hs'⟩
      · rename_i k s' hk hcall
        obtain ⟨hle, hs'⟩ := Sink.retry_ok hcall
        rw [Mem.length_read] at hle
        obtain ⟨v', hoff, haddr, hsize⟩ := offset_of_le hv hle
        have hpos : k ≠ 0 := hk
        rw [hoff]
        have hsplit : m.read v.addr.toNat v.size.toNat =
            (m.read v.addr.toNat v.size.toNat).take k ++ m.read v'.addr.toNat v'.size.toNat := by
          rw [haddr, hsize, ← Nat.add_sub_cancel' hle, Nat.add_sub_cancel_left, Mem.read_add,
            List.take_left' (Mem.length_read ..)]
        rw [hsplit]
        exact Sink.Sent.behind hs' (ih s' (by omega) (by omega))

/-- A device that is not interrupted. -/
def Sink.Calm (d : Sink σ) : Prop := ∀ bs s s', d.writeVolatile bs s ≠ (.error (.ioError .interrupted), s')

/-- With a device that is not interrupted the loop ends. -/
theorem writeAllVolatile_ne_none (hd : d.Calm) (ht : 0 < tries) (m : Mem) {v : VolatileSlice} (s : σ)
    (hv : v.addr.toNat + v.size.toNat < 2 ^ 64) (hn : v.size.toNat < n) :
    writeAllVolatile d m tries n v s ≠ none := by
  induction n generalizing v s with
  | zero => cases hn
  | succ n ih =>
    rw [writeAllVolatile]
    split
    · exact nofun
    · split
      · rename_i hcall
        rw [retryEintr_calm (hd _) ht] at hcall
        cases hcall
      · exact nofun
      · exact nofun
      · rename_i k s' hk hcall
        obtain ⟨hle, -⟩ := Sink.retry_ok hcall
        rw [Mem.length_read] at hle
        obtain ⟨v', hoff, haddr, hsize⟩ := offset_of_le hv hle
        have hpos : k ≠ 0 := hk
        rw [hoff]
        exact ih s' (by omega) (by omega)

end

namespace GuestRegionCollection

variable {c : GuestRegionCollection} {d : Sink σ} {a tries : Nat} {v : VolatileSlice}
  {l : List VolatileSlice}

theorem Part.addr_lt (h : c.Part a v) : v.addr.toNat + v.size.toNat < 2 ^ 64 := by
  have := v.bitmap.inner.mapped
  have := h.addr_eq
  have := h.within
  omega

theorem writeAllVolatileTo_eq (d : Sink σ) (m : Mem) (tries : Nat) (v : VolatileSlice) (s : σ) :
    v.writeAllVolatileTo d m tries 0 v.size s =
      writeAllVolatile d m tries (v.size.toNat + 1) v s := by
  simp only [VolatileSlice.writeAllVolatileTo, subslice_zero v le_rfl, offset_zero]

/-- The device gets the bytes of the pieces, in order. -/
theorem writeSlicesTo_sent (d : Sink σ) (m : Mem) (tries : Nat) (hl : c.Pieces a l) (acc : Nat) (s : σ) :
    d.Sent s ((c.guest m).read a (total l)) (writeSlicesTo d m tries l acc s) ∧
      ∀ n s', writeSlicesTo d m tries l acc s = some (.ok n, s') → n = acc + total l := by
  induction l generalizing a acc s with
  | nil =>
    refine ⟨(List.append_nil _).symm, fun n s' h => ?_⟩
    obtain ⟨h, -⟩ := Prod.mk.inj (Option.some.inj h)
    exact (Except.ok.inj h).symm
  | cons v l ih =>
    have hextent : (c.guest m).extent a v.size.toNat = v.size.toNat := by
      rw [extent_guest, hl.1.extent]
    have hone := writeAllVolatile_sent d m tries s hl.1.addr_lt (Nat.lt_succ_self _)
    rw [← writeAllVolatileTo_eq] at hone
    have htotal : total (v :: l) = v.size.toNat + total l := rfl
    rw [htotal, Holed.read_add hextent, ← hl.1.read_guest, writeSlicesTo]
    split
    · exact ⟨trivial, nofun⟩
    · rename_i e s' hcall
      rw [hcall] at hone
      obtain ⟨part, hp, hs⟩ := hone
      exact ⟨⟨part, hp.trans (List.prefix_append _ _), hs⟩, nofun⟩
    · rename_i s' hcall
      rw [hcall] at hone
      obtain ⟨hsent, hn⟩ := ih hl.2 (acc + v.size.toNat) s'
      refine ⟨hsent.behind hone, fun n s'' h => ?_⟩
      rw [hn n s'' h, Nat.add_assoc]

theorem writeSlicesTo_ne_none (hd : d.Calm) (ht : 0 < tries) (m : Mem) (hl : c.Pieces a l) (acc : Nat)
    (s : σ) : writeSlicesTo d m tries l acc s ≠ none := by
  induction l generalizing a acc s with
  | nil => exact nofun
  | cons v l ih =>
    rw [writeSlicesTo]
    split
    · rename_i hcall
      rw [writeAllVolatileTo_eq] at hcall
      exact absurd hcall (writeAllVolatile_ne_none hd ht m s hl.1.addr_lt (Nat.lt_succ_self _))
    · exact nofun
    · exact ih hl.2 _ _

theorem whole_eq_ok {k : Nat} {res : Except GuestMemoryError Nat} :
    whole k res = .ok () ↔ res = .ok k := by
  cases res with
  | error e => exact ⟨nofun, nofun⟩
  | ok n =>
    rw [whole]
    split <;> simp_all

/-- Whatever the device does, it gets the guest's bytes of the range, in order and each once, as far
as the range is mapped, or a first part of them and the caller gets the error. A range that is not
mapped where it starts gives it nothing. If the device is not interrupted, the transfer ends. -/
theorem write_volatile_to (c : GuestRegionCollection) (d : Sink σ) (m : Mem) (tries : Nat)
    (addr count : BitVec 64) (s : σ) :
    ((c.writeVolatileTo d m tries addr count s = none ∧ ¬ (d.Calm ∧ 0 < tries)) ∨
    (c.guest m addr.toNat = none ∧ count ≠ 0 ∧
      c.writeVolatileTo d m tries addr count s = some (.error (.invalidGuestAddress addr), s) ∧
      c.writeAllVolatileTo d m tries addr count s = some (.error (.invalidGuestAddress addr), s)) ∨
    (∃ s', c.writeVolatileTo d m tries addr count s =
        some (.ok ((c.guest m).extent addr.toNat count.toNat), s') ∧
      d.received s' = d.received s ++ (c.guest m).read addr.toNat count.toNat ∧
      (c.writeAllVolatileTo d m tries addr count s = some (.ok (), s') ↔
        ∀ i < count.toNat, (c.guest m (addr.toNat + i)).isSome)) ∨
    ∃ e s' part, c.writeVolatileTo d m tries addr count s = some (.error e, s') ∧
      c.writeAllVolatileTo d m tries addr count s = some (.error e, s') ∧
      part <+: (c.guest m).read addr.toNat count.toNat ∧ d.received s' = d.received s ++ part) := by
  obtain ⟨l, hl, htotal, hitems⟩ := c.stopOnError_getSlices addr count
  have hextent := c.extent_guest m addr.toNat count.toNat
  by_cases hz : c.host.extent addr.toNat count.toNat = 0 ∧ count ≠ 0
  · rw [if_pos hz] at hitems
    have hrun : c.writeVolatileTo d m tries addr count s = some (.error (.invalidGuestAddress addr), s) := by
      rw [writeVolatileTo, hitems]
    refine .inr (.inl ⟨?_, hz.2, hrun, ?_⟩)
    · have hzero : (c.guest m).extent addr.toNat count.toNat = 0 := hextent.trans hz.1
      refine (Holed.extent_eq_iff.mp hzero).2.2.resolve_left fun h => hz.2 ?_
      exact BitVec.eq_of_toNat_eq h.symm
    · rw [writeAllVolatileTo, hrun]
      rfl
  · rw [if_neg hz] at hitems
    have hrun : c.writeVolatileTo d m tries addr count s = writeSlicesTo d m tries l 0 s := by
      rw [writeVolatileTo, hitems]
    obtain ⟨hsent, hn⟩ := writeSlicesTo_sent d m tries hl 0 s
    rw [htotal, ← hextent, Holed.read_extent] at hsent
    rw [writeAllVolatileTo, hrun]
    rcases hr : writeSlicesTo d m tries l 0 s with _ | ⟨e | n, s'⟩
    · exact .inl ⟨rfl, fun h => writeSlicesTo_ne_none h.1 h.2 m hl 0 s hr⟩
    · rw [hr] at hsent
      obtain ⟨part, hp, hs⟩ := hsent
      exact .inr (.inr (.inr ⟨e, s', part, rfl, rfl, hp, hs⟩))
    · rw [hr] at hsent
      have hn := hn n s' hr
      rw [htotal, ← hextent, Nat.zero_add] at hn
      subst hn
      refine .inr (.inr (.inl ⟨s', rfl, hsent, ?_⟩))
      simp only [Option.map_some, Option.some.injEq, Prod.mk.injEq, and_true, whole_eq_ok,
        Except.ok.injEq, Holed.extent_eq_iff]
      exact ⟨fun h => h.2.1, fun h => ⟨le_rfl, h, .inl trivial⟩⟩

/-- A range over two regions, to a file that is interrupted and then takes a byte only. -/
theorem write_volatile_to_beside : ∃ s',
    besideCollection.writeVolatileTo fileSink (fun a => BitVec.ofNat 8 a) 2 0xffd 5
      ([.error .interrupted, .ok 1], []) = some (.ok 5, s') ∧
    s'.2 = (besideCollection.guest fun a => BitVec.ofNat 8 a).read 0xffd 5 := by
  have hresult : (besideCollection.writeVolatileTo fileSink (fun a => BitVec.ofNat 8 a) 2 0xffd 5
      ([.error .interrupted, .ok 1], [])).map Prod.fst = some (.ok 5) := by decide
  obtain ⟨hrun, -⟩ | ⟨-, -, hrun, -⟩ | ⟨s', hrun, hreceived, -⟩ | ⟨e, s', part, hrun, -⟩ :=
    write_volatile_to besideCollection fileSink (fun a => BitVec.ofNat 8 a) 2 0xffd 5
      ([.error .interrupted, .ok 1], [])
  · rw [hrun] at hresult
    cases hresult
  · rw [hrun] at hresult
    cases hresult
  · rw [hrun] at hresult
    exact ⟨s', hrun.trans (congrArg (fun r => some (r, s')) (Option.some.inj hresult)), hreceived⟩
  · rw [hrun] at hresult
    cases hresult

/-- A buffer that is too small is filled. -/
example : besideCollection.writeVolatileTo cursorSink (fun a => BitVec.ofNat 8 a) 1 0x10 5
    ⟨[0, 0, 0], 1⟩ = some (.error (.ioError .writeZero), ⟨[0, 0x10, 0x11], 3⟩) := by decide

end GuestRegionCollection

/-! ## From a device -/

/-- A device that gives bytes, as many of those that there is room for as it likes. -/
structure Source (σ : Type) where
  readVolatile : Nat → σ → Except VolatileMemoryError (List Byte) × σ
  given : σ → List Byte
  of_ok {n : Nat} {s s' : σ} {bs : List Byte} : readVolatile n s = (.ok bs, s') →
    bs.length ≤ n ∧ given s' = given s ++ bs
  of_error {n : Nat} {s s' : σ} {e : VolatileMemoryError} : readVolatile n s = (.error e, s') →
    given s' = given s

/-- A byte string as a device, with what it has given and what is left. -/
def sliceSource : Source (List Byte × List Byte) where
  readVolatile n s := (.ok (s.2.take n), s.1 ++ s.2.take n, s.2.drop n)
  given := Prod.fst
  of_ok h := by
    cases h
    exact ⟨List.length_take_le _ _, rfl⟩
  of_error := nofun

/-- One call, for `count` bytes at most. The slice is there, so that nothing panics (`none`). -/
def VolatileSlice.readVolatileFrom (v : VolatileSlice) (d : Source σ) (tries : Nat)
    (addr count : BitVec 64) (s : σ) (st : State) :
    Option (Except VolatileMemoryError Nat × σ × State) :=
  match v.offset addr with
  | .error e => some (.error e, s, st)
  | .ok v => match v.subslice 0 (if v.size ≤ count then v.size else count) with
    | .error _ => none
    | .ok v => match retryEintr (d.readVolatile v.size.toNat) tries s with
      | none => none
      | some (.error e, s) => some (.error e, s, st)
      | some (.ok bs, s) =>
        some (.ok bs.length, s, st.put { v with size := BitVec.ofNat 64 bs.length } bs)

namespace GuestRegionCollection

/-- A call for each slice; one that gives less does not end it. -/
def readSlicesFrom (d : Source σ) (tries : Nat) : List VolatileSlice → Nat → σ → State →
    Option (Except GuestMemoryError Nat × σ × State)
  | [], acc, s, st => some (.ok acc, s, st)
  | v :: l, acc, s, st => match v.readVolatileFrom d tries 0 v.size s st with
    | none => none
    | some (.error e, s, st) => some (.error (.ofVolatile e), s, st)
    | some (.ok n, s, st) => readSlicesFrom d tries l (acc + n) s st

def readVolatileFrom (c : GuestRegionCollection) (d : Source σ) (tries : Nat) (addr : GuestAddress)
    (count : BitVec 64) (s : σ) (st : State) : Option (Except GuestMemoryError Nat × σ × State) :=
  match stopOnError (c.getSlices addr count) with
  | .error e => some (.error e, s, st)
  | .ok l => readSlicesFrom d tries l 0 s st

def readExactVolatileFrom (c : GuestRegionCollection) (d : Source σ) (tries : Nat)
    (addr : GuestAddress) (count : BitVec 64) (s : σ) (st : State) :
    Option (Except GuestMemoryError Unit × σ × State) :=
  (c.readVolatileFrom d tries addr count s st).map fun r => (whole count.toNat r.1, r.2)

end GuestRegionCollection

/-- Byte strings and where they are, one behind the other from `lo` to `hi`, perhaps with gaps. -/
def InOrder : Nat → Nat → List (Nat × List Byte) → Prop
  | lo, hi, [] => lo ≤ hi
  | lo, hi, x :: l => lo ≤ x.1 ∧ InOrder (x.1 + x.2.length) hi l

def Flat.storeAll (f : Flat) (l : List (Nat × List Byte)) : Flat :=
  l.foldl (fun f x => f.store x.1 x.2) f

section
variable {lo lo' hi : Nat} {l : List (Nat × List Byte)} {f : Flat}

theorem InOrder.mono (h : InOrder lo hi l) (hlo : lo' ≤ lo) : InOrder lo' hi l := by
  cases l with
  | nil => exact Nat.le_trans hlo h
  | cons x l => exact ⟨Nat.le_trans hlo h.1, h.2⟩

theorem InOrder.length_le (h : InOrder lo hi l) : lo + (l.flatMap Prod.snd).length ≤ hi := by
  induction l generalizing lo with
  | nil => exact h
  | cons x l ih =>
    have := ih h.2
    have := h.1
    rw [List.flatMap_cons, List.length_append]
    omega

/-- Strings that fill the range have no gap. -/
theorem InOrder.storeAll (h : InOrder lo hi l) (hfull : lo + (l.flatMap Prod.snd).length = hi)
    (hmap : ∀ i < (l.flatMap Prod.snd).length, (f.bytes (lo + i)).isSome) :
    f.storeAll l = f.store lo (l.flatMap Prod.snd) := by
  induction l generalizing lo f with
  | nil => exact (f.store_nil lo).symm
  | cons x l ih =>
    obtain ⟨a, bs⟩ := x
    obtain ⟨hle, hrest⟩ := h
    have hlen := hrest.length_le
    have happend : (((a, bs) :: l).flatMap Prod.snd).length = bs.length + (l.flatMap Prod.snd).length := by
      rw [List.flatMap_cons, List.length_append]
    obtain rfl : lo = a := by
      have hle : lo ≤ a := hle
      have hlen : a + bs.length + (l.flatMap Prod.snd).length ≤ hi := hlen
      omega
    have hextent : f.bytes.extent lo bs.length = bs.length :=
      Holed.extent_eq_iff.mpr ⟨le_rfl, fun i hi => hmap i (by omega), .inl rfl⟩
    show (f.store lo bs).storeAll l = _
    rw [ih hrest (show lo + bs.length + _ = hi by omega) fun i hi => ?_, Flat.store_store hextent]
    · rfl
    · show ((f.bytes.write lo bs) (lo + bs.length + i)).isSome
      rw [Holed.isSome_write, Nat.add_assoc]
      exact hmap _ (by omega)

end

/-- A device that is not interrupted. -/
def Source.Calm (d : Source σ) : Prop := ∀ n s s', d.readVolatile n s ≠ (.error (.ioError .interrupted), s')

namespace GuestRegionCollection

variable {c : GuestRegionCollection} {a : Nat} {v : VolatileSlice} {l : List VolatileSlice}
  {st st₀ : State} {f : Flat}

theorem readVolatileFrom_cases (d : Source σ) (tries : Nat) (v : VolatileSlice) (s : σ) (st : State) :
    (v.readVolatileFrom d tries 0 v.size s st = none ∧ ¬ (d.Calm ∧ 0 < tries)) ∨
    (∃ e s', v.readVolatileFrom d tries 0 v.size s st = some (.error e, s', st) ∧
      d.given s' = d.given s) ∨
    ∃ bs s', v.readVolatileFrom d tries 0 v.size s st =
        some (.ok bs.length, s', st.put { v with size := BitVec.ofNat 64 bs.length } bs) ∧
      bs.length ≤ v.size.toNat ∧ d.given s' = d.given s ++ bs := by
  have hsub : v.subslice 0 (if v.size ≤ v.size then v.size else v.size) = .ok v := by
    rw [ite_self, subslice_zero v le_rfl]
  have hg : ∀ s s' : σ, d.readVolatile v.size.toNat s = (.error (.ioError .interrupted), s') →
      d.given s' = d.given s := fun _ _ => d.of_error
  simp only [VolatileSlice.readVolatileFrom, offset_zero, hsub]
  rcases hr : retryEintr (d.readVolatile v.size.toNat) tries s with _ | ⟨e | bs, s'⟩
  · refine .inl ⟨rfl, fun ⟨hd, ht⟩ => ?_⟩
    rw [retryEintr_calm (hd _) ht] at hr
    cases hr
  · obtain ⟨s₁, hs, hcall⟩ := retryEintr_eq_some hg hr
    exact .inr (.inl ⟨e, s', rfl, (d.of_error hcall).trans hs⟩)
  · obtain ⟨s₁, hs, hcall⟩ := retryEintr_eq_some hg hr
    obtain ⟨hle, hgiven⟩ := d.of_ok hcall
    exact .inr (.inr ⟨bs, s', rfl, hle, by rw [hgiven, hs]⟩)

/-- What the device gives for pieces is stored in order, within each of them from its start on. -/
theorem readSlicesFrom_given (d : Source σ) (tries : Nat) (hd : c.Distinct) (h : c.Related st₀ st f)
    (hl : c.Pieces a l) (acc : Nat) (s : σ) :
    (readSlicesFrom d tries l acc s st = none ∧ ¬ (d.Calm ∧ 0 < tries)) ∨
    ∃ res s' st' given, readSlicesFrom d tries l acc s st = some (res, s', st') ∧
      InOrder a (a + total l) given ∧ d.given s' = d.given s ++ given.flatMap Prod.snd ∧
      c.Related st₀ st' (f.storeAll given) ∧
      ∀ n, res = .ok n → n = acc + (given.flatMap Prod.snd).length := by
  induction l generalizing a acc s st f with
  | nil =>
    exact .inr ⟨_, s, st, [], rfl, Nat.le_refl a, (List.append_nil _).symm, h,
      fun n hn => (Except.ok.inj hn).symm⟩
  | cons v l ih =>
    have htotal : total (v :: l) = v.size.toNat + total l := rfl
    rw [readSlicesFrom]
    obtain ⟨hrun, hnot⟩ | ⟨e, s', hrun, hgiven⟩ | ⟨bs, s', hrun, hle, hgiven⟩ :=
      readVolatileFrom_cases d tries v s st
    · rw [hrun]
      exact .inl ⟨rfl, hnot⟩
    · rw [hrun]
      exact .inr ⟨_, s', st, [], rfl, Nat.le_add_right a _, by rw [hgiven]; exact (List.append_nil _).symm,
        h, nofun⟩
    · have hlen : (BitVec.ofNat 64 bs.length).toNat = bs.length := toNat_ofNat_of_lt (by omega)
      have hfirst : (BitVec.ofNat 64 bs.length).toNat ≤ v.size.toNat := by omega
      have hput := h.put hd (hl.1.first hfirst) hlen.symm
      rw [hrun]
      obtain hnone | ⟨res, s'', st', given, hrest, horder, hgiven', hrel, hn⟩ :=
        ih hput hl.2 (acc + bs.length) s'
      · exact .inl hnone
      · refine .inr ⟨res, s'', st', (a, bs) :: given, hrest, ⟨le_rfl, ?_⟩, ?_, hrel, fun n hres => ?_⟩
        · rw [htotal, ← Nat.add_assoc]
          exact horder.mono (Nat.add_le_add_left hle a)
        · rw [hgiven', hgiven, List.append_assoc]
          rfl
        · rw [hn n hres, List.flatMap_cons, List.length_append, Nat.add_assoc]

/-- Whatever the device does, each byte that it gives is stored once, in order and within the range,
as far as it is mapped; nothing else changes, and the number returned is that of these bytes. A slice
that the device does not fill leaves a gap; if the exact read is made, there is none, and the range
holds the bytes that the device has given. -/
theorem read_volatile_from (c : GuestRegionCollection) (hd : c.Distinct) (d : Source σ) (tries : Nat)
    (addr count : BitVec 64) (s : σ) (st : State) :
    (c.readVolatileFrom d tries addr count s st = none ∧ ¬ (d.Calm ∧ 0 < tries)) ∨
    ∃ res s' st' given, c.readVolatileFrom d tries addr count s st = some (res, s', st') ∧
      InOrder addr.toNat (addr.toNat + (c.guest st.mem).extent addr.toNat count.toNat) given ∧
      d.given s' = d.given s ++ given.flatMap Prod.snd ∧
      c.Related st st' ((⟨c.guest st.mem, ∅⟩ : Flat).storeAll given) ∧
      (∀ n, res = .ok n → n = (given.flatMap Prod.snd).length) ∧
      (c.readExactVolatileFrom d tries addr count s st = some (.ok (), s', st') →
        (∀ i < count.toNat, (c.guest st.mem (addr.toNat + i)).isSome) ∧
        ∃ bs, bs.length = count.toNat ∧ d.given s' = d.given s ++ bs ∧
          c.Related st st' ((⟨c.guest st.mem, ∅⟩ : Flat).store addr.toNat bs)) := by
  obtain ⟨l, hl, htotal, hitems⟩ := c.stopOnError_getSlices addr count
  rw [← extent_guest c st.mem] at htotal hitems
  by_cases hz : (c.guest st.mem).extent addr.toNat count.toNat = 0 ∧ count ≠ 0
  · rw [if_pos hz] at hitems
    have hrun : c.readVolatileFrom d tries addr count s st =
        some (.error (.invalidGuestAddress addr), s, st) := by
      rw [readVolatileFrom, hitems]
    refine .inr ⟨_, s, st, [], hrun, Nat.le_add_right _ _, (List.append_nil _).symm, Related.start c st,
      nofun, fun hexact => ?_⟩
    rw [readExactVolatileFrom, hrun] at hexact
    cases hexact
  · rw [if_neg hz] at hitems
    have hrun : c.readVolatileFrom d tries addr count s st = readSlicesFrom d tries l 0 s st := by
      rw [readVolatileFrom, hitems]
    rw [readExactVolatileFrom, hrun, ← htotal]
    obtain hnone | ⟨res, s', st', given, hrest, horder, hgiven, hrel, hn⟩ :=
      readSlicesFrom_given d tries hd (Related.start c st) hl 0 s
    · exact .inl hnone
    · have hn : ∀ n, res = .ok n → n = (given.flatMap Prod.snd).length := fun n hres => by
        rw [hn n hres, Nat.zero_add]
      refine .inr ⟨res, s', st', given, hrest, horder, hgiven, hrel, hn, fun hexact => ?_⟩
      rw [hrest] at hexact
      have hcount : res = .ok count.toNat := whole_eq_ok.mp (Prod.mk.inj (Option.some.inj hexact)).1
      have hlen := hn _ hcount
      have hle := (c.guest st.mem).extent_le addr.toNat count.toNat
      have hbytes := horder.length_le
      have hextent : (c.guest st.mem).extent addr.toNat count.toNat = count.toNat := by omega
      have hmap := (Holed.extent_eq_iff.mp hextent).2.1
      refine ⟨hmap, _, hlen.symm, hgiven, ?_⟩
      rwa [horder.storeAll (by omega) fun i hi => hmap i (by omega)] at hrel

/-- A string that is read over two regions, and is longer than the range. -/
theorem read_volatile_from_beside : ∃ st' bs,
    besideCollection.readExactVolatileFrom sliceSource 1 0xfff 2 ([], [1, 2, 3]) freshState =
      some (.ok (), ([1, 2], [3]), st') ∧ bs = [1, 2] ∧
    besideCollection.Related freshState st'
      ((⟨besideCollection.guest freshState.mem, ∅⟩ : Flat).store 0xfff bs) := by
  have hd : besideCollection.Distinct := List.pairwise_pair.mpr (by decide)
  obtain ⟨-, hnot⟩ | ⟨res, s', st', given, hrun, -, -, -, -, hexact⟩ :=
    read_volatile_from besideCollection hd sliceSource 1 0xfff 2 ([], [1, 2, 3]) freshState
  · exact absurd ⟨nofun, Nat.one_pos⟩ hnot
  · have hresult : (besideCollection.readExactVolatileFrom sliceSource 1 0xfff 2 ([], [1, 2, 3])
        freshState).map (fun r => (r.1, r.2.1)) = some (.ok (), ([1, 2], [3])) := by decide
    have hmap : besideCollection.readExactVolatileFrom sliceSource 1 0xfff 2 ([], [1, 2, 3]) freshState =
        some (whole 2 res, s', st') := by
      rw [readExactVolatileFrom, hrun]
      rfl
    rw [hmap] at hresult hexact
    obtain ⟨hok, rfl⟩ := Prod.mk.inj (Option.some.inj hresult)
    have hok : whole 2 res = .ok () := hok
    rw [hok] at hmap hexact
    obtain ⟨-, bs, -, hbs, hrel⟩ := hexact rfl
    exact ⟨st', bs, hmap, hbs.symm, hrel⟩

end GuestRegionCollection

end Whypa.VmMemory
