import Whypa.Framework.Lengths
import Whypa.Framework.Scatter
import Whypa.Virtio.Chains

/-!
# Streams of addresses

The buffers of a chain as one list of addresses (`addrs`): a reader and a writer go
through it from the front, in whatever way the chain splits it into descriptors. A read
gives the bytes at the next addresses (`Reader.run_read`, `Reader.run_readObj`), a write
stores bytes there (`Writer.run_write`, `Writer.run_writeAll`), and both drop these
addresses from the stream (`run_consume`).
-/

namespace Whypa

open Framework WProg Framework.Lengths

section
variable {ε : Type} {env : Env ε}

theorem run_mul (mm : MemoryManager) (env : Env ε) {n : Nat} (a b : BitVec n) (w : World ε) :
    Prog.run (mm.world false env) (lift (VProg.mul a b)) w = some (a * b, w) := by
  unfold VProg.mul
  split <;> rfl

theorem run_sub (mm : MemoryManager) (env : Env ε) {n : Nat} (a b : BitVec n) (w : World ε) :
    Prog.run (mm.world false env) (lift (VProg.sub a b)) w = some (a - b, w) := by
  unfold VProg.sub
  split <;> rfl

/-- The bytes in the buffers. -/
def contents (m : Mem) (bufs : List VolatileSlice) : List Byte :=
  bufs.flatMap fun vs => m.read vs.host vs.len

/-- The addresses of the bytes, in order. -/
def addrs (bufs : List VolatileSlice) : List Nat :=
  bufs.flatMap fun vs => (List.range vs.len).map fun i => vs.host + i

theorem addrs_cons (vs : VolatileSlice) (bufs : List VolatileSlice) :
    addrs (vs :: bufs) = ((List.range vs.len).map fun i => vs.host + i) ++ addrs bufs := rfl

theorem addrs_append (bufs bufs' : List VolatileSlice) : addrs (bufs ++ bufs') = addrs bufs ++ addrs bufs' :=
  List.flatMap_append

theorem length_addrs (bufs : List VolatileSlice) :
    (addrs bufs).length = (bufs.map VolatileSlice.len).sum := by
  simp [addrs, List.length_flatMap]

theorem contents_eq_gather (m : Mem) (bufs : List VolatileSlice) :
    contents m bufs = m.gather (addrs bufs) := by
  induction bufs with
  | nil => rfl
  | cons vs bufs ih => rw [addrs_cons, Mem.gather_append, ← ih, ← Mem.read_eq_gather]; rfl

theorem length_contents (m : Mem) (bufs : List VolatileSlice) :
    (contents m bufs).length = (bufs.map VolatileSlice.len).sum := by
  rw [contents_eq_gather, Mem.length_gather, length_addrs]

theorem run_copyOut (ck : Bool) (mm : MemoryManager) (env : Env ε) (n : Nat)
    (bufs : List VolatileSlice) (w : World ε) :
    Prog.run (mm.world ck env) (copyOut n bufs) w = some ((contents w.mem bufs).take n, w) := by
  induction bufs generalizing n with
  | nil => simp [copyOut, contents, Prog.pure_eq]
  | cons vs bufs ih =>
    have h1 : Prog.run (mm.world ck env) (act (.copyFrom vs.host (min n vs.len))) w =
        some (w.mem.read vs.host (min n vs.len), w) := rfl
    have ht : w.mem.read vs.host (min n vs.len) = (w.mem.read vs.host vs.len).take n := by
      simp only [Mem.read, ← List.map_take, List.take_range]
    rw [copyOut, Prog.run_bind, h1, Option.bind_some, Prog.run_bind, ih, ht]
    simp only [contents, List.flatMap_cons, List.take_append, Mem.length_read]
    rw [show n - min n vs.len = n - vs.len by omega]
    rfl

/-- The bytes are stored at the addresses in turn. -/
theorem run_copyIn (ck : Bool) (mm : MemoryManager) (env : Env ε) (bytes : List Byte)
    (bufs : List VolatileSlice) (w : World ε) : Prog.run (mm.world ck env) (copyIn bytes bufs) w =
      some (min bytes.length (addrs bufs).length, { w with mem := w.mem.scatter (addrs bufs) bytes }) := by
  induction bufs generalizing bytes w with
  | nil => simp [copyIn, addrs, Prog.pure_eq]
  | cons vs bufs ih =>
    let w₁ : World ε := { w with mem := w.mem.write vs.host (bytes.take vs.len) }
    have h1 : Prog.run (mm.world ck env) (act (.copyTo vs.host (bytes.take vs.len))) w =
        some ((), w₁) := rfl
    have hmem : w₁.mem.scatter (addrs bufs) (bytes.drop vs.len) =
        w.mem.scatter (addrs (vs :: bufs)) bytes := by
      have hlen : ((List.range vs.len).map fun i => vs.host + i).length = vs.len := by simp
      have hwrite : w.mem.write vs.host (bytes.take vs.len) =
          w.mem.scatter ((List.range vs.len).map fun i => vs.host + i) (bytes.take vs.len) := by
        rw [Mem.write_eq_scatter, ← Mem.scatter_take_left _ (List.map _ (List.range vs.len)),
          ← List.map_take, List.take_range, List.length_take, min_eq_left (Nat.min_le_left ..)]
      rw [addrs_cons, Mem.scatter_append, hlen, ← hwrite]
    have hcount : min bytes.length vs.len + min (bytes.drop vs.len).length (addrs bufs).length =
        min bytes.length (addrs (vs :: bufs)).length := by
      rw [addrs_cons, List.length_append, List.length_map, List.length_range, List.length_drop]
      omega
    rw [copyIn, Prog.run_bind, h1, Option.bind_some, Prog.run_bind, ih, hmem, Option.bind_some, ← hcount]
    rfl

namespace DescriptorChainConsumer

variable {c : DescriptorChainConsumer}

/-- The buffers taken hold all the bytes asked for. -/
theorem addrs_takeBufs (n : Nat) (bufs : List VolatileSlice) :
    (addrs (takeBufs n bufs)).take n = (addrs bufs).take n := by
  induction bufs generalizing n with
  | nil => rfl
  | cons vs bufs ih =>
    by_cases h : n = 0
    · simp [h]
    · have hlen : ((List.range vs.len).map fun i => vs.host + i).length = vs.len := by simp
      rw [takeBufs, if_neg h, addrs_cons, addrs_cons, List.take_append, List.take_append, hlen, ih]

theorem takeBufs_zero (bufs : List VolatileSlice) : takeBufs 0 bufs = [] := by
  cases bufs <;> rfl

/-- They are a part of the stream. -/
theorem addrs_takeBufs_prefix (n : Nat) (bufs : List VolatileSlice) :
    addrs (takeBufs n bufs) <+: addrs bufs := by
  induction bufs generalizing n with
  | nil => exact List.prefix_rfl
  | cons vs bufs ih =>
    by_cases h : n = 0
    · rw [takeBufs, if_pos h]
      exact List.nil_prefix
    · rw [takeBufs, if_neg h, addrs_cons, addrs_cons]
      exact (List.prefix_append_right_inj _).mpr (ih _)

theorem addrs_dropBytes (n : Nat) (bufs : List VolatileSlice) :
    addrs (dropBytes n bufs) = (addrs bufs).drop n := by
  induction bufs generalizing n with
  | nil => simp [dropBytes, addrs]
  | cons vs bufs ih =>
    have hlen : ((List.range vs.len).map fun i => vs.host + i).length = vs.len := by simp
    unfold dropBytes
    split
    · rename_i h
      have hdrop : ((List.range vs.len).map fun i => vs.host + i).drop n =
          (List.range (vs.len - n)).map fun i => vs.host + n + i := by
        refine List.ext_getElem (by simp) fun i _ _ => ?_
        simp [Nat.add_assoc]
      rw [addrs_cons, addrs_cons, List.drop_append_of_le_length (by rw [hlen]; omega), hdrop]
    · rename_i h
      have hnil : ((List.range vs.len).map fun i => vs.host + i).drop n = [] :=
        List.drop_eq_nil_of_le (by rw [hlen]; omega)
      rw [ih, addrs_cons, List.drop_append, hnil, hlen, List.nil_append]

/-- No buffers are taken if no bytes are asked for, or there are none. -/
theorem addrs_of_takeBufs_nil {n : Nat} {bufs : List VolatileSlice} (h : takeBufs n bufs = []) :
    min n (addrs bufs).length = 0 := by
  have := congrArg List.length (addrs_takeBufs n bufs)
  rw [h, List.length_take, List.length_take] at this
  exact this.symm.trans (by simp [addrs])

/-- The lengths of the buffers. -/
def lens (c : DescriptorChainConsumer) : List Nat := c.buffers.map VolatileSlice.len

/-- `c` after `k` bytes of it. -/
def after (c : DescriptorChainConsumer) (k : Nat) : DescriptorChainConsumer :=
  ⟨dropBytes k c.buffers, c.bytesConsumed + k⟩

theorem map_len_takeBufs (n : Nat) (bufs : List VolatileSlice) :
    (takeBufs n bufs).map VolatileSlice.len = takeTotal n (bufs.map VolatileSlice.len) := by
  induction bufs generalizing n with
  | nil => rfl
  | cons vs bufs ih =>
    rw [takeBufs, List.map_cons, takeTotal]
    split
    · rfl
    · rw [List.map_cons, ih]

theorem map_len_dropBytes (n : Nat) (bufs : List VolatileSlice) :
    (dropBytes n bufs).map VolatileSlice.len = dropTotal n (bufs.map VolatileSlice.len) := by
  induction bufs generalizing n with
  | nil => rfl
  | cons vs bufs ih =>
    rw [dropBytes, List.map_cons, dropTotal]
    split
    · rfl
    · exact ih _

theorem lens_after (c : DescriptorChainConsumer) (k : Nat) : (c.after k).lens = dropTotal k c.lens :=
  map_len_dropBytes k c.buffers

theorem length_addrs_takeBufs (n : Nat) (bufs : List VolatileSlice) :
    (addrs (takeBufs n bufs)).length = (takeTotal n (bufs.map VolatileSlice.len)).sum := by
  rw [length_addrs, map_len_takeBufs]

/-- Of the first `n` bytes no more is taken exactly if no buffer straddles them. -/
theorem length_takeBufs_iff {n : Nat} {bufs : List VolatileSlice} :
    (addrs (takeBufs n bufs)).length = min n (bufs.map VolatileSlice.len).sum ↔
      Cut n (bufs.map VolatileSlice.len) := by
  rw [length_addrs_takeBufs]
  exact sum_takeTotal_eq_iff

/-- Bytes are copied into the buffers taken for them as into all buffers. -/
theorem run_copyIn_takeBufs (ck : Bool) (mm : MemoryManager) (env : Env ε) (bytes : List Byte)
    (bufs : List VolatileSlice) (w : World ε) :
    Prog.run (mm.world ck env) (copyIn bytes (takeBufs bytes.length bufs)) w =
      some (min bytes.length (addrs bufs).length, { w with mem := w.mem.scatter (addrs bufs) bytes }) := by
  have htake := addrs_takeBufs bytes.length bufs
  have hlen := congrArg List.length htake
  rw [List.length_take, List.length_take] at hlen
  rw [run_copyIn, hlen, ← Mem.scatter_take_left, htake, Mem.scatter_take_left]

theorem run_consume_ok {ck : Bool} {mm : MemoryManager} {α : Type} (size : α → Nat) (empty : α) {n : Nat}
    {f : List VolatileSlice → WProg (Except IoError α)} {x : α} {w w' : World ε}
    (hne : takeBufs n c.buffers ≠ []) (hb : c.bytesConsumed + size x < 2 ^ 64)
    (hf : Prog.run (mm.world ck env) (f (takeBufs n c.buffers)) w = some (.ok x, w')) :
    Prog.run (mm.world ck env) (c.consume size empty n f) w = some ((.ok x, c.after (size x)), w') := by
  unfold consume
  simp only [List.isEmpty_iff, hne, if_false, Prog.run_bind, hf, Option.bind_some, hb.not_ge]
  rfl

/-- What is consumed is dropped from the stream. -/
theorem run_consume (ck : Bool) (mm : MemoryManager) (env : Env ε) {α : Type} (size : α → Nat)
    (empty : α) (n : Nat) (f : List VolatileSlice → WProg (Except IoError α)) {x : α} {k : Nat}
    {w w' : World ε}
    (hb : c.bytesConsumed + c.availableBytes < 2 ^ 64) (hk : size x = k) (hle : k ≤ c.availableBytes)
    (hnil : takeBufs n c.buffers = [] → x = empty ∧ w' = w ∧ k = 0)
    (hf : takeBufs n c.buffers ≠ [] →
      Prog.run (mm.world ck env) (f (takeBufs n c.buffers)) w = some (.ok x, w')) :
    ∃ c', addrs c'.buffers = (addrs c.buffers).drop k ∧ c'.bytesConsumed = c.bytesConsumed + k ∧
      Prog.run (mm.world ck env) (c.consume size empty n f) w = some ((.ok x, c'), w') := by
  by_cases h : takeBufs n c.buffers = []
  · obtain ⟨rfl, rfl, rfl⟩ := hnil h
    refine ⟨c, List.drop_zero.symm, rfl, ?_⟩
    unfold consume
    simp only [h, List.isEmpty_nil, if_true]
    rfl
  · refine ⟨c.after k, addrs_dropBytes .., rfl, ?_⟩
    have hlt : c.bytesConsumed + size x < 2 ^ 64 := by omega
    rw [run_consume_ok size empty h hlt (hf h), hk]

/-- A failure consumes nothing. -/
theorem run_consume_error {ck : Bool} {mm : MemoryManager} {α : Type} (size : α → Nat) (empty : α) {n : Nat}
    {f : List VolatileSlice → WProg (Except IoError α)} {e : IoError} {w w' : World ε}
    (hne : takeBufs n c.buffers ≠ [])
    (hf : Prog.run (mm.world ck env) (f (takeBufs n c.buffers)) w = some (.error e, w')) :
    Prog.run (mm.world ck env) (c.consume size empty n f) w = some ((.error e, c), w') := by
  unfold consume
  simp only [List.isEmpty_iff, hne, if_false, Prog.run_bind, hf, Option.bind_some]
  rfl

end DescriptorChainConsumer

theorem run_writeVectoredAtVolatile (ck : Bool) (mm : MemoryManager) (env : Env ε) (offset : BitVec 64)
    (bufs : List VolatileSlice) (w : World ε) :
    Prog.run (mm.world ck env) (writeVectoredAtVolatile offset bufs) w =
      some ((env (.writev (w.mem.gather (addrs bufs)) offset) w.ext).1.map fun _ => (addrs bufs).length,
        { w with ext := (env (.writev (w.mem.gather (addrs bufs)) offset) w.ext).2 }) := by
  have hall : (contents w.mem bufs).take (bufs.map VolatileSlice.len).sum = w.mem.gather (addrs bufs) := by
    rw [List.take_of_length_le (length_contents ..).le, contents_eq_gather]
  rw [writeVectoredAtVolatile, Prog.run_bind, run_copyOut, hall, length_addrs]
  rfl

theorem run_readVectoredAtVolatile (ck : Bool) (mm : MemoryManager) (env : Env ε) (offset : BitVec 64)
    (bufs : List VolatileSlice) (w : World ε) :
    Prog.run (mm.world ck env) (readVectoredAtVolatile offset bufs) w =
      some ((env (.readv (addrs bufs).length offset) w.ext).1.1.map fun _ => (addrs bufs).length,
        { w with
          mem := w.mem.scatter (addrs bufs) (env (.readv (addrs bufs).length offset) w.ext).1.2
          ext := (env (.readv (addrs bufs).length offset) w.ext).2 }) := by
  have hio : ∀ n, Prog.run (mm.world ck env) (io (.readv n offset)) w =
      some ((env (.readv n offset) w.ext).1, { w with ext := (env (.readv n offset) w.ext).2 }) := fun _ => rfl
  rw [readVectoredAtVolatile, ← length_addrs, Prog.run_bind, hio, Option.bind_some, Prog.run_bind, run_copyIn]
  rfl

/-! ## Reading -/

namespace Reader

/-- `r` has consumed and can give fewer than `2 ^ 64` bytes, as `new` checks of the chain's length. -/
def Bounded (r : Reader) : Prop := r.buffer.bytesConsumed + r.availableBytes < 2 ^ 64

instance (r : Reader) : Decidable r.Bounded := Nat.decLt ..

/-- The addresses that are left. -/
def addrs (r : Reader) : List Nat := Whypa.addrs r.buffer.buffers

theorem length_addrs (r : Reader) : r.addrs.length = r.availableBytes := Whypa.length_addrs _

/-- `r'` is `r` after `n` bytes of it. -/
structure Advanced (r r' : Reader) (n : Nat) : Prop where
  le : n ≤ r.availableBytes
  addrs : r'.addrs = r.addrs.drop n
  bytesConsumed : r'.buffer.bytesConsumed = r.buffer.bytesConsumed + n

variable {r r' r'' : Reader} {n k : Nat}

theorem Advanced.refl (r : Reader) : Advanced r r 0 := ⟨Nat.zero_le _, rfl, rfl⟩

theorem Advanced.availableBytes (h : Advanced r r' n) : r'.availableBytes = r.availableBytes - n := by
  rw [← length_addrs, h.addrs, List.length_drop, length_addrs]

theorem Advanced.bounded (h : Advanced r r' n) (hb : r.Bounded) : r'.Bounded := by
  have := h.le
  have hb' : r.buffer.bytesConsumed + r.availableBytes < 2 ^ 64 := hb
  unfold Bounded
  rw [h.availableBytes, h.bytesConsumed]
  omega

theorem Advanced.trans (h : Advanced r r' n) (h' : Advanced r' r'' k) : Advanced r r'' (n + k) := by
  have hle := h.le
  have hle' := h'.le
  rw [h.availableBytes] at hle'
  refine ⟨by omega, ?_, ?_⟩
  · rw [h'.addrs, h.addrs, List.drop_drop]
  · rw [h'.bytesConsumed, h.bytesConsumed, Nat.add_assoc]

/-- `read` gives the bytes asked for, or all that are left. -/
theorem run_read (ck : Bool) (mm : MemoryManager) (env : Env ε) (hb : r.Bounded) (n : Nat) (w : World ε) :
    ∃ r', Advanced r r' (min n r.availableBytes) ∧ Prog.run (mm.world ck env) (r.read n) w =
      some ((.ok ((w.mem.gather r.addrs).take n), r'), w) := by
  have hlen : ((w.mem.gather r.addrs).take n).length = min n r.availableBytes := by
    rw [List.length_take, Mem.length_gather, length_addrs]
  have htake : (contents w.mem (DescriptorChainConsumer.takeBufs n r.buffer.buffers)).take n =
      (w.mem.gather r.addrs).take n := by
    rw [contents_eq_gather, Mem.gather, ← List.map_take, DescriptorChainConsumer.addrs_takeBufs,
      List.map_take]
    rfl
  have hnil : DescriptorChainConsumer.takeBufs n r.buffer.buffers = [] →
      (w.mem.gather r.addrs).take n = [] ∧ w = w ∧ min n r.availableBytes = 0 := by
    intro h
    have h0 := DescriptorChainConsumer.addrs_of_takeBufs_nil h
    rw [show (Whypa.addrs r.buffer.buffers).length = r.availableBytes from r.length_addrs] at h0
    exact ⟨List.length_eq_zero_iff.mp (hlen.trans h0), rfl, h0⟩
  obtain ⟨c', ha, hc, hr⟩ := DescriptorChainConsumer.run_consume ck mm env List.length [] n
    (fun bufs => copyOut n bufs >>= fun bytes => pure (.ok bytes)) hb hlen (Nat.min_le_right ..) hnil
    fun _ => by rw [Prog.run_bind, run_copyOut, htake]; rfl
  exact ⟨⟨c'⟩, ⟨Nat.min_le_right .., ha, hc⟩, by rw [read, Prog.run_bind, hr]; rfl⟩

/-- `read_exact` succeeds exactly if there are enough bytes; if not, none are left. -/
theorem run_readLoop (ck : Bool) (mm : MemoryManager) (env : Env ε) {fuel n : Nat} (hb : r.Bounded)
    (hf : n ≤ fuel) (w : World ε) :
    ∃ x r', Prog.run (mm.world ck env) (readLoop fuel n r) w = some ((x, r'), w) ∧
      Advanced r r' (min n r.availableBytes) ∧
      (n ≤ r.availableBytes → x = .ok ((w.mem.gather r.addrs).take n)) ∧
      (r.availableBytes < n → ∃ e, x = .error e) := by
  have hzero : ∀ (fuel : Nat) (r : Reader), Prog.run (mm.world ck env) (readLoop fuel 0 r) w =
      some ((.ok [], r), w) ∧ Advanced r r (min 0 r.availableBytes) := fun fuel r => by
    rw [Nat.zero_min]
    cases fuel <;> exact ⟨rfl, .refl r⟩
  induction fuel generalizing n r with
  | zero =>
    obtain rfl : n = 0 := by omega
    obtain ⟨hr, hadv⟩ := hzero 0 r
    exact ⟨.ok [], r, hr, hadv, fun _ => rfl, fun h => absurd h (Nat.not_lt_zero _)⟩
  | succ fuel ih =>
    cases n with
    | zero =>
      obtain ⟨hr, hadv⟩ := hzero (fuel + 1) r
      exact ⟨.ok [], r, hr, hadv, fun _ => rfl, fun h => absurd h (Nat.not_lt_zero _)⟩
    | succ n =>
      obtain ⟨r', hadv, hr⟩ := run_read ck mm env hb (n + 1) w
      have hl : ((w.mem.gather r.addrs).take (n + 1)).length = min (n + 1) r.availableBytes := by
        rw [List.length_take, Mem.length_gather, length_addrs]
      have hrest := hadv.availableBytes
      rw [readLoop, Prog.run_bind, hr, Option.bind_some]
      generalize (w.mem.gather r.addrs).take (n + 1) = bs at hl
      cases bs with
      | nil =>
        rw [List.length_nil] at hl
        exact ⟨.error .unexpectedEof, r', rfl, hadv, fun h => by omega, fun _ => ⟨_, rfl⟩⟩
      | cons b bs =>
        rw [List.length_cons] at hl
        dsimp only
        rcases Nat.lt_or_ge r.availableBytes (n + 1) with hlt | hge
        · obtain ⟨x, r'', hr', hadv', -, herr⟩ := ih (n := n - bs.length) (hadv.bounded hb) (by omega)
          obtain ⟨e, rfl⟩ := herr (by omega)
          have hmore : min (n - bs.length) r'.availableBytes = 0 := by omega
          rw [hmore] at hadv'
          rw [Prog.run_bind, hr', Option.bind_some]
          exact ⟨.error e, r'', rfl, hadv.trans hadv', fun h => by omega, fun _ => ⟨e, rfl⟩⟩
        · have h0 : n - bs.length = 0 := by omega
          rw [h0, Prog.run_bind, (hzero fuel r').1, Option.bind_some]
          refine ⟨.ok (b :: bs), r', ?_, hadv, fun _ => rfl, fun h => by omega⟩
          exact congrArg (fun l => some ((Except.ok l, r'), w)) (List.append_nil (b :: bs))

theorem run_readObj (ck : Bool) (mm : MemoryManager) (env : Env ε) (T : Type) [FromBytes T] (hb : r.Bounded)
    (w : World ε) :
    ∃ x r', Prog.run (mm.world ck env) (r.readObj T) w = some ((x, r'), w) ∧
      Advanced r r' (min (FromBytes.size T) r.availableBytes) ∧
      (FromBytes.size T ≤ r.availableBytes →
        x = .ok (FromBytes.ofBytes ((w.mem.gather r.addrs).take (FromBytes.size T)))) ∧
      (r.availableBytes < FromBytes.size T → ∃ e, x = .error e) := by
  obtain ⟨x, r', hr, hadv, hok, herr⟩ := run_readLoop ck mm env hb (Nat.le_refl (FromBytes.size T)) w
  refine ⟨x.map FromBytes.ofBytes, r', ?_, hadv, fun h => ?_, fun h => ?_⟩
  · rw [readObj, Prog.run_bind, readExact, hr]
    rfl
  · rw [hok h]
    rfl
  · obtain ⟨e, rfl⟩ := herr h
    exact ⟨e, rfl⟩

/-- The buffers of all that is left are those that are left. -/
theorem addrs_takeBufs_all (r : Reader) :
    Whypa.addrs (DescriptorChainConsumer.takeBufs r.availableBytes r.buffer.buffers) = r.addrs := by
  have htake := DescriptorChainConsumer.addrs_takeBufs r.availableBytes r.buffer.buffers
  have hlen : (Whypa.addrs r.buffer.buffers).length = r.availableBytes := r.length_addrs
  have hle := (DescriptorChainConsumer.addrs_takeBufs_prefix r.availableBytes r.buffer.buffers).length_le
  rw [List.take_of_length_le (hle.trans hlen.le), List.take_of_length_le hlen.le] at htake
  exact htake

theorem takeBufs_all_eq_nil_iff (r : Reader) :
    DescriptorChainConsumer.takeBufs r.availableBytes r.buffer.buffers = [] ↔ r.availableBytes = 0 := by
  refine ⟨fun h => ?_, fun h => ?_⟩
  · rw [← length_addrs, ← addrs_takeBufs_all, h]
    rfl
  · rw [h]
    exact DescriptorChainConsumer.takeBufs_zero _

/-- All that is left is written to the disk image; nothing is, if there is nothing left. -/
theorem run_readToAt (ck : Bool) (mm : MemoryManager) (env : Env ε) (hb : r.Bounded) (offset : BitVec 64)
    (w : World ε) :
    ∃ x r' w', Prog.run (mm.world ck env) (r.readToAt r.availableBytes offset) w = some ((x, r'), w') ∧
      (r.availableBytes = 0 → x = .ok 0 ∧ w' = w) ∧
      (0 < r.availableBytes →
        x = (env (.writev (w.mem.gather r.addrs) offset) w.ext).1.map (fun _ => r.availableBytes) ∧
          w' = { w with ext := (env (.writev (w.mem.gather r.addrs) offset) w.ext).2 }) := by
  by_cases h0 : r.availableBytes = 0
  · have hnil := r.takeBufs_all_eq_nil_iff.mpr h0
    refine ⟨.ok 0, r, w, ?_, fun _ => ⟨rfl, rfl⟩, fun h => by omega⟩
    unfold readToAt DescriptorChainConsumer.consume
    simp only [hnil, List.isEmpty_nil, if_true]
    rfl
  · have hne := mt r.takeBufs_all_eq_nil_iff.mp h0
    have hf := run_writeVectoredAtVolatile ck mm env offset
      (DescriptorChainConsumer.takeBufs r.availableBytes r.buffer.buffers) w
    rw [addrs_takeBufs_all, length_addrs] at hf
    cases ha : (env (.writev (w.mem.gather r.addrs) offset) w.ext).1 with
    | error e =>
      rw [ha] at hf
      have hr := DescriptorChainConsumer.run_consume_error id 0 hne hf
      exact ⟨.error e, r, _, by rw [readToAt, Prog.run_bind, hr]; rfl, fun h => absurd h h0,
        fun _ => ⟨rfl, rfl⟩⟩
    | ok u =>
      rw [ha] at hf
      obtain ⟨c', -, -, hr⟩ := DescriptorChainConsumer.run_consume ck mm env id 0 r.availableBytes
        (writeVectoredAtVolatile offset) hb rfl (Nat.le_refl _) (fun h => absurd h hne) fun _ => hf
      exact ⟨.ok r.availableBytes, ⟨c'⟩, _, by rw [readToAt, Prog.run_bind, hr]; rfl, fun h => absurd h h0,
        fun _ => ⟨rfl, rfl⟩⟩

end Reader

/-! ## Writing -/

namespace Writer

/-- `wr` has consumed and can take fewer than `2 ^ 64` bytes, as `new` checks of the chain's length. -/
def Bounded (wr : Writer) : Prop := wr.buffer.bytesConsumed + wr.availableBytes < 2 ^ 64

instance (wr : Writer) : Decidable wr.Bounded := Nat.decLt ..

theorem Bounded.room_lt {wr : Writer} (hb : wr.Bounded) : wr.availableBytes < 2 ^ 64 :=
  Nat.lt_of_le_of_lt (Nat.le_add_left ..) hb

/-- The addresses that are left. -/
def addrs (wr : Writer) : List Nat := Whypa.addrs wr.buffer.buffers

theorem length_addrs (wr : Writer) : wr.addrs.length = wr.availableBytes := Whypa.length_addrs _

/-- `wr'` is `wr` after `n` bytes of it. -/
structure Advanced (wr wr' : Writer) (n : Nat) : Prop where
  le : n ≤ wr.availableBytes
  addrs : wr'.addrs = wr.addrs.drop n
  bytesConsumed : wr'.buffer.bytesConsumed = wr.buffer.bytesConsumed + n

variable {wr wr' wr'' : Writer} {n k : Nat}

theorem Advanced.refl (wr : Writer) : Advanced wr wr 0 := ⟨Nat.zero_le _, rfl, rfl⟩

theorem Advanced.availableBytes (h : Advanced wr wr' n) : wr'.availableBytes = wr.availableBytes - n := by
  rw [← length_addrs, h.addrs, List.length_drop, length_addrs]

theorem Advanced.bounded (h : Advanced wr wr' n) (hb : wr.Bounded) : wr'.Bounded := by
  have := h.le
  have hb' : wr.buffer.bytesConsumed + wr.availableBytes < 2 ^ 64 := hb
  unfold Bounded
  rw [h.availableBytes, h.bytesConsumed]
  omega

theorem Advanced.trans (h : Advanced wr wr' n) (h' : Advanced wr' wr'' k) : Advanced wr wr'' (n + k) := by
  have hle := h.le
  have hle' := h'.le
  rw [h.availableBytes] at hle'
  refine ⟨by omega, ?_, ?_⟩
  · rw [h'.addrs, h.addrs, List.drop_drop]
  · rw [h'.bytesConsumed, h.bytesConsumed, Nat.add_assoc]

/-- `write` stores the bytes at the next addresses, as many as there are. -/
theorem run_write (ck : Bool) (mm : MemoryManager) (env : Env ε) (hb : wr.Bounded) (bytes : List Byte)
    (w : World ε) :
    ∃ wr', Advanced wr wr' (min bytes.length wr.availableBytes) ∧
      Prog.run (mm.world ck env) (wr.write bytes) w =
        some ((.ok (min bytes.length wr.availableBytes), wr'),
          { w with mem := w.mem.scatter wr.addrs bytes }) := by
  have hcopy := DescriptorChainConsumer.run_copyIn_takeBufs ck mm env bytes wr.buffer.buffers w
  have hlen : (Whypa.addrs wr.buffer.buffers).length = wr.availableBytes := wr.length_addrs
  rw [hlen] at hcopy
  have hnil : DescriptorChainConsumer.takeBufs bytes.length wr.buffer.buffers = [] →
      min bytes.length wr.availableBytes = 0 ∧ { w with mem := w.mem.scatter wr.addrs bytes } = w ∧
        min bytes.length wr.availableBytes = 0 := by
    intro h
    rw [h] at hcopy
    obtain ⟨h0, hw⟩ := Prod.mk.inj (Option.some.inj hcopy)
    exact ⟨h0.symm, hw.symm, h0.symm⟩
  obtain ⟨c', ha, hc, hr⟩ := DescriptorChainConsumer.run_consume ck mm env id 0 bytes.length
    (fun bufs => copyIn bytes bufs >>= fun n => pure (.ok n)) hb rfl (Nat.min_le_right ..) hnil
    fun _ => by rw [Prog.run_bind, hcopy]; rfl
  refine ⟨⟨c'⟩, ⟨Nat.min_le_right .., ha, hc⟩, by rw [write, Prog.run_bind, hr]; rfl⟩

/-- `write_all` succeeds exactly if there is room, and stores what there is room for. -/
theorem run_writeLoop (ck : Bool) (mm : MemoryManager) (env : Env ε) {fuel : Nat} {bytes : List Byte}
    (hb : wr.Bounded) (hf : bytes.length ≤ fuel) (w : World ε) :
    ∃ x wr', Prog.run (mm.world ck env) (writeLoop fuel bytes wr) w =
        some ((x, wr'), { w with mem := w.mem.scatter wr.addrs bytes }) ∧
      Advanced wr wr' (min bytes.length wr.availableBytes) ∧
      (x = .ok () ↔ bytes.length ≤ wr.availableBytes) := by
  induction fuel generalizing bytes wr w with
  | zero =>
    obtain rfl := List.length_eq_zero_iff.mp (Nat.le_zero.mp hf)
    refine ⟨.ok (), wr, ?_, ?_, iff_of_true rfl (Nat.zero_le _)⟩
    · rw [Mem.scatter_nil]
      rfl
    · rw [List.length_nil, Nat.zero_min]
      exact .refl wr
  | succ fuel ih =>
    cases bytes with
    | nil =>
      refine ⟨.ok (), wr, ?_, ?_, iff_of_true rfl (Nat.zero_le _)⟩
      · rw [Mem.scatter_nil]
        rfl
      · rw [List.length_nil, Nat.zero_min]
        exact .refl wr
    | cons b bytes =>
      obtain ⟨wr₁, hadv, hr⟩ := run_write ck mm env hb (b :: bytes) w
      have hrest := hadv.availableBytes
      simp only [writeLoop, Prog.run_bind, hr, Option.bind_some]
      generalize hn : min (b :: bytes).length wr.availableBytes = n at hadv hrest
      cases n with
      | zero =>
        rw [List.length_cons] at hn ⊢
        exact ⟨.error .writeZero, wr₁, rfl, hadv, ⟨nofun, fun h => by omega⟩⟩
      | succ n =>
        rw [List.length_cons] at hf
        obtain ⟨x, wr₂, hr', hadv', hx⟩ := @ih wr₁ ((b :: bytes).drop (n + 1)) (hadv.bounded hb)
          (by rw [List.length_drop, List.length_cons]; omega)
          { w with mem := w.mem.scatter wr.addrs (b :: bytes) }
        have hlen : ((b :: bytes).drop (n + 1)).length = (b :: bytes).length - (n + 1) := List.length_drop
        have hmem : (w.mem.scatter wr.addrs (b :: bytes)).scatter wr₁.addrs ((b :: bytes).drop (n + 1)) =
            w.mem.scatter wr.addrs (b :: bytes) := by
          rcases Nat.lt_or_ge wr.availableBytes (b :: bytes).length with h | h
          · rw [List.length_eq_zero_iff.mp (show wr₁.addrs.length = 0 by rw [length_addrs]; omega)]
            rfl
          · rw [List.length_eq_zero_iff.mp (show ((b :: bytes).drop (n + 1)).length = 0 by omega)]
            exact Mem.scatter_nil ..
        have hmore : min ((b :: bytes).drop (n + 1)).length wr₁.availableBytes = 0 := by omega
        rw [hmore] at hadv'
        rw [hmem] at hr'
        exact ⟨x, wr₂, hr', hadv.trans hadv', hx.trans (by omega)⟩

theorem run_writeAll (ck : Bool) (mm : MemoryManager) (env : Env ε) (hb : wr.Bounded) (bytes : List Byte)
    (w : World ε) :
    ∃ x wr', Prog.run (mm.world ck env) (wr.writeAll bytes) w =
        some ((x, wr'), { w with mem := w.mem.scatter wr.addrs bytes }) ∧
      Advanced wr wr' (min bytes.length wr.availableBytes) ∧
      (x = .ok () ↔ bytes.length ≤ wr.availableBytes) :=
  run_writeLoop ck mm env hb (Nat.le_refl _) w

/-- The buffers of `n` bytes, of which the last is taken whole, are read into from the disk image. -/
theorem run_writeFromAt (ck : Bool) (mm : MemoryManager) (env : Env ε) (hb : wr.Bounded) {n k : Nat}
    (hk : (Whypa.addrs (DescriptorChainConsumer.takeBufs n wr.buffer.buffers)).length = k)
    (offset : BitVec 64) (w : World ε) :
    ∃ x wr' w', Prog.run (mm.world ck env) (wr.writeFromAt n offset) w = some ((x, wr'), w') ∧
      (DescriptorChainConsumer.takeBufs n wr.buffer.buffers = [] → x = .ok 0 ∧ wr' = wr ∧ w' = w) ∧
      (DescriptorChainConsumer.takeBufs n wr.buffer.buffers ≠ [] →
        x = (env (.readv k offset) w.ext).1.1.map (fun _ => k) ∧
        w' = { w with
          mem := w.mem.scatter (wr.addrs.take k) (env (.readv k offset) w.ext).1.2
          ext := (env (.readv k offset) w.ext).2 } ∧
        Advanced wr wr' (match (env (.readv k offset) w.ext).1.1 with
          | .ok _ => k
          | .error _ => 0)) := by
  have hpre := DescriptorChainConsumer.addrs_takeBufs_prefix n wr.buffer.buffers
  have haddrs : Whypa.addrs (DescriptorChainConsumer.takeBufs n wr.buffer.buffers) = wr.addrs.take k := by
    rw [← hk]
    exact List.prefix_iff_eq_take.mp hpre
  have hle : k ≤ wr.availableBytes := by
    rw [← hk, ← length_addrs]
    exact hpre.length_le
  by_cases hnil : DescriptorChainConsumer.takeBufs n wr.buffer.buffers = []
  · refine ⟨.ok 0, wr, w, ?_, fun _ => ⟨rfl, rfl, rfl⟩, fun h => absurd hnil h⟩
    unfold writeFromAt DescriptorChainConsumer.consume
    simp only [hnil, List.isEmpty_nil, if_true]
    rfl
  · have hf := run_readVectoredAtVolatile ck mm env offset
      (DescriptorChainConsumer.takeBufs n wr.buffer.buffers) w
    rw [hk, haddrs] at hf
    cases ha : (env (.readv k offset) w.ext).1.1 with
    | error e =>
      rw [ha] at hf
      have hr := DescriptorChainConsumer.run_consume_error id 0 hnil hf
      exact ⟨.error e, wr, _, by rw [writeFromAt, Prog.run_bind, hr]; rfl, fun h => absurd h hnil,
        fun _ => ⟨rfl, rfl, .refl wr⟩⟩
    | ok u =>
      rw [ha] at hf
      obtain ⟨c', hd, hc, hr⟩ := DescriptorChainConsumer.run_consume ck mm env id 0 n
        (readVectoredAtVolatile offset) hb rfl hle (fun h => absurd h hnil) fun _ => hf
      exact ⟨.ok k, ⟨c'⟩, _, by rw [writeFromAt, Prog.run_bind, hr]; rfl, fun h => absurd h hnil,
        fun _ => ⟨rfl, rfl, hle, hd, hc⟩⟩

end Writer

end

end Whypa
