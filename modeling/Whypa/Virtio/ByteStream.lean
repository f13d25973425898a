import Whypa.Virtio.Consume
import Whypa.Virtio.Served

/-!
# Readers and writers as byte streams

A reader gives the bytes of its chain in order, whatever it is asked for and however the chain
is split into buffers: after any operations what is left is the stream without the bytes read
(`reader_stream`). A file is handed the next bytes of it, and the reader goes on behind those
that the file has taken, or stays where it is if the file fails (`Handed`). A writer stores
bytes at the next places of its chain, and storing two byte strings in turn is storing them as
one (`writer_stream`).
-/

namespace Whypa

open Framework WProg

variable {ε : Type} {ck : Bool} {mm : MemoryManager} {env : Env ε}

/-! ## Reading -/

namespace Reader

/-- An operation on a reader; the files are arbitrary. -/
inductive Op
  | read (len : Nat)
  /-- `read_obj` of a type of `size` bytes, as its bytes. -/
  | readObj (size : Nat)
  | readTo (dst : List VolatileSlice → WProg (Except IoError Nat)) (count : Nat)
  | readToAt (dst : List VolatileSlice → BitVec 64 → WProg (Except IoError Nat)) (count : Nat)
    (offset : BitVec 64)

/-- What an operation gives: the bytes read, or how many a file took. -/
inductive Out
  | bytes (bs : List Byte)
  | count (n : Nat)

namespace Op

def run : Op → Reader → WProg (Except IoError Out × Reader)
  | read len, r => do
    let (x, r) ← r.read len
    pure (x.map .bytes, r)
  | readObj size, r => do
    let (x, r) ← r.readExact size
    pure (x.map .bytes, r)
  | readTo dst count, r => do
    let (x, r) ← r.readTo dst count
    pure (x.map .count, r)
  | readToAt dst count offset, r => do
    let (x, r) ← r.readToFileAt dst count offset
    pure (x.map .count, r)

def runAll : List Op → Reader → WProg (List (Except IoError Out) × Reader)
  | [], r => pure ([], r)
  | op :: ops, r => do
    let (x, r) ← op.run r
    let (xs, r) ← runAll ops r
    pure (x :: xs, r)

/-- The file reports at most the bytes that it was handed, or an error. -/
def Honest (ck : Bool) (mm : MemoryManager) (env : Env ε) : Op → Prop
  | read _ | readObj _ => True
  | readTo dst _ => DescriptorChainConsumer.Honest ck mm env dst
  | readToAt dst _ offset => DescriptorChainConsumer.Honest ck mm env fun bufs => dst bufs offset

end Op

/-- The bytes of `bufs` are the next ones, and all that are asked for if there are as many. -/
structure Next (r : Reader) (count : Nat) (bufs : List VolatileSlice) : Prop where
  part : Whypa.addrs bufs <+: r.addrs
  all : (Whypa.addrs bufs).take count = r.addrs.take count

/-- What comes of handing the next `count` bytes of `r` to the file `f`. -/
inductive Handed (ck : Bool) (mm : MemoryManager) (env : Env ε)
    (f : List VolatileSlice → WProg (Except IoError Nat)) (count : Nat) (r : Reader) (w : World ε) :
    Reader → Except IoError Out → World ε → Prop
  | nothing (h : min count r.availableBytes = 0) : Handed ck mm env f count r w r (.ok (.count 0)) w
  | failed {bufs : List VolatileSlice} {e : IoError} {w' : World ε} (hn : r.Next count bufs)
      (hf : Prog.run (mm.world ck env) (f bufs) w = some (.error e, w')) :
      Handed ck mm env f count r w r (.error e) w'
  | taken {bufs : List VolatileSlice} {k : Nat} {w' : World ε} {r' : Reader} (hn : r.Next count bufs)
      (hf : Prog.run (mm.world ck env) (f bufs) w = some (.ok k, w')) (ha : r.Advanced r' k) :
      Handed ck mm env f count r w r' (.ok (.count k)) w'

/-- What an operation on `r` gives, and what it leaves, by the bytes `left` of the stream. -/
def Op.Gives (ck : Bool) (mm : MemoryManager) (env : Env ε) (left : List Byte) (r : Reader) (w : World ε)
    (r' : Reader) (x : Except IoError Out) (w' : World ε) : Op → Prop
  | .read len => w' = w ∧ x = .ok (.bytes (left.take len)) ∧ r.Advanced r' (min len left.length)
  | .readObj size => w' = w ∧ r.Advanced r' (min size left.length) ∧
      if size ≤ left.length then x = .ok (.bytes (left.take size)) else ∃ e, x = .error e
  | .readTo dst count => Handed ck mm env dst count r w r' x w'
  | .readToAt dst count offset => Handed ck mm env (fun bufs => dst bufs offset) count r w r' x w'

variable {r r' r'' : Reader}

/-- `r'` is a later state of the stream `r`: the rest of its bytes is left. -/
def Later (r r' : Reader) : Prop :=
  r.bytesRead ≤ r'.bytesRead ∧ r'.addrs = r.addrs.drop (r'.bytesRead - r.bytesRead) ∧
    r'.bytesRead + r'.availableBytes = r.bytesRead + r.availableBytes

theorem Advanced.later {n : Nat} (h : r.Advanced r' n) : r.Later r' := by
  have hread : r'.bytesRead = r.bytesRead + n := h.bytesConsumed
  have hle := h.le
  refine ⟨by omega, ?_, by rw [hread, h.availableBytes]; omega⟩
  rw [h.addrs, hread, Nat.add_sub_cancel_left]

theorem Later.trans (h : r.Later r') (h' : r'.Later r'') : r.Later r'' := by
  obtain ⟨hle, ha, hs⟩ := h
  obtain ⟨hle', ha', hs'⟩ := h'
  refine ⟨hle.trans hle', ?_, hs'.trans hs⟩
  rw [ha', ha, List.drop_drop]
  exact congrArg (r.addrs.drop ·) (by omega)

theorem Later.bounded (h : r.Later r') (hb : r.Bounded) : r'.Bounded := by
  have hb' : r.bytesRead + r.availableBytes < 2 ^ 64 := hb
  rw [← h.2.2] at hb'
  exact hb'

theorem Handed.later {f : List VolatileSlice → WProg (Except IoError Nat)} {count : Nat}
    {x : Except IoError Out} {w w' : World ε} (h : Handed ck mm env f count r w r' x w') : r.Later r' := by
  cases h with
  | nothing h => exact (Advanced.refl r).later
  | failed hn hf => exact (Advanced.refl r).later
  | taken hn hf ha => exact ha.later

theorem Op.Gives.later {left : List Byte} {x : Except IoError Out} {w w' : World ε} {op : Op}
    (h : op.Gives ck mm env left r w r' x w') : r.Later r' := by
  cases op with
  | read len => exact h.2.2.later
  | readObj size => exact h.2.1.later
  | readTo dst count | readToAt dst count offset => exact Handed.later h

/-- A file is handed the next bytes. -/
theorem run_file {f : List VolatileSlice → WProg (Except IoError Nat)}
    (hf : DescriptorChainConsumer.Honest ck mm env f) (hb : r.Bounded) (count : Nat) (w : World ε) :
    ∃ x c' w', Prog.run (mm.world ck env) (r.buffer.consume id 0 count f) w = some ((x, c'), w') ∧
      Handed ck mm env f count r w ⟨c'⟩ (x.map .count) w' := by
  have hn : r.Next count (DescriptorChainConsumer.takeBufs count r.buffer.buffers) :=
    ⟨DescriptorChainConsumer.addrs_takeBufs_prefix .., DescriptorChainConsumer.addrs_takeBufs ..⟩
  by_cases hne : DescriptorChainConsumer.takeBufs count r.buffer.buffers = []
  · have h0 := DescriptorChainConsumer.addrs_of_takeBufs_nil hne
    refine ⟨.ok 0, r.buffer, w, ?_, .nothing (by rw [← length_addrs]; exact h0)⟩
    unfold DescriptorChainConsumer.consume
    simp only [hne, List.isEmpty_nil, if_true]
    rfl
  obtain ⟨x, w', hr, hle⟩ := hf (DescriptorChainConsumer.takeBufs count r.buffer.buffers) w
  cases x with
  | error e => exact ⟨_, _, _, DescriptorChainConsumer.run_consume_error id 0 hne hr, .failed hn hr⟩
  | ok k =>
    have hk : k ≤ r.availableBytes := by
      rw [← length_addrs]
      exact (hle k rfl).trans hn.part.length_le
    have hlt : r.buffer.bytesConsumed + k < 2 ^ 64 := by
      have hb' : r.buffer.bytesConsumed + r.availableBytes < 2 ^ 64 := hb
      omega
    exact ⟨_, _, _, DescriptorChainConsumer.run_consume_ok id 0 hne hlt hr,
      .taken hn hr ⟨hk, DescriptorChainConsumer.addrs_dropBytes .., rfl⟩⟩

/-- One operation. -/
theorem run_op {op : Op} (hop : op.Honest ck mm env) (hb : r.Bounded) (w : World ε) :
    ∃ x r' w', Prog.run (mm.world ck env) (op.run r) w = some ((x, r'), w') ∧
      op.Gives ck mm env (w.mem.gather r.addrs) r w r' x w' := by
  have hl : (w.mem.gather r.addrs).length = r.availableBytes := by rw [Mem.length_gather, length_addrs]
  cases op with
  | read len =>
    obtain ⟨r', hadv, hr⟩ := run_read ck mm env hb len w
    refine ⟨_, r', w, by rw [Op.run, Prog.run_bind, hr]; rfl, rfl, rfl, ?_⟩
    rwa [hl]
  | readObj size =>
    obtain ⟨x, r', hr, hadv, hok, herr⟩ := run_readLoop ck mm env hb (Nat.le_refl size) w
    refine ⟨x.map .bytes, r', w, by rw [Op.run, Prog.run_bind, readExact, hr]; rfl, rfl, by rwa [hl], ?_⟩
    rw [hl]
    split
    · rename_i hle
      rw [hok hle]
      rfl
    · rename_i hlt
      obtain ⟨e, rfl⟩ := herr (Nat.lt_of_not_le hlt)
      exact ⟨e, rfl⟩
  | readTo dst count =>
    obtain ⟨x, c', w', hr, hx⟩ := run_file hop hb count w
    exact ⟨x.map .count, ⟨c'⟩, w', by rw [Op.run, Prog.run_bind, readTo, Prog.run_bind, hr]; rfl, hx⟩
  | readToAt dst count offset =>
    obtain ⟨x, c', w', hr, hx⟩ := run_file hop hb count w
    exact ⟨x.map .count, ⟨c'⟩, w', by rw [Op.run, Prog.run_bind, readToFileAt, Prog.run_bind, hr]; rfl, hx⟩

/-- Any operations in turn. -/
theorem run_runAll {ops : List Op} (hops : ∀ op ∈ ops, op.Honest ck mm env) (hb : r.Bounded) (w : World ε) :
    ∃ xs r' w', Prog.run (mm.world ck env) (Op.runAll ops r) w = some ((xs, r'), w') ∧ r.Later r' := by
  induction ops generalizing r w with
  | nil => exact ⟨[], r, w, rfl, (Advanced.refl r).later⟩
  | cons op ops ih =>
    obtain ⟨hop, hops⟩ := List.forall_mem_cons.mp hops
    obtain ⟨x, r₁, w₁, hr, hx⟩ := run_op hop hb w
    obtain ⟨xs, r', w', hr', hl⟩ := ih hops (hx.later.bounded hb) w₁
    refine ⟨x :: xs, r', w', ?_, hx.later.trans hl⟩
    rw [Op.runAll, Prog.run_bind, hr, Option.bind_some, Prog.run_bind, hr']
    rfl

/-- Reads in turn give the stream, whatever their sizes. -/
theorem run_reads (hb : r.Bounded) (lens : List Nat) (w : World ε) :
    ∃ (parts : List (List Byte)) (r' : Reader), Prog.run (mm.world ck env) (Op.runAll (lens.map .read) r) w =
        some ((parts.map fun bs => .ok (.bytes bs), r'), w) ∧
      parts.flatten = (w.mem.gather r.addrs).take lens.sum := by
  induction lens generalizing r with
  | nil => exact ⟨[], r, rfl, rfl⟩
  | cons len lens ih =>
    obtain ⟨r₁, hadv, hr⟩ := run_read ck mm env hb len w
    obtain ⟨parts, r', hr', hparts⟩ := ih (hadv.bounded hb)
    refine ⟨(w.mem.gather r.addrs).take len :: parts, r', ?_, ?_⟩
    · rw [List.map_cons, Op.runAll, Prog.run_bind, Op.run, Prog.run_bind, hr]
      show Prog.run _ (Op.runAll (lens.map .read) r₁ >>= _) w = _
      rw [Prog.run_bind, hr']
      rfl
    · rw [List.flatten_cons, hparts, hadv.addrs, List.sum_cons, List.take_add, ← length_addrs,
        ← List.drop_eq_drop_min]
      simp only [Mem.gather, List.map_drop]

end Reader

/-- After any operations on a reader, what is left is its stream without the bytes read, and the next
operation gives what it is to give; reads give the stream, in pieces of the sizes asked for. -/
theorem reader_stream {r : Reader} (hb : r.Bounded) {ops : List Reader.Op}
    (hops : ∀ op ∈ ops, op.Honest ck mm env) (w : World ε) :
    (∃ xs r₁ w₁, Prog.run (mm.world ck env) (Reader.Op.runAll ops r) w = some ((xs, r₁), w₁) ∧
      r.Later r₁ ∧ ∀ op : Reader.Op, op.Honest ck mm env → ∃ x r₂ w₂,
        Prog.run (mm.world ck env) (op.run r₁) w₁ = some ((x, r₂), w₂) ∧ r.Later r₂ ∧
          op.Gives ck mm env (contents w₁.mem r₁.buffer.buffers) r₁ w₁ r₂ x w₂) ∧
    ∀ lens : List Nat, ∃ (parts : List (List Byte)) (r₁ : Reader),
      Prog.run (mm.world ck env) (Reader.Op.runAll (lens.map .read) r) w =
        some ((parts.map fun bs => .ok (.bytes bs), r₁), w) ∧
      parts.flatten = (contents w.mem r.buffer.buffers).take lens.sum := by
  constructor
  · obtain ⟨xs, r₁, w₁, hr, hl⟩ := Reader.run_runAll hops hb w
    refine ⟨xs, r₁, w₁, hr, hl, fun op hop => ?_⟩
    obtain ⟨x, r₂, w₂, hr₂, hx⟩ := Reader.run_op hop (hl.bounded hb) w₁
    rw [contents_eq_gather]
    exact ⟨x, r₂, w₂, hr₂, hl.trans hx.later, hx⟩
  · intro lens
    rw [contents_eq_gather]
    exact Reader.run_reads hb lens w

/-- Three bytes, and then three more, of a buffer of two and one of four. -/
theorem reader_stream_six : ∃ (parts : List (List Byte)) (r₁ : Reader),
    Prog.run (smallRam.world true idleEnv)
      (Reader.Op.runAll [.read 3, .read 3] ⟨⟨[⟨0x4000, 2⟩, ⟨0x5000, 4⟩], 0⟩⟩) ⟨fun a => a, (), []⟩ =
        some ((parts.map fun bs => .ok (.bytes bs), r₁), ⟨fun a => a, (), []⟩) ∧
    parts.flatten = contents (fun a => a) [⟨0x4000, 2⟩, ⟨0x5000, 4⟩] := by
  have hops : ∀ op ∈ [Reader.Op.read 3], op.Honest true smallRam idleEnv := fun op hop => by
    rw [List.mem_singleton.mp hop]
    trivial
  have hb : Reader.Bounded ⟨⟨[⟨0x4000, 2⟩, ⟨0x5000, 4⟩], 0⟩⟩ := by decide
  obtain ⟨parts, r₁, hr, hparts⟩ := (reader_stream hb hops ⟨fun a => a, (), []⟩).2 [3, 3]
  refine ⟨parts, r₁, hr, hparts.trans (List.take_of_length_le ?_)⟩
  rw [contents_eq_gather, Mem.length_gather]
  decide

/-! ## Writing -/

namespace DescriptorChainConsumer

/-- Bytes may be dropped in two steps. -/
theorem dropBytes_dropBytes (j k : Nat) (bufs : List VolatileSlice) :
    dropBytes k (dropBytes j bufs) = dropBytes (j + k) bufs := by
  induction bufs generalizing j k with
  | nil => rfl
  | cons vs bufs ih =>
    by_cases hj : j < vs.len
    · rw [dropBytes, if_pos hj, dropBytes, dropBytes]
      by_cases hk : k < vs.len - j
      · rw [if_pos hk, if_pos (by omega), Nat.add_assoc, Nat.sub_sub]
      · rw [if_neg hk, if_neg (by omega), show k - (vs.len - j) = j + k - vs.len by omega]
    · rw [dropBytes, if_neg hj, dropBytes, if_neg (by omega), ih,
        show j - vs.len + k = j + k - vs.len by omega]

theorem after_after (c : DescriptorChainConsumer) (j k : Nat) : (c.after j).after k = c.after (j + k) := by
  unfold after
  rw [dropBytes_dropBytes, Nat.add_assoc]

end DescriptorChainConsumer

namespace Writer

/-- `wr` after the bytes. A writer to which nothing is written keeps its empty buffers. -/
def wrote (wr : Writer) (bytes : List Byte) : Writer :=
  if bytes = [] then wr else ⟨wr.buffer.after bytes.length⟩

variable {wr : Writer} {a b : List Byte}

theorem wrote_append (wr : Writer) (a b : List Byte) : (wr.wrote a).wrote b = wr.wrote (a ++ b) := by
  unfold wrote
  by_cases ha : a = []
  · rw [if_pos ha, ha, List.nil_append]
  · by_cases hb : b = []
    · rw [if_pos hb, hb, List.append_nil]
    · rw [if_neg ha, if_neg hb, if_neg (by simp [ha]), DescriptorChainConsumer.after_after, List.length_append]

theorem bytesWritten_wrote (wr : Writer) (bytes : List Byte) :
    (wr.wrote bytes).bytesWritten = wr.bytesWritten + bytes.length := by
  unfold wrote
  split
  · rename_i h
    rw [h]
    rfl
  · rfl

theorem addrs_wrote (wr : Writer) (bytes : List Byte) :
    (wr.wrote bytes).addrs = wr.addrs.drop bytes.length := by
  unfold wrote
  split
  · rename_i h
    rw [h]
    rfl
  · exact DescriptorChainConsumer.addrs_dropBytes ..

theorem availableBytes_wrote (wr : Writer) (bytes : List Byte) :
    (wr.wrote bytes).availableBytes = wr.availableBytes - bytes.length := by
  rw [← length_addrs, addrs_wrote, List.length_drop, length_addrs]

theorem bounded_wrote (hb : wr.Bounded) {bytes : List Byte} (hle : bytes.length ≤ wr.availableBytes) :
    (wr.wrote bytes).Bounded := by
  have hb' : wr.bytesWritten + wr.availableBytes < 2 ^ 64 := hb
  show (wr.wrote bytes).bytesWritten + (wr.wrote bytes).availableBytes < 2 ^ 64
  rw [bytesWritten_wrote, availableBytes_wrote]
  omega

/-- With room for the bytes they are stored at the next addresses. -/
theorem run_writeAll_wrote (ck : Bool) (mm : MemoryManager) (env : Env ε) (hb : wr.Bounded) {bytes : List Byte}
    (hle : bytes.length ≤ wr.availableBytes) (w : World ε) : Prog.run (mm.world ck env) (wr.writeAll bytes) w =
      some ((.ok (), wr.wrote bytes), { w with mem := w.mem.scatter wr.addrs bytes }) := by
  cases bytes with
  | nil =>
    rw [Mem.scatter_nil]
    rfl
  | cons x bytes =>
    have hlen : min (x :: bytes).length (Whypa.addrs wr.buffer.buffers).length = (x :: bytes).length :=
      min_eq_left (hle.trans wr.length_addrs.ge)
    have hcopy := DescriptorChainConsumer.run_copyIn_takeBufs ck mm env (x :: bytes) wr.buffer.buffers w
    rw [hlen] at hcopy
    have hne : DescriptorChainConsumer.takeBufs (x :: bytes).length wr.buffer.buffers ≠ [] := fun h => by
      have h0 := DescriptorChainConsumer.addrs_of_takeBufs_nil h
      rw [hlen] at h0
      cases h0
    have hb' : wr.buffer.bytesConsumed + (x :: bytes).length < 2 ^ 64 :=
      Nat.lt_of_le_of_lt (Nat.add_le_add_left hle _) hb
    have hr := DescriptorChainConsumer.run_consume_ok id 0 hne hb' (f := fun bufs =>
      copyIn (x :: bytes) bufs >>= fun n => pure (.ok n)) (by rw [Prog.run_bind, hcopy]; rfl)
    have hdone : ∀ fuel wr', writeLoop fuel [] wr' = pure (.ok (), wr') := fun fuel wr' => by
      cases fuel <;> rfl
    rw [writeAll, List.length_cons, writeLoop, write]
    · rw [Prog.bind_assoc, Prog.run_bind, hr]
      show Prog.run _ (writeLoop bytes.length ((x :: bytes).drop (x :: bytes).length) _) _ = _
      rw [List.drop_length, hdone]
      rfl
    · exact List.cons_ne_nil _ _

end Writer

/-- Two byte strings that fit are stored as their concatenation, at the next places of the chain and nowhere
else; one that does not fit fails. -/
theorem writer_stream {wr : Writer} (hb : wr.Bounded) (a b : List Byte) (w : World ε) :
    (a.length + b.length ≤ wr.availableBytes → ∃ wr₁ w₁ wr₂ w₂,
      Prog.run (mm.world ck env) (wr.writeAll a) w = some ((.ok (), wr₁), w₁) ∧
      Prog.run (mm.world ck env) (wr₁.writeAll b) w₁ = some ((.ok (), wr₂), w₂) ∧
      Prog.run (mm.world ck env) (wr.writeAll (a ++ b)) w = some ((.ok (), wr₂), w₂) ∧
      w₂ = { w with mem := w.mem.scatter wr.addrs (a ++ b) } ∧
      wr₂.bytesWritten = wr.bytesWritten + (a.length + b.length) ∧
      ∀ x ∉ wr.addrs.take (a.length + b.length), w₂.mem x = w.mem x) ∧
    (wr.availableBytes < a.length → ∃ e wr₁ w₁,
      Prog.run (mm.world ck env) (wr.writeAll a) w = some ((.error e, wr₁), w₁)) := by
  constructor
  · intro hle
    have hab : (a ++ b).length ≤ wr.availableBytes := by rwa [List.length_append]
    have ha : a.length ≤ wr.availableBytes := by omega
    have hb₁ : b.length ≤ (wr.wrote a).availableBytes := by
      rw [Writer.availableBytes_wrote]
      omega
    have hra := Writer.run_writeAll_wrote ck mm env hb ha w
    have hrb := Writer.run_writeAll_wrote ck mm env (Writer.bounded_wrote hb ha) hb₁
      { w with mem := w.mem.scatter wr.addrs a }
    have hrab := Writer.run_writeAll_wrote ck mm env hb hab w
    rw [Writer.wrote_append, Writer.addrs_wrote, ← Mem.scatter_append_right] at hrb
    refine ⟨_, _, _, _, hra, hrb, hrab, rfl, ?_, fun x hx => ?_⟩
    · rw [Writer.bytesWritten_wrote, List.length_append]
    · rw [← List.length_append] at hx
      exact (congrFun (Mem.scatter_take_left ..).symm x).trans (Mem.scatter_apply hx)
  · intro hlt
    obtain ⟨x, wr₁, hr, -, hx⟩ := Writer.run_writeAll ck mm env hb a w
    cases x with
    | error e => exact ⟨e, wr₁, _, hr⟩
    | ok u => exact absurd (hx.mp rfl) (by omega)

/-- A header of three bytes and a byte after it, into two buffers of two bytes that are one and the same. -/
theorem writer_stream_overlapping : ∃ wr₁ w₁ wr₂ w₂,
    Prog.run (smallRam.world true idleEnv) (Writer.writeAll ⟨⟨[⟨0x4000, 2⟩, ⟨0x4000, 2⟩], 0⟩⟩ [1, 2, 3])
      ⟨fun _ => 0, (), []⟩ = some ((.ok (), wr₁), w₁) ∧
    Prog.run (smallRam.world true idleEnv) (wr₁.writeAll [4]) w₁ = some ((.ok (), wr₂), w₂) ∧
    w₂ = ⟨Mem.scatter (fun _ => 0) [0x4000, 0x4001, 0x4000, 0x4001] [1, 2, 3, 4], (), []⟩ := by
  have hb : Writer.Bounded ⟨⟨[⟨0x4000, 2⟩, ⟨0x4000, 2⟩], 0⟩⟩ := by decide
  obtain ⟨wr₁, w₁, wr₂, w₂, hra, hrb, -, hw, -⟩ :=
    (writer_stream hb [1, 2, 3] [4] ⟨fun _ => 0, (), []⟩).1 (by decide)
  exact ⟨wr₁, w₁, wr₂, w₂, hra, hrb, hw⟩

end Whypa
