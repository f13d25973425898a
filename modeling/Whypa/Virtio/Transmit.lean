import Whypa.Framework.Framing
import Whypa.Virtio.Outbound

/-!
# Sending frames to the proxy

What the network device writes to the proxy's input: the frames of the chains it
pops, each after its length (`sent_processTxQueue`). The length is a word of two
bytes, whatever the length of the chain, so that the proxy gets the frames back
exactly if none is longer than the word can say (`transmit_decodable_iff`).
-/

namespace Whypa

open Framework WProg Framing

variable {ε : Type} {mm : MemoryManager} {m : Mem}

/-- An outside in which all writes to the proxy succeed, with the bytes written. -/
def recording (env : Env ε) : Env (ε × List Byte)
  | .writeProxy bytes, s => (.ok (), ((env (.writeProxy bytes) s.1).2, s.2 ++ bytes))
  | op, s => ((env op s.1).1, ((env op s.1).2, s.2))

namespace NetWorker

/-- The frame of a chain: its readable bytes after the header. -/
def frame? (mm : MemoryManager) (m : Mem) (c : DescriptorChain) : Option (List Byte) :=
  if c.readableOk mm m ∧ NET_HDR_SIZE < c.readableBytes mm m then
    some ((c.readableData mm m).drop NET_HDR_SIZE)
  else none

/-- The frames of the chains popped. -/
def frames (mm : MemoryManager) (log : List Event) : List (List Byte) :=
  (pops log).filterMap fun p => frame? mm p.2 p.1

variable {env : Env ε}

/-- A packet longer than its header is sent after the length of its frame. -/
theorem run_transmit (env : Env ε) {reader : Reader} (hb : reader.Bounded)
    (w : World (ε × List Byte)) :
    ∃ w', Prog.run (mm.world false (recording env)) (transmit reader) w = some ((), w') ∧
      w'.ext.2 = w.ext.2 ++ if NET_HDR_SIZE < reader.availableBytes then
        encode 2 ((contents w.mem reader.buffer.buffers).drop NET_HDR_SIZE) else [] := by
  unfold transmit
  split
  · rename_i h
    have hlen : (contents w.mem reader.buffer.buffers).length = reader.availableBytes :=
      length_contents ..
    obtain ⟨r', -, hr⟩ := Reader.run_read false mm (recording env) hb reader.availableBytes w
    have hall : (w.mem.gather reader.addrs).take reader.availableBytes =
        contents w.mem reader.buffer.buffers := by
      rw [contents_eq_gather]
      exact List.take_of_length_le (by rw [Mem.length_gather]; exact reader.length_addrs.le)
    rw [hall] at hr
    rw [Prog.run_bind, hr, Option.bind_some]
    dsimp only
    rw [if_pos (by rw [hlen]; exact h)]
    exact ⟨_, rfl, rfl⟩
  · exact ⟨w, rfl, (List.append_nil _).symm⟩

theorem sent_serveTx {c : DescriptorChain} {q : Queue} {w w' : World (ε × List Byte)}
    {x : Queue × Bool}
    (hr : Prog.run (mm.world false (recording env)) (serveTx mm c q) w = some (x, w')) :
    w'.ext.2 = w.ext.2 ++ encodeAll 2 (frame? mm w.mem c).toList := by
  obtain ⟨r, hl, hs⟩ := run_readerNew (recording env) c.tableFits_false w
  rw [serveTx, Prog.run_bind, hl, Option.bind_some] at hr
  rcases hs with ⟨hok, rfl⟩ | ⟨ha, e, rfl⟩
  · obtain ⟨hb, hav⟩ := reader_of_readableOk hok
    obtain ⟨w₁, hr₁, he₁⟩ := run_transmit env hb w
    dsimp only at hr
    rw [Prog.run_bind, hr₁, Option.bind_some] at hr
    have he : w'.ext = w₁.ext :=
      ((keepsExt_addUsed q c.index 0).bind fun _ => .pure _) rfl hr
    rw [he, he₁, hav]
    by_cases h : NET_HDR_SIZE < c.readableBytes mm w.mem
    · rw [if_pos h, frame?, if_pos ⟨hok, h⟩]
      simp [DescriptorChain.readableData, DescriptorChain.reader]
    · rw [if_neg h, frame?, if_neg fun hh => h hh.2]
      rfl
  · obtain ⟨-, rfl⟩ := Prod.mk.inj (Option.some.inj hr)
    have hno : ¬ (c.readableOk mm w.mem = true ∧ NET_HDR_SIZE < c.readableBytes mm w.mem) := by
      rintro ⟨hok, -⟩
      cases ha.symm.trans hok
    rw [frame?, if_neg hno]
    exact (List.append_nil _).symm

/-! ## The loop -/

theorem outbound (env : Env ε) : Outbound mm env (serveTx mm) := fun c q w => ⟨_, servedTx c q w⟩

/-- The bytes written are the frames of the chains popped. -/
def Sent (mm : MemoryManager) (w : World (ε × List Byte)) : Prop :=
  w.ext.2 = encodeAll 2 (frames mm w.log)

theorem sent_processTxQueue {fuel : Nat} {q : Queue} {m : Mem} {e : ε} {w : World (ε × List Byte)}
    {o : Option Queue} (hr : Prog.run (mm.world false (recording env)) (processTxQueue mm fuel q)
      ⟨m, (e, []), []⟩ = some (o, w)) : Sent mm w := by
  have ho : Outbound mm (recording env) (serveTx mm) := outbound _
  have hkeeps := keeps_processWith ho
    (J := fun e ps => e.2 = encodeAll 2 (ps.filterMap fun p => frame? mm p.2 p.1))
    (fun {c q x w w' ps} hr hs => by
      rw [sent_serveTx hr, hs, List.filterMap_append, encodeAll_append]
      cases hf : frame? mm w.mem c <;> simp [hf])
    (fun h => h) fuel q
  exact hkeeps rfl hr

/-- The proxy gets the frames back exactly if the length of each fits into two
bytes. -/
theorem parse_sent_iff {w : World (ε × List Byte)} (hs : Sent mm w) :
    parse 2 w.ext.2 = some (frames mm w.log) ↔
      ∀ p ∈ pops w.log, p.1.readableOk mm p.2 = true →
        p.1.readableBytes mm p.2 ≤ NET_HDR_SIZE + (2 ^ 16 - 1) := by
  unfold Sent at hs
  rw [hs, parse_encodeAll_iff (by decide)]
  have hlen : ∀ p : DescriptorChain × Mem, p.1.readableOk mm p.2 = true →
      ((p.1.readableData mm p.2).drop NET_HDR_SIZE).length =
        p.1.readableBytes mm p.2 - NET_HDR_SIZE := by
    intro p hok
    rw [List.length_drop, DescriptorChain.length_readableData hok]
  constructor
  · intro h p hp hok
    by_contra hlt
    have hlong : NET_HDR_SIZE < p.1.readableBytes mm p.2 := by omega
    have := h _ (List.mem_filterMap.mpr ⟨p, hp, if_pos ⟨hok, hlong⟩⟩)
    rw [hlen p hok] at this
    omega
  · intro h f hf
    obtain ⟨p, hp, hpf⟩ := List.mem_filterMap.mp hf
    obtain ⟨⟨hok, -⟩, hpf⟩ := Option.ite_none_right_eq_some.mp hpf
    obtain rfl := Option.some.inj hpf
    have := h p hp hok
    rw [hlen p hok]
    omega

/-- What a call wrote to the proxy parses into the frames of the chains it popped
if and only if no chain that lies in guest memory has more readable bytes than
the header and `2 ^ 16 - 1`. Whenever the rings lie in guest memory, the call
returns, and the chains, with their descriptors, are those that the driver has
submitted. -/
theorem transmit_decodable_iff (mm : MemoryManager) (env : Env ε) (q : Queue) (m : Mem) (e : ε) :
    (∀ ck fuel q' w, Prog.run (mm.world ck (recording env)) (processTxQueue mm fuel q)
        ⟨m, (e, []), []⟩ = some (some q', w) →
      (parse 2 w.ext.2 = some (frames mm w.log) ↔
        ∀ p ∈ pops w.log, p.1.readableOk mm p.2 = true →
          p.1.readableBytes mm p.2 ≤ NET_HDR_SIZE + (2 ^ 16 - 1))) ∧
    ∀ dt av us fuel, q.Layout mm dt av us → q.pending av m < fuel →
      ∃ q' w, Prog.run (mm.world false (recording env)) (processTxQueue mm fuel q)
          ⟨m, (e, []), []⟩ = some (some q', w) ∧
        (pops w.log).map Prod.fst = q.submitted mm av m ∧
        ∀ p ∈ pops w.log, p.1.readable mm p.2 = p.1.readable mm m := by
  refine ⟨fun ck fuel q' w hr => ?_, fun dt av us fuel hL hf => ?_⟩
  · exact parse_sent_iff (sent_processTxQueue (run_of_checked hr))
  · exact processWith_returns (outbound (recording env)) hL m (e, []) hf

theorem transmit_decodable_iff_one : ∃ q' w,
    Prog.run (smallRam.world true (recording idleEnv)) (processTxQueue smallRam 2 smallQueue)
      ⟨oneChain 0 0x4000, ((), []), []⟩ = some (some q', w) ∧
    (frames smallRam w.log).length = 1 ∧ parse 2 w.ext.2 = some (frames smallRam w.log) := by
  have hr : (Prog.run (smallRam.world true (recording idleEnv)) (processTxQueue smallRam 2 smallQueue)
      ⟨oneChain 0 0x4000, ((), []), []⟩).map (fun r => (r.1.isSome, (frames smallRam r.2.log).length,
        (pops r.2.log).all fun p => p.1.readableBytes smallRam p.2 = 16)) = some (true, 1, true) := by
    decide +kernel
  obtain ⟨⟨o, w⟩, h, he⟩ := Option.map_eq_some_iff.mp hr
  simp only [Prod.mk.injEq, Option.isSome_iff_exists] at he
  obtain ⟨⟨q', rfl⟩, hl, hall⟩ := he
  refine ⟨q', w, h, hl, ((transmit_decodable_iff _ _ _ _ _).1 _ _ _ _ h).mpr fun p hp _ => ?_⟩
  rw [of_decide_eq_true (List.all_eq_true.mp hall p hp)]
  decide

/-- Memory in which the driver of `smallQueue` has made a chain of two descriptors
available, with 65536 and 12 readable bytes. -/
def longChain : Mem :=
  ((((oneChain 0 0).putWord 0x1008 (65536 : BitVec 32)).putWord 0x100c (1 : BitVec 16)).putWord 0x100e
    (1 : BitVec 16)).putWord 0x1018 (12 : BitVec 32)

/-- The frame of that chain has 65536 bytes, and is sent with the length 0. -/
theorem transmit_not_decodable : ∃ q' w,
    Prog.run (smallRam.world false (recording idleEnv)) (processTxQueue smallRam 2 smallQueue)
      ⟨longChain, ((), []), []⟩ = some (some q', w) ∧
    (pops w.log).length = 1 ∧ parse 2 w.ext.2 ≠ some (frames smallRam w.log) := by
  have hsub : (smallQueue.submitted smallRam 0x2000 longChain).map (fun c =>
      ((c.readable smallRam longChain).all (mapped smallRam),
        ((c.readable smallRam longChain).map fun d => d.len.toNat).sum)) = [(true, 65548)] := by
    decide +kernel
  have hpend : smallQueue.pending 0x2000 longChain < 2 := by decide +kernel
  obtain ⟨q', w, hr, hfst, hdesc⟩ := processWith_returns
    (outbound (recording idleEnv)) Drainer.smallQueue_layout longChain ((), []) hpend
  rw [← hfst, List.map_map] at hsub
  obtain ⟨p, hp, hpw⟩ := List.map_eq_singleton_iff.mp hsub
  rw [hp] at hdesc
  have hd := hdesc p List.mem_cons_self
  obtain ⟨hok, hbytes⟩ := Prod.mk.inj hpw
  simp only [← hd] at hok hbytes
  refine ⟨q', w, hr, by rw [hp]; rfl, fun hparse => ?_⟩
  have := (parse_sent_iff (sent_processTxQueue hr)).mp hparse p (by rw [hp]; exact List.mem_cons_self) hok
  rw [DescriptorChain.readableBytes, hbytes] at this
  exact absurd this (by decide)

end NetWorker

end Whypa
