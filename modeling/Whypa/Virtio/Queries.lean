import Whypa.Framework.Occurrences
import Whypa.Virtio.Outbound

/-!
# Answering the guest's queries

What the console does with the guest's output: the terminal gets it without the
queries of the cursor's position, and the guest gets an answer. Each buffer is
filtered for itself and answered once, so that what the terminal gets is the
output without its queries, and each of them answered, if and only if no query
straddles two buffers and no buffer has two of them (`queries_answered_iff`).
-/

namespace Whypa

open Framework WProg

variable {ε : Type} {mm : MemoryManager} {m : Mem}

/-- What the console has told the outside. -/
structure Output where
  /-- The bytes written to the terminal. -/
  shown : List Byte
  /-- What was added to the guest's input. -/
  replies : List (List Byte)
deriving DecidableEq, Repr

/-- An outside that keeps what the console tells it. -/
def capturing (env : Env ε) : Env (ε × Output)
  | .stdout bytes, s =>
    ((), ((env (.stdout bytes) s.1).2, { s.2 with shown := s.2.shown ++ bytes }))
  | .extendInput bytes, s =>
    ((), ((env (.extendInput bytes) s.1).2, { s.2 with replies := s.2.replies ++ [bytes] }))
  | op, s => ((env op s.1).1, ((env op s.1).2, s.2))

namespace ConsoleWorker

/-! ## One buffer -/

def queryLen (xs : List Byte) : Option Nat :=
  if DSR.length ≤ xs.length ∧ xs.take DSR.length = DSR then some DSR.length else none

theorem queryLen_eq_some {xs : List Byte} {n : Nat} :
    queryLen xs = some n ↔ n ≤ xs.length ∧ xs.take n = DSR := by
  simp only [queryLen, Option.ite_none_right_eq_some, Option.some.injEq]
  constructor
  · rintro ⟨h, rfl⟩
    exact h
  · rintro ⟨hn, h⟩
    have hlen : n = DSR.length := by rw [← h, List.length_take_of_le hn]
    exact ⟨hlen ▸ ⟨hn, h⟩, hlen.symm⟩

/-- The scanner for queries. -/
def query : Matcher Byte :=
  ⟨(· = DSR), queryLen, queryLen_eq_some, 0x1b, fun h => ⟨_, h, by decide⟩⟩

theorem filterDsr_eq (buf : List Byte) :
    filterDsr buf = (query.strip buf, decide (0 < query.count buf)) := by
  fun_induction filterDsr buf with
  | case1 rest ih =>
    have hlen : query.len (DSR ++ rest) = some DSR.length :=
      query.len_eq_some.mpr ⟨by simp, List.take_left⟩
    have hs : query.strip (DSR ++ rest) = query.strip rest := by
      rw [Matcher.strip_of_len hlen, List.drop_left]
    have hc : query.count (DSR ++ rest) = query.count rest + 1 := by
      rw [Matcher.count_of_len hlen, List.drop_left]
    show ((filterDsr rest).1, true) =
      (query.strip (DSR ++ rest), decide (0 < query.count (DSR ++ rest)))
    rw [hs, hc, ih]
    simp
  | case2 b rest h ih =>
    have hnone : query.len (b :: rest) = none := by
      rw [Option.eq_none_iff_forall_ne_some]
      intro n hn
      have hd : b :: rest = DSR ++ (b :: rest).drop n := by
        conv => lhs; rw [← List.take_append_drop n (b :: rest), (query.len_eq_some.mp hn).2]
      obtain ⟨rfl, hr⟩ := List.cons.inj hd
      exact h _ rfl hr
    rw [Matcher.strip_cons hnone, Matcher.count_cons hnone, ih]
  | case3 => rfl

variable {env : Env ε}

/-- The answer to a buffer, if it has a query. -/
def answers (b : List Byte) : List (List Byte) := if 0 < query.count b then [CPR] else []

theorem run_filterDsrAndRespond (env : Env ε) (b : List Byte) (w : World (ε × Output)) :
    ∃ w', Prog.run (mm.world false (capturing env)) (filterDsrAndRespond b) w =
        some (query.strip b, w') ∧
      w'.ext.2 = { w.ext.2 with replies := w.ext.2.replies ++ answers b } := by
  unfold filterDsrAndRespond answers
  rw [filterDsr_eq]
  by_cases h : 0 < query.count b
  · simp only [h, decide_true, if_true]
    exact ⟨_, rfl, rfl⟩
  · simp only [h, decide_false, Bool.false_eq_true, if_false, List.append_nil]
    exact ⟨w, rfl, rfl⟩

/-- A chain's bytes are written without their queries. -/
theorem run_emit (env : Env ε) {reader : Reader} (hb : reader.Bounded) (w : World (ε × Output)) :
    ∃ w', Prog.run (mm.world false (capturing env)) (emit reader) w = some ((), w') ∧
      w'.ext.2 = ⟨w.ext.2.shown ++ query.strip (contents w.mem reader.buffer.buffers),
        w.ext.2.replies ++ answers (contents w.mem reader.buffer.buffers)⟩ := by
  have hlen : (contents w.mem reader.buffer.buffers).length = reader.availableBytes :=
    length_contents ..
  unfold emit
  split
  · obtain ⟨r', -, hr⟩ := Reader.run_read false mm (capturing env) hb reader.availableBytes w
    have hall : (w.mem.gather reader.addrs).take reader.availableBytes =
        contents w.mem reader.buffer.buffers := by
      rw [contents_eq_gather]
      exact List.take_of_length_le (by rw [Mem.length_gather]; exact reader.length_addrs.le)
    rw [hall] at hr
    rw [Prog.run_bind, hr, Option.bind_some]
    dsimp only
    obtain ⟨w₁, hr₁, he₁⟩ := run_filterDsrAndRespond env (contents w.mem reader.buffer.buffers) w
    rw [Prog.run_bind, hr₁, Option.bind_some]
    cases hs : query.strip (contents w.mem reader.buffer.buffers) with
    | nil => exact ⟨w₁, rfl, by rw [he₁, List.append_nil]⟩
    | cons b bs =>
      refine ⟨_, rfl, ?_⟩
      show ({ w₁.ext.2 with shown := w₁.ext.2.shown ++ b :: bs } : Output) = _
      rw [he₁]
  · have hnil : contents w.mem reader.buffer.buffers = [] :=
      List.length_eq_zero_iff.mp (by omega)
    rw [hnil]
    exact ⟨w, rfl, by simp [Matcher.strip, answers, Matcher.count]⟩

/-! ## Calls -/

/-- The output in a chain. -/
def buffer? (mm : MemoryManager) (p : DescriptorChain × Mem) : Option (List Byte) :=
  if p.1.readableOk mm p.2 then some (p.1.readableData mm p.2) else none

/-- The output in the chains popped, buffer by buffer. -/
def buffers (mm : MemoryManager) (log : List Event) : List (List Byte) :=
  (pops log).filterMap (buffer? mm)

theorem outbound (env : Env ε) : Outbound mm env (serveTx mm) := fun c q w => ⟨_, servedTx c q w⟩

/-- What is told for some buffers. -/
def told (bs : List (List Byte)) : Output := ⟨bs.flatMap query.strip, bs.flatMap answers⟩

theorem told_serveTx {c : DescriptorChain} {q : Queue} {w w' : World (ε × Output)}
    {x : Queue × Bool} {ps : List (DescriptorChain × Mem)}
    (hr : Prog.run (mm.world false (capturing env)) (serveTx mm c q) w = some (x, w'))
    (hs : w.ext.2 = told (ps.filterMap (buffer? mm))) :
    w'.ext.2 = told ((ps ++ [(c, w.mem)]).filterMap (buffer? mm)) := by
  obtain ⟨r, hl, hc⟩ := run_readerNew (capturing env) c.tableFits_false w
  rw [serveTx, Prog.run_bind, hl, Option.bind_some] at hr
  rw [List.filterMap_append, List.filterMap_cons, List.filterMap_nil]
  rcases hc with ⟨hok, rfl⟩ | ⟨ha, e, rfl⟩
  · obtain ⟨hb, hav⟩ := reader_of_readableOk hok
    obtain ⟨w₁, hr₁, he₁⟩ := run_emit env hb w
    dsimp only at hr
    rw [Prog.run_bind, hr₁, Option.bind_some] at hr
    have he : w'.ext = w₁.ext := ((keepsExt_addUsed q c.index 0).bind fun _ => .pure _) rfl hr
    rw [he, he₁, hs, buffer?, if_pos hok]
    simp [told, DescriptorChain.readableData, DescriptorChain.reader]
  · obtain ⟨-, rfl⟩ := Prod.mk.inj (Option.some.inj hr)
    have hno : ¬ c.readableOk mm w.mem = true := fun hok => by cases ha.symm.trans hok
    rw [buffer?, if_neg hno, hs]
    simp

/-- A run of the console's transmit queue: between two calls the guest may do
anything to the memory and to the queue. -/
inductive TxRun (ck : Bool) (mm : MemoryManager) (env : Env ε) : World (ε × Output) → Prop
  | start (m : Mem) (e : ε) : TxRun ck mm env ⟨m, (e, ⟨[], []⟩), []⟩
  | call {w w' : World (ε × Output)} (m : Mem) (fuel : Nat) (q : Queue) {o : Option Queue} :
      TxRun ck mm env w →
      Prog.run (mm.world ck (capturing env)) (processTxQueue mm fuel q) { w with mem := m } =
        some (o, w') →
      TxRun ck mm env w'

/-- The console tells what its buffers are. -/
theorem TxRun.told {ck : Bool} {w : World (ε × Output)} (h : TxRun ck mm env w) :
    w.ext.2 = told (buffers mm w.log) := by
  induction h with
  | start m e => rfl
  | call m fuel q _ hr ih =>
    have ho : Outbound mm (capturing env) (serveTx mm) := outbound _
    have hkeeps := keeps_processWith ho
      (J := fun e ps => e.2 = ConsoleWorker.told (ps.filterMap (buffer? mm)))
      (fun hr hs => told_serveTx hr hs) (fun h => h) fuel q
    refine hkeeps ?_ (run_of_checked hr)
    exact ih

theorem answers_eq (b : List Byte) : answers b = List.replicate (min 1 (query.count b)) CPR := by
  unfold answers
  rcases Nat.eq_zero_or_pos (query.count b) with h | h
  · rw [h]
    rfl
  · rw [if_pos h, Nat.min_eq_left h]
    rfl

theorem flatMap_answers (bs : List (List Byte)) :
    bs.flatMap answers = List.replicate (bs.map fun b => min 1 (query.count b)).sum CPR := by
  induction bs with
  | nil => rfl
  | cons b bs ih =>
    rw [List.flatMap_cons, ih, answers_eq, List.map_cons, List.sum_cons, List.replicate_add]

theorem sum_min_le (ns : List Nat) : (ns.map (min 1)).sum ≤ ns.sum := by
  induction ns with
  | nil => exact Nat.le_refl 0
  | cons n ns ih =>
    rw [List.map_cons, List.sum_cons, List.sum_cons]
    omega

/-- One answer for each buffer is one for each query if no buffer has two. -/
theorem sum_min_iff {ns : List Nat} : (ns.map (min 1)).sum = ns.sum ↔ ∀ n ∈ ns, n < 2 := by
  induction ns with
  | nil => simp
  | cons n ns ih =>
    have hle := sum_min_le ns
    rw [List.map_cons, List.sum_cons, List.sum_cons, List.forall_mem_cons, ← ih]
    omega

/-- The outside is told what the whole output is, if and only if its pieces
sever no query and have one each at most. -/
theorem told_iff (bs : List (List Byte)) :
    ((told bs).shown = query.strip bs.flatten ∧
        (told bs).replies = List.replicate (query.count bs.flatten) CPR) ↔
      ¬query.Severed bs ∧ ∀ b ∈ bs, query.count b < 2 := by
  rw [← query.flatMap_strip_iff bs]
  refine and_congr_right fun hshown => ?_
  rw [Matcher.count_flatten (query.flatMap_strip_iff bs |>.mp hshown), told, flatMap_answers]
  have hmap : bs.map (fun b => min 1 (query.count b)) = (bs.map query.count).map (min 1) := by
    rw [List.map_map]
    rfl
  rw [List.replicate_left_inj, hmap, sum_min_iff, List.forall_mem_map]

theorem count_lt_two_iff (b : List Byte) :
    query.count b < 2 ↔ ¬∃ x y z, b = x ++ DSR ++ y ++ DSR ++ z := by
  rw [← Nat.not_le, Matcher.two_le_count_iff]
  refine not_congr ⟨?_, ?_⟩
  · rintro ⟨x, w, y, w', z, rfl, rfl, rfl⟩
    exact ⟨x, y, z, rfl⟩
  · rintro ⟨x, y, z, rfl⟩
    exact ⟨x, DSR, y, DSR, z, rfl, rfl, rfl⟩

/-- After any calls, the terminal has got the output without its queries and the
guest an answer to each of them, if and only if no query straddles two buffers
and no buffer has two queries. Whenever the rings lie in guest memory, a call
returns, and has popped the chains that the driver has submitted. -/
theorem queries_answered_iff (mm : MemoryManager) (env : Env ε) :
    (∀ ck w, TxRun ck mm env w →
      ((w.ext.2.shown = query.strip (buffers mm w.log).flatten ∧
          w.ext.2.replies = List.replicate (query.count (buffers mm w.log).flatten) CPR) ↔
        (¬∃ before after u v s t, buffers mm w.log = before ++ after ∧ before.flatten = u ++ v ∧
          after.flatten = s ++ t ∧ v ≠ [] ∧ s ≠ [] ∧ v ++ s = DSR) ∧
        ∀ b ∈ buffers mm w.log, ¬∃ x y z, b = x ++ DSR ++ y ++ DSR ++ z)) ∧
    ∀ (q : Queue) (m : Mem) (e : ε × Output) (dt av us fuel : Nat), q.Layout mm dt av us →
      q.pending av m < fuel →
      ∃ q' w, Prog.run (mm.world false (capturing env)) (processTxQueue mm fuel q) ⟨m, e, []⟩ =
          some (some q', w) ∧
        (pops w.log).map Prod.fst = q.submitted mm av m ∧
        ∀ p ∈ pops w.log, p.1.readable mm p.2 = p.1.readable mm m := by
  refine ⟨fun ck w h => ?_, fun q m e dt av us fuel hL hf =>
    processWith_returns (outbound (capturing env)) hL m e hf⟩
  rw [h.told, told_iff]
  refine and_congr (not_congr ?_) (forall_congr' fun b => imp_congr_right fun _ => count_lt_two_iff b)
  constructor
  · rintro ⟨before, after, hb, u, v, s, t, h⟩
    exact ⟨before, after, u, v, s, t, hb, h⟩
  · rintro ⟨before, after, u, v, s, t, hb, h⟩
    exact ⟨before, after, hb, u, v, s, t, h⟩

/-- Memory in which the driver of `smallQueue` has made a chain available whose 16
readable bytes start with `bytes`. -/
def typed (bytes : List Byte) : Mem := (oneChain 0 0x4000).write 0x4000 bytes

theorem queries_answered_iff_one : ∃ w, TxRun true smallRam idleEnv w ∧
    w.ext.2 = ⟨List.replicate 12 0, [CPR]⟩ ∧
    ∀ b ∈ buffers smallRam w.log, ¬∃ x y z, b = x ++ DSR ++ y ++ DSR ++ z := by
  have hr : (Prog.run (smallRam.world true (capturing idleEnv)) (processTxQueue smallRam 2 smallQueue)
      ⟨typed DSR, ((), ⟨[], []⟩), []⟩).map (fun r => (buffers smallRam r.2.log,
        r.2.ext.2)) = some ([DSR ++ List.replicate 12 0], ⟨List.replicate 12 0, [CPR]⟩) := by
    decide +kernel
  obtain ⟨⟨o, w⟩, h, he⟩ := Option.map_eq_some_iff.mp hr
  obtain ⟨hb, ht⟩ := Prod.mk.inj he
  dsimp only at hb ht
  have hrun : TxRun true smallRam idleEnv w := .call (typed DSR) 2 smallQueue (.start (typed DSR) ()) h
  have hcond := ((queries_answered_iff smallRam idleEnv).1 true w hrun).mp (by
    rw [ht, hb]
    decide)
  exact ⟨w, hrun, ht, hcond.2⟩

/-- Two queries in a buffer are answered once. -/
theorem query_unanswered : ∃ w, TxRun true smallRam idleEnv w ∧
    query.count (buffers smallRam w.log).flatten = 2 ∧ w.ext.2.replies = [CPR] := by
  have hr : (Prog.run (smallRam.world true (capturing idleEnv)) (processTxQueue smallRam 2 smallQueue)
      ⟨typed (DSR ++ DSR), ((), ⟨[], []⟩), []⟩).map (fun r =>
        (query.count (buffers smallRam r.2.log).flatten, r.2.ext.2.replies)) = some (2, [CPR]) := by
    decide +kernel
  obtain ⟨⟨o, w⟩, h, he⟩ := Option.map_eq_some_iff.mp hr
  obtain ⟨hc, hs⟩ := Prod.mk.inj he
  exact ⟨w, .call (typed (DSR ++ DSR)) 2 smallQueue (.start (typed DSR) ()) h, hc, hs⟩

end ConsoleWorker

end Whypa
