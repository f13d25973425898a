import Whypa.Virtio.Drain
import Whypa.Virtio.Returned

/-!
# Queues that carry bytes out

The workers of the transmit queues of the console and of the network only read
the chains they pop, and tell the outside what they read. What such a worker has
told is a matter of the chains it has popped, each with the memory of that moment
(`keeps_popLoop`); and with the rings in guest memory a call returns, having
popped the chains that the driver has submitted (`processWith_returns`).
-/

namespace Whypa

open Framework WProg

variable {ε : Type} {mm : MemoryManager} {m : Mem}

namespace DescriptorChain

/-- The readable bytes of the chain. -/
def readableData (mm : MemoryManager) (m : Mem) (c : DescriptorChain) : List Byte :=
  contents m ((c.readable mm m).map (buffer mm))

theorem length_readableData {c : DescriptorChain} (h : c.readableOk mm m = true) :
    (c.readableData mm m).length = c.readableBytes mm m := by
  rw [readableData, length_contents]
  exact sum_len_buffer h

end DescriptorChain

/-! ## What does not reach the outside -/

section
variable {env : Env ε} {ck : Bool} {e : ε} {α : Type}

/-- Accesses to memory do not reach the outside. -/
theorem keepsExt_lift (p : VProg α) : Prog.Keeps (mm.world ck env) (fun w => w.ext = e) (lift p) := by
  intro w x w' he hr
  rw [run_lift] at hr
  obtain ⟨r, -, hw⟩ := Option.map_eq_some_iff.mp hr
  obtain ⟨-, rfl⟩ := Prod.mk.inj hw
  exact he

theorem keepsExt_popChain (q : Queue) :
    Prog.Keeps (mm.world ck env) (fun w => w.ext = e) (popChain q) := by
  refine (keepsExt_lift _).bind fun x => ?_
  rcases x with ⟨_ | c, q⟩
  · exact .pure _
  · refine Prog.Keeps.bind (fun w x w' he hr => ?_) fun _ => .pure _
    obtain ⟨-, rfl⟩ := Prod.mk.inj (Option.some.inj hr)
    exact he

theorem keepsExt_addUsed (q : Queue) (i : BitVec 16) (len : Nat) :
    Prog.Keeps (mm.world ck env) (fun w => w.ext = e) (addUsed q i len) := by
  refine Prog.Keeps.bind (fun w x w' he hr => ?_) fun _ => (keepsExt_lift _).bind fun _ => .pure _
  obtain ⟨-, rfl⟩ := Prod.mk.inj (Option.some.inj hr)
  exact he

end

/-! ## The loop -/

section
variable {env : Env ε} {serve : DescriptorChain → Queue → WProg (Queue × Bool)}

/-- A chain is popped, with the memory of this moment, or none is left. -/
theorem run_popChain_pops {q q' : Queue} {w w' : World ε} {o : Option DescriptorChain}
    (hr : Prog.run (mm.world false env) (popChain q) w = some ((o, q'), w')) :
    w'.ext = w.ext ∧ pops w'.log = pops w.log ++ (o.map fun c => (c, w'.mem)).toList := by
  refine ⟨keepsExt_popChain q rfl hr, ?_⟩
  rcases log_popChain hr with ⟨rfl, hl⟩ | ⟨c, rfl, hl⟩
  · rw [hl]
    exact (List.append_nil _).symm
  · rw [hl]
    simp [pops, Event.pop?]

/-- Each chain is served, and nothing is written to the rings but the used ring. -/
def Outbound (mm : MemoryManager) (env : Env ε)
    (serve : DescriptorChain → Queue → WProg (Queue × Bool)) : Prop :=
  ∀ c q w, ∃ ok, Serves mm env (fun _ => False) ok c q (serve c q) w

theorem Outbound.pops (hserve : Outbound mm env serve) {c : DescriptorChain} {q : Queue}
    {w w' : World ε} {x : Queue × Bool}
    (hr : Prog.run (mm.world false env) (serve c q) w = some (x, w')) :
    Whypa.pops w'.log = Whypa.pops w.log := by
  obtain ⟨ok, hs⟩ := hserve c q w
  exact hs.pops hr

/-- What serving a chain adds to what the outside was told, the loop adds for the
chains it pops. -/
theorem keeps_popLoop (hserve : Outbound mm env serve)
    {J : ε → List (DescriptorChain × Mem) → Prop}
    (hstep : ∀ {c q x w w' ps}, Prog.run (mm.world false env) (serve c q) w = some (x, w') →
      J w.ext ps → J w'.ext (ps ++ [(c, w.mem)])) (fuel : Nat) (q : Queue) (used : Bool) :
    Prog.Keeps (mm.world false env) (fun w => J w.ext (pops w.log)) (popLoop serve fuel q used) := by
  induction fuel generalizing q used with
  | zero => exact .pure _
  | succ fuel ih =>
    intro w x w' hs hr
    rw [popLoop, Prog.run_bind] at hr
    obtain ⟨⟨⟨o, q₁⟩, w₁⟩, hp, hr⟩ := Option.bind_eq_some_iff.mp hr
    obtain ⟨he₁, hl₁⟩ := run_popChain_pops hp
    cases o with
    | none =>
      obtain ⟨-, rfl⟩ := Prod.mk.inj (Option.some.inj hr)
      show J w₁.ext (pops w₁.log)
      rw [he₁, hl₁]
      simpa using hs
    | some c =>
      dsimp only at hr
      rw [Prog.run_bind] at hr
      obtain ⟨⟨⟨q₂, used₂⟩, w₂⟩, hr₂, hr⟩ := Option.bind_eq_some_iff.mp hr
      refine ih q₂ _ ?_ hr
      show J w₂.ext (pops w₂.log)
      rw [hserve.pops hr₂, hl₁]
      exact hstep hr₂ (he₁ ▸ hs)

/-- So does a call that signals the guest. -/
theorem keeps_processWith (hserve : Outbound mm env serve)
    {J : ε → List (DescriptorChain × Mem) → Prop}
    (hstep : ∀ {c q x w w' ps}, Prog.run (mm.world false env) (serve c q) w = some (x, w') →
      J w.ext ps → J w'.ext (ps ++ [(c, w.mem)]))
    (hsignal : ∀ {e ps}, J e ps → J (env .signal e).2 ps) (fuel : Nat) (q : Queue) :
    Prog.Keeps (mm.world false env) (fun w => J w.ext (pops w.log))
      (processWith serve signalUsed fuel q) := by
  refine (keeps_popLoop hserve hstep fuel q false).bind fun x => ?_
  rcases x with _ | ⟨q, used⟩
  · exact .pure _
  · refine Prog.Keeps.bind ?_ fun _ => .pure _
    unfold signalUsed
    split
    · refine Prog.Keeps.bind (fun w x w' hs hr => ?_) fun _ => .pure _
      obtain ⟨-, rfl⟩ := Prod.mk.inj (Option.some.inj hr)
      exact hsignal hs
    · exact .pure _

end

/-! ## The chains of the driver -/

section
variable {env : Env ε} {serve : DescriptorChain → Queue → WProg (Queue × Bool)} {q₀ : Queue}
  {m₀ : Mem} {dt av us k : Nat}

/-- Nothing is written to the rings but the used ring. -/
theorem clear_tx : Clear q₀ mm dt av m₀ fun _ _ _ => False :=
  ⟨⟨fun _ _ _ _ _ h => h.elim, fun _ _ _ _ _ h => h.elim⟩, fun _ _ _ _ => rfl⟩

/-- The descriptors of a chain stay the same as long as the table does. -/
theorem readable_congr (hL : q₀.Layout mm dt av us) (hs : q₀.Steady dt av m₀ m) {c : DescriptorChain}
    (hc : c ∈ q₀.accepted mm av m₀ k) : c.readable mm m = c.readable mm m₀ := by
  have hct := (Queue.run_headChain mm q₀ m₀ (q₀.headAt av m₀ k)).2 c hc
  rw [DescriptorChain.readable, DescriptorChain.readable, DescriptorChain.chain,
    DescriptorChain.chain, DescriptorChain.chainFrom_congr hL hs _ hct]

/-- The loop pops the heads in turn, each with the descriptors it was submitted
with. -/
theorem pops_popLoop (hserve : Outbound mm env serve) (hL : q₀.Layout mm dt av us) {fuel : Nat}
    {q : Queue} {used : Bool} {w w' : World ε} {x : Queue × Bool} (hat : q₀.At dt av m₀ k q w.mem)
    (hr : Prog.run (mm.world false env) (popLoop serve fuel q used) w = some (some x, w')) :
    ∃ ps, pops w'.log = pops w.log ++ ps ∧
      ps.map Prod.fst = q₀.acceptedFrom mm av m₀ (q₀.pending av m₀ - k) k ∧
      ∀ p ∈ ps, p.1.readable mm p.2 = p.1.readable mm m₀ := by
  induction fuel generalizing k q used w with
  | zero => cases hr
  | succ fuel ih =>
    rw [popLoop, Prog.run_bind] at hr
    rcases run_popChain_at hL env hat with ⟨c, w₁, hk, hc, hm, hp⟩ | ⟨hstop, hp⟩
    · have hl := (run_popChain_pops hp).2
      have hat₁ : q₀.At dt av m₀ (k + 1) { q with nextAvail := q.nextAvail + 1 } w₁.mem :=
        hm ▸ hat.pop hk
      obtain ⟨ok, q₂, used₂, w₂, hr₂, hs⟩ := hserve c { q with nextAvail := q.nextAvail + 1 } w₁
      rw [hp, Option.bind_some] at hr
      dsimp only at hr
      rw [Prog.run_bind, hr₂, Option.bind_some] at hr
      obtain ⟨ps, hps, hfst, hdesc⟩ := ih (at_served hL clear_tx hk hc hat₁ hs) hr
      refine ⟨(c, w₁.mem) :: ps, ?_, ?_, ?_⟩
      · rw [hps, hserve.pops hr₂, hl]
        simp
      · rw [Queue.acceptedFrom_of_accepted hk hc, List.map_cons, hfst]
      · exact List.forall_mem_cons.mpr ⟨readable_congr hL hat₁.steady hc, hdesc⟩
    · rw [hp, Option.bind_some] at hr
      obtain ⟨-, rfl⟩ := Prod.mk.inj (Option.some.inj hr)
      exact ⟨[], (List.append_nil _).symm, (Queue.acceptedFrom_of_stop hstop).symm, by simp⟩

end

/-- With the rings in guest memory, a call returns, and it has popped the chains
that the driver has submitted. -/
theorem processWith_returns {env : Env ε} {serve : DescriptorChain → Queue → WProg (Queue × Bool)}
    (hserve : Outbound mm env serve) {q : Queue} {dt av us fuel : Nat} (hL : q.Layout mm dt av us)
    (m : Mem) (e : ε) (hf : q.pending av m < fuel) :
    ∃ q' w, Prog.run (mm.world false env) (processWith serve signalUsed fuel q) ⟨m, e, []⟩ =
        some (some q', w) ∧
      (pops w.log).map Prod.fst = q.submitted mm av m ∧
      ∀ p ∈ pops w.log, p.1.readable mm p.2 = p.1.readable mm m := by
  have hat : q.At dt av m 0 q m :=
    ⟨.refl q, (Counter.ahead_zero _).symm, .refl .., Nat.zero_le _⟩
  have hrun : ∃ q' used' w', Prog.run (mm.world false env) (popLoop serve fuel q false)
      ⟨m, e, []⟩ = some (some (q', used'), w') := by
    have hspares : Spares mm env serve signalUsed av (.popping false) q ⟨m, e, []⟩ :=
      spares_of_clear hL clear_tx hserve notifies_signalUsed _
    rcases run_popLoop (S := fun _ _ _ => False) hL.placed hspares hserve fuel (.refl _ q _) with
      ⟨hle, -⟩ | ⟨q', used', w', j, hr, -⟩
    · exact absurd hf (Nat.not_lt_of_le hle)
    · exact ⟨q', used', w', hr⟩
  obtain ⟨q₁, used, w₁, hr₁⟩ := hrun
  obtain ⟨ps, hps, hfst, hdesc⟩ := pops_popLoop hserve (w := ⟨m, e, []⟩) hL hat hr₁
  have hps : pops w₁.log = ps := hps
  rw [← hps] at hfst hdesc
  rw [processWith, Prog.run_bind, hr₁, Option.bind_some]
  cases used with
  | true => exact ⟨q₁, _, rfl, hfst, hdesc⟩
  | false => exact ⟨q₁, w₁, rfl, hfst, hdesc⟩

end Whypa
