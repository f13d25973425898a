import Whypa.Framework.Bytes
import Whypa.Framework.Span

/-!
# Blocks in a memory

A memory after several blocks of bytes were put into it, one after the other
(`Mem.layout`). An address outside of all of them keeps its byte (`layout_apply_out`);
in one of them it has a byte that does not depend on what was there before
(`layout_apply_has`), the block's own if no two blocks meet (`layout_apply_in`).
-/

namespace Framework

/-- A block of bytes and its address. -/
structure Block where
  addr : Nat
  bytes : List Byte

def Block.span (b : Block) : Span := ⟨b.addr, b.bytes.length⟩

namespace Mem

variable {m m' : Mem} {blocks : List Block} {b : Block} {x : Nat}

/-- The memory with the blocks written in order. -/
def layout (m : Mem) (blocks : List Block) : Mem := blocks.foldl (fun m b => m.write b.addr b.bytes) m

theorem layout_append (m : Mem) (bs cs : List Block) : m.layout (bs ++ cs) = (m.layout bs).layout cs :=
  List.foldl_append

theorem write_apply_out (h : ¬ b.span.Has x) : m.write b.addr b.bytes x = m x := by
  unfold Span.Has Block.span Span.stop at h
  exact write_apply (by dsimp only at h; omega)

theorem layout_apply_out (h : ∀ b ∈ blocks, ¬ b.span.Has x) : m.layout blocks x = m x := by
  induction blocks generalizing m with
  | nil => rfl
  | cons b bs ih =>
    obtain ⟨hb, hbs⟩ := List.forall_mem_cons.mp h
    rw [layout, List.foldl_cons]
    exact (ih hbs).trans (write_apply_out hb)

/-- The last block with the address decides. -/
theorem layout_apply_has (h : ∃ b ∈ blocks, b.span.Has x) : m.layout blocks x = m'.layout blocks x := by
  induction blocks generalizing m m' with
  | nil =>
    obtain ⟨b, hb, -⟩ := h
    cases hb
  | cons b bs ih =>
    rw [layout, layout, List.foldl_cons, List.foldl_cons]
    by_cases hbs : ∃ c ∈ bs, c.span.Has x
    · exact ih hbs
    · have hout : ∀ c ∈ bs, ¬ c.span.Has x := fun c hc hx => hbs ⟨c, hc, hx⟩
      obtain ⟨c, hc, hx⟩ := h
      obtain rfl := (List.mem_cons.mp hc).resolve_right fun hc => hout c hc hx
      refine (layout_apply_out hout).trans (Eq.trans ?_ (layout_apply_out hout).symm)
      obtain ⟨i, rfl⟩ := Nat.exists_eq_add_of_le (show c.addr ≤ x from hx.1)
      have hi : i < c.bytes.length := Nat.lt_of_add_lt_add_left hx.2
      rw [write_apply_in hi, write_apply_in hi]

theorem layout_apply_in (hsep : blocks.Pairwise fun b c => ¬ b.span.Meets c.span) (hb : b ∈ blocks) {i : Nat}
    (hi : i < b.bytes.length) : m.layout blocks (b.addr + i) = b.bytes[i] := by
  have hx : b.span.Has (b.addr + i) := ⟨Nat.le_add_right .., Nat.add_lt_add_left hi _⟩
  induction blocks generalizing m with
  | nil => cases hb
  | cons c cs ih =>
    obtain ⟨hc, hsep⟩ := List.pairwise_cons.mp hsep
    rw [layout, List.foldl_cons]
    rcases List.mem_cons.mp hb with rfl | hb
    · have hout : ∀ c ∈ cs, ¬ c.span.Has (b.addr + i) := fun c hcs hcx => hc c hcs ⟨_, hx, hcx⟩
      exact (layout_apply_out hout).trans (write_apply_in hi)
    · exact ih hsep hb

end Mem

end Framework
