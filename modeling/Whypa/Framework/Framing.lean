import Whypa.Framework.Bytes

/-!
# Frames in a byte stream

A stream of frames, each after its length, a little-endian word of `w` bytes.
The word holds the length modulo `256 ^ w`, and `parse` is what a receiver makes
of a stream: `parse_encodeAll_iff` says that it gets the frames back exactly if
each length fits its word. A receiver that reads a length elsewhere than at the
start of a frame (`Boundary`) is out of step.
-/

namespace Framework.Framing

variable {w : Nat}

/-- A frame after its length. -/
def encode (w : Nat) (frame : List Byte) : List Byte := leBytes w frame.length ++ frame

def encodeAll (w : Nat) (frames : List (List Byte)) : List Byte := frames.flatMap (encode w)

@[simp] theorem encodeAll_nil : encodeAll w [] = [] := rfl

@[simp] theorem encodeAll_cons (frame : List Byte) (frames : List (List Byte)) :
    encodeAll w (frame :: frames) = encode w frame ++ encodeAll w frames := rfl

@[simp] theorem encodeAll_append (fs gs : List (List Byte)) :
    encodeAll w (fs ++ gs) = encodeAll w fs ++ encodeAll w gs := List.flatMap_append

@[simp] theorem length_encode (frame : List Byte) : (encode w frame).length = w + frame.length := by
  simp [encode]

/-- The first bytes of a stream are the length of the first frame. -/
theorem take_encode (frame bs : List Byte) :
    (encode w frame ++ bs).take w = leBytes w frame.length := by
  rw [encode, List.append_assoc, List.take_left' (length_leBytes ..)]

theorem drop_encode (frame bs : List Byte) : (encode w frame ++ bs).drop w = frame ++ bs := by
  rw [encode, List.append_assoc, List.drop_left' (length_leBytes ..)]

/-- A frame starts at `o`. -/
def Boundary (w : Nat) (frames : List (List Byte)) (o : Nat) : Prop :=
  ∃ done f rest, frames = done ++ f :: rest ∧ o = (encodeAll w done).length

/-- No frame starts inside another one. -/
theorem not_boundary (done rest : List (List Byte)) {f : List Byte} {k : Nat} (h0 : 0 < k)
    (hk : k < w + f.length) : ¬ Boundary w (done ++ f :: rest) ((encodeAll w done).length + k) := by
  rintro ⟨done', f', rest', he, ho⟩
  rcases List.append_eq_append_iff.mp he with ⟨as, rfl, has⟩ | ⟨bs, rfl, -⟩
  · cases as with
    | nil =>
      rw [List.append_nil] at ho
      omega
    | cons a as =>
      obtain ⟨rfl, -⟩ := List.cons.inj has
      rw [encodeAll_append, encodeAll_cons, List.length_append, List.length_append, length_encode] at ho
      omega
  · rw [encodeAll_append, List.length_append] at ho
    omega

/-- Read a length and then as many bytes, until nothing is left. -/
def parse (w : Nat) (bs : List Byte) : Option (List (List Byte)) :=
  if bs = [] then some []
  else if w = 0 ∨ bs.length < w then none
  else if ofLE (bs.take w) ≤ (bs.drop w).length then
    (parse w (bs.drop (w + ofLE (bs.take w)))).map ((bs.drop w).take (ofLE (bs.take w)) :: ·)
  else none
termination_by bs.length
decreasing_by
  rename_i hne hw _
  have := List.length_pos_iff.mpr hne
  rw [List.length_drop]
  omega

/-- A frame is read back if its length fits. -/
theorem parse_encode (hw : 0 < w) {frame : List Byte} (hf : frame.length < 256 ^ w) (bs : List Byte) :
    parse w (encode w frame ++ bs) = (parse w bs).map (frame :: ·) := by
  have hlen : (encode w frame ++ bs).length = w + frame.length + bs.length := by
    rw [List.length_append, length_encode]
  have hn : ofLE ((encode w frame ++ bs).take w) = frame.length := by
    rw [take_encode, ofLE_leBytes, Nat.mod_eq_of_lt hf]
  rw [parse, if_neg (List.length_pos_iff.mp (by omega)), if_neg (by omega), hn, ← List.drop_drop,
    drop_encode, if_pos (by rw [List.length_append]; omega), List.drop_left, List.take_left]

theorem parse_encodeAll (hw : 0 < w) {frames : List (List Byte)}
    (hf : ∀ f ∈ frames, f.length < 256 ^ w) : parse w (encodeAll w frames) = some frames := by
  induction frames with
  | nil => rw [encodeAll_nil, parse, if_pos rfl]
  | cons f fs ih =>
    rw [encodeAll_cons, parse_encode hw (hf f List.mem_cons_self),
      ih fun g hg => hf g (List.mem_cons_of_mem f hg), Option.map_some]

/-- The length of a frame that was read fits its word. -/
theorem length_lt_of_parse {bs : List Byte} {frames : List (List Byte)}
    (h : parse w bs = some frames) : ∀ f ∈ frames, f.length < 256 ^ w := by
  induction bs using parse.induct w generalizing frames with
  | case1 =>
    rw [parse, if_pos rfl] at h
    obtain rfl := Option.some.inj h
    simp
  | case2 bs hne hw =>
    rw [parse, if_neg hne, if_pos hw] at h
    cases h
  | case3 bs hne hw hle ih =>
    rw [parse, if_neg hne, if_neg hw, if_pos hle] at h
    obtain ⟨fs, hfs, rfl⟩ := Option.map_eq_some_iff.mp h
    intro f hf
    rcases List.mem_cons.mp hf with rfl | hf
    · have hlt := ofLE_lt (bs.take w)
      rw [List.length_take, Nat.min_eq_left (by omega)] at hlt
      rw [List.length_take, Nat.min_eq_left hle]
      exact hlt
    · exact ih hfs f hf
  | case4 bs hne hw hle =>
    rw [parse, if_neg hne, if_neg hw, if_neg hle] at h
    cases h

/-- A stream of frames parses into them exactly if each length fits its word. -/
theorem parse_encodeAll_iff (hw : 0 < w) (frames : List (List Byte)) :
    parse w (encodeAll w frames) = some frames ↔ ∀ f ∈ frames, f.length < 256 ^ w :=
  ⟨length_lt_of_parse, parse_encodeAll hw⟩

end Framework.Framing
