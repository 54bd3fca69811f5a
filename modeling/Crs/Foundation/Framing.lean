import Mathlib.Data.List.Basic

/-!
# Frames in a stream

A stream is the concatenation of the bytes of its frames. `contained` are the frames
that a number of received bytes contains completely. A decoder knows them as soon as
what it holds back is shorter than the next frame.
-/

namespace Foundation.Framing

variable {F B : Type*} (bytes : F → List B)

/-- The frames that lie completely within the first `count` bytes of the stream. -/
def contained : List F → Nat → List F
  | [], _ => []
  | f :: frames, count =>
      if (bytes f).length ≤ count then f :: contained frames (count - (bytes f).length) else []

variable {bytes} {past todo : List F} {f : F} {held : List B} {count : Nat}

/-- The frames before a held back part that is shorter than the frame it belongs to. -/
theorem contained_append (total : count = (past.flatMap bytes).length + held.length)
    (short : ∀ f rest, todo = f :: rest → held.length < (bytes f).length) :
    contained bytes (past ++ todo) count = past := by
  induction past generalizing count with
  | nil =>
      cases todo with
      | nil => rfl
      | cons f rest =>
          have less := short f rest rfl
          have total' : count = held.length := by simpa using total
          simp only [List.nil_append, contained, if_neg (show ¬ (bytes f).length ≤ count by omega)]
  | cons f past ih =>
      simp only [List.flatMap_cons, List.length_append] at total
      have rest : contained bytes (past ++ todo) (count - (bytes f).length) = past :=
        ih (by omega)
      simp only [List.cons_append, contained, if_pos (show (bytes f).length ≤ count by omega), rest]

/-- The whole stream contains all frames. -/
theorem contained_all (frames : List F) :
    contained bytes frames (frames.flatMap bytes).length = frames := by
  induction frames with
  | nil => rfl
  | cons f frames ih =>
      simpa only [List.flatMap_cons, contained, List.length_append, Nat.le_add_right, if_true,
        Nat.add_sub_cancel_left, List.cons.injEq, true_and] using ih

/-- The first bytes of the coming frames, as many as the next frame has, are that frame. -/
theorem eq_of_length {front : List B} (ahead : front <+: (f :: todo).flatMap bytes)
    (length : front.length = (bytes f).length) : front = bytes f := by
  rw [List.flatMap_cons] at ahead
  have next : bytes f <+: bytes f ++ todo.flatMap bytes := List.prefix_append _ _
  exact (List.prefix_of_prefix_length_le ahead next (Nat.le_of_eq length)).eq_of_length length

variable (bytes) in
/-- A decoder that has let the frames `past` out and holds the start of `todo` back. -/
structure Decoding (past todo : List F) (held received : List B) : Prop where
  balance : received = past.flatMap bytes ++ held
  ahead : held <+: todo.flatMap bytes

namespace Decoding

variable {front rest received : List B}

/-- As many bytes as the next frame has are that frame, and it may leave the decoder. -/
theorem emit (decoding : Decoding bytes past (f :: todo) (front ++ rest) received)
    (length : front.length = (bytes f).length) :
    front = bytes f ∧ Decoding bytes (past ++ [f]) todo rest received := by
  have whole : front = bytes f :=
    eq_of_length ((List.prefix_append front rest).trans decoding.ahead) length
  refine ⟨whole, ?_, ?_⟩
  · rw [decoding.balance, whole]
    simp
  · have ahead := decoding.ahead
    rwa [whole, List.flatMap_cons, List.prefix_append_right_inj] at ahead

/-- More bytes of the same stream are held back first. -/
theorem receive (decoding : Decoding bytes past todo held received) {more : List B}
    (delivery : received ++ more <+: (past ++ todo).flatMap bytes) :
    Decoding bytes past todo (held ++ more) (received ++ more) := by
  constructor
  · rw [decoding.balance, List.append_assoc]
  · rwa [decoding.balance, List.flatMap_append, List.append_assoc,
      List.prefix_append_right_inj] at delivery

/-- Fewer bytes than the next frame has: what is out is what was received completely. -/
theorem past_eq (decoding : Decoding bytes past todo held received)
    (short : ∀ f rest, todo = f :: rest → held.length < (bytes f).length) :
    past = contained bytes (past ++ todo) received.length := by
  refine (contained_append ?_ short).symm
  rw [decoding.balance, List.length_append]

/-- While bytes are held back, a frame is to come. -/
theorem todo_ne_nil (decoding : Decoding bytes past todo held received) (some : held ≠ []) :
    ∃ f rest, todo = f :: rest := by
  cases todo with
  | nil => exact absurd (List.prefix_nil.mp decoding.ahead) some
  | cons f rest => exact ⟨f, rest, rfl⟩

end Decoding
end Foundation.Framing
