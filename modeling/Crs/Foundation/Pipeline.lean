import Crs.Foundation.Machine

/-!
# Two machines joined by a stream

What a step of the producer puts out goes to the end of a stream, and a step of the consumer
takes what it reads from the front of the stream. Apart from that the two machines know
nothing of each other, and their steps interleave in any way.

`Run.of_pipe` splits a run into one of each machine and says that the consumer has read what
the producer has put out, up to what is still in the stream. `Run.pipe_read` is the way back
for one step of the consumer.

`Run.project` is for a machine that is one of many, or a part of a larger one.
-/

namespace Foundation

/-- The states of the two machines, and what was put out and has not been read. -/
structure Piped (σ τ B : Type*) where
  producer : σ
  stream : List B := []
  consumer : τ

namespace Machine

variable {σ τ α β ω ρ B : Type*}

def pipe [DecidableEq B] (m : Machine σ α ω) (n : Machine τ β ρ) (output : α × ω → List B)
    (input : β × ρ → List B) : Machine (Piped σ τ B) (α ⊕ β) (ω ⊕ ρ) where
  step s
    | .inl a => (m.step s.producer a).map fun next =>
        (.inl next.1, { s with
          producer := next.2
          stream := s.stream ++ output (a, next.1) })
    | .inr b => (n.step s.consumer b).bind fun next =>
        (s.stream.dropPrefix? (input (b, next.1))).map fun stream =>
          (.inr next.1, { s with stream, consumer := next.2 })

/-- The producer's events of a history. -/
def producing (history : List ((α ⊕ β) × (ω ⊕ ρ))) : List (α × ω) :=
  history.filterMap fun event =>
    match event with
    | (.inl a, .inl o) => some (a, o)
    | _ => none

/-- The consumer's events of a history. -/
def consuming (history : List ((α ⊕ β) × (ω ⊕ ρ))) : List (β × ρ) :=
  history.filterMap fun event =>
    match event with
    | (.inr b, .inr o) => some (b, o)
    | _ => none

section Steps

variable [DecidableEq B] {m : Machine σ α ω} {n : Machine τ β ρ} {output : α × ω → List B}
  {input : β × ρ → List B} {s u : Piped σ τ B} {history : List ((α ⊕ β) × (ω ⊕ ρ))}

/-- A step is one of the producer, or one of the consumer for which the stream has enough. -/
theorem pipe_cases {a : α ⊕ β} {o : ω ⊕ ρ} (step : (m.pipe n output input).step s a = some (o, u)) :
    (∃ b p producer, a = .inl b ∧ o = .inl p ∧ m.step s.producer b = some (p, producer) ∧
      u = ⟨producer, s.stream ++ output (b, p), s.consumer⟩) ∨
    ∃ b p consumer, a = .inr b ∧ o = .inr p ∧ n.step s.consumer b = some (p, consumer) ∧
      s.stream = input (b, p) ++ u.stream ∧ u = ⟨s.producer, u.stream, consumer⟩ := by
  cases a with
  | inl b =>
      obtain ⟨⟨p, producer⟩, here, result⟩ := Option.map_eq_some_iff.mp step
      obtain ⟨rfl, rfl⟩ := Prod.mk.inj result
      exact .inl ⟨b, p, producer, rfl, rfl, here, rfl⟩
  | inr b =>
      obtain ⟨⟨p, consumer⟩, here, dropped⟩ := Option.bind_eq_some_iff.mp step
      obtain ⟨stream, enough, result⟩ := Option.map_eq_some_iff.mp dropped
      obtain ⟨rfl, rfl⟩ := Prod.mk.inj result
      obtain ⟨front, split, same⟩ := List.dropPrefix?_eq_some_iff.mp enough
      rw [beq_iff_eq] at same
      exact .inr ⟨b, p, consumer, rfl, rfl, here, by rw [split, same], rfl⟩

/-- The consumer may step if the stream begins with what it reads. -/
theorem pipe_read (m : Machine σ α ω) (output : α × ω → List B) (input : β × ρ → List B) {b : β}
    {p : ρ} {consumer : τ} (here : n.step s.consumer b = some (p, consumer))
    (enough : input (b, p) <+: s.stream) :
    ∃ u, (m.pipe n output input).step s (.inr b) = some (.inr p, u) ∧ u.producer = s.producer ∧
      u.consumer = consumer ∧ s.stream = input (b, p) ++ u.stream := by
  obtain ⟨stream, split⟩ := enough
  have dropped : s.stream.dropPrefix? (input (b, p)) = some stream :=
    List.dropPrefix?_eq_some_iff.mpr ⟨_, split.symm, beq_self_eq_true _⟩
  refine ⟨⟨s.producer, stream, consumer⟩, ?_, rfl, rfl, split.symm⟩
  show (n.step s.consumer b).bind _ = _
  rw [here, Option.bind_some, dropped]
  rfl

/-- The two runs in a run, and the stream between them. -/
theorem Run.of_pipe {start : σ} {begin : τ}
    (run : (m.pipe n output input).Run ⟨start, [], begin⟩ history u) :
    m.Run start (producing history) u.producer ∧ n.Run begin (consuming history) u.consumer ∧
      (producing history).flatMap output = (consuming history).flatMap input ++ u.stream := by
  apply run.invariant (P := fun history u =>
    m.Run start (producing history) u.producer ∧ n.Run begin (consuming history) u.consumer ∧
      (producing history).flatMap output = (consuming history).flatMap input ++ u.stream)
  · exact ⟨.nil, .nil, rfl⟩
  · rintro history s a o u - ⟨produced, consumed, balance⟩ step
    simp only [producing, consuming, filterMap_snoc] at produced consumed balance ⊢
    obtain ⟨b, p, producer, rfl, rfl, here, rfl⟩ | ⟨b, p, consumer, rfl, rfl, here, split, same⟩ :=
      pipe_cases step
    · refine ⟨produced.snoc here, by simpa using consumed, ?_⟩
      simp [balance]
    · rw [same]
      refine ⟨by simpa using produced, consumed.snoc here, ?_⟩
      simp [balance, split]

end Steps

section Projection

variable {m : Machine σ α ω} {n : Machine τ β ρ} {s t : σ} {history : List (α × ω)}

/-- Each step is one of the part, or leaves the part alone: then a run contains one of the
part. -/
theorem Run.project (view : σ → τ) (events : α × ω → Option (β × ρ))
    (active : ∀ s a o u b p, m.step s a = some (o, u) → events (a, o) = some (b, p) →
      n.step (view s) b = some (p, view u))
    (idle : ∀ s a o u, m.step s a = some (o, u) → events (a, o) = none → view u = view s)
    (run : m.Run s history t) : n.Run (view s) (history.filterMap events) (view t) := by
  induction run with
  | nil => exact .nil
  | @snoc history t u a o _ step ih =>
      rw [filterMap_snoc]
      cases here : events (a, o) with
      | none =>
          rw [Option.toList_none, List.append_nil, idle t a o u step here]
          exact ih
      | some event => exact ih.snoc (active t a o u _ _ step here)

end Projection
end Machine
end Foundation
