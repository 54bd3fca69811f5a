import Mathlib.Data.List.Basic
import Mathlib.Logic.Relation

/-!
# Machines with partial, observed steps

A machine has one executable step function. The label of a step resolves every
choice of the caller, the scheduler and the environment, so nondeterminism is a
quantification over labels and never a second semantics. A step that answers
`none` is either not enabled or a fault of the modelled code. Each successful
step reports an observation; a run keeps the whole history of labels and
observations, so statements about counts and orders need no ghost state.

`Run.invariant` is the induction rule for histories, `guard` restricts a machine
to the steps that meet a condition, and `Refines` relates a machine to a total
specification step by step.
-/

namespace Foundation

/-- A step function over states `σ` with labels `α` and observations `ω`. -/
structure Machine (σ α ω : Type*) where
  step : σ → α → Option (ω × σ)

namespace Machine

variable {σ τ α ω : Type*} {m : Machine σ α ω}

/-- A finite run from `s`. The history is in order, with its last step at the end. -/
inductive Run (m : Machine σ α ω) (s : σ) : List (α × ω) → σ → Prop where
  | nil : Run m s [] s
  | snoc {history : List (α × ω)} {t u : σ} {a : α} {o : ω} :
      Run m s history t → m.step t a = some (o, u) → Run m s (history ++ [(a, o)]) u

/-- What the last event adds to a list that is read off a history. -/
theorem filterMap_snoc {ε β : Type*} (f : ε → Option β) (history : List ε) (event : ε) :
    (history ++ [event]).filterMap f = history.filterMap f ++ (f event).toList := by
  rw [List.filterMap_append]
  cases here : f event with
  | none => simp [here]
  | some b => simp [here]

/-- Some run from `s` ends in `t`. -/
def Reachable (m : Machine σ α ω) (s t : σ) : Prop := ∃ history, Run m s history t

namespace Run

variable {s t u : σ} {history rest : List (α × ω)} {a : α} {o : ω}

theorem single (h : m.step s a = some (o, t)) : Run m s [(a, o)] t := by
  simpa using Run.snoc .nil h

/-- Runs compose at their common state. -/
theorem append (first : Run m s history t) (second : Run m t rest u) :
    Run m s (history ++ rest) u := by
  induction second with
  | nil => simpa using first
  | snoc _ step ih => simpa only [List.append_assoc] using ih.snoc step

theorem cons (h : m.step s a = some (o, t)) (run : Run m t rest u) :
    Run m s ((a, o) :: rest) u := by
  simpa using (single h).append run

/-- An invariant of histories and states: it holds at the start and each step
from a reached state keeps it. -/
theorem invariant {P : List (α × ω) → σ → Prop} (start : P [] s)
    (preserved : ∀ history t a o u, Run m s history t → P history t →
      m.step t a = some (o, u) → P (history ++ [(a, o)]) u)
    (run : Run m s history t) : P history t := by
  induction run with
  | nil => exact start
  | snoc earlier step ih => exact preserved _ _ _ _ _ earlier ih step

/-- The special case of an invariant that only looks at the state. -/
theorem state_invariant {P : σ → Prop} (start : P s)
    (preserved : ∀ t a o u, P t → m.step t a = some (o, u) → P u)
    (run : Run m s history t) : P t :=
  run.invariant (P := fun _ => P) start
    (fun _ t a o u _ holds step => preserved t a o u holds step)

end Run

/-- The labels decide the run. -/
theorem Run.deterministic {s t u : σ} {history : List (α × ω)} (run : Run m s history t)
    (other : Run m s history u) : t = u := by
  induction run generalizing u with
  | nil =>
      generalize none : ([] : List (α × ω)) = history at other
      cases other with
      | nil => rfl
      | snoc => simp at none
  | @snoc earlier t t' a o _ step ih =>
      generalize same : earlier ++ [(a, o)] = history at other
      cases other with
      | nil => simp at same
      | snoc before step' =>
          obtain ⟨rfl, last⟩ := List.append_inj' same rfl
          obtain ⟨rfl, rfl⟩ : a = _ ∧ o = _ := by simpa using last
          obtain rfl := ih before
          rw [step] at step'
          exact (Prod.ext_iff.mp (Option.some.inj step')).2

/-- `P` holds of every state of a run, the first one included. -/
def Throughout (m : Machine σ α ω) (s : σ) (P : List (α × ω) → σ → Prop)
    (history : List (α × ω)) : Prop :=
  ∀ earlier t, earlier <+: history → Run m s earlier t → P earlier t

/-- `C` holds before every step of a run. -/
def BeforeEach (m : Machine σ α ω) (s : σ) (C : List (α × ω) → σ → α → Prop)
    (history : List (α × ω)) : Prop :=
  ∀ earlier a o t, earlier ++ [(a, o)] <+: history → Run m s earlier t → C earlier t a

section Exact

variable {s t u : σ} {history : List (α × ω)} {a : α} {o : ω}
  {P : List (α × ω) → σ → Prop} {C : List (α × ω) → σ → α → Prop}

theorem throughout_snoc (run : Run m s history t) (step : m.step t a = some (o, u)) :
    Throughout m s P (history ++ [(a, o)]) ↔
      Throughout m s P history ∧ P (history ++ [(a, o)]) u := by
  constructor
  · intro all
    exact ⟨fun earlier v before => all earlier v (before.trans (List.prefix_append _ _)),
      all _ u List.prefix_rfl (run.snoc step)⟩
  · rintro ⟨all, holds⟩ earlier v before reached
    obtain rfl | before := List.prefix_concat_iff.mp before
    · obtain rfl := reached.deterministic (run.snoc step)
      exact holds
    · exact all earlier v before reached

theorem beforeEach_snoc (run : Run m s history t) :
    BeforeEach m s C (history ++ [(a, o)]) ↔ BeforeEach m s C history ∧ C history t a := by
  constructor
  · intro all
    exact ⟨fun earlier b p v before => all earlier b p v (before.trans (List.prefix_append _ _)),
      all history a o t List.prefix_rfl run⟩
  · rintro ⟨all, holds⟩ earlier b p v before reached
    obtain same | before := List.prefix_concat_iff.mp before
    · obtain ⟨rfl, same⟩ := List.append_inj' same rfl
      obtain ⟨rfl, rfl⟩ : b = a ∧ p = o := by simpa using same
      obtain rfl := reached.deterministic run
      exact holds
    · exact all earlier b p v before reached

theorem beforeEach_nil : BeforeEach m s C [] :=
  fun _ _ _ _ before => by simp at before

theorem beforeEach_single : BeforeEach m s C [(a, o)] ↔ C [] s a :=
  (beforeEach_snoc (Run.nil : Run m s [] s)).trans (and_iff_right beforeEach_nil)

/-- A condition that looks at the history only can be checked position by position. -/
theorem beforeEach_of_take {C : List (α × ω) → α → Prop}
    (all : ∀ i (within : i < history.length), C (history.take i) history[i].1) :
    BeforeEach m s (fun earlier _ a => C earlier a) history := by
  rintro earlier a o t ⟨later, rfl⟩ -
  have here := all earlier.length (by simp)
  simpa using here

/-- A support that lasts as long as the property does, and a step that keeps the
property exactly under a condition: a run of allowed steps has the property in all its
states exactly if all its steps meet the condition. -/
theorem Run.throughout_iff_where {I : List (α × ω) → σ → Prop}
    {G : List (α × ω) → σ → α → Prop} (start : P [] s) (support : I [] s)
    (lasts : ∀ history t a o u, P history t → I history t → G history t a →
      m.step t a = some (o, u) → I (history ++ [(a, o)]) u)
    (exact : ∀ history t a o u, P history t → I history t → G history t a →
      m.step t a = some (o, u) → (P (history ++ [(a, o)]) u ↔ C history t a))
    (run : Run m s history t) (allowed : BeforeEach m s G history) :
    Throughout m s P history ↔ BeforeEach m s C history := by
  suffices both : (Throughout m s P history → I history t) ∧
      (Throughout m s P history ↔ BeforeEach m s C history) from both.2
  induction run with
  | nil =>
      refine ⟨fun _ => support, fun _ earlier a o v before => by simp at before, ?_⟩
      intro _ earlier v before reached
      obtain rfl := List.prefix_nil.mp before
      obtain rfl := reached.deterministic .nil
      exact start
  | @snoc history t u a o earlier step ih =>
      obtain ⟨before, now⟩ := (beforeEach_snoc earlier).mp allowed
      obtain ⟨supported, same⟩ := ih before
      rw [throughout_snoc earlier step, beforeEach_snoc earlier, ← same]
      have holds : Throughout m s P history → P history t :=
        fun all => all history t List.prefix_rfl earlier
      constructor
      · rintro ⟨all, -⟩
        exact lasts history t a o u (holds all) (supported all) now step
      · exact and_congr_right fun all => exact history t a o u (holds all) (supported all) now step

/-- The case where all steps are allowed. -/
theorem Run.throughout_iff {I : List (α × ω) → σ → Prop} (start : P [] s) (support : I [] s)
    (lasts : ∀ history t a o u, P history t → I history t → m.step t a = some (o, u) →
      I (history ++ [(a, o)]) u)
    (exact : ∀ history t a o u, P history t → I history t → m.step t a = some (o, u) →
      (P (history ++ [(a, o)]) u ↔ C history t a))
    (run : Run m s history t) : Throughout m s P history ↔ BeforeEach m s C history :=
  run.throughout_iff_where (G := fun _ _ _ => True) start support
    (fun history t a o u holds supported _ => lasts history t a o u holds supported)
    (fun history t a o u holds supported _ => exact history t a o u holds supported)
    fun _ _ _ _ _ _ => trivial

/-- An invariant that lasts as long as the steps meet a condition, and that gives a property:
in a run whose steps all meet the condition, all states have the property. -/
theorem Run.throughout_of {I : List (α × ω) → σ → Prop} (start : I [] s)
    (preserved : ∀ history t a o u, I history t → C history t a → m.step t a = some (o, u) →
      I (history ++ [(a, o)]) u)
    (enough : ∀ history t, I history t → P history t)
    (run : Run m s history t) (each : BeforeEach m s C history) : Throughout m s P history := by
  suffices both : I history t ∧ Throughout m s P history from both.2
  induction run with
  | nil =>
      refine ⟨start, fun earlier v before reached => ?_⟩
      obtain rfl := List.prefix_nil.mp before
      obtain rfl := reached.deterministic .nil
      exact enough _ _ start
  | @snoc history t u a o earlier step ih =>
      obtain ⟨before, now⟩ := (beforeEach_snoc earlier).mp each
      obtain ⟨holds, all⟩ := ih before
      have next := preserved _ _ _ _ _ holds now step
      exact ⟨next, (throughout_snoc earlier step).mpr ⟨all, enough _ _ next⟩⟩

end Exact

/-- Execute a list of labels, or `none` at the first one without a step. -/
def exec (m : Machine σ α ω) : σ → List α → Option (List (α × ω) × σ)
  | s, [] => some ([], s)
  | s, a :: labels =>
      (m.step s a).bind fun next =>
        (m.exec next.2 labels).map fun rest => ((a, next.1) :: rest.1, rest.2)

@[simp] theorem exec_nil (s : σ) : m.exec s [] = some ([], s) := rfl

theorem exec_cons {s t u : σ} {a : α} {o : ω} {labels : List α} {history : List (α × ω)}
    (step : m.step s a = some (o, t)) (rest : m.exec t labels = some (history, u)) :
    m.exec s (a :: labels) = some ((a, o) :: history, u) := by
  simp [exec, step, rest]

/-- The executable runner produces runs, so a concrete execution can be evaluated. -/
theorem run_of_exec {s t : σ} {labels : List α} {history : List (α × ω)}
    (h : m.exec s labels = some (history, t)) : Run m s history t := by
  induction labels generalizing s history with
  | nil =>
      simp only [exec_nil, Option.some.injEq, Prod.mk.injEq] at h
      obtain ⟨rfl, rfl⟩ := h
      exact .nil
  | cons a labels ih =>
      simp only [exec, Option.bind_eq_some_iff, Option.map_eq_some_iff, Prod.mk.injEq] at h
      obtain ⟨⟨o, u⟩, step, ⟨rest, v⟩, tail, rfl, rfl⟩ := h
      exact .cons step (ih tail)

/-- The same machine with only those steps that meet `allowed`. -/
def guard (m : Machine σ α ω) (allowed : σ → α → Prop) [∀ s a, Decidable (allowed s a)] :
    Machine σ α ω where
  step s a := if allowed s a then m.step s a else none

section Guard

variable {allowed : σ → α → Prop} [∀ s a, Decidable (allowed s a)]

theorem guard_step_iff {s u : σ} {a : α} {o : ω} :
    (m.guard allowed).step s a = some (o, u) ↔ allowed s a ∧ m.step s a = some (o, u) := by
  simp [guard]

/-- A run of the guarded machine is a run whose steps all meet the condition. -/
theorem run_of_guard {s t : σ} {history : List (α × ω)} (run : (m.guard allowed).Run s history t) :
    m.Run s history t ∧ m.BeforeEach s (fun _ s a => allowed s a) history := by
  induction run with
  | nil => exact ⟨.nil, fun _ _ _ _ before => by simp at before⟩
  | snoc _ step ih =>
    obtain ⟨earlier, each⟩ := ih
    obtain ⟨legal, step⟩ := guard_step_iff.mp step
    exact ⟨earlier.snoc step, (beforeEach_snoc earlier).mpr ⟨each, legal⟩⟩

end Guard

/-- The same machine with another report of its steps. -/
def observe {ρ : Type*} (m : Machine σ α ω) (report : σ → α → ρ) : Machine σ α ρ where
  step s a := (m.step s a).map fun next => (report s a, next.2)

theorem observe_step_iff {ρ : Type*} {report : σ → α → ρ} {s u : σ} {a : α} {r : ρ} :
    (m.observe report).step s a = some (r, u) ↔ r = report s a ∧ ∃ o, m.step s a = some (o, u) := by
  simp only [observe, Option.map_eq_some_iff, Prod.mk.injEq, Prod.exists]
  constructor
  · rintro ⟨o, t, step, rfl, rfl⟩
    exact ⟨rfl, o, step⟩
  · rintro ⟨rfl, o, step⟩
    exact ⟨o, u, step, rfl, rfl⟩

/-- The outcome of a total specification on a list of labels. -/
def specRun (spec : τ → α → ω × τ) : τ → List α → List (α × ω) × τ
  | t, [] => ([], t)
  | t, a :: labels =>
      ((a, (spec t a).1) :: (specRun spec (spec t a).2 labels).1,
        (specRun spec (spec t a).2 labels).2)

/-- From related states, every label has a step, it reports what the
specification reports, and the states stay related. -/
def Refines (m : Machine σ α ω) (spec : τ → α → ω × τ) (rel : σ → τ → Prop) : Prop :=
  ∀ s t a, rel s t → ∃ s', m.step s a = some ((spec t a).1, s') ∧ rel s' (spec t a).2

/-- A refinement lifts from single steps to every finite list of labels. -/
theorem Refines.exec {spec : τ → α → ω × τ} {rel : σ → τ → Prop} (refines : Refines m spec rel)
    {s : σ} {t : τ} (related : rel s t) (labels : List α) :
    ∃ s', m.exec s labels = some ((specRun spec t labels).1, s') ∧
      rel s' (specRun spec t labels).2 := by
  induction labels generalizing s t with
  | nil => exact ⟨s, rfl, related⟩
  | cons a labels ih =>
      obtain ⟨s₁, step, related₁⟩ := refines s t a related
      obtain ⟨s', rest, related'⟩ := ih related₁
      exact ⟨s', exec_cons step rest, related'⟩

end Machine
end Foundation
