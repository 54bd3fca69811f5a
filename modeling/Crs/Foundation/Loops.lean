import Mathlib.Logic.Basic
import Mathlib.Data.Nat.Notation

/-!
# Loops

A pass through the body of a loop goes on with a new state, or leaves the loop with a result; a
fault in it is none. `run` executes a loop up to a number of passes. `Returns` is without such a
bound, and the rules are stated for it: an invariant that counts down leads out of the loop, one
that goes on with every state does not.
-/

namespace Foundation

inductive Pass (σ ρ : Type*) where
  | again (s : σ)
  | leave (r : ρ)

namespace Loop

variable {σ ρ : Type*} {body : σ → Option (Pass σ ρ)} {s t : σ} {r q : ρ} {fuel more : ℕ}

def run (body : σ → Option (Pass σ ρ)) : ℕ → σ → Option ρ
  | 0, _ => none
  | fuel + 1, s =>
      match body s with
      | some (.again t) => run body fuel t
      | some (.leave r) => some r
      | none => none

inductive Returns (body : σ → Option (Pass σ ρ)) : σ → ρ → Prop where
  | leave {s : σ} {r : ρ} (pass : body s = some (.leave r)) : Returns body s r
  | again {s t : σ} {r : ρ} (pass : body s = some (.again t)) (rest : Returns body t r) :
      Returns body s r

theorem run_again (pass : body s = some (.again t)) : run body (fuel + 1) s = run body fuel t := by
  rw [run, pass]

theorem run_leave (pass : body s = some (.leave r)) : run body (fuel + 1) s = some r := by
  rw [run, pass]

theorem returns_of_run (ran : run body fuel s = some r) : Returns body s r := by
  induction fuel generalizing s with
  | zero => cases ran
  | succ fuel ih =>
    rw [run] at ran
    split at ran
    · next pass => exact .again pass (ih ran)
    · next pass =>
      cases ran
      exact .leave pass
    · cases ran

theorem run_mono (le : fuel ≤ more) (ran : run body fuel s = some r) :
    run body more s = some r := by
  induction fuel generalizing s more with
  | zero => cases ran
  | succ fuel ih =>
    obtain ⟨more, rfl⟩ := Nat.exists_eq_add_of_lt (Nat.lt_of_succ_le le)
    rw [run] at ran ⊢
    split at ran
    · exact ih (Nat.le_add_right fuel more) ran
    · exact ran
    · cases ran

namespace Returns

theorem exists_run (returns : Returns body s r) : ∃ fuel, run body fuel s = some r := by
  induction returns with
  | leave pass => exact ⟨1, run_leave pass⟩
  | again pass _ ih =>
    obtain ⟨fuel, ran⟩ := ih
    exact ⟨fuel + 1, (run_again pass).trans ran⟩

theorem unique (first : Returns body s r) (second : Returns body s q) : r = q := by
  induction first with
  | leave pass =>
    cases second with
    | leave pass' =>
      rw [pass] at pass'
      cases pass'
      rfl
    | again pass' _ =>
      rw [pass] at pass'
      cases pass'
  | again pass _ ih =>
    cases second with
    | leave pass' =>
      rw [pass] at pass'
      cases pass'
    | again pass' rest =>
      rw [pass] at pass'
      cases pass'
      exact ih rest

/-- What is left under an invariant. -/
theorem post {I : σ → Prop} {Q : ρ → Prop}
    (each : ∀ s t, I s → body s = some (.again t) → I t)
    (last : ∀ s r, I s → body s = some (.leave r) → Q r) (start : I s)
    (returns : Returns body s r) : Q r := by
  induction returns with
  | leave pass => exact last _ _ start pass
  | again pass _ ih => exact ih (each _ _ start pass)

end Returns

/-- A loop is left if its invariant counts down. -/
theorem exists_returns {I : ℕ → σ → Prop} {Q : ρ → Prop}
    (each : ∀ n s, I n s → (∃ r, body s = some (.leave r) ∧ Q r) ∨
      ∃ t, body s = some (.again t) ∧ ∃ m < n, I m t)
    {n : ℕ} (start : I n s) : ∃ r, Returns body s r ∧ Q r := by
  induction n using Nat.strongRecOn generalizing s with
  | _ n ih =>
    obtain ⟨r, pass, left⟩ | ⟨t, pass, m, less, kept⟩ := each n s start
    · exact ⟨r, .leave pass, left⟩
    · obtain ⟨r, rest, left⟩ := ih m less kept
      exact ⟨r, .again pass rest, left⟩

/-- A loop is never left whose invariant goes on, or ends with a fault. -/
theorem not_returns {I : σ → Prop}
    (each : ∀ s, I s → body s = none ∨ ∃ t, body s = some (.again t) ∧ I t) (start : I s) :
    ¬Returns body s r := by
  intro returns
  refine returns.post (Q := fun _ => False) (fun s t holds pass => ?_)
    (fun s r holds pass => ?_) start
  · obtain fails | ⟨u, goes, kept⟩ := each s holds
    · rw [fails] at pass
      cases pass
    · rw [goes] at pass
      cases pass
      exact kept
  · obtain fails | ⟨u, goes, -⟩ := each s holds
    · rw [fails] at pass
      cases pass
    · rw [goes] at pass
      cases pass

end Loop

end Foundation
