import Crs.DisjointSet.Components

/-!
# Runs of the disjoint set

The calls of a run determine the pairs joined since the last `clear`. Every state
of a run denotes the components of these pairs, so the answers of `find` and the
number of groups are functions of the pairs, and neither their order nor their
direction is observable.
-/

namespace Crs.DisjointSet

open Foundation

variable {n : Nat} {d d' : DisjointSet} {r : Fin n → Fin n → Prop}

namespace Denotes

theorem ngroups_eq (denotes : Denotes d r) :
    d.ngroups = Nat.card (Quotient (Relation.EqvGen.setoid r)) := by
  obtain ⟨f, rep, generated⟩ := denotes
  exact rep.ngroups.trans generated.card_roots

theorem find (denotes : Denotes d r) (v : Fin n) :
    ∃ root d', d.find v = some (root, d') ∧ Denotes d' r ∧ d'.ngroups = d.ngroups := by
  obtain ⟨f, rep, generated⟩ := denotes
  obtain ⟨d', found, rep', -⟩ := rep.find_spec v
  exact ⟨_, d', found, ⟨_, rep', generated⟩, rep'.ngroups.trans rep.ngroups.symm⟩

/-- Two elements have one root exactly if they are connected. -/
theorem same (denotes : Denotes d r) (u v : Fin n) :
    ∃ answer, d.same u v = some answer ∧ (answer = true ↔ Relation.EqvGen r u v) := by
  obtain ⟨f, rep, generated⟩ := denotes
  obtain ⟨d₁, foundU, rep₁, -⟩ := rep.find_spec u
  obtain ⟨d₂, foundV, -⟩ := rep₁.find_spec v
  refine ⟨(f.root u).val == (f.root v).val, ?_, ?_⟩
  · simp [DisjointSet.same, foundU, foundV]
  · rw [beq_iff_eq, Fin.val_inj]
    exact generated u v

theorem join (denotes : Denotes d r) (a b : Fin n) :
    ∃ d', d.join a b = some d' ∧ Denotes d' (withEdge r a b) ∧ d'.ngroups ≤ d.ngroups := by
  obtain ⟨f, rep, generated⟩ := denotes
  exact rep.join_spec generated a b

theorem clear (denotes : Denotes d r) : Denotes d.clear fun _ _ : Fin n => False := by
  obtain ⟨f, rep, -⟩ := denotes
  have fresh : d.clear = new n := by simp [DisjointSet.clear, new, rep.size]
  exact fresh ▸ denotes_new rep.sized

/-- What a caller can ask is determined by the components. -/
theorem observe_eq {s : Fin n → Fin n → Prop} (denotes : Denotes d r) (denotes' : Denotes d' s)
    (components : Relation.EqvGen r = Relation.EqvGen s) :
    d'.ngroups = d.ngroups ∧ ∀ u v : Fin n, d'.same u v = d.same u v := by
  constructor
  · have quotients : Relation.EqvGen.setoid r = Relation.EqvGen.setoid s :=
      Setoid.ext fun u v => by
        show Relation.EqvGen r u v ↔ Relation.EqvGen s u v
        rw [components]
    rw [denotes'.ngroups_eq, denotes.ngroups_eq, quotients]
  · intro u v
    obtain ⟨answer, told, iff⟩ := denotes.same u v
    obtain ⟨answer', told', iff'⟩ := denotes'.same u v
    rw [told, told', Bool.eq_iff_iff.mpr (iff'.trans (components ▸ iff.symm))]

end Denotes

/-- `make_set` may split a set; the other calls of the interface do not. -/
def Call.keepsSets : Call n → Bool
  | .makeSet _ => false
  | .find _ | .join _ _ | .clear => true

/-- The pairs joined since the last `clear`, after one more call. -/
def joinedAfter (pairs : List (Fin n × Fin n)) : Call n → List (Fin n × Fin n)
  | .join vx vy => pairs ++ [(vx, vy)]
  | .clear => []
  | .makeSet _ | .find _ => pairs

/-- The pairs joined since the last `clear` of a history. -/
def joined (history : List (Call n × Option Nat)) : List (Fin n × Fin n) :=
  (history.map (·.1)).foldl joinedAfter []

def Joined (history : List (Call n × Option Nat)) (u v : Fin n) : Prop := (u, v) ∈ joined history

theorem joined_snoc (history : List (Call n × Option Nat)) (call : Call n) (out : Option Nat) :
    joined (history ++ [(call, out)]) = joinedAfter (joined history) call := by
  simp [joined]

/-- One call: it does not fail, and it denotes what the pairs after it say. -/
theorem step_denotes {pairs : List (Fin n × Fin n)} (denotes : Denotes d fun u v => (u, v) ∈ pairs)
    {call : Call n} (keeps : call.keepsSets) : ∃ out d', (machine n).step d call = some (out, d') ∧
      Denotes d' (fun u v => (u, v) ∈ joinedAfter pairs call) ∧
      (call ≠ .clear → d'.ngroups ≤ d.ngroups) := by
  cases call with
  | makeSet vx => cases keeps
  | find vx =>
      obtain ⟨root, d', found, denotes', ngroups⟩ := denotes.find vx
      exact ⟨some root, d', by simp [machine, found], denotes', fun _ => ngroups.le⟩
  | join vx vy =>
      obtain ⟨d', united, denotes', fewer⟩ := denotes.join vx vy
      refine ⟨none, d', by simp [machine, united], ?_, fun _ => fewer⟩
      have edges : withEdge (fun u v => (u, v) ∈ pairs) vx vy =
          fun u v => (u, v) ∈ joinedAfter pairs (.join vx vy) := by
        funext u v
        simp [withEdge, joinedAfter]
      rwa [edges] at denotes'
  | clear =>
      refine ⟨none, d.clear, rfl, ?_, fun other => absurd rfl other⟩
      simpa [joinedAfter] using denotes.clear

/-- The interface without `make_set`. -/
def keepingMachine (n : Nat) : Machine DisjointSet (Call n) (Option Nat) :=
  (machine n).guard fun _ call => call.keepsSets = true

/-- Every state of a run denotes the components of the joined pairs. -/
theorem run_denotes (sized : n < 2 ^ 64) {history : List (Call n × Option Nat)}
    (run : (keepingMachine n).Run (new n) history d) : Denotes d (Joined history) := by
  apply run.invariant (P := fun history d => Denotes d (Joined history))
  · have none : Joined [] = fun _ _ : Fin n => False := by
      funext u v
      simp [Joined, joined]
    exact none ▸ denotes_new sized
  · intro history d call out d' _ denotes step
    obtain ⟨keeps, stepped⟩ := Machine.guard_step_iff.mp step
    obtain ⟨out', e, step', denotes', -⟩ := step_denotes denotes keeps
    obtain ⟨rfl, rfl⟩ : out = out' ∧ d' = e := by simpa [stepped] using step'
    have after : Joined (history ++ [(call, out)]) =
        fun u v => (u, v) ∈ joinedAfter (joined history) call := by
      funext u v
      rw [Joined, joined_snoc]
    exact after ▸ denotes'

/-- In every state of a run: no call fails, and a call other than `clear` never
raises the number of groups, so the counter is not decremented at zero; two
elements have one root exactly if the joined pairs connect them; the counter is the
number of components; `find` changes neither; and another run with the same pairs,
in whatever order and direction, gives the same answers. -/
theorem run_components (sized : n < 2 ^ 64) {history : List (Call n × Option Nat)}
    (run : (keepingMachine n).Run (new n) history d) :
    (∀ call : Call n, call.keepsSets → ∃ out d', (machine n).step d call = some (out, d') ∧
      (call ≠ .clear → d'.ngroups ≤ d.ngroups)) ∧
    (∀ u v : Fin n, ∃ answer, d.same u v = some answer ∧
      (answer = true ↔ Relation.EqvGen (Joined history) u v)) ∧
    d.ngroups = Nat.card (Quotient (Relation.EqvGen.setoid (Joined history))) ∧
    (∀ (v : Fin n) root d', d.find v = some (root, d') →
      d'.ngroups = d.ngroups ∧ ∀ u v : Fin n, d'.same u v = d.same u v) ∧
    ∀ history' d', (keepingMachine n).Run (new n) history' d' →
      (∀ u v, Joined history u v ∨ Joined history v u ↔
        Joined history' u v ∨ Joined history' v u) →
      d'.ngroups = d.ngroups ∧ ∀ u v : Fin n, d'.same u v = d.same u v := by
  have denotes := run_denotes sized run
  refine ⟨?_, denotes.same, denotes.ngroups_eq, ?_, ?_⟩
  · intro call keeps
    obtain ⟨out, d', step, -, fewer⟩ := step_denotes denotes keeps
    exact ⟨out, d', step, fewer⟩
  · intro v root d' found
    obtain ⟨root', e, found', denotes', -⟩ := denotes.find v
    obtain ⟨rfl, rfl⟩ : root = root' ∧ d' = e := by simpa [found] using found'
    exact denotes.observe_eq denotes' rfl
  · intro history' d' run' samePairs
    exact denotes.observe_eq (run_denotes sized run') (eqvGen_eq_of_symm samePairs)

/-- Two joins and a `find` on three elements. -/
theorem run_components_three :
    ∃ history d, (keepingMachine 3).Run (new 3) history d ∧
      joined history = [(0, 1), (2, 1)] ∧
      d.ngroups = Nat.card (Quotient (Relation.EqvGen.setoid (Joined history))) := by
  have executed : ∃ history d, (keepingMachine 3).exec (new 3)
      [.join 2 0, .clear, .join 0 1, .find 2, .join 2 1] = some (history, d) ∧
      joined history = [(0, 1), (2, 1)] := ⟨_, _, rfl, by decide⟩
  obtain ⟨history, d, computed, pairs⟩ := executed
  have run := Machine.run_of_exec computed
  exact ⟨history, d, run, pairs, (run_components (by decide) run).2.2.1⟩

end Crs.DisjointSet
