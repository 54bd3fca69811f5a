import Crs.Barrier.Opening

/-!
# Different threads at the barrier

A thread has arrived when it entered with a call that did not time out. As long as
no call times out before the barrier is open, each decrement of the counter belongs
to a different thread, so the counter is the number of threads that are missing. The
decrement of a call that times out is not undone: afterwards the counter is too low,
and the thread that timed out can open the barrier by trying again.
-/

namespace Crs.Barrier

open Foundation Monitor Finset

variable {T : Type*} [DecidableEq T]

/-- The number of calls of a thread. -/
def calls (t : T) (history : List (Label T Call × Option (Call × Bool))) : Nat :=
  history.countP fun event =>
    match event.1 with
    | .call u _ _ => u = t
    | .wake _ | .recheck _ _ => false

/-- The number of calls of a thread that returned `false`. -/
def timeouts (t : T) (history : List (Label T Call × Option (Call × Bool))) : Nat :=
  history.countP fun event =>
    match event with
    | (.recheck u _, some (_, false)) => u = t
    | _ => false

/-- No call times out in the step, unless the barrier is open. -/
def patient (s : State UInt32 T Call) : Label T Call → Bool
  | .recheck _ late => !late || s.data = 0
  | .call _ _ _ | .wake _ => true

section Histories

variable {t u : T} {history rest : List (Label T Call × Option (Call × Bool))}
  {l : Label T Call} {o : Option (Call × Bool)}

def thread : Label T Call → T
  | .call t _ _ | .wake t | .recheck t _ => t

@[simp] theorem calls_append : calls t (history ++ rest) = calls t history + calls t rest := by
  simp [calls]

@[simp] theorem timeouts_append :
    timeouts t (history ++ rest) = timeouts t history + timeouts t rest := by
  simp [timeouts]

@[simp] theorem calls_call {c : Call} {woken : Option T} :
    calls u [(.call t c woken, o)] = if t = u then 1 else 0 := by
  by_cases same : t = u <;> simp [calls, same]

@[simp] theorem calls_wake : calls u [(.wake t, o)] = 0 := by simp [calls]

@[simp] theorem calls_recheck {late : Bool} : calls u [(.recheck t late, o)] = 0 := by simp [calls]

@[simp] theorem timeouts_call {c : Call} {woken : Option T} :
    timeouts u [(.call t c woken, o)] = 0 := by simp [timeouts]

@[simp] theorem timeouts_wake : timeouts u [(.wake t, o)] = 0 := by simp [timeouts]

@[simp] theorem timeouts_expire {c : Call} {late : Bool} :
    timeouts u [(.recheck t late, some (c, false))] = if t = u then 1 else 0 := by
  by_cases same : t = u <;> simp [timeouts, same]

/-- Only its own steps count for a thread. -/
theorem calls_of_other (others : ∀ event ∈ rest, thread event.1 ≠ t) : calls t rest = 0 := by
  apply List.countP_eq_zero.mpr
  intro ⟨l, o⟩ inRest
  have other := others _ inRest
  cases l with
  | call u c woken => simpa [thread] using other
  | wake | recheck => simp

theorem timeouts_of_other (others : ∀ event ∈ rest, thread event.1 ≠ t) : timeouts t rest = 0 := by
  apply List.countP_eq_zero.mpr
  intro ⟨l, o⟩ inRest
  have other := others _ inRest
  cases l with
  | call | wake => simp
  | recheck u late =>
      obtain _ | ⟨c, _ | _⟩ := o
      · simp
      · simpa [thread] using other
      · simp

end Histories

variable [Fintype T]

/-- The threads that entered with a call that did not time out. -/
def arrived (history : List (Label T Call × Option (Call × Bool))) : Finset T :=
  {t | timeouts t history < calls t history}

@[simp] theorem mem_arrived {t : T} {history : List (Label T Call × Option (Call × Bool))} :
    t ∈ arrived history ↔ timeouts t history < calls t history := by simp [arrived]

section Patience

variable {s s' : State UInt32 T Call} {l : Label T Call} {o : Option (Call × Bool)}
  {history rest : List (Label T Call × Option (Call × Bool))} {n : UInt32}

/-- What a history without timeouts says about the state. While the barrier is closed,
the threads inside have called once and the others have not. -/
structure Punctual (n : UInt32) (history : List (Label T Call × Option (Call × Bool)))
    (s : State UInt32 T Call) : Prop where
  timely : ∀ t, timeouts t history = 0
  inside : s.data ≠ 0 → ∀ t, calls t history = if (s.phase t).isIdle then 0 else 1
  missing : s.data.toNat = n.toNat - #(arrived history)

theorem arrived_append_subset (history : List (Label T Call × Option (Call × Bool))) {t : T}
    (own : ∀ event ∈ rest, thread event.1 = t) :
    arrived (history ++ rest) ⊆ insert t (arrived history) := by
  intro u late
  obtain same | other := eq_or_ne u t
  · exact mem_insert.mpr (.inl same)
  · have others : ∀ event ∈ rest, thread event.1 ≠ u := by
      intro event inRest eq
      exact other (eq.symm.trans (own event inRest))
    apply mem_insert_of_mem
    simpa [arrived, calls_of_other others, timeouts_of_other others] using late

theorem new_punctual (n : UInt32) : Punctual n [] (new T n) where
  timely _ := rfl
  inside _ t := by simp [calls, new, initial, Phase.isIdle]
  missing := by simp [arrived, calls, new, initial]

/-- A step of the waiting part of a call changes neither the calls nor, without a
timeout, the arrived threads. -/
private theorem Punctual.quiet (held : Punctual n history s)
    (notCall : ∀ t, calls t [(l, o)] = 0) (notLate : ∀ t, timeouts t [(l, o)] = 0)
    (same : s'.data = s.data)
    (phases : s.data ≠ 0 → ∀ t, (s'.phase t).isIdle = (s.phase t).isIdle) :
    Punctual n (history ++ [(l, o)]) s' where
  timely t := by rw [timeouts_append, held.timely, notLate]
  inside closed t := by
    rw [same] at closed
    rw [calls_append, notCall, phases closed, Nat.add_zero]
    exact held.inside closed t
  missing := by
    have unchanged : arrived (history ++ [(l, o)]) = arrived history := by
      apply Finset.ext
      intro t
      simp [arrived, notCall, notLate]
    rw [same, unchanged, held.missing]

/-- A call adds its thread to the arrived ones. -/
private theorem Punctual.arrived_call (held : Punctual n history s) (t : T) (c : Call)
    (woken : Option T) :
    arrived (history ++ [(.call t c woken, o)]) = insert t (arrived history) := by
  apply Finset.ext
  intro u
  obtain same | other := eq_or_ne u t
  · simp [same, held.timely]
  · simp [other, Ne.symm other]

theorem punctual_step (held : Punctual n history s) (effect : Effect monitor s l o s')
    (patience : patient s l) : Punctual n (history ++ [(l, o)]) s' := by
  cases effect with
  | @call t c woken data signal result phase outside entered signalled =>
      rw [monitor_enter] at entered
      have added := held.arrived_call (o := result.map (c, ·)) t c woken
      have timely : ∀ u, timeouts u (history ++ [(.call t c woken, result.map (c, ·))]) = 0 :=
        fun u => by simp [held.timely]
      obtain opened | closed := eq_or_ne s.data 0
      · obtain ⟨-, rfl, -, rfl⟩ | ⟨pred, -⟩ | ⟨pred, -⟩ := enter_cases entered
        · refine ⟨timely, fun nonzero => absurd rfl nonzero, ?_⟩
          have counted : 0 = n.toNat - #(arrived history) := by
            rw [← held.missing, opened]
            rfl
          have more := card_le_card (subset_insert t (arrived history))
          rw [added]
          show 0 = n.toNat - _
          omega
        all_goals simp [opened] at pred
      · have fresh : t ∉ arrived history := by
          simp [held.timely, held.inside closed, outside, Phase.isIdle]
        have missing : ∀ {next : UInt32}, next.toNat + 1 = s.data.toNat →
            next.toNat = n.toNat - #(insert t (arrived history)) := by
          intro next pred
          have counted := held.missing
          rw [card_insert_of_notMem fresh]
          omega
        obtain ⟨zero, -⟩ | ⟨pred, rfl, -, rfl⟩ | ⟨pred, -, rfl, rfl⟩ := enter_cases entered
        · exact absurd zero closed
        · exact ⟨timely, fun nonzero => absurd rfl nonzero, added ▸ missing pred⟩
        · refine ⟨timely, fun _ u => ?_, added ▸ missing pred⟩
          obtain rfl := notify_nobody_eq signalled
          obtain same | other := eq_or_ne u t
          · simp [same, held.inside closed, outside, Phase.isIdle]
          · simp [Ne.symm other, Function.update_of_ne other, held.inside closed]
  | @wake t c sleeping =>
      refine held.quiet (fun _ => by simp [calls]) (fun _ => by simp [timeouts]) rfl fun _ u => ?_
      by_cases same : u = t <;> simp [same, sleeping, Function.update_of_ne, Phase.isIdle]
  | @resume t c notified late data r waking resumed =>
      obtain ⟨zero, rfl, rfl⟩ := resume_eq_some (monitor_resume ▸ resumed)
      exact held.quiet (fun _ => by simp [calls]) (fun _ => by simp [timeouts]) rfl
        fun closed => absurd zero closed
  | @expire t c _ r waking blocked expired =>
      have closed := resume_eq_none.mp (monitor_resume ▸ blocked)
      simp [patient, closed] at patience
  | @sleep t c _ waking blocked =>
      refine held.quiet (fun _ => by simp [calls]) (fun _ => by simp [timeouts]) rfl fun _ u => ?_
      by_cases same : u = t <;> simp [same, waking, Function.update_of_ne, Phase.isIdle]

/-- A thread outside can open a closed barrier alone, by calls that time out and one
that does not. -/
theorem open_alone {t : T} (k : Nat) (outside : s.phase t = .idle) (few : s.data.toNat = k + 1) :
    ∃ rest l c u, (monitor.machine T).Run s (rest ++ [(l, some (c, true))]) u ∧
      ∀ event ∈ rest ++ [(l, some (c, true))], thread event.1 = t := by
  induction k generalizing s with
  | zero =>
      obtain ⟨⟨data, signal, result⟩, entered⟩ : ∃ out, enter s.data = out := ⟨_, rfl⟩
      obtain ⟨zero, -⟩ | ⟨-, -, rfl, rfl⟩ | ⟨pred, more, -⟩ := enter_cases entered
      · simp [zero] at few
      · have effect : Effect monitor s (.call t .wait none) (some (.wait, true)) _ :=
          .call outside (monitor_enter.trans entered) rfl
        refine ⟨[], _, .wait, _, .single (step_iff_effect.mpr effect), ?_⟩
        simp [thread]
      · exact absurd (UInt32.toNat_inj.mp (by show _ = 0; omega)) more
  | succ k ih =>
      obtain ⟨⟨data, signal, result⟩, entered⟩ : ∃ out, enter s.data = out := ⟨_, rfl⟩
      obtain ⟨zero, -⟩ | ⟨pred, rfl, -⟩ | ⟨pred, more, rfl, rfl⟩ := enter_cases entered
      · simp [zero] at few
      · rw [UInt32.toNat_zero] at pred
        omega
      · have first := run_timeout outside (monitor_enter.trans entered)
          (monitor_resume.trans (resume_eq_none.mpr more)) (rfl : monitor.expire .waitFor = _)
        obtain ⟨rest, l, c, u, run, own⟩ := ih (s := { s with data }) outside
          (by show data.toNat = _; omega)
        refine ⟨_ ++ rest, l, c, u, List.append_assoc _ _ _ ▸ first.append run, ?_⟩
        simpa [thread] using own

theorem run_punctual (run : ((monitor.machine T).guard fun s l => patient s l = true).Run
    (new T n) history s) : Punctual n history s := by
  apply run.invariant (P := Punctual n)
  · exact new_punctual n
  · intro history s l o s' _ held step
    obtain ⟨patience, step⟩ := Machine.guard_step_iff.mp step
    exact punctual_step held (step_iff_effect.mp step) patience

/-- A call that succeeds finds the barrier open or opens it. -/
theorem patient_of_success {c : Call} (effect : Effect monitor s l (some (c, true)) s') :
    patient s l := by
  cases l with
  | call | wake => rfl
  | recheck t late =>
      have zero : s.data = 0 := by
        have same := toNat_step effect
        rw [zero_of_success effect] at same
        exact UInt32.toNat_inj.mp same.symm
      simp [patient, zero]

/-- A timeout at a closed barrier makes the counter wrong, and the thread that timed
out can go on to a success for which too few threads have arrived. -/
theorem impatient_step (held : Punctual n history s)
    (step : (monitor.machine T).step s l = some (o, s')) (impatient : patient s l = false) :
    (∃ c, o = some (c, false)) ∧
    s'.data.toNat ≠ n.toNat - #(arrived (history ++ [(l, o)])) ∧
    ∃ rest l' c' u, (monitor.machine T).Run s' (rest ++ [(l', some (c', true))]) u ∧
      #(arrived (history ++ ([(l, o)] ++ (rest ++ [(l', some (c', true))])))) < n.toNat := by
  cases step_iff_effect.mp step with
  | call | wake => cases impatient
  | sleep => cases impatient
  | resume waking resumed =>
      obtain ⟨zero, -⟩ := resume_eq_some (monitor_resume ▸ resumed)
      simp [patient, zero] at impatient
  | @expire t c flag r waking blocked expired =>
      obtain rfl := expire_eq_some expired
      have closed := resume_eq_none.mp (monitor_resume ▸ blocked)
      have member : t ∈ arrived history := by
        simp [held.timely, held.inside closed, waking, Phase.isIdle]
      have positive := Word.toNat_pos_iff.mpr closed
      have counted := held.missing
      refine ⟨⟨c, rfl⟩, ?_, ?_⟩
      · have fewer : arrived (history ++ [(.recheck t true, some (c, false))]) =
            (arrived history).erase t := by
          apply Finset.ext
          intro u
          obtain same | other := eq_or_ne u t
          · simp [same, held.timely, held.inside closed, waking, Phase.isIdle]
          · simp [other, Ne.symm other]
        have one := card_erase_add_one member
        rw [fewer]
        show s.data.toNat ≠ _
        omega
      · obtain ⟨rest, l', c', u, further, own⟩ := open_alone (t := t) (s.data.toNat - 1)
          (s := { s with phase := Function.update s.phase t .idle })
          (Function.update_self t _ _) (by show s.data.toNat = _; omega)
        refine ⟨rest, l', c', u, further, ?_⟩
        have all : ∀ event ∈ [(.recheck t true, some (c, false))] ++
            (rest ++ [(l', some (c', true))]), thread event.1 = t := by
          intro event inRest
          obtain first | later := List.mem_append.mp inRest
          · obtain rfl := List.mem_singleton.mp first
            rfl
          · exact own event later
        have bound := card_le_card (arrived_append_subset history all)
        rw [insert_eq_of_mem member] at bound
        omega

/-- The counter counts the missing threads in every run in which no call times out
before the barrier is open, and a call succeeds only after `n` different threads have
arrived. A timeout before that ends this: the counter is wrong at once, and the
thread that timed out can go on to a success for which too few threads have arrived. -/
theorem run_different_threads
    (run : ((monitor.machine T).guard fun s l => patient s l = true).Run (new T n) history s) :
    s.data.toNat = n.toNat - #(arrived history) ∧
    (∀ l c s', (monitor.machine T).step s l = some (some (c, true), s') →
      n.toNat ≤ #(arrived (history ++ [(l, some (c, true))]))) ∧
    ∀ l o s', (monitor.machine T).step s l = some (o, s') → patient s l = false →
      (∃ c, o = some (c, false)) ∧
      s'.data.toNat ≠ n.toNat - #(arrived (history ++ [(l, o)])) ∧
      ∃ rest l' c' u, (monitor.machine T).Run s' (rest ++ [(l', some (c', true))]) u ∧
        #(arrived (history ++ ([(l, o)] ++ (rest ++ [(l', some (c', true))])))) < n.toNat := by
  have held := run_punctual run
  refine ⟨held.missing, ?_, ?_⟩
  · intro l c s' step
    have effect := step_iff_effect.mp step
    have after := (punctual_step held effect (patient_of_success effect)).missing
    rw [zero_of_success effect, UInt32.toNat_zero] at after
    omega
  · exact fun l o s' step impatient => impatient_step held step impatient

end Patience

/-- One of two threads times out at a barrier for two, tries again and passes alone. -/
theorem timeout_passes_alone :
    ∃ history s, (monitor.machine (Fin 2)).Run (new (Fin 2) 2)
      (history ++ [(.call 0 .waitFor none, some (.waitFor, true))]) s ∧
      #(arrived (history ++ [(.call 0 .waitFor none, some (.waitFor, true))])) < 2 := by
  have executed : ∃ s, (monitor.machine (Fin 2)).exec (new (Fin 2) 2)
      [.call 0 .waitFor none, .wake 0, .recheck 0 true, .call 0 .waitFor none] =
        some ([(.call 0 .waitFor none, none), (.wake 0, none),
          (.recheck 0 true, some (.waitFor, false))] ++
            [(.call 0 .waitFor none, some (.waitFor, true))], s) := ⟨_, rfl⟩
  obtain ⟨s, computed⟩ := executed
  exact ⟨_, s, Machine.run_of_exec computed, by decide⟩

/-- Two threads pass a barrier for two, one of them after a spurious wake-up. -/
theorem run_different_threads_two :
    ∃ history s, ((monitor.machine (Fin 2)).guard fun s l => patient s l = true).Run
      (new (Fin 2) 2) history s ∧ s.data.toNat = (2 : UInt32).toNat - #(arrived history) := by
  have executed : ∃ history s, ((monitor.machine (Fin 2)).guard fun s l => patient s l = true).exec
      (new (Fin 2) 2) [.call 0 .waitFor none, .wake 0, .recheck 0 false, .call 1 .wait none,
        .recheck 0 true] = some (history, s) := ⟨_, _, rfl⟩
  obtain ⟨history, s, computed⟩ := executed
  have run := Machine.run_of_exec computed
  exact ⟨history, s, run, (run_different_threads run).1⟩

end Crs.Barrier
