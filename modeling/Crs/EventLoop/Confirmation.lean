import Crs.EventLoop.Control

/-!
# Confirmed terminations

`terminate` with confirmation waits for one flag, which `handle_events` raises whenever it has
found a T, no matter whose. A call without confirmation never clears it.

The bytes of the control pipe are numbered in the order in which they are written. From the
history alone, the ledger knows the number of the T of each call, and the numbers of the bytes
in reads for which `handle_events` has returned false. Behind `notify_terminate` there is only
this return, so both are one step.
-/

namespace Crs.EventLoop.Control

open Foundation

variable {T : Type*}

/-- What a step does to the control pipe and to the confirmation. -/
inductive Event (T : Type*) where
  | quiet
  | wrote (t : T) (c : Signal)
  | read (nBytesRead : ℕ)
  | handled (result : Bool)
  | confirmed (t : T)
deriving DecidableEq

def report (s : State T) : Action T → Event T
  | .run t =>
      match s.thread t with
      | .pipeOut c :: _ => .wrote t c
      | .await :: _ => .confirmed t
      | .raise :: _ | .update :: _ | [] => .quiet
  | .loop =>
      match s.phase with
      | .draining _ => .read (s.pipe.take nBufSize).length
      | .handling [] got => .handled !got
      | .woken [] | .skipping => .handled true
      | .returned _ | .polling | .woken _ | .handling _ _ => .quiet
  | .call _ _ | .poll _ => .quiet

/-- The loop and its threads, with these reports. -/
def observed (T : Type*) [DecidableEq T] : Machine (State T) (Action T) (Event T) :=
  (machine T).observe report

/-- How many bytes were written and read; the number of the last T of each thread; the numbers
of the bytes read in the current call of `handle_events`, and of those that were read in a call
which has returned false. -/
structure Ledger (T : Type*) where
  written : ℕ := 0
  read : ℕ := 0
  mine : T → ℕ := fun _ => 0
  inHand : List ℕ := []
  confirmed : List ℕ := []

def Ledger.record [DecidableEq T] (l : Ledger T) : Event T → Ledger T
  | .wrote t .terminate =>
      { l with written := l.written + 1, mine := Function.update l.mine t l.written }
  | .wrote _ .restart => { l with written := l.written + 1 }
  | .read n => { l with read := l.read + n, inHand := l.inHand ++ List.range' l.read n }
  | .handled result =>
      { l with
        inHand := []
        confirmed := if result then l.confirmed else l.confirmed ++ l.inHand }
  | .confirmed _ | .quiet => l

def ledger [DecidableEq T] (history : List (Action T × Event T)) : Ledger T :=
  history.foldl (fun l e => l.record e.2) {}

/-- A call with confirmation returns only when its own T was read in a call of `handle_events`
that has returned false. -/
def Confirmed [DecidableEq T] (history : List (Action T × Event T)) : Prop :=
  ∀ earlier a t, earlier ++ [(a, .confirmed t)] <+: history →
    (ledger earlier).mine t ∈ (ledger earlier).confirmed

/-- The loop has read a T and will raise the flag. -/
def Phase.gotTerminate : Phase → Bool
  | .handling _ got => got
  | .returned _ | .polling | .woken _ | .skipping | .draining _ => false

/-- A call with confirmation writes its T while the flag is down, no T that was read waits for
its confirmation, and none is in front of its own one with a chunk of the pipe between them. -/
def Fresh (s : State T) : Action T → Bool
  | .run t =>
      match s.thread t with
      | .pipeOut .terminate :: .await :: _ =>
          !s.terminateFlag && !s.phase.gotTerminate &&
            .terminate ∉ s.pipe.take (nBufSize * (s.pipe.length / nBufSize))
      | _ => true
  | .call _ _ | .loop | .poll _ => true

section Waiting

variable {l l' : Ledger T} {s s' : State T} {t : T}

/-- The T of a call is in the pipe, and the chunks in front of its own one have no T. -/
def InPipe (l : Ledger T) (s : State T) (t : T) : Prop :=
  ∃ j, l.mine t = l.read + j ∧ s.pipe[j]? = some .terminate ∧
    .terminate ∉ s.pipe.take (nBufSize * (j / nBufSize))

/-- The flag tells a waiting call about its own T: it is confirmed, or the flag is down until
the T is found, and from then on until the call of `handle_events` returns. -/
def Settled (l : Ledger T) (s : State T) (t : T) : Prop :=
  l.mine t ∈ l.confirmed ∨ s.terminateFlag = false ∧
    (s.phase.gotTerminate = true ∧ l.mine t ∈ l.inHand ∨
      s.phase.gotTerminate = false ∧ InPipe l s t)

theorem Settled.confirmed (settled : Settled l s t) (up : s.terminateFlag = true) :
    l.mine t ∈ l.confirmed := by
  obtain confirmed | ⟨down, -⟩ := settled
  · exact confirmed
  · rw [up] at down
    cases down

/-- A step that raises no flag and reads nothing. -/
theorem Settled.carry (settled : Settled l s t) (mine : l'.mine t = l.mine t)
    (read : l'.read = l.read) (confirmed : l'.confirmed = l.confirmed)
    (flag : s'.terminateFlag = true → s.terminateFlag = true)
    (got : s'.phase.gotTerminate = s.phase.gotTerminate)
    (inHand : s.phase.gotTerminate = true → l'.inHand = l.inHand) (pipe : s.pipe <+: s'.pipe) :
    Settled l' s' t := by
  unfold Settled
  rw [mine, confirmed, got]
  obtain done | ⟨down, place⟩ := settled
  · exact .inl done
  · refine .inr ⟨by simpa using mt flag (by simp [down]), ?_⟩
    obtain ⟨found, hand⟩ | ⟨not, j, number, here, front⟩ := place
    · exact .inl ⟨found, by rwa [inHand found]⟩
    · obtain ⟨more, longer⟩ := pipe
      have inside : j < s.pipe.length := (List.getElem?_eq_some_iff.mp here).1
      refine .inr ⟨not, j, by rw [mine, read, number], ?_, ?_⟩
      · rw [← longer, List.getElem?_append_left inside, here]
      · rw [← longer, List.take_append_of_le_length]
        · exact front
        · exact Nat.le_trans (Nat.mul_div_le j nBufSize) (Nat.le_of_lt inside)

/-- The return of `handle_events` with a T. -/
theorem Settled.handled (settled : Settled l s t) (got : s.phase.gotTerminate = true)
    (mine : l'.mine t = l.mine t) (confirmed : l'.confirmed = l.confirmed ++ l.inHand) :
    Settled l' s' t := by
  refine .inl ?_
  rw [mine, confirmed, List.mem_append]
  obtain done | ⟨-, ⟨-, hand⟩ | ⟨not, -⟩⟩ := settled
  · exact .inl done
  · exact .inr hand
  · rw [got] at not
    cases not

/-- A read finds the T of the call, or leaves it in the pipe behind a chunk without a T. -/
theorem Settled.read {rest : List Ready} (settled : Settled l s t)
    (phase : s.phase = .draining rest) (mine : l'.mine t = l.mine t)
    (read : l'.read = l.read + (s.pipe.take nBufSize).length)
    (confirmed : l'.confirmed = l.confirmed)
    (inHand : l'.inHand = l.inHand ++ List.range' l.read (s.pipe.take nBufSize).length) :
    Settled l' (checkTerminate s rest) t := by
  have flag : (checkTerminate s rest).terminateFlag = s.terminateFlag := by
    simp only [checkTerminate]
    split
    · rfl
    · split <;> rfl
  unfold Settled
  rw [mine, confirmed, flag, inHand]
  obtain done | ⟨down, ⟨found, -⟩ | ⟨-, j, number, here, front⟩⟩ := settled
  · exact .inl done
  · rw [phase] at found
    cases found
  · refine .inr ⟨down, ?_⟩
    have inside : j < s.pipe.length := (List.getElem?_eq_some_iff.mp here).1
    have some : s.pipe.take nBufSize ≠ [] := by
      simpa [nBufSize] using List.ne_nil_of_length_pos (Nat.zero_lt_of_lt inside)
    by_cases near : j < nBufSize
    · have chunk : .terminate ∈ s.pipe.take nBufSize :=
        List.mem_of_getElem? (by rw [List.getElem?_take_of_lt near, here])
      left
      rw [checkTerminate, if_neg some, if_pos chunk, number]
      refine ⟨rfl, List.mem_append_right _ ?_⟩
      rw [List.mem_range'_1, List.length_take]
      omega
    · have far : nBufSize ≤ j := Nat.le_of_not_lt near
      have chunks : nBufSize ≤ nBufSize * (j / nBufSize) :=
        Nat.le_mul_of_pos_right _ (Nat.div_pos far (by decide))
      have later : (j - nBufSize) / nBufSize = j / nBufSize - 1 := by
        simpa using Nat.sub_mul_div j nBufSize 1
      have absent : .terminate ∉ s.pipe.take nBufSize := fun member =>
        front (List.take_subset_take_left _ chunks member)
      have full : (s.pipe.take nBufSize).length = nBufSize := by
        rw [List.length_take]
        omega
      right
      rw [checkTerminate, if_neg some, if_neg absent]
      refine ⟨rfl, j - nBufSize, ?_, ?_, fun member => front ?_⟩
      · rw [mine, number, read, full]
        omega
      · rw [List.getElem?_drop, Nat.add_sub_cancel' far, here]
      · rw [later, Nat.mul_sub, Nat.mul_one, List.take_drop] at member
        have := List.mem_of_mem_drop member
        rwa [Nat.add_sub_cancel' chunks] at this

/-- The numbers fit, the results mention the pipe once, and the T of a waiting call is settled. -/
structure Tracked (l : Ledger T) (s : State T) : Prop where
  bytes : l.written = l.read + s.pipe.length
  once : s.phase.ready.count .control ≤ 1
  last : s.phase.gotTerminate = true → .control ∉ s.phase.ready
  shape : ∀ t, .await ∈ s.thread t →
    s.thread t = [.pipeOut .terminate, .await] ∨ s.thread t = [.await]
  settled : ∀ t, s.thread t = [.await] → Settled l s t

/-- A step of the loop that reads nothing and raises no flag. -/
theorem Tracked.move [DecidableEq T] (held : Tracked l s) {e : Event T}
    (quiet : e = .quiet ∨ e = .handled true)
    (same : s'.pipe = s.pipe ∧ s'.thread = s.thread ∧ s'.terminateFlag = s.terminateFlag)
    (once : s'.phase.ready.count .control ≤ 1)
    (got : s'.phase.gotTerminate = s.phase.gotTerminate)
    (busy : s.phase.gotTerminate = true → e = .quiet ∧ .control ∉ s'.phase.ready) :
    Tracked (l.record e) s' := by
  obtain ⟨pipe, thread, flag⟩ := same
  refine ⟨?_, once, fun found => (busy (got ▸ found)).2, ?_, fun t waits => ?_⟩
  · rw [pipe]
    obtain rfl | rfl := quiet <;> exact held.bytes
  · rw [thread]
    exact held.shape
  · rw [thread] at waits
    refine (held.settled t waits).carry ?_ ?_ ?_ (by rw [flag]; exact id) got (fun found => ?_)
      (pipe ▸ List.prefix_rfl)
    · obtain rfl | rfl := quiet <;> rfl
    · obtain rfl | rfl := quiet <;> rfl
    · obtain rfl | rfl := quiet <;> rfl
    · rw [(busy found).1]
      rfl

/-- The loop reads a chunk of the pipe. -/
theorem Tracked.drained [DecidableEq T] {rest : List Ready} (held : Tracked l s)
    (phase : s.phase = .draining rest) :
    Tracked (l.record (.read (s.pipe.take nBufSize).length)) (checkTerminate s rest) := by
  have total : (s.pipe.take nBufSize).length + (s.pipe.drop nBufSize).length = s.pipe.length := by
    rw [← List.length_append, List.take_append_drop]
  have waits (t : T) (waiting : s.thread t = [.await]) :
      Settled (l.record (.read (s.pipe.take nBufSize).length)) (checkTerminate s rest) t :=
    (held.settled t waiting).read phase rfl rfl rfl rfl
  have bytes := held.bytes
  have once := held.once
  rw [phase, Phase.ready, List.count_cons_self] at once
  have absent : .control ∉ rest := List.count_eq_zero.mp (by omega)
  rw [checkTerminate] at waits ⊢
  split at waits
  · rename_i empty
    rw [if_pos empty]
    refine ⟨?_, by simpa [Phase.ready] using by omega, fun _ => absent, held.shape, waits⟩
    simpa [Ledger.record, empty] using bytes
  · rename_i some
    rw [if_neg some]
    split at waits
    · rename_i found
      rw [if_pos found]
      refine ⟨?_, by simpa [Phase.ready] using by omega, fun _ => absent, held.shape, waits⟩
      simp only [Ledger.record]
      omega
    · rename_i not
      rw [if_neg not]
      refine ⟨?_, by simpa [Phase.ready] using by omega, by simp [Phase.gotTerminate],
        held.shape, waits⟩
      simp only [Ledger.record]
      omega

theorem Tracked.loop [DecidableEq T] (held : Tracked l s) (step : iterate s = some s') :
    Tracked (l.record (report s .loop)) s' := by
  obtain ⟨bytes, once, last, shape, settled⟩ := id held
  unfold iterate at step
  split at step
  · rename_i phase
    obtain rfl := Option.some.inj step
    simp only [report, phase]
    exact held.move (.inl rfl) ⟨rfl, rfl, rfl⟩ (by simp [Phase.ready])
      (by simp [phase, Phase.gotTerminate]) (by simp [phase, Phase.gotTerminate])
  · cases step
  · rename_i ready phase
    have not : s.phase.gotTerminate = false := by rw [phase]; rfl
    rw [phase] at once
    split at step
    · rename_i timeout
      obtain rfl := Option.some.inj step
      simp only [report, phase, timeout]
      exact held.move (.inr rfl) ⟨rfl, rfl, rfl⟩ (by simp [Phase.ready]) (by rw [not]; rfl)
        (by simp [not])
    · have quiet : report s .loop = .quiet := by
        cases ready with
        | nil => contradiction
        | cons => simp only [report, phase]
      rw [quiet]
      split at step
      · obtain rfl := Option.some.inj step
        exact held.move (.inl rfl) ⟨rfl, rfl, rfl⟩ (by simp [Phase.ready]) (by rw [not]; rfl)
          (by simp [not])
      · obtain rfl := Option.some.inj step
        exact held.move (.inl rfl) ⟨rfl, rfl, rfl⟩ once (by rw [not]; rfl) (by simp [not])
  · rename_i phase
    obtain rfl := Option.some.inj step
    simp only [report, phase]
    exact held.move (.inr rfl) ⟨rfl, rfl, rfl⟩ (by simp [Phase.ready])
      (by simp [phase, Phase.gotTerminate]) (by simp [phase, Phase.gotTerminate])
  · rename_i rest got phase
    obtain rfl := Option.some.inj step
    have not : s.phase.gotTerminate = false := by
      by_contra found
      have := last (by simpa using found)
      simp [phase, Phase.ready] at this
    rw [phase] at once
    simp only [report, phase]
    exact held.move (.inl rfl) ⟨rfl, rfl, rfl⟩ once (by rw [not]; rfl) (by simp [not])
  · rename_i fd rest got phase
    obtain rfl := Option.some.inj step
    rw [phase] at once last
    simp only [report, phase]
    refine held.move (.inl rfl) ⟨rfl, rfl, rfl⟩ (by simpa [Phase.ready] using once)
      (by simp [phase, Phase.gotTerminate]) fun found => ⟨rfl, ?_⟩
    simpa [Phase.ready] using last (phase ▸ found)
  · rename_i got phase
    cases got with
    | false =>
      obtain rfl := Option.some.inj step
      simp only [report, phase]
      exact held.move (.inr rfl) ⟨rfl, rfl, rfl⟩ (by simp [Phase.ready])
        (by simp [phase, Phase.gotTerminate]) (by simp [phase, Phase.gotTerminate])
    | true =>
      obtain rfl := Option.some.inj step
      simp only [report, phase]
      refine ⟨bytes, by simp [Phase.ready], by simp [Phase.gotTerminate], shape, fun t waits => ?_⟩
      exact (settled t waits).handled (by rw [phase]; rfl) rfl rfl
  · rename_i rest phase
    obtain rfl := Option.some.inj step
    simp only [report, phase]
    exact held.drained phase

variable [DecidableEq T]

theorem Tracked.poll {ready : List Ready} (held : Tracked l s) (step : poll s ready = some s') :
    Tracked (l.record .quiet) s' := by
  unfold Control.poll at step
  split at step
  · rename_i phase
    simp only [Option.ite_none_right_eq_some, Option.some.injEq] at step
    obtain ⟨⟨once, -⟩, rfl⟩ := step
    exact held.move (.inl rfl) ⟨rfl, rfl, rfl⟩ once (by rw [phase]; rfl)
      (by simp [phase, Phase.gotTerminate])
  all_goals cases step

/-- A thread begins a call. -/
theorem Tracked.call {c : Call} (held : Tracked l s) (outside : s.thread t = []) :
    Tracked (l.record .quiet) { s with thread := Function.update s.thread t c.ops } := by
  have begins : .await ∈ c.ops → c.ops = [.pipeOut .terminate, .await] := by
    cases c with
    | terminate wait => cases wait <;> simp [Call.ops, terminate]
    | restart hard => cases hard <;> simp [Call.ops, restart]
    | add | remove => simp [Call.ops, restart]
  refine ⟨held.bytes, held.once, held.last, fun u awaits => ?_, fun u waits => ?_⟩
  · obtain rfl | other := eq_or_ne u t
    · simp only [Function.update_self] at awaits ⊢
      exact .inl (begins awaits)
    · simp only [Function.update_of_ne other] at awaits ⊢
      exact held.shape u awaits
  · obtain rfl | other := eq_or_ne u t
    · simp only [Function.update_self] at waits
      have := begins (by simp [waits])
      simp [waits] at this
    · simp only [Function.update_of_ne other] at waits
      exact (held.settled u waits).carry rfl rfl rfl id rfl (fun _ => rfl) List.prefix_rfl

/-- A thread goes on with its call. -/
theorem Tracked.run {op : Op} {rest : List Op} (held : Tracked l s)
    (thread : s.thread t = op :: rest) (fresh : Fresh s (.run t) = true)
    (step : op.run { s with thread := Function.update s.thread t rest } = some s') :
    Tracked (l.record (report s (.run t))) s' := by
  have only (awaits : .await ∈ rest) : op = .pipeOut .terminate ∧ rest = [.await] := by
    obtain both | one := held.shape t (by simp [thread, awaits])
    · simpa [thread] using both
    · simp_all
  have shape (u : T) (awaits : .await ∈ Function.update s.thread t rest u) :
      Function.update s.thread t rest u = [.pipeOut .terminate, .await] ∨
        Function.update s.thread t rest u = [.await] := by
    obtain rfl | other := eq_or_ne u t
    · simp only [Function.update_self] at awaits ⊢
      exact .inr (only awaits).2
    · simp only [Function.update_of_ne other] at awaits ⊢
      exact held.shape u awaits
  have settled (u : T) (waits : Function.update s.thread t rest u = [.await])
      (other : op ≠ .pipeOut .terminate) : Settled l s u := by
    obtain rfl | another := eq_or_ne u t
    · simp only [Function.update_self] at waits
      exact absurd (only (by simp [waits])).1 other
    · simp only [Function.update_of_ne another] at waits
      exact held.settled u waits
  cases op with
  | raise =>
    obtain rfl := Option.some.inj step
    simp only [report, thread]
    exact ⟨held.bytes, held.once, held.last, shape, fun u waits =>
      (settled u waits (by simp)).carry rfl rfl rfl id rfl (fun _ => rfl) List.prefix_rfl⟩
  | update =>
    obtain ⟨-, rfl⟩ := by simpa [Op.run] using step
    simp only [report, thread]
    exact ⟨held.bytes, held.once, held.last, shape, fun u waits =>
      (settled u waits (by simp)).carry rfl rfl rfl id rfl (fun _ => rfl) List.prefix_rfl⟩
  | await =>
    obtain ⟨-, rfl⟩ := by simpa [Op.run] using step
    simp only [report, thread]
    exact ⟨held.bytes, held.once, held.last, shape, fun u waits =>
      (settled u waits (by simp)).carry rfl rfl rfl (by simp) rfl (fun _ => rfl) List.prefix_rfl⟩
  | pipeOut c =>
    obtain rfl := Option.some.inj step
    simp only [report, thread]
    cases c with
    | restart =>
      refine ⟨?_, held.once, held.last, shape, fun u waits =>
        (settled u waits (by simp)).carry rfl rfl rfl id rfl (fun _ => rfl)
          (List.prefix_append _ _)⟩
      simpa [Ledger.record, ← Nat.add_assoc] using held.bytes
    | terminate =>
      refine ⟨?_, held.once, held.last, shape, fun u waits => ?_⟩
      · simpa [Ledger.record, ← Nat.add_assoc] using held.bytes
      · obtain rfl | other := eq_or_ne u t
        · simp only [Function.update_self] at waits
          obtain ⟨⟨down, not⟩, front⟩ : (s.terminateFlag = false ∧ s.phase.gotTerminate = false) ∧
              .terminate ∉ s.pipe.take (nBufSize * (s.pipe.length / nBufSize)) := by
            simpa [Fresh, thread, waits] using fresh
          refine .inr ⟨down, .inr ⟨not, s.pipe.length, ?_, by simp, ?_⟩⟩
          · simpa [Ledger.record] using held.bytes
          · rwa [List.take_append_of_le_length (Nat.mul_div_le ..)]
        · simp only [Function.update_of_ne other] at waits
          exact (held.settled u waits).carry (Function.update_of_ne other _ _) rfl rfl id rfl
            (fun _ => rfl) (List.prefix_append _ _)

theorem Tracked.step {a : Action T} (held : Tracked l s) (fresh : Fresh s a = true)
    (step : (machine T).step s a = some ((), s')) : Tracked (l.record (report s a)) s' := by
  obtain ⟨u, next, result⟩ := Option.map_eq_some_iff.mp step
  obtain rfl : u = s' := by simpa using result
  cases a with
  | call t c =>
    simp only [Option.ite_none_right_eq_some, Option.some.injEq] at next
    obtain ⟨outside, rfl⟩ := next
    exact held.call (by simpa using outside)
  | run t =>
    simp only at next
    split at next
    · cases next
    · rename_i op rest thread
      exact held.run thread fresh next
  | loop => exact held.loop next
  | poll ready => exact held.poll next

/-- A call that returns has found the flag up. -/
theorem Tracked.returns {a : Action T} (held : Tracked l s)
    (step : (machine T).step s a = some ((), s')) (returns : report s a = .confirmed t) :
    l.mine t ∈ l.confirmed := by
  cases a with
  | call | poll => cases returns
  | loop =>
    simp only [report] at returns
    split at returns <;> cases returns
  | run u =>
    simp only [report] at returns
    split at returns
    · cases returns
    · rename_i rest thread
      obtain rfl : u = t := by simpa using returns
      have alone : s.thread u = [.await] := by
        obtain both | one := held.shape u (by simp [thread])
        · simp [thread] at both
        · exact one
      apply (held.settled u alone).confirmed
      by_contra down
      simp [machine, thread, Op.run, down] at step
    all_goals cases returns

end Waiting

section Runs

variable [DecidableEq T] {history : List (Action T × Event T)} {s : State T}

theorem ledger_snoc (history : List (Action T × Event T)) (e : Action T × Event T) :
    ledger (history ++ [e]) = (ledger history).record e.2 := by
  simp [ledger]

theorem confirmed_snoc {a : Action T} {e : Event T} :
    Confirmed (history ++ [(a, e)]) ↔ Confirmed history ∧
      ∀ t, e = .confirmed t → (ledger history).mine t ∈ (ledger history).confirmed := by
  constructor
  · intro all
    refine ⟨fun earlier b t before => all earlier b t (before.trans (List.prefix_append _ _)), ?_⟩
    rintro t rfl
    exact all history a t List.prefix_rfl
  · rintro ⟨all, now⟩ earlier b t before
    obtain same | before := List.prefix_concat_iff.mp before
    · obtain ⟨rfl, same⟩ := List.append_inj' same rfl
      obtain ⟨rfl, rfl⟩ : b = a ∧ .confirmed t = e := by simpa using same
      exact now t rfl
    · exact all earlier b t before

theorem run_tracked (run : (observed T).Run {} history s)
    (fresh : (observed T).BeforeEach {} (fun _ s a => Fresh s a = true) history) :
    Tracked (ledger history) s ∧ Confirmed history := by
  induction run with
  | nil =>
    refine ⟨⟨rfl, by simp [Phase.ready], by simp [Phase.ready], by simp, by simp⟩, ?_⟩
    intro earlier a t before
    simp at before
  | snoc earlier step ih =>
    obtain ⟨before, now⟩ := (Machine.beforeEach_snoc earlier).mp fresh
    obtain ⟨held, confirmed⟩ := ih before
    obtain ⟨rfl, ⟨⟩, step⟩ := Machine.observe_step_iff.mp step
    refine ⟨?_, confirmed_snoc.mpr ⟨confirmed, fun t returns => held.returns step returns⟩⟩
    rw [ledger_snoc]
    exact held.step now step

/-- If each call with confirmation writes its T while no other termination is under way, then
each of them returns only after a call of `handle_events` that has read this T has returned
false. -/
theorem run_confirmed (run : (observed T).Run {} history s)
    (fresh : (observed T).BeforeEach {} (fun _ s a => Fresh s a = true) history) :
    Confirmed history :=
  (run_tracked run fresh).2

/-- One call with confirmation, and one turn of the loop. -/
theorem run_confirmed_once : ∃ history s, (observed Unit).Run {} history s ∧
    .confirmed () ∈ history.map Prod.snd ∧ Confirmed history := by
  have executed : ∃ history s, ((observed Unit).guard fun s a => Fresh s a = true).exec {}
      [.call () (.terminate true), .run (), .loop, .poll [.control], .loop, .loop, .loop, .loop,
        .run ()] = some (history, s) ∧ .confirmed () ∈ history.map Prod.snd :=
    ⟨_, _, rfl, by decide⟩
  obtain ⟨history, s, computed, returned⟩ := executed
  obtain ⟨run, fresh⟩ := Machine.run_of_guard (Machine.run_of_exec computed)
  exact ⟨history, s, run, returned, run_confirmed run fresh⟩

/-- The flag is still up from a call without confirmation. -/
theorem confirmed_by_another : ∃ history s,
    (observed Unit).Run {} history s ∧ ¬Confirmed history := by
  have executed : ∃ earlier s s', (observed Unit).exec {}
      [.call () (.terminate false), .run (), .loop, .poll [.control], .loop, .loop, .loop, .loop,
        .call () (.terminate true), .run ()] = some (earlier, s) ∧
      (observed Unit).step s (.run ()) = some (.confirmed (), s') ∧
      (ledger earlier).mine () ∉ (ledger earlier).confirmed :=
    ⟨_, _, _, rfl, rfl, by decide⟩
  obtain ⟨earlier, s, s', computed, step, early⟩ := executed
  refine ⟨_, s', (Machine.run_of_exec computed).snoc step, fun all => early ?_⟩
  apply all earlier
  exact List.prefix_rfl

end Runs

end Crs.EventLoop.Control
