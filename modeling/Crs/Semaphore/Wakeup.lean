import Crs.Semaphore.Tokens

/-!
# Tokens beside a sleeping thread

A post notifies one thread however many tokens it adds. `Covered` is the invariant
that every available token has a notified thread coming for it, unless nobody
sleeps. Every step keeps it except a post whose tokens outnumber the threads that
are on their way, and such a post does leave a sleeping thread beside free tokens.
-/

namespace Crs.Semaphore

open Foundation Monitor Finset

variable {T : Type*} [Fintype T] [DecidableEq T] {s s' : State UInt32 T Call}
  {l : Label T Call} {o : Option (Call × Bool)}

/-- A token is available, a thread sleeps, and nobody is on the way to the token. -/
def Stranded (s : State UInt32 T Call) : Prop :=
  0 < s.data ∧ (sleepers s.phase).Nonempty ∧ pending s.phase = ∅

/-- While a thread sleeps, there is a notified thread for each available token. -/
def Covered (s : State UInt32 T Call) : Prop :=
  (sleepers s.phase).Nonempty → s.data.toNat ≤ #(pending s.phase)

omit [DecidableEq T] in
theorem Covered.not_stranded (covered : Covered s) : ¬ Stranded s := by
  intro ⟨positive, asleep, nobody⟩
  have pos : 0 < s.data.toNat := UInt32.lt_iff_toNat_lt.mp positive
  have bound := covered asleep
  rw [nobody, card_empty] at bound
  omega

/-- A post meets at most one sleeping thread, or the threads on their way together
with the one that it notifies are enough for all tokens. -/
def sparing (s : State UInt32 T Call) : Label T Call → Bool
  | .call _ (.post inc) _ => #(sleepers s.phase) ≤ 1 ∨
      min (2 ^ 32 - 1) (s.data.toNat + inc.toNat) ≤ #(pending s.phase) + 1
  | _ => true

/-- The threads inside are in waits. -/
def OnlyWaits (s : State UInt32 T Call) : Prop :=
  ∀ t c, (s.phase t).call? = some c → c.isWait

theorem onlyWaits_step (held : OnlyWaits s) (effect : Effect monitor s l o s') : OnlyWaits s' := by
  refine effect.blocking ?_ held
  intro c before after signal entered
  cases waits : c.isWait with
  | true => rfl
  | false =>
      obtain ⟨inc, rfl⟩ := eq_post_of_not_isWait waits
      simp [monitor] at entered

/-- A post moves one sleeping thread to the pending ones. -/
theorem post_cases {t : T} {inc : UInt32} {woken : Option T}
    (effect : Effect monitor s (.call t (.post inc) woken) o s') :
    s'.data = post s.data inc ∧ (sleepers s.phase = ∅ ∧ sleepers s'.phase = ∅ ∨
      #(sleepers s'.phase) + 1 = #(sleepers s.phase) ∧
        #(pending s'.phase) = #(pending s.phase) + 1) := by
  cases effect with
  | @call _ _ _ data signal result phase outside entered signalled =>
      obtain ⟨rfl, rfl, rfl⟩ : post s.data inc = data ∧ .one = signal ∧ some true = result := by
        simpa [monitor] using entered
      have awake : t ∉ sleepers s.phase := by simp [outside, Phase.isAsleep]
      refine ⟨rfl, ?_⟩
      simp only [Phase.settled_some]
      rw [sleepers_update_idle, pending_update_idle]
      obtain ⟨-, rfl, nobody⟩ | ⟨u, -, asleep, sleepers', pending'⟩ := notify_one_cases signalled
      · exact .inl ⟨nobody, by rw [nobody, erase_empty]⟩
      · have quiet : t ∉ insert u (pending s.phase) := by
          rw [mem_insert, mem_pending, outside]
          rintro (rfl | notified)
          · exact awake asleep
          · cases notified
        have fresh : u ∉ pending s.phase := by
          rw [mem_sleepers] at asleep
          rw [mem_pending]
          cases inPhase : s.phase u <;> simp_all [Phase.isAsleep, Phase.isNotified]
        right
        rw [sleepers', pending', erase_eq_of_notMem (fun h => awake (mem_of_mem_erase h)),
          erase_eq_of_notMem quiet, card_insert_of_notMem fresh]
        exact ⟨card_erase_add_one asleep, rfl⟩

omit [DecidableEq T] in
theorem covered_of_zero (zero : s.data = 0) : Covered s := by
  intro _
  rw [zero]
  exact Nat.zero_le _

omit [Fintype T] [DecidableEq T] in
/-- A thread that looks again and finds no token leaves none. -/
private theorem zero_of_blocked {t : T} {c : Call} (waits : OnlyWaits s)
    (inside : (s.phase t).call? = some c) (blocked : monitor.resume c s.data = none) :
    s.data = 0 := by
  rw [resume_of_isWait (waits t c inside)] at blocked
  exact take_eq_none.mp blocked

/-- Every step but a post with too few signals keeps the tokens covered. -/
theorem covered_step (waits : OnlyWaits s) (covered : Covered s) (effect : Effect monitor s l o s')
    (spare : sparing s l) : Covered s' := by
  cases effect with
  | @call t c woken data signal result phase outside entered signalled =>
      cases waiting : c.isWait with
      | false =>
          obtain ⟨inc, rfl⟩ := eq_post_of_not_isWait waiting
          obtain ⟨posts, ⟨-, nobody⟩ | ⟨fewer, more⟩⟩ :=
            post_cases (.call outside entered signalled)
          · intro asleep
            exact absurd nobody asleep.ne_empty
          · intro asleep
            have some := card_pos.mpr asleep
            have few := of_decide_eq_true spare
            rw [posts, toNat_post]
            omega
      | true =>
          rw [enter_of_isWait waiting] at entered
          obtain ⟨rfl, ⟨positive, rfl, rfl⟩ | ⟨zero, rfl, rfl⟩⟩ := enterWait_cases entered
          · obtain rfl := notify_nobody_eq signalled
            have quiet : t ∉ pending s.phase := by simp [outside, Phase.isNotified]
            intro asleep
            simp only [Phase.settled_some, sleepers_update_idle, pending_update_idle,
              erase_eq_of_notMem quiet] at asleep ⊢
            have bound := covered (asleep.mono (erase_subset _ _))
            have := toNat_take positive
            omega
          · exact covered_of_zero zero
  | @wake t c sleeping =>
      have quiet : t ∉ pending s.phase := by simp [sleeping, Phase.isNotified]
      intro asleep
      simp only [sleepers_update_awake, pending_update_unnotified,
        erase_eq_of_notMem quiet] at asleep ⊢
      exact covered (asleep.mono (erase_subset _ _))
  | @resume t c notified late data r waking resumed =>
      rw [resume_of_isWait (waits t c (by simp [waking, Phase.call?]))] at resumed
      obtain ⟨positive, rfl, -⟩ := take_eq_some resumed
      intro asleep
      simp only [sleepers_update_idle, pending_update_idle] at asleep ⊢
      have bound := covered (asleep.mono (erase_subset _ _))
      have left := pred_card_le_card_erase (s := pending s.phase) (a := t)
      have := toNat_take positive
      omega
  | @expire t c _ r waking blocked expired =>
      have zero := zero_of_blocked waits (by rw [waking]; rfl) blocked
      exact covered_of_zero zero
  | sleep waking blocked =>
      have zero := zero_of_blocked waits (by rw [waking]; rfl) blocked
      exact covered_of_zero zero

/-- What a run keeps when its posts are sparing. -/
theorem run_covered {c0 : UInt32} {history : List (Label T Call × Option (Call × Bool))}
    (run : ((monitor.machine T).guard fun s l => sparing s l = true).Run (new T c0) history s) :
    OnlyWaits s ∧ Covered s := by
  apply run.state_invariant (P := fun s => OnlyWaits s ∧ Covered s)
  · constructor
    · intro t c inside
      simp [new, initial, Phase.call?] at inside
    · intro asleep
      obtain ⟨t, asleep⟩ := asleep
      simp [new, initial, Phase.isAsleep] at asleep
  · intro s l o s' held step
    obtain ⟨waits, covered⟩ := held
    obtain ⟨spare, step⟩ := Machine.guard_step_iff.mp step
    have effect := step_iff_effect.mp step
    exact ⟨onlyWaits_step waits effect, covered_step waits covered effect spare⟩

/-- The notified threads take their tokens one after the other, and more tokens remain. -/
theorem stranded_of_more_tokens (waits : OnlyWaits s) (asleep : (sleepers s.phase).Nonempty)
    (more : #(pending s.phase) < s.data.toNat) :
    ∃ rest s', (monitor.machine T).Run s rest s' ∧ Stranded s' := by
  induction left : #(pending s.phase) generalizing s with
  | zero =>
      refine ⟨[], s, .nil, UInt32.lt_iff_toNat_lt.mpr ?_, asleep, card_eq_zero.mp left⟩
      rwa [left] at more
  | succ k ih =>
      obtain ⟨u, notified⟩ : (pending s.phase).Nonempty := card_pos.mp (by omega)
      have waking := mem_pending.mp notified
      cases inPhase : s.phase u with
      | idle | asleep => rw [inPhase] at waking; cases waking
      | awake c flag =>
          have waiting := waits u c (by rw [inPhase]; rfl)
          have positive : 0 < s.data := UInt32.lt_iff_toNat_lt.mpr (by show 0 < _; omega)
          have resumed : monitor.resume c s.data = some (s.data - 1, true) := by
            rw [resume_of_isWait waiting, take, if_pos positive]
          have effect : Effect monitor s (.recheck u false) _ _ := .resume inPhase resumed
          have others : u ∉ sleepers s.phase := by simp [inPhase, Phase.isAsleep]
          have fewer : #((pending s.phase).erase u) + 1 = #(pending s.phase) :=
            card_erase_add_one notified
          have one := toNat_take positive
          obtain ⟨rest, s', run, stranded⟩ := ih (onlyWaits_step waits effect)
            (by simpa [erase_eq_of_notMem others] using asleep)
            (by simp only [pending_update_idle]; omega)
            (by simp only [pending_update_idle]; omega)
          exact ⟨_, s', .cons (step_iff_effect.mpr effect) run, stranded⟩

/-- A run whose posts are sparing reaches no state with a token beside a stranded
thread, and after the first post that is not sparing such a state can be reached. -/
theorem run_not_stranded {c0 : UInt32} {history : List (Label T Call × Option (Call × Bool))}
    (run : ((monitor.machine T).guard fun s l => sparing s l = true).Run (new T c0) history s) :
    ¬ Stranded s ∧ ∀ l o s', (monitor.machine T).step s l = some (o, s') → sparing s l = false →
      ∃ rest s'', (monitor.machine T).Run s' rest s'' ∧ Stranded s'' := by
  obtain ⟨waits, covered⟩ := run_covered run
  refine ⟨covered.not_stranded, ?_⟩
  intro l o s' step wasteful
  have effect := step_iff_effect.mp step
  cases l with
  | wake | recheck => cases wasteful
  | call t c woken =>
      cases c with
      | wait | waitFor | waitUntil => cases wasteful
      | post inc =>
          have many := of_decide_eq_false wasteful
          obtain ⟨posts, ⟨nobody, -⟩ | ⟨fewer, more⟩⟩ := post_cases effect
          · rw [nobody, card_empty] at many
            exact absurd (.inl (Nat.zero_le 1)) many
          · refine stranded_of_more_tokens (onlyWaits_step waits effect) ?_ ?_
            · exact card_pos.mp (by omega)
            · rw [posts, toNat_post]
              omega

instance (s : State UInt32 T Call) : Decidable (Stranded s) :=
  inferInstanceAs (Decidable (0 < s.data ∧ (sleepers s.phase).Nonempty ∧ pending s.phase = ∅))

/-- Two threads sleep, a third one posts two tokens, and the thread that it wakes
takes one of them: the other token is left beside the other thread. -/
theorem post_two_strands :
    ∃ history s, (monitor.machine (Fin 3)).Run (new (Fin 3) 0) history s ∧ Stranded s := by
  have executed : ∃ history s, (monitor.machine (Fin 3)).exec (new (Fin 3) 0)
      [.call 0 .wait none, .call 1 .wait none, .call 2 (.post 2) (some 0), .recheck 0 false] =
        some (history, s) ∧ Stranded s := ⟨_, _, rfl, by decide⟩
  obtain ⟨history, s, computed, stranded⟩ := executed
  exact ⟨history, s, Machine.run_of_exec computed, stranded⟩

/-- Posts of one token to two sleeping threads. -/
theorem run_not_stranded_post_one :
    ∃ history s, ((monitor.machine (Fin 3)).guard fun s l => sparing s l = true).Run
      (new (Fin 3) 0) history s ∧ ¬ Stranded s := by
  have executed : ∃ history s, ((monitor.machine (Fin 3)).guard fun s l => sparing s l = true).exec
      (new (Fin 3) 0) [.call 0 .wait none, .call 1 .waitFor none, .call 2 (.post 1) (some 0),
        .call 2 (.post 1) (some 1), .recheck 1 false] = some (history, s) := ⟨_, _, rfl⟩
  obtain ⟨history, s, computed⟩ := executed
  have run := Machine.run_of_exec computed
  exact ⟨history, s, run, (run_not_stranded run).1⟩

end Crs.Semaphore
