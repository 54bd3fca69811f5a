import Crs.Foundation.Machine
import Crs.Foundation.Memory

/-!
# The output buffer of a serial port

`post` appends to the buffer under the lock. `handle_write` looks up the bounds of the buffer
under the lock, gives the bytes between them to `::write` without it, and takes what lies
behind the upper bound to the front under the lock. Each section and each call of `::write`
is one step, so posts fall between any two of them.
-/

namespace Crs.Sc

open Foundation

/-- What `::write` returns: a number of bytes, or -1 with an error code. -/
inductive WriteResult where
  | written (count : Nat)
  | interrupted
  | again
  | failed
  deriving DecidableEq

/-- `handle_write` outside, in its loop, or behind a loop that `EAGAIN` has ended, with
`endPtr` and `runPtr`. -/
inductive Drain where
  | idle
  | writing (endPtr runPtr : Nat)
  | stopped (endPtr runPtr : Nat)
  deriving DecidableEq

structure OutPort (α : Type*) where
  outBuf : List α
  outBufPtr : Nat := 0
  drain : Drain := .idle

/-- The steps of `handle_write`. -/
inductive DrainAction where
  | begin
  | write (result : WriteResult)
  | finish
  deriving DecidableEq

inductive OutAction (α : Type*) where
  | post (lpBuf : List α)
  | handleWrite (a : DrainAction)

/-- `post` returned, bytes were given to the operating system, or `handle_write` returned
whether more is pending. -/
inductive OutSeen (α : Type*) where
  | posted (bytes : List α)
  | refused
  | handed (bytes : List α)
  | returned (pending : Bool)
  | quiet

namespace OutPort

variable {α : Type*}

/-- The size of the buffer is `bufSize`. -/
def post (s : OutPort α) (lpBuf : List α) : Option (Bool × OutPort α) :=
  if s.outBuf.length - s.outBufPtr < lpBuf.length then some (false, s)
  else
    (Memory.write s.outBuf s.outBufPtr lpBuf).map fun outBuf =>
      (true, { s with outBuf, outBufPtr := s.outBufPtr + lpBuf.length })

/-- The last section of `handle_write`. -/
def compact (s : OutPort α) (endPtr : Nat) : Option (OutSeen α × OutPort α) :=
  let nBytesRest := s.outBufPtr - endPtr
  if nBytesRest ≠ 0 then
    (Memory.read s.outBuf endPtr nBytesRest).bind fun rest =>
      (Memory.write s.outBuf 0 rest).map fun outBuf =>
        (.returned true, { s with outBuf, outBufPtr := nBytesRest, drain := .idle })
  else some (.returned false, { s with outBufPtr := 0, drain := .idle })

def handleWrite (s : OutPort α) : DrainAction → Option (OutSeen α × OutPort α)
  | .begin =>
      match s.drain with
      | .idle => some (.quiet, { s with drain := .writing s.outBufPtr 0 })
      | .writing _ _ | .stopped _ _ => none
  | .write result =>
      match s.drain with
      | .writing endPtr runPtr =>
          let nBytesRest := endPtr - runPtr
          if nBytesRest ≠ 0 then
            match result with
            | .written count =>
                if count ≤ nBytesRest then
                  (Memory.read s.outBuf runPtr count).map fun bytes =>
                    (.handed bytes, { s with drain := .writing endPtr (runPtr + count) })
                else none
            | .interrupted => some (.quiet, s)
            | .again => some (.quiet, { s with drain := .stopped endPtr runPtr })
            -- the exception leaves the buffer as it is
            | .failed => some (.quiet, { s with drain := .idle })
          else none
      | .idle | .stopped _ _ => none
  | .finish =>
      match s.drain with
      | .writing endPtr runPtr => if endPtr - runPtr = 0 then s.compact endPtr else none
      | .stopped endPtr _ => s.compact endPtr
      | .idle => none

def machine (α : Type*) : Machine (OutPort α) (OutAction α) (OutSeen α) where
  step s
    | .post lpBuf => (s.post lpBuf).map fun (accepted, s) =>
        (if accepted then .posted lpBuf else .refused, s)
    | .handleWrite a => s.handleWrite a

/-- A port with an empty output buffer. -/
def new (outBuf : List α) : OutPort α := { outBuf }

def OutSeen.accepted : OutSeen α → List α
  | .posted bytes => bytes
  | .refused | .handed _ | .returned _ | .quiet => []

def OutSeen.bytes : OutSeen α → List α
  | .handed bytes => bytes
  | .posted _ | .refused | .returned _ | .quiet => []

/-- The bytes for which `post` has returned true. -/
def accepted (history : List (OutAction α × OutSeen α)) : List α :=
  history.flatMap fun event => OutSeen.accepted event.2

/-- The bytes given to the operating system. -/
def handed (history : List (OutAction α × OutSeen α)) : List α :=
  history.flatMap fun event => OutSeen.bytes event.2

def runPtr (s : OutPort α) : Nat :=
  match s.drain with
  | .idle => 0
  | .writing _ runPtr | .stopped _ runPtr => runPtr

/-- The bytes in the buffer that are not written yet. -/
def kept (s : OutPort α) : List α := (s.outBuf.take s.outBufPtr).drop s.runPtr

/-- `handle_write` does not return from a loop that `EAGAIN` has ended. -/
def Finishes (s : OutPort α) : DrainAction → Bool
  | .finish =>
      match s.drain with
      | .stopped _ _ => false
      | .idle | .writing _ _ => true
  | .begin | .write _ => true

/-- The same for all steps. -/
def Complete (s : OutPort α) : OutAction α → Bool
  | .post _ => true
  | .handleWrite a => s.Finishes a

/-- The pointers are in order. -/
structure Ready (s : OutPort α) : Prop where
  filled : s.outBufPtr ≤ s.outBuf.length
  writing : ∀ endPtr runPtr, s.drain = .writing endPtr runPtr →
    runPtr ≤ endPtr ∧ endPtr ≤ s.outBufPtr
  stopped : ∀ endPtr runPtr, s.drain = .stopped endPtr runPtr →
    runPtr < endPtr ∧ endPtr ≤ s.outBufPtr

section Steps

variable {history : List (OutAction α × OutSeen α)} {s s' : OutPort α} {o : OutSeen α}

theorem Ready.runPtr_le (ready : s.Ready) : s.runPtr ≤ s.outBufPtr := by
  cases drain : s.drain with
  | idle => simp [runPtr, drain]
  | writing endPtr runPtr =>
    obtain ⟨left, right⟩ := ready.writing _ _ drain
    simp only [OutPort.runPtr, drain]
    omega
  | stopped endPtr runPtr =>
    obtain ⟨left, right⟩ := ready.stopped _ _ drain
    simp only [OutPort.runPtr, drain]
    omega

theorem Ready.length_kept (ready : s.Ready) : s.kept.length = s.outBufPtr - s.runPtr := by
  rw [kept, List.length_drop, List.length_take, Nat.min_eq_left ready.filled]

/-- What is accepted goes behind the bytes in the buffer; a refused call changes nothing. -/
theorem post_spec (ready : s.Ready) {lpBuf : List α} {posted : Bool}
    (called : s.post lpBuf = some (posted, s')) :
    (posted = false ∧ s' = s) ∨
      (posted = true ∧ s'.Ready ∧ s'.drain = s.drain ∧ s'.kept = s.kept ++ lpBuf) := by
  rw [post] at called
  split at called
  · obtain ⟨rfl, rfl⟩ := by simpa using called
    exact .inl ⟨rfl, rfl⟩
  · rename_i fits
    have filled := ready.filled
    obtain ⟨outBuf, writes, length, front⟩ :=
      Memory.write_spec s.outBuf s.outBufPtr lpBuf (by omega)
    rw [writes] at called
    obtain ⟨rfl, rfl⟩ := by simpa using called
    have inside := ready.runPtr_le
    refine .inr ⟨rfl, ⟨?_, fun e r same => ?_, fun e r same => ?_⟩, rfl, ?_⟩
    · change s.outBufPtr + lpBuf.length ≤ outBuf.length
      omega
    · obtain ⟨left, right⟩ := ready.writing e r same
      exact ⟨left, Nat.le_add_right_of_le right⟩
    · obtain ⟨left, right⟩ := ready.stopped e r same
      exact ⟨left, Nat.le_add_right_of_le right⟩
    · change (outBuf.take (s.outBufPtr + lpBuf.length)).drop s.runPtr = s.kept ++ lpBuf
      rw [front, List.drop_append_of_le_length, kept]
      rw [List.length_take]
      omega

/-- The bytes behind `endPtr` are taken to the front. -/
theorem compact_spec {endPtr : Nat} (filled : s.outBufPtr ≤ s.outBuf.length)
    (compacts : s.compact endPtr = some (o, s')) :
    (∃ pending, o = .returned pending) ∧ s'.Ready ∧
      s'.kept = (s.outBuf.take s.outBufPtr).drop endPtr := by
  rw [compact] at compacts
  split at compacts
  · rename_i some
    have length : ((s.outBuf.drop endPtr).take (s.outBufPtr - endPtr)).length =
        s.outBufPtr - endPtr := by
      rw [List.length_take, List.length_drop]
      omega
    obtain ⟨outBuf, writes, same, front⟩ :=
      Memory.write_spec s.outBuf 0 ((s.outBuf.drop endPtr).take (s.outBufPtr - endPtr)) (by omega)
    rw [Memory.read_of_le (by omega), Option.bind_some, writes] at compacts
    obtain ⟨rfl, rfl⟩ := by simpa using compacts
    refine ⟨⟨true, rfl⟩, ⟨?_, nofun, nofun⟩, ?_⟩
    · change s.outBufPtr - endPtr ≤ outBuf.length
      omega
    · simpa [kept, runPtr, length, List.drop_take] using front
  · rename_i none
    obtain ⟨rfl, rfl⟩ := by simpa using compacts
    refine ⟨⟨false, rfl⟩, ⟨Nat.zero_le _, nofun, nofun⟩, ?_⟩
    rw [List.drop_take, not_not.mp none]
    rfl

theorem begin_spec (ready : s.Ready) (step : s.handleWrite .begin = some (o, s')) :
    OutSeen.accepted o = [] ∧ s'.Ready ∧ OutSeen.bytes o ++ s'.kept = s.kept := by
  cases drain : s.drain with
  | idle =>
    obtain ⟨rfl, rfl⟩ := by simpa [handleWrite, drain] using step
    refine ⟨rfl, ⟨ready.filled, fun e r same => ?_, nofun⟩, ?_⟩
    · obtain ⟨rfl, rfl⟩ := by simpa using same
      exact ⟨Nat.zero_le _, le_rfl⟩
    · simp [OutSeen.bytes, kept, runPtr, drain]
  | writing | stopped => simp [handleWrite, drain] at step

/-- A call of `::write` takes bytes from the front of those that are left. -/
theorem write_spec (ready : s.Ready) {result : WriteResult} (unfailed : result ≠ .failed)
    (step : s.handleWrite (.write result) = some (o, s')) :
    OutSeen.accepted o = [] ∧ s'.Ready ∧ OutSeen.bytes o ++ s'.kept = s.kept := by
  cases drain : s.drain with
  | writing endPtr runPtr =>
    obtain ⟨-, inside⟩ := ready.writing _ _ drain
    have filled := ready.filled
    have kept_eq : s.kept = (s.outBuf.take s.outBufPtr).drop runPtr := by
      rw [kept, OutPort.runPtr, drain]
    simp only [handleWrite, drain] at step
    split at step
    · cases result with
      | written count =>
        simp only at step
        split at step
        · rename_i fits
          rw [Memory.read_of_le (by omega), Option.map_some] at step
          obtain ⟨rfl, rfl⟩ := by simpa using step
          refine ⟨rfl, ⟨filled, fun e r same => ?_, nofun⟩, ?_⟩
          · obtain ⟨rfl, rfl⟩ := by simpa using same
            exact ⟨by omega, inside⟩
          · rw [kept_eq, Memory.drop_take_split s.outBuf (by omega : count ≤ _ - runPtr)]
            rfl
        · cases step
      | interrupted =>
        obtain ⟨rfl, rfl⟩ := by simpa using step
        exact ⟨rfl, ready, rfl⟩
      | again =>
        obtain ⟨rfl, rfl⟩ := by simpa using step
        refine ⟨rfl, ⟨filled, nofun, fun e r same => ?_⟩, kept_eq.symm⟩
        obtain ⟨rfl, rfl⟩ := by simpa using same
        exact ⟨by omega, inside⟩
      | failed => exact absurd rfl unfailed
    · cases step
  | idle | stopped => simp [handleWrite, drain] at step

/-- The end of `handle_write` leaves out what a stopped loop has not written. -/
theorem finish_spec (ready : s.Ready) (step : s.handleWrite .finish = some (o, s')) :
    OutSeen.accepted o = [] ∧ OutSeen.bytes o = [] ∧ s'.Ready ∧
      ((s.Finishes .finish = true ∧ s'.kept = s.kept) ∨
        (s.Finishes .finish = false ∧ s'.kept.length < s.kept.length)) := by
  cases drain : s.drain with
  | idle => simp [handleWrite, drain] at step
  | writing endPtr runPtr =>
    obtain ⟨order, inside⟩ := ready.writing _ _ drain
    simp only [handleWrite, drain] at step
    split at step
    · rename_i all
      obtain rfl : endPtr = runPtr := by omega
      obtain ⟨⟨pending, rfl⟩, ready', rest⟩ := compact_spec ready.filled step
      refine ⟨rfl, rfl, ready', .inl ⟨by simp [Finishes, drain], ?_⟩⟩
      rw [rest, kept, OutPort.runPtr, drain]
    · cases step
  | stopped endPtr runPtr =>
    obtain ⟨order, inside⟩ := ready.stopped _ _ drain
    simp only [handleWrite, drain] at step
    obtain ⟨⟨pending, rfl⟩, ready', rest⟩ := compact_spec ready.filled step
    refine ⟨rfl, rfl, ready', .inr ⟨by simp [Finishes, drain], ?_⟩⟩
    have filled := ready.filled
    rw [ready.length_kept, rest, List.length_drop, List.length_take, OutPort.runPtr, drain]
    simp only
    omega

/-- `handle_write` gives away bytes from the front of those that are left. Only when it
returns from a loop that was stopped, it leaves bytes out. -/
theorem handleWrite_spec (ready : s.Ready) {a : DrainAction} (unfailed : a ≠ .write .failed)
    (step : s.handleWrite a = some (o, s')) :
    OutSeen.accepted o = [] ∧ s'.Ready ∧
      ((s.Finishes a = true ∧ OutSeen.bytes o ++ s'.kept = s.kept) ∨
        (s.Finishes a = false ∧ OutSeen.bytes o = [] ∧ s'.kept.length < s.kept.length)) := by
  cases a with
  | begin =>
    obtain ⟨none, ready', rest⟩ := begin_spec ready step
    exact ⟨none, ready', .inl ⟨rfl, rest⟩⟩
  | write result =>
    have legal : result ≠ .failed := by
      rintro rfl
      exact unfailed rfl
    obtain ⟨none, ready', rest⟩ := write_spec ready legal step
    exact ⟨none, ready', .inl ⟨rfl, rest⟩⟩
  | finish =>
    obtain ⟨none, nothing, ready', ⟨whole, same⟩ | ⟨part, fewer⟩⟩ := finish_spec ready step
    · exact ⟨none, ready', .inl ⟨whole, by rw [nothing, same, List.nil_append]⟩⟩
    · exact ⟨none, ready', .inr ⟨part, nothing, fewer⟩⟩

variable {a : OutAction α}

@[simp] theorem accepted_snoc :
    accepted (history ++ [(a, o)]) = accepted history ++ OutSeen.accepted o := by
  simp [accepted]

@[simp] theorem handed_snoc :
    handed (history ++ [(a, o)]) = handed history ++ OutSeen.bytes o := by
  simp [handed]

/-- A step passes bytes on in order, or it loses some. -/
theorem step_cases (ready : s.Ready) (unfailed : a ≠ .handleWrite (.write .failed))
    (step : (machine α).step s a = some (o, s')) :
    s'.Ready ∧
      ((s.Complete a = true ∧ s.kept ++ OutSeen.accepted o = OutSeen.bytes o ++ s'.kept) ∨
        (s.Complete a = false ∧ OutSeen.accepted o = [] ∧ OutSeen.bytes o = [] ∧
          s'.kept.length < s.kept.length)) := by
  cases a with
  | post lpBuf =>
    obtain ⟨⟨posted, t⟩, called, result⟩ := Option.map_eq_some_iff.mp step
    obtain ⟨rfl, rfl⟩ := by simpa using result
    obtain ⟨rfl, rfl⟩ | ⟨rfl, ready', -, more⟩ := post_spec ready called
    · exact ⟨ready, .inl ⟨rfl, List.append_nil _⟩⟩
    · exact ⟨ready', .inl ⟨rfl, more.symm⟩⟩
  | handleWrite a =>
    have legal : a ≠ .write .failed := by
      rintro rfl
      exact unfailed rfl
    obtain ⟨none, ready', ⟨whole, rest⟩ | ⟨part, nothing, fewer⟩⟩ :=
      handleWrite_spec ready legal step
    · exact ⟨ready', .inl ⟨whole, by rw [none, List.append_nil, rest]⟩⟩
    · exact ⟨ready', .inr ⟨part, none, nothing, fewer⟩⟩

/-- A run without a loss has balanced books, and after a loss bytes are missing for good. -/
theorem run_tally {outBuf : List α} (run : (machine α).Run (new outBuf) history s)
    (unfailed : ∀ o, (.handleWrite (.write .failed), o) ∉ history) :
    s.Ready ∧
      ((machine α).BeforeEach (new outBuf) (fun _ s a => s.Complete a = true) history ∧
          accepted history = handed history ++ s.kept ∨
        ¬ (machine α).BeforeEach (new outBuf) (fun _ s a => s.Complete a = true) history ∧
          (handed history ++ s.kept).length < (accepted history).length) := by
  induction run with
  | nil =>
    refine ⟨⟨Nat.zero_le _, nofun, nofun⟩, .inl ⟨fun _ _ _ _ before => ?_, rfl⟩⟩
    simp at before
  | @snoc history t u a o earlier step ih =>
    obtain ⟨ready, before⟩ := ih fun o member => unfailed o (List.mem_append_left _ member)
    have legal : a ≠ .handleWrite (.write .failed) := by
      rintro rfl
      exact unfailed o (by simp)
    obtain ⟨ready', now⟩ := step_cases ready legal step
    refine ⟨ready', ?_⟩
    rw [Machine.beforeEach_snoc earlier, accepted_snoc, handed_snoc]
    obtain ⟨whole, moves⟩ | ⟨part, none, nothing, fewer⟩ := now
    · obtain ⟨complete, balance⟩ | ⟨lost, short⟩ := before
      · refine .inl ⟨⟨complete, whole⟩, ?_⟩
        rw [balance, List.append_assoc, moves, List.append_assoc]
      · refine .inr ⟨fun all => lost all.1, ?_⟩
        have lengths := congrArg List.length moves
        simp only [List.length_append] at lengths short ⊢
        omega
    · refine .inr ⟨fun all => by simp [part] at all, ?_⟩
      have atMost : (handed history ++ t.kept).length ≤ (accepted history).length := by
        obtain ⟨-, balance⟩ | ⟨-, short⟩ := before
        · rw [balance]
        · exact short.le
      rw [none, nothing]
      simp only [List.length_append, List.length_nil] at atMost ⊢
      omega

/-- What `post` has accepted was given to the operating system in this order, or is still in
the buffer, exactly if no `handle_write` has returned from a loop that `EAGAIN` has ended. -/
theorem run_accounted_iff {outBuf : List α} (run : (machine α).Run (new outBuf) history s)
    (unfailed : ∀ o, (.handleWrite (.write .failed), o) ∉ history) :
    accepted history = handed history ++ s.kept ↔
      (machine α).BeforeEach (new outBuf) (fun _ s a => s.Complete a = true) history := by
  obtain ⟨-, ⟨complete, balance⟩ | ⟨lost, fewer⟩⟩ := run_tally run unfailed
  · exact iff_of_true balance complete
  · refine iff_of_false (fun balance => ?_) lost
    rw [balance] at fewer
    exact lt_irrefl _ fewer

/-- A post between the two sections, and a second `handle_write` for it. -/
theorem run_accounted_iff_two : ∃ (history : List (OutAction UInt8 × OutSeen UInt8)) (s : _),
    (machine UInt8).Run (new [0, 0, 0, 0]) history s ∧ handed history = [1, 2, 3] ∧
      (accepted history = handed history ++ s.kept ↔
        (machine UInt8).BeforeEach (new [0, 0, 0, 0]) (fun _ s a => s.Complete a = true)
          history) := by
  have executed : ∃ history s, (machine UInt8).exec (new [0, 0, 0, 0])
      [.post [1, 2], .handleWrite .begin, .handleWrite (.write (.written 1)), .post [3],
        .handleWrite (.write .interrupted), .handleWrite (.write (.written 1)),
        .handleWrite .finish, .handleWrite .begin, .handleWrite (.write (.written 1)),
        .handleWrite .finish] = some (history, s) ∧ handed history = [1, 2, 3] ∧
      ∀ o, (.handleWrite (.write .failed), o) ∉ history :=
    ⟨_, _, rfl, by decide, by simp⟩
  obtain ⟨history, s, computed, bytes, unfailed⟩ := executed
  have run := Machine.run_of_exec computed
  exact ⟨history, s, run, bytes, run_accounted_iff run unfailed⟩

/-- `::write` takes one of two bytes and then answers `EAGAIN`: the other one is dropped. -/
theorem again_drops : ∃ (history : List (OutAction UInt8 × OutSeen UInt8)) (s : _),
    (machine UInt8).Run (new [0, 0, 0, 0]) history s ∧ s.drain = .idle ∧
      accepted history = [1, 2] ∧ handed history = [1] ∧ s.kept = [] := by
  have executed : ∃ history s, (machine UInt8).exec (new [0, 0, 0, 0])
      [.post [1, 2], .handleWrite .begin, .handleWrite (.write (.written 1)),
        .handleWrite (.write .again), .handleWrite .finish] = some (history, s) ∧
      s.drain = .idle ∧ accepted history = [1, 2] ∧ handed history = [1] ∧ s.kept = [] :=
    ⟨_, _, rfl, by decide⟩
  obtain ⟨history, s, computed, shown⟩ := executed
  exact ⟨history, s, Machine.run_of_exec computed, shown⟩

end Steps

end OutPort

end Crs.Sc
