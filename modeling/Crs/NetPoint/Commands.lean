import Crs.Foundation.Machine
import Mathlib.Data.List.Count

/-!
# Commands through a pipe

Other threads write commands of two characters to a pipe. `checkTerminate` appends what it reads
to a buffer and compares the whole buffer with each command; it empties the buffer after a match
and when the buffer is full. `postRestart` raises a flag in one section and writes its command
in the next one, and does nothing while the flag is up. A command is written at once.
-/

namespace Crs.PosixNetPoint

open Foundation

def termString : List Char := ['^', 'X']

def restartString : List Char := ['^', 'R']

/-- `sizeof (pipeInBuf)`. -/
def pipeInBufSize : Nat := 16

/-- The characters in the pipe, those of `pipeInBuf` in front of `pipeInBufPtr`, and the number
of threads that have raised the flag and are about to write. -/
structure Control where
  pipe : List Char := []
  pipeInBuf : List Char := []
  postRestartFlag : Bool := false
  restarting : Nat := 0
  deriving DecidableEq

/-- `read` in `checkTerminate` gives a number of characters. -/
inductive ControlAction where
  | postRestart
  | writeRestart
  | postTerminate
  | checkTerminate (count : Nat)
  deriving DecidableEq

inductive ControlSeen where
  | posted
  | checked (terminate : Bool)
  deriving DecidableEq

namespace Control

/-- One character is kept for the zero at the end, which is not among the commands'. -/
def checkTerminate (s : Control) (count : Nat) : Option (Bool × Control) :=
  let nBytesTotal := pipeInBufSize - 1
  let nBytesRest := nBytesTotal - s.pipeInBuf.length
  if nBytesRest ≠ 0 then
    if 0 < count ∧ count ≤ nBytesRest ∧ count ≤ s.pipe.length then
      let pipeInBuf := s.pipeInBuf ++ s.pipe.take count
      let s := { s with pipe := s.pipe.drop count, pipeInBuf }
      if pipeInBuf = termString then some (true, { s with pipeInBuf := [] })
      else if pipeInBuf = restartString then
        some (false, { s with postRestartFlag := false, pipeInBuf := [] })
      else some (false, s)
    else none
  else some (false, { s with pipeInBuf := [] })

def machine : Machine Control ControlAction ControlSeen where
  step s
    | .postRestart =>
        if s.postRestartFlag then some (.posted, s)
        else some (.posted, { s with postRestartFlag := true, restarting := s.restarting + 1 })
    | .writeRestart =>
        match s.restarting with
        | 0 => none
        | restarting + 1 =>
            some (.posted, { s with pipe := s.pipe ++ restartString, restarting })
    | .postTerminate => some (.posted, { s with pipe := s.pipe ++ termString })
    | .checkTerminate count => (s.checkTerminate count).map fun (terminate, s) =>
        (.checked terminate, s)

/-- A call of `postTerminate` was made. -/
def terminatePosted (history : List (ControlAction × ControlSeen)) : Bool :=
  history.any fun event => event.1 = .postTerminate

/-- `checkTerminate` has returned true. -/
def terminated (history : List (ControlAction × ControlSeen)) : Bool :=
  history.any fun event => event.2 = .checked true

/-- A read gives no characters behind the command that is being read. -/
def Separate (s : Control) : ControlAction → Bool
  | .checkTerminate count => s.pipeInBuf.length + count ≤ 2
  | .postRestart | .writeRestart | .postTerminate => true

/-- A command that was posted. -/
inductive Command where
  | terminate
  | restart
  deriving DecidableEq

def Command.string : Command → List Char
  | .terminate => termString
  | .restart => restartString

/-- What was written and not yet recognized consists of commands; the flag stands for the
restart among them or for the thread that is about to write it. -/
structure Pending (history : List (ControlAction × ControlSeen)) (s : Control)
    (commands : List Command) : Prop where
  unread : s.pipeInBuf ++ s.pipe = commands.flatMap Command.string
  short : s.pipeInBuf.length < 2
  flag : s.postRestartFlag.toNat = s.restarting + commands.count .restart
  posted : terminatePosted history = (terminated history || commands.contains .terminate)

section Steps

variable {history : List (ControlAction × ControlSeen)} {s s' : Control} {a : ControlAction}
  {o : ControlSeen} {commands : List Command}

@[simp] theorem terminatePosted_snoc : terminatePosted (history ++ [(a, o)]) =
    (terminatePosted history || decide (a = .postTerminate)) := by
  simp [terminatePosted]

@[simp] theorem terminated_snoc : terminated (history ++ [(a, o)]) =
    (terminated history || decide (o = .checked true)) := by
  simp [terminated]

theorem Command.length_string (command : Command) : command.string.length = 2 := by
  cases command <;> rfl

/-- A read takes a part of the first command, or the rest of it. -/
theorem check_cases {count : Nat} {terminate : Bool} (pending : Pending history s commands)
    (separate : s.Separate (.checkTerminate count) = true)
    (checks : s.checkTerminate count = some (terminate, s')) :
    (terminate = false ∧ s'.pipeInBuf ++ s'.pipe = s.pipeInBuf ++ s.pipe ∧
        s'.pipeInBuf.length < 2 ∧ s'.postRestartFlag = s.postRestartFlag ∧
        s'.restarting = s.restarting) ∨
      ∃ command rest, commands = command :: rest ∧ terminate = (command == .terminate) ∧
        s' = { s with
          pipe := rest.flatMap Command.string
          pipeInBuf := []
          postRestartFlag := s.postRestartFlag && command != .restart } := by
  have short := pending.short
  have limit : s.pipeInBuf.length + count ≤ 2 := of_decide_eq_true separate
  have room : pipeInBufSize - 1 - s.pipeInBuf.length ≠ 0 := by
    rw [pipeInBufSize]
    omega
  simp only [checkTerminate, if_pos room] at checks
  split at checks
  · rename_i legal
    obtain ⟨some, -, inside⟩ := legal
    have front : s.pipeInBuf ++ s.pipe.take count =
        (s.pipeInBuf ++ s.pipe).take (s.pipeInBuf.length + count) := by
      rw [List.take_length_add_append]
    have back : s.pipe.drop count =
        (s.pipeInBuf ++ s.pipe).drop (s.pipeInBuf.length + count) := by
      rw [List.drop_length_add_append]
    have length : (s.pipeInBuf ++ s.pipe.take count).length = s.pipeInBuf.length + count := by
      rw [List.length_append, List.length_take, Nat.min_eq_left inside]
    obtain part | whole : s.pipeInBuf.length + count < 2 ∨ s.pipeInBuf.length + count = 2 := by
      omega
    · -- one character is no command
      have other : ∀ command : Command, s.pipeInBuf ++ s.pipe.take count ≠ command.string := by
        intro command same
        rw [same, command.length_string] at length
        omega
      have unlikeTerm : s.pipeInBuf ++ s.pipe.take count ≠ termString := other .terminate
      have unlikeRestart : s.pipeInBuf ++ s.pipe.take count ≠ restartString := other .restart
      rw [if_neg unlikeTerm, if_neg unlikeRestart] at checks
      obtain ⟨rfl, rfl⟩ := by simpa using checks
      refine .inl ⟨rfl, ?_, by rw [length]; exact part, rfl, rfl⟩
      simp
    · cases commands with
      | nil =>
        have none := pending.unread
        rw [List.flatMap_nil, List.append_eq_nil_iff] at none
        rw [none.2] at inside
        simp only [List.length_nil] at inside
        omega
      | cons command rest =>
        rw [pending.unread, whole, List.flatMap_cons] at front back
        rw [List.take_left' command.length_string] at front
        rw [List.drop_left' command.length_string] at back
        refine .inr ⟨command, rest, rfl, ?_⟩
        rw [front, back] at checks
        cases command with
        | terminate =>
          obtain ⟨rfl, rfl⟩ := by simpa [Command.string] using checks
          simp
        | restart =>
          have other : restartString ≠ termString := by decide
          simp only [Command.string, if_neg other, if_true] at checks
          obtain ⟨rfl, rfl⟩ := by simpa using checks
          simp
  · cases checks

/-- One step adds a command at the end or recognizes the first one. -/
theorem pending_step (pending : Pending history s commands) (separate : s.Separate a = true)
    (step : machine.step s a = some (o, s')) :
    ∃ commands', Pending (history ++ [(a, o)]) s' commands' := by
  have flag := pending.flag
  cases a with
  | postRestart =>
    simp only [machine] at step
    split at step
    · obtain ⟨rfl, rfl⟩ := by simpa using step
      exact ⟨commands, pending.unread, pending.short, flag, by simpa using pending.posted⟩
    · rename_i down
      obtain ⟨rfl, rfl⟩ := by simpa using step
      refine ⟨commands, pending.unread, pending.short, ?_, by simpa using pending.posted⟩
      rw [eq_false_of_ne_true down] at flag
      simp only [Bool.toNat_false, Bool.toNat_true] at flag ⊢
      omega
  | writeRestart =>
    simp only [machine] at step
    split at step
    · cases step
    · rename_i restarting more
      obtain ⟨rfl, rfl⟩ := by simpa using step
      refine ⟨commands ++ [.restart], ?_, pending.short, ?_, ?_⟩
      · rw [← List.append_assoc, pending.unread]
        simp [Command.string]
      · rw [more] at flag
        simp only [flag, List.count_append, List.count_singleton_self]
        omega
      · simpa using pending.posted
  | postTerminate =>
    obtain ⟨rfl, rfl⟩ := by simpa [machine] using step
    refine ⟨commands ++ [.terminate], ?_, pending.short, ?_, ?_⟩
    · rw [← List.append_assoc, pending.unread]
      simp [Command.string]
    · simpa using flag
    · simp
  | checkTerminate count =>
    obtain ⟨⟨terminate, t⟩, checks, result⟩ := Option.map_eq_some_iff.mp step
    obtain ⟨rfl, rfl⟩ := by simpa using result
    have posted := pending.posted
    obtain ⟨rfl, unread, short, same, still⟩ | ⟨command, rest, rfl, rfl, rfl⟩ :=
      check_cases pending separate checks
    · refine ⟨commands, unread.trans pending.unread, short, ?_, by simpa using posted⟩
      rw [same, still]
      exact flag
    · refine ⟨rest, rfl, Nat.zero_lt_two, ?_, ?_⟩
      · cases command with
        | terminate =>
          have other : (Command.terminate != Command.restart) = true := rfl
          simpa [other] using flag
        | restart =>
          have single := Bool.toNat_le s.postRestartFlag
          simp only [List.count_cons_self] at flag
          simp only [bne_self_eq_false, Bool.and_false, Bool.toNat_false]
          omega
      · cases command with
        | terminate => simpa using posted
        | restart => simpa using posted

/-- In a run in which no read gives characters behind the command at hand: when everything
that was posted has been read, `checkTerminate` has returned true exactly if `postTerminate` was
called, and the flag is down. -/
theorem run_commands (run : machine.Run {} history s)
    (separate : machine.BeforeEach {} (fun _ s a => s.Separate a = true) history)
    (drained : s.pipe = []) (written : s.restarting = 0) :
    terminated history = terminatePosted history ∧ s.postRestartFlag = false := by
  have pending : ∃ commands, Pending history s commands := by
    clear drained written
    induction run with
    | nil => exact ⟨[], rfl, Nat.zero_lt_two, rfl, rfl⟩
    | snoc earlier step ih =>
      obtain ⟨before, now⟩ := (Machine.beforeEach_snoc earlier).mp separate
      obtain ⟨commands, pending⟩ := ih before
      exact pending_step pending now step
  obtain ⟨commands, pending⟩ := pending
  have unread := congrArg List.length pending.unread
  have short := pending.short
  cases commands with
  | nil =>
    have flag := pending.flag
    rw [written, List.count_nil] at flag
    refine ⟨by simpa using pending.posted.symm, ?_⟩
    cases up : s.postRestartFlag with
    | false => rfl
    | true => simp [up] at flag
  | cons command rest =>
    rw [drained, List.append_nil, List.flatMap_cons, List.length_append,
      command.length_string] at unread
    omega

/-- A termination in two reads, and a restart. -/
theorem run_commands_two : ∃ history s, machine.Run {} history s ∧ s.pipe = [] ∧
    terminatePosted history = true ∧ terminated history = terminatePosted history ∧
      s.postRestartFlag = false := by
  have executed : ∃ history s, (machine.guard fun s a => s.Separate a = true).exec {}
      [.postRestart, .postRestart, .postTerminate, .checkTerminate 1, .writeRestart,
        .checkTerminate 1, .checkTerminate 2] = some (history, s) ∧ s.pipe = [] ∧
      s.restarting = 0 ∧ terminatePosted history = true := ⟨_, _, rfl, by decide⟩
  obtain ⟨history, s, computed, drained, written, posted⟩ := executed
  obtain ⟨run, separate⟩ := Machine.run_of_guard (Machine.run_of_exec computed)
  exact ⟨history, s, run, drained, posted, run_commands run separate drained written⟩

/-- Two commands in one read are not recognized, and the flag stays up. -/
theorem merged_commands_lost : ∃ history s, machine.Run {} history s ∧ s.pipe = [] ∧
    s.restarting = 0 ∧ terminatePosted history = true ∧ terminated history = false ∧
      s.postRestartFlag = true := by
  have executed : ∃ history s, machine.exec {}
      [.postRestart, .writeRestart, .postTerminate, .checkTerminate 4] = some (history, s) ∧
      s.pipe = [] ∧ s.restarting = 0 ∧ terminatePosted history = true ∧
      terminated history = false ∧ s.postRestartFlag = true := ⟨_, _, rfl, by decide⟩
  obtain ⟨history, s, computed, shown⟩ := executed
  exact ⟨history, s, Machine.run_of_exec computed, shown⟩

end Steps

end Control

end Crs.PosixNetPoint
