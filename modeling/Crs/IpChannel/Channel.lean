import Crs.Foundation.Memory
import Crs.Foundation.Pipeline
import Crs.IpChannel.Push

/-!
# The channel between two threads

One thread pushes messages, one after the other; `push` writes them to a pipe in any parts.
The event loop calls `handle_read` when the pipe is readable. It reads once, into the buffer
that the callback shares, and calls the callback if bytes came; the end of the pipe and an
error leave it with an exception, and the loop drops the descriptor. The pipe knows no
messages: the callback gets the bytes of the messages in portions of its own.

No `write` is interrupted or fails; an interrupted one sends foreign bytes.
-/

namespace Crs.IpChannel

open Foundation WritePipeDescriptor

/-- What a call of `read` returns: bytes, zero, or -1 with an error code. -/
inductive ReadResult where
  | data (bytes : List UInt8)
  | closed
  | again
  | interrupted
  | failed
  deriving DecidableEq

/-- `incoming_message_callback_data`: the memory, and how much of it is the message. -/
structure CallbackData where
  message : List UInt8
  allocatedSize : Nat
  size : Nat := 0
  deriving DecidableEq

/-- How `handle_read` ends: the callback was called or not, or an exception was thrown. -/
inductive ReadOutcome where
  | called
  | quiet
  | disconnected
  | error
  deriving DecidableEq

namespace CallbackData

/-- `new char [sz]`, with whatever was in that memory before; 1024 if the caller has no
object of its own. -/
def new (fresh : Nat → UInt8) (sz : Option Nat) : CallbackData :=
  let allocatedSize := sz.getD 1024
  { message := (List.range allocatedSize).map fresh, allocatedSize }

/-- The bytes that the callback is shown. -/
def shown (d : CallbackData) : List UInt8 := d.message.take d.size

/-- The loop of `handle_read`, with the results of its calls of `read`. -/
def handleRead : List ReadResult → CallbackData → Option (ReadOutcome × CallbackData)
  | .interrupted :: rest, d => handleRead rest d
  | [.again], d => some (.quiet, d)
  | [.closed], d => some (.disconnected, d)
  | [.failed], d => some (.error, d)
  | [.data bytes], d => do
      guard (0 < bytes.length ∧ bytes.length ≤ d.allocatedSize)
      let message ← Memory.write d.message 0 bytes
      return (.called, { d with message, size := bytes.length })
  | _, _ => none

end CallbackData

/-- The read end, as long as the event loop watches it. -/
structure ReadEnd where
  data : CallbackData
  connected : Bool := true

/-- A call of `handle_read` and what the callback was shown. -/
structure ReadSeen where
  outcome : ReadOutcome
  shown : Option (List UInt8)
  deriving DecidableEq

def reading : Machine ReadEnd (List ReadResult) ReadSeen where
  step s results :=
    if s.connected then
      (CallbackData.handleRead results s.data).map fun (outcome, data) =>
        match outcome with
        | .called => (⟨outcome, some data.shown⟩, { s with data })
        | .quiet => (⟨outcome, none⟩, { s with data })
        | .disconnected | .error => (⟨outcome, none⟩, { data, connected := false })
    else none

/-- The memory around a message. -/
def memoryOf (outside : ℤ → UInt8) (message : List UInt8) (address : ℤ) : UInt8 :=
  if 0 ≤ address then message.getD address.toNat (outside address) else outside address

/-- The message of the running or last call of `push`, and the locals of the call. -/
structure Writer where
  message : List UInt8 := []
  pushing : Pushing := start 0

inductive WriteAction where
  | push (message : List UInt8)
  | write (result : WriteResult)

/-- A call of `push` began, or bytes went into the pipe. -/
inductive WriteSeen where
  | began (message : List UInt8)
  | wrote (bytes : List UInt8)
  deriving DecidableEq

/-- A call of `push` begins when the one before has ended. -/
def writing (outside : ℤ → UInt8) : Machine Writer WriteAction WriteSeen where
  step s
    | .push message =>
        if s.pushing.bytesRest ≤ 0 ∨ s.pushing.thrown = true then
          some (.began message, { message, pushing := start message.length })
        else none
    | .write result =>
        ((pass (memoryOf outside s.message)).step s.pushing result).map fun next =>
          (.wrote (next.2.pipe.drop s.pushing.pipe.length), { s with pushing := next.2 })

/-- A call of `write` returns a count. -/
def undisturbed : WriteAction → Bool
  | .push _ | .write (.written _) => true
  | .write .interrupted | .write .failed => false

/-- The bytes that a call of `handle_read` got. -/
def bytesIn (results : List ReadResult) : List UInt8 :=
  results.flatMap fun result => match result with
    | .data bytes => bytes
    | .closed | .again | .interrupted | .failed => []

/-- What went into the pipe. -/
def written (history : List (WriteAction × WriteSeen)) : List UInt8 :=
  history.flatMap fun event => match event.2 with
    | .wrote bytes => bytes
    | .began _ => []

/-- A writer whose calls of `write` return counts. -/
def calm (outside : ℤ → UInt8) : Machine Writer WriteAction WriteSeen :=
  (writing outside).guard fun _ a => undisturbed a = true

def channel (outside : ℤ → UInt8) :
    Machine (Piped Writer ReadEnd UInt8) (WriteAction ⊕ List ReadResult) (WriteSeen ⊕ ReadSeen) :=
  (calm outside).pipe reading (fun event => written [event]) fun event => bytesIn event.1

def new (data : CallbackData) : Piped Writer ReadEnd UInt8 :=
  { producer := {}, consumer := { data } }

section Reading

variable {d d' : CallbackData} {results : List ReadResult} {outcome : ReadOutcome}

/-- A call reads some bytes that fit and shows the callback just these, or it reads nothing. -/
theorem handleRead_cases (sized : d.message.length = d.allocatedSize)
    (called : d.handleRead results = some (outcome, d')) :
    (outcome = .called ∧ d'.shown = bytesIn results ∧ 0 < d'.shown.length ∧
        d'.shown.length ≤ d.allocatedSize ∧ d'.message.length = d'.allocatedSize ∧
        d'.allocatedSize = d.allocatedSize) ∨
      (outcome ≠ .called ∧ bytesIn results = [] ∧ d' = d) := by
  induction results with
  | nil => cases called
  | cons result rest ih =>
    cases result with
    | interrupted => exact ih called
    | again | closed | failed =>
      cases rest with
      | cons => cases called
      | nil =>
        obtain ⟨rfl, rfl⟩ := by simpa [CallbackData.handleRead] using called
        exact .inr ⟨nofun, rfl, rfl⟩
    | data bytes =>
      cases rest with
      | cons => cases called
      | nil =>
        simp only [CallbackData.handleRead, Option.bind_eq_bind, Option.bind_eq_some_iff] at called
        obtain ⟨⟨⟩, legal, message, written, result⟩ := called
        obtain ⟨some, fits⟩ : 0 < bytes.length ∧ bytes.length ≤ d.allocatedSize := by
          by_contra illegal
          simp [guard, illegal] at legal
        obtain ⟨rfl, rfl⟩ := by simpa using result
        obtain ⟨block, again, length, front⟩ := Memory.write_spec d.message 0 bytes (by omega)
        obtain rfl := Option.some.inj (written.symm.trans again)
        have view : message.take bytes.length = bytes := by simpa using front
        refine .inl ⟨rfl, ?_, ?_, ?_, length.trans sized, rfl⟩
        · simp [CallbackData.shown, view, bytesIn]
        · simpa [CallbackData.shown, view] using some
        · simpa [CallbackData.shown, view] using fits

end Reading

section Runs

variable {outside : ℤ → UInt8} {data : CallbackData} {s : Piped Writer ReadEnd UInt8}
  {history : List ((WriteAction ⊕ List ReadResult) × (WriteSeen ⊕ ReadSeen))}

/-- The messages whose `push` has begun. -/
def messages (history : List (WriteAction × WriteSeen)) : List (List UInt8) :=
  history.filterMap fun event => match event.2 with
    | .began message => some message
    | .wrote _ => none

/-- The portions that the callback was shown. -/
def portions (history : List (List ReadResult × ReadSeen)) : List (List UInt8) :=
  history.filterMap fun event => event.2.shown

theorem memoryOf_stored (outside : ℤ → UInt8) (message : List UInt8) :
    ∀ i (h : i < message.length), memoryOf outside message i = message[i] := by
  intro i within
  simp [memoryOf, List.getD_eq_getElem?_getD, List.getElem?_eq_getElem within]

/-- The pipe has got the messages up to the cursor of the running call. -/
structure Pushed (history : List (WriteAction × WriteSeen)) (s : Writer) : Prop where
  undisturbed : Undisturbed s.message s.pushing
  running : s.pushing.thrown = false
  balance : written history ++ s.message.drop s.pushing.pipe.length = (messages history).flatten

theorem run_pushed {history : List (WriteAction × WriteSeen)} {s : Writer}
    (run : (calm outside).Run {} history s) : Pushed history s := by
  apply run.invariant (P := Pushed)
  · exact ⟨⟨rfl, rfl, List.nil_prefix⟩, rfl, rfl⟩
  · intro history s a o t _ pushed step
    obtain ⟨quiet, step⟩ := Machine.guard_step_iff.mp step
    have balance := pushed.balance
    cases a with
    | push message =>
      simp only [writing, Option.ite_none_right_eq_some] at step
      obtain ⟨ended, step⟩ := step
      obtain ⟨rfl, rfl⟩ := Prod.mk.inj (Option.some.inj step)
      -- the call before has returned, so its message is in the pipe as a whole
      have done : s.message.drop s.pushing.pipe.length = [] := by
        obtain ⟨behind, rest, -⟩ := pushed.undisturbed
        have returned := ended.resolve_right (by simp [pushed.running])
        rw [List.drop_eq_nil_iff]
        omega
      refine ⟨⟨rfl, by simp [start], List.nil_prefix⟩, rfl, ?_⟩
      rw [done, List.append_nil] at balance
      simp [written, messages, start] at balance ⊢
      exact balance
    | write result =>
      obtain ⟨⟨r, pushing⟩, passed, result'⟩ := Option.map_eq_some_iff.mp step
      obtain ⟨rfl, rfl⟩ := Prod.mk.inj result'
      have returned : result ≠ .interrupted := by
        rintro rfl
        cases quiet
      have stored := memoryOf_stored outside s.message
      obtain ⟨next, -⟩ := pushed.undisturbed.pass stored returned passed
      obtain ⟨-, -, ⟨count, rfl, fits, rfl⟩ | ⟨rfl, -⟩ | ⟨rfl, -⟩⟩ := pass_spec passed
      · refine ⟨next, pushed.running, ?_⟩
        obtain ⟨later, whole⟩ := next.front
        generalize bytesAt (memoryOf outside s.message) s.pushing.msg count = bytes at whole ⊢
        simp only at whole
        rw [← whole, List.append_assoc, List.drop_left] at balance
        simp only [← whole, List.drop_left]
        simpa [written, messages] using balance
      · cases quiet
      · cases quiet

/-- Every portion is some of the buffer, and together they are what was read. -/
structure Shown (data : CallbackData) (history : List (List ReadResult × ReadSeen))
    (s : ReadEnd) : Prop where
  sized : s.data.message.length = s.data.allocatedSize
  same : s.data.allocatedSize = data.allocatedSize
  portion : ∀ bytes ∈ portions history, 0 < bytes.length ∧ bytes.length ≤ data.allocatedSize
  balance : (portions history).flatten = history.flatMap fun event => bytesIn event.1

theorem run_shown {history : List (List ReadResult × ReadSeen)} {s : ReadEnd}
    (sized : data.message.length = data.allocatedSize) (run : reading.Run { data } history s) :
    Shown data history s := by
  apply run.invariant (P := Shown data)
  · exact ⟨sized, rfl, nofun, rfl⟩
  · intro history s results o t _ shown step
    simp only [reading, Option.ite_none_right_eq_some] at step
    obtain ⟨-, step⟩ := step
    obtain ⟨⟨outcome, data'⟩, called, result⟩ := Option.map_eq_some_iff.mp step
    obtain ⟨rfl, view, some, fits, sized, same⟩ | ⟨other, nothing, rfl⟩ :=
      handleRead_cases shown.sized called
    · obtain ⟨rfl, rfl⟩ := Prod.mk.inj result
      refine ⟨sized, same.trans shown.same, ?_, ?_⟩
      · intro bytes member
        simp only [portions, Machine.filterMap_snoc, List.mem_append] at member
        obtain before | last := member
        · exact shown.portion bytes before
        · obtain rfl : bytes = data'.shown := by simpa using last
          exact ⟨some, fits.trans_eq shown.same⟩
      · have balance := shown.balance
        simp only [portions] at balance
        simp [portions, balance, view]
    · have kept : o.shown = none ∧ t.data = s.data := by
        cases outcome with
        | called => exact absurd rfl other
        | quiet | disconnected | error =>
          obtain ⟨rfl, rfl⟩ := Prod.mk.inj result
          exact ⟨rfl, rfl⟩
      have portionsEq : portions (history ++ [(results, o)]) = portions history := by
        simp [portions, kept.1]
      refine ⟨by rw [kept.2]; exact shown.sized, by rw [kept.2]; exact shown.same, ?_, ?_⟩
      · rw [portionsEq]
        exact shown.portion
      · rw [portionsEq, shown.balance]
        simp [nothing]

/-- On every schedule of the pushing thread and the event loop, however the pipe cuts the bytes
on either side: the portions that the callback was shown, then the bytes in the pipe, then
those the running `push` has not written are the messages pushed so far; no portion is empty or
larger than the buffer; and while the read end is watched, any bytes in the pipe that fit are
shown next. -/
theorem run_shows (outside : ℤ → UInt8) (fresh : Nat → UInt8) (sz : Option Nat)
    (run : (channel outside).Run (new (.new fresh sz)) history s) :
    (portions (Machine.consuming history)).flatten ++ s.stream ++
        s.producer.message.drop s.producer.pushing.pipe.length =
      (messages (Machine.producing history)).flatten ∧
    (∀ bytes ∈ portions (Machine.consuming history),
      0 < bytes.length ∧ bytes.length ≤ sz.getD 1024) ∧
    ∀ bytes, s.consumer.connected = true → 0 < bytes.length → bytes.length ≤ sz.getD 1024 →
      bytes <+: s.stream →
      ∃ t, (channel outside).step s (.inr [.data bytes]) =
        some (.inr ⟨.called, some bytes⟩, t) := by
  have sized : (CallbackData.new fresh sz).message.length =
      (CallbackData.new fresh sz).allocatedSize := by simp [CallbackData.new]
  obtain ⟨pushing, showing, between⟩ := Machine.Run.of_pipe run
  have pushed := run_pushed pushing
  have shown := run_shown sized showing
  have through : written (Machine.producing history) =
      (portions (Machine.consuming history)).flatten ++ s.stream := by
    rw [shown.balance]
    simpa [written] using between
  refine ⟨?_, shown.portion, fun bytes watched some fits arrived => ?_⟩
  · rw [← through]
    exact pushed.balance
  · have room : 0 + bytes.length ≤ s.consumer.data.message.length := by
      rw [shown.sized, shown.same, Nat.zero_add]
      exact fits
    obtain ⟨block, writes, -, front⟩ := Memory.write_spec s.consumer.data.message 0 bytes room
    have view : block.take bytes.length = bytes := by simpa using front
    have enough : bytes.length ≤ s.consumer.data.allocatedSize := by
      rw [shown.same]
      exact fits
    have step : reading.step s.consumer [.data bytes] = .some (⟨.called, .some bytes⟩,
        { s.consumer with data := { s.consumer.data with
            message := block, size := bytes.length } }) := by
      simp [reading, watched, CallbackData.handleRead, guard, some, enough, writes,
        CallbackData.shown, view]
    have front : bytesIn [.data bytes] <+: s.stream := by simpa [bytesIn] using arrived
    obtain ⟨t, here, -⟩ := Machine.pipe_read (calm outside)
      (fun event => written [event]) (fun event => bytesIn event.1) step front
    exact ⟨t, here⟩

/-- Two messages are shown in three portions. -/
theorem run_shows_two : ∃ history s,
    (channel fun _ => 0).Run (new (.new (fun _ => 0) (some 3))) history s ∧
      (portions (Machine.consuming history)).flatten ++ s.stream ++
          s.producer.message.drop s.producer.pushing.pipe.length = [65, 66, 67, 68] ∧
      portions (Machine.consuming history) = [[65, 66, 67], [68]] := by
  have executed : ∃ history s, (channel fun _ => 0).exec (new (.new (fun _ => 0) (some 3)))
      [.inl (.push [65, 66]), .inl (.write (.written 1)), .inl (.write (.written 1)),
        .inl (.push [67, 68]), .inl (.write (.written 2)),
        .inr [.interrupted, .data [65, 66, 67]], .inr [.data [68]], .inr [.again]] =
        some (history, s) ∧
      (messages (Machine.producing history)).flatten = [65, 66, 67, 68] ∧
      portions (Machine.consuming history) = [[65, 66, 67], [68]] :=
    ⟨_, _, rfl, by decide, by decide⟩
  obtain ⟨history, s, computed, pushed, cut⟩ := executed
  have run := Machine.run_of_exec computed
  exact ⟨history, s, run, (run_shows _ _ (some 3) run).1.trans pushed, cut⟩

end Runs

end Crs.IpChannel
