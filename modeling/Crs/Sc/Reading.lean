import Crs.Foundation.Machine
import Crs.Foundation.Memory

/-!
# Reading from a serial port

`handle_read` calls `::read` for as many bytes as there is room for, until it gets some or is
told to come again; then `processIncomingBytes` has `compileResponse` consume what it can, and
moves the rest to the front. `compileResponse` is virtual: it is given the whole buffer and the
number of bytes that are available. Where it reads behind the buffer, everything is undefined.
A copy within the buffer is taken for one through a second buffer.
-/

namespace Crs.Sc

open Foundation

/-- What `::read` returns: bytes, or -1 with an error code. -/
inductive ReadResult where
  | read (bytes : List UInt8)
  | interrupted
  | again
  | failed
  deriving DecidableEq

/-- The incoming buffer with its end, and what `compileResponse` works on. -/
structure InPort (σ : Type*) where
  inBuf : List UInt8
  inBufPtr : Nat := 0
  device : σ
  undefined : Bool := false

/-- `compileResponse`: what it does, how many bytes it has processed, and the device; none where
it reads behind the memory. -/
abbrev CompileResponse (σ ω : Type*) := List UInt8 → Nat → σ → Option (List ω × Nat × σ)

/-- `handle_read` returned, with what `compileResponse` did, or it threw `errRead`. -/
inductive ReadSeen (ω : Type*) where
  | processed (bytes : List UInt8) (effects : List ω)
  | returned
  | threw
  | undefined
  | quiet
  deriving DecidableEq

/-- Other threads do something with the device in between. -/
inductive ReadAction (σ : Type*) where
  | handleRead (results : List ReadResult)
  | others (device : σ)

namespace InPort

variable {σ ω : Type*} (compileResponse : CompileResponse σ ω)

/-- What `::read` is asked for. -/
def room (s : InPort σ) : Nat := s.inBuf.length - s.inBufPtr

/-- The bytes that wait in the buffer. -/
def waiting (s : InPort σ) : List UInt8 := s.inBuf.take s.inBufPtr

def processIncomingBytes (s : InPort σ) (dwRead : Nat) : Option (List ω × InPort σ) :=
  let nBytesAvailable := s.inBufPtr + dwRead
  (compileResponse s.inBuf nBytesAvailable s.device).bind
    fun (effects, nBytesProcessed, device) =>
      if nBytesProcessed = 0 then
        some (effects, { s with inBufPtr := nBytesAvailable, device })
      else
        let nBytesRest := nBytesAvailable - nBytesProcessed
        if nBytesRest = 0 then some (effects, { s with inBufPtr := 0, device })
        else
          (Memory.read s.inBuf nBytesProcessed nBytesRest).bind fun rest =>
            (Memory.write s.inBuf 0 rest).map fun inBuf =>
              (effects, { s with inBuf, inBufPtr := nBytesRest, device })

/-- `::read` stores its bytes in the buffer, and they are processed. -/
def receive (s : InPort σ) (bytes : List UInt8) : Option (ReadSeen ω × InPort σ) :=
  (Memory.write s.inBuf s.inBufPtr bytes).map fun inBuf =>
    match ({ s with inBuf }).processIncomingBytes compileResponse bytes.length with
    | some (effects, s) => (.processed bytes effects, s)
    | none => (.undefined, { s with inBuf, undefined := true })

/-- The loop of `handle_read`, with the results of its calls of `::read`. There is no result
while the loop goes on. -/
def handleRead : List ReadResult → InPort σ → Option (ReadSeen ω × InPort σ)
  | [], _ => none
  | result :: results, s =>
      match result with
      | .interrupted => handleRead results s
      | .again => if results.isEmpty then some (.returned, s) else none
      | .failed => if results.isEmpty then some (.threw, s) else none
      | .read bytes =>
          if bytes.isEmpty then handleRead results s
          else if results.isEmpty ∧ bytes.length ≤ s.room then s.receive compileResponse bytes
          else none

def machine : Machine (InPort σ) (ReadAction σ) (ReadSeen ω) where
  step s
    | .handleRead results =>
        if s.undefined then none else s.handleRead compileResponse results
    | .others device => some (.quiet, { s with device })

/-- A port with a buffer. -/
def new (inBuf : List UInt8) (device : σ) : InPort σ := { inBuf, device }

def ReadResult.bytes : ReadResult → List UInt8
  | .read bytes => bytes
  | .interrupted | .again | .failed => []

/-- The bytes that a call of `handle_read` gets. -/
def arrived (results : List ReadResult) : List UInt8 := results.flatMap ReadResult.bytes

def ReadSeen.bytes : ReadSeen ω → List UInt8
  | .processed bytes _ => bytes
  | .returned | .threw | .undefined | .quiet => []

/-- The stream that was processed. -/
def received (history : List (ReadAction σ × ReadSeen ω)) : List UInt8 :=
  history.flatMap fun event => ReadSeen.bytes event.2

/-- What the operating system does in one call of `handle_read` that asks for `room` bytes: none
if it is asked for none; otherwise some, or it is interrupted finitely often, or it says that
there are none now. -/
def Answers (room : Nat) (results : ℕ → ReadResult) : Prop :=
  if room = 0 then ∀ i, results i = .read []
  else (∀ i bytes, results i = .read bytes → bytes ≠ [] ∧ bytes.length ≤ room) ∧
    ∃ i, results i ≠ .interrupted

/-- However the operating system answers, the loop of `handle_read` ends. -/
def Terminates (s : InPort σ) : Prop :=
  ∀ results, Answers s.room results → ∃ calls,
    (s.handleRead compileResponse ((List.range calls).map results)).isSome = true

section Calls

variable {compileResponse : CompileResponse σ ω} {s : InPort σ} {bytes : List UInt8}

/-- What was processed is gone, and the rest waits at the begin of the buffer. -/
theorem processIncomingBytes_spec {dwRead n : Nat} {effects : List ω} {device : σ}
    (filled : s.inBufPtr + dwRead ≤ s.inBuf.length) (inside : n ≤ s.inBufPtr + dwRead)
    (compiled : compileResponse s.inBuf (s.inBufPtr + dwRead) s.device =
      some (effects, n, device)) :
    ∃ inBuf, s.processIncomingBytes compileResponse dwRead =
        some (effects, { s with inBuf, inBufPtr := s.inBufPtr + dwRead - n, device }) ∧
      inBuf.length = s.inBuf.length ∧
      inBuf.take (s.inBufPtr + dwRead - n) = (s.inBuf.take (s.inBufPtr + dwRead)).drop n := by
  simp only [processIncomingBytes, compiled, Option.bind_some]
  by_cases none : n = 0
  · subst none
    exact ⟨s.inBuf, by simp, rfl, rfl⟩
  · by_cases rest : s.inBufPtr + dwRead - n = 0
    · refine ⟨s.inBuf, by simp [none, rest], rfl, ?_⟩
      rw [List.drop_take, rest]
      simp
    · obtain ⟨moved, inBuf, readsThem, writes, same, front⟩ :=
        Memory.exists_move s.inBuf inside filled
      exact ⟨inBuf, by simp [none, rest, readsThem, writes], same, front⟩

variable (compileResponse) in
/-- The buffer with what was read behind what has waited. -/
theorem receive_spec (fits : s.inBufPtr + bytes.length ≤ s.inBuf.length) :
    ∃ inBuf, inBuf.length = s.inBuf.length ∧
      inBuf.take (s.inBufPtr + bytes.length) = s.waiting ++ bytes ∧
      inBuf.drop (s.inBufPtr + bytes.length) = s.inBuf.drop (s.inBufPtr + bytes.length) ∧
      s.receive compileResponse bytes =
        some (match ({ s with inBuf }).processIncomingBytes compileResponse bytes.length with
          | some (effects, s) => (.processed bytes effects, s)
          | none => (.undefined, { s with inBuf, undefined := true })) := by
  obtain ⟨inBuf, writes, length, front⟩ := Memory.write_spec s.inBuf s.inBufPtr bytes fits
  refine ⟨inBuf, length, front, ?_, ?_⟩
  · rw [Memory.write_of_le fits] at writes
    obtain rfl := Option.some.inj writes
    exact List.drop_left' (by simp; omega)
  · rw [receive, writes, Option.map_some]

theorem handleRead_interrupted (n : Nat) (results : List ReadResult) :
    s.handleRead compileResponse (List.replicate n .interrupted ++ results) =
      s.handleRead compileResponse results := by
  induction n with
  | zero => rfl
  | succ n ih => simpa [List.replicate_succ, handleRead] using ih

/-- A loop that is asked for no bytes goes on for ever. -/
theorem handleRead_empty (n : Nat) :
    s.handleRead compileResponse (List.replicate n (.read [])) = none := by
  induction n with
  | zero => rfl
  | succ n ih => simpa [List.replicate_succ, handleRead] using ih

/-- The calls of `handle_read` return exactly as long as the buffer is not full. -/
theorem terminates_iff : s.Terminates compileResponse ↔ 0 < s.room := by
  constructor
  · intro terminates
    by_contra full
    have empty : Answers s.room fun _ => .read [] := by simp [Answers, Nat.eq_zero_of_not_pos full]
    obtain ⟨calls, returns⟩ := terminates _ empty
    simp [List.map_const', handleRead_empty] at returns
  · intro some results answers
    rw [Answers, if_neg some.ne'] at answers
    obtain ⟨legal, ends⟩ := answers
    classical
    have least (i : ℕ) (before : i < Nat.find ends) : results i = .interrupted := by
      simpa using Nat.find_min ends before
    have split : (List.range (Nat.find ends + 1)).map results =
        List.replicate (Nat.find ends) .interrupted ++ [results (Nat.find ends)] := by
      rw [List.range_succ, List.map_append, List.map_singleton]
      congr 1
      refine List.eq_replicate_iff.mpr ⟨by simp, fun result member => ?_⟩
      obtain ⟨i, before, rfl⟩ := List.mem_map.mp member
      exact least i (List.mem_range.mp before)
    refine ⟨Nat.find ends + 1, ?_⟩
    rw [split, handleRead_interrupted]
    have last := Nat.find_spec ends
    cases result : results (Nat.find ends) with
    | interrupted => exact absurd result last
    | again | failed => simp [handleRead]
    | read bytes =>
      obtain ⟨nonempty, fits⟩ := legal _ bytes result
      have inside : s.inBufPtr + bytes.length ≤ s.inBuf.length := by
        have positive := List.length_pos_of_ne_nil nonempty
        rw [room] at fits
        omega
      obtain ⟨inBuf, -, -, -, received⟩ :=
        receive_spec compileResponse inside
      simp [handleRead, nonempty, fits, received]

/-- A call that returns has got bytes, or has not changed anything. -/
theorem handleRead_cases {results : List ReadResult} {o : ReadSeen ω} {s' : InPort σ}
    (returns : s.handleRead compileResponse results = some (o, s')) :
    (arrived results = [] ∧ s' = s ∧ (o = .returned ∨ o = .threw)) ∨
      (arrived results ≠ [] ∧ (arrived results).length ≤ s.room ∧
        s.receive compileResponse (arrived results) = some (o, s')) := by
  induction results with
  | nil => cases returns
  | cons result results ih =>
    cases result with
    | interrupted => exact ih returns
    | again | failed =>
      simp only [handleRead] at returns
      split at returns
      · rename_i last
        obtain rfl : results = [] := by simpa using last
        obtain ⟨rfl, rfl⟩ := by simpa using returns
        exact .inl ⟨rfl, rfl, by simp⟩
      · cases returns
    | read bytes =>
      simp only [handleRead] at returns
      split at returns
      · rename_i empty
        obtain rfl : bytes = [] := by simpa using empty
        exact ih returns
      · rename_i nonempty
        split at returns
        · rename_i last
          obtain ⟨last, fits⟩ := last
          obtain rfl : results = [] := by simpa using last
          have same : arrived [.read bytes] = bytes := by simp [arrived, ReadResult.bytes]
          rw [same]
          exact .inr ⟨by simpa using nonempty, fits, returns⟩
        · cases returns

/-- What a step can do. -/
theorem step_cases {a : ReadAction σ} {o : ReadSeen ω} {s' : InPort σ}
    (step : (machine compileResponse).step s a = some (o, s')) :
    (∃ results, a = .handleRead results ∧ s.undefined = false ∧
      (arrived results = [] ∧ s' = s ∧ (o = .returned ∨ o = .threw) ∨
        arrived results ≠ [] ∧ (arrived results).length ≤ s.room ∧
          s.receive compileResponse (arrived results) = some (o, s'))) ∨
      ∃ device, a = .others device ∧ o = .quiet ∧ s' = { s with device } := by
  cases a with
  | handleRead results =>
    simp only [machine] at step
    split at step
    · cases step
    · rename_i defined
      exact .inl ⟨results, rfl, by simpa using defined, handleRead_cases step⟩
  | others device =>
    obtain ⟨rfl, rfl⟩ := by simpa [machine] using step
    exact .inr ⟨device, rfl, rfl, rfl⟩

@[simp] theorem received_snoc {history : List (ReadAction σ × ReadSeen ω)} {a : ReadAction σ}
    {o : ReadSeen ω} : received (history ++ [(a, o)]) = received history ++ ReadSeen.bytes o := by
  simp [received]

end Calls

end InPort

end Crs.Sc
