import Crs.Foundation.Machine
import Mathlib.Algebra.Order.Ring.Int
import Mathlib.Data.UInt
import Mathlib.Tactic.Ring

/-!
# Writing a message to the pipe

`push` calls `write` until nothing is left, and moves its cursor by what the call
returned. A partial write returns a count. An interrupted call returns -1, which the
loop adds to the cursor and takes from the rest like any count: the cursor goes one
byte back, possibly in front of the message, and one byte more is left to write.

Positions are offsets from the first byte of the message. Memory is a function on
all offsets, because the cursor can leave the message. `ssize_t` is an integer: it
would take as many interruptions as it has values to overflow.
-/

namespace Crs

open Foundation

namespace WritePipeDescriptor

/-- What one call of `write` does. -/
inductive WriteResult where
  | written (count : Nat)
  | interrupted
  | failed
  deriving DecidableEq, Repr

/-- The value that `write` returns. -/
def WriteResult.bytesWritten : WriteResult → ℤ
  | .written count => count
  | .interrupted | .failed => -1

/-- The local variables of `push`, and the bytes that went into the pipe. -/
structure Pushing where
  msg : ℤ
  bytesRest : ℤ
  thrown : Bool
  pipe : List UInt8

/-- The arguments of a call of `write`: an address and a number of bytes. -/
structure Request where
  address : ℤ
  count : ℤ
  deriving DecidableEq, Repr

/-- The `count` bytes from an address on. -/
def bytesAt (memory : ℤ → UInt8) (address : ℤ) (count : Nat) : List UInt8 :=
  (List.range count).map fun i : Nat => memory (address + (i : ℤ))

def start (msgSize : Nat) : Pushing := ⟨0, msgSize, false, []⟩

/-- One pass of the loop. `write` puts at least one byte and at most what it was asked to
into the pipe. An error other than `EINTR` leaves `push` with an exception. -/
def pass (memory : ℤ → UInt8) : Machine Pushing WriteResult Request where
  step s result :=
    if 0 < s.bytesRest ∧ s.thrown = false then
      match result with
      | .failed => some (⟨s.msg, s.bytesRest⟩, { s with thrown := true })
      | .interrupted => some (⟨s.msg, s.bytesRest⟩,
          { s with bytesRest := s.bytesRest - result.bytesWritten
                   msg := s.msg + result.bytesWritten })
      | .written count =>
          if 0 < count ∧ (count : ℤ) ≤ s.bytesRest then
            some (⟨s.msg, s.bytesRest⟩,
              { s with bytesRest := s.bytesRest - result.bytesWritten
                       msg := s.msg + result.bytesWritten
                       pipe := s.pipe ++ bytesAt memory s.msg count })
          else none
    else none

/-- The loop has ended and `push` returns. -/
def Returned (s : Pushing) : Prop := s.bytesRest ≤ 0 ∧ s.thrown = false

/-- The bytes of a request are bytes of the message. -/
def Request.Within (r : Request) (message : List UInt8) : Prop :=
  0 ≤ r.address ∧ r.address + r.count ≤ message.length

variable {memory : ℤ → UInt8} {message : List UInt8} {s t : Pushing} {result : WriteResult}
  {r : Request} {history : List (WriteResult × Request)}

/-- One pass that does not throw moves the cursor by the returned value. -/
theorem pass_spec (step : (pass memory).step s result = some (r, t)) :
    0 < s.bytesRest ∧ r = ⟨s.msg, s.bytesRest⟩ ∧
      ((∃ count : Nat, result = .written count ∧ (count : ℤ) ≤ s.bytesRest ∧
          t = ⟨s.msg + count, s.bytesRest - count, s.thrown,
            s.pipe ++ bytesAt memory s.msg count⟩) ∨
        result = .interrupted ∧ t = ⟨s.msg - 1, s.bytesRest + 1, s.thrown, s.pipe⟩ ∨
        result = .failed ∧ t = ⟨s.msg, s.bytesRest, true, s.pipe⟩) := by
  simp only [pass, Option.ite_none_right_eq_some] at step
  obtain ⟨⟨left, running⟩, step⟩ := step
  refine ⟨left, ?_⟩
  cases result with
  | failed =>
      obtain ⟨rfl, rfl⟩ := Prod.mk.inj (Option.some.inj step)
      exact ⟨rfl, .inr (.inr ⟨rfl, rfl⟩)⟩
  | interrupted =>
      obtain ⟨rfl, rfl⟩ := Prod.mk.inj (Option.some.inj step)
      refine ⟨rfl, .inr (.inl ⟨rfl, ?_⟩)⟩
      simp [WriteResult.bytesWritten, sub_eq_add_neg]
  | written count =>
      obtain ⟨⟨-, fits⟩, step⟩ := Option.ite_none_right_eq_some.mp step
      obtain ⟨rfl, rfl⟩ := Prod.mk.inj (Option.some.inj step)
      exact ⟨rfl, .inl ⟨count, rfl, fits, rfl⟩⟩

/-- The interrupted calls of a history. -/
def interruptions (history : List (WriteResult × Request)) : Nat :=
  history.countP fun event => event.1 = .interrupted

/-- Every interruption makes the pipe one byte longer than the message in the end. -/
theorem run_length (run : (pass memory).Run (start message.length) history s) :
    0 ≤ s.bytesRest ∧
      (s.pipe.length : ℤ) + s.bytesRest = (message.length + interruptions history : Nat) := by
  apply run.invariant (P := fun history s => 0 ≤ s.bytesRest ∧
    (s.pipe.length : ℤ) + s.bytesRest = (message.length + interruptions history : Nat))
  · simp [start, interruptions]
  · rintro history s result r t - ⟨rest, counted⟩ step
    obtain ⟨left, -, ⟨count, rfl, fits, rfl⟩ | ⟨rfl, rfl⟩ | ⟨rfl, rfl⟩⟩ := pass_spec step <;>
      simp [interruptions, bytesAt] at counted ⊢ <;> omega

/-- Without interruptions the pipe holds what is in front of the cursor. -/
structure Undisturbed (message : List UInt8) (s : Pushing) : Prop where
  behind : (s.pipe.length : ℤ) = s.msg
  rest : s.msg + s.bytesRest = message.length
  front : s.pipe <+: message

theorem bytesAt_of_stored (stored : ∀ i (h : i < message.length), memory i = message[i])
    {offset count : Nat} (within : offset + count ≤ message.length) :
    bytesAt memory offset count = (message.drop offset).take count := by
  apply List.ext_getElem
  · simp [bytesAt]
    omega
  · intro i inBytes inMessage
    simp only [bytesAt, List.length_map, List.length_range] at inBytes
    simp only [bytesAt, List.getElem_map, List.getElem_range, List.getElem_take,
      List.getElem_drop]
    exact_mod_cast stored (offset + i) (by omega)

/-- A pass that is not interrupted writes the next bytes of the message. -/
theorem Undisturbed.pass (stored : ∀ i (h : i < message.length), memory i = message[i])
    (before : Undisturbed message s) (quiet : result ≠ .interrupted)
    (step : (pass memory).step s result = some (r, t)) :
    Undisturbed message t ∧ r.Within message := by
  obtain ⟨behind, rest, front⟩ := before
  obtain ⟨left, rfl, ⟨count, rfl, fits, rfl⟩ | ⟨rfl, rfl⟩ | ⟨rfl, rfl⟩⟩ := pass_spec step
  · refine ⟨⟨?_, ?_, ?_⟩, behind ▸ Int.natCast_nonneg _, rest.le⟩
    · simp [bytesAt, behind]
    · rw [← rest]
      ring
    · have within : s.pipe.length + count ≤ message.length := by omega
      rw [← behind, bytesAt_of_stored stored within]
      obtain ⟨later, rfl⟩ := front
      rw [List.drop_left]
      exact (List.prefix_append_right_inj _).mpr (List.take_prefix _ _)
  · exact absurd rfl quiet
  · exact ⟨⟨behind, rest, front⟩, behind ▸ Int.natCast_nonneg _, rest.le⟩

/-- For every run of the loop that ends: the pipe has got exactly the message, and every
call was given bytes of the message only, if and only if no call was interrupted. -/
theorem run_pushes_iff (stored : ∀ i (h : i < message.length), memory i = message[i])
    (run : (pass memory).Run (start message.length) history s) (returned : Returned s) :
    (s.pipe = message ∧ ∀ event ∈ history, event.2.Within message) ↔
      ∀ event ∈ history, event.1 ≠ .interrupted := by
  constructor
  · rintro ⟨exactly, -⟩
    obtain ⟨rest, counted⟩ := run_length run
    have ended := returned.1
    have none : interruptions history = 0 := by
      rw [exactly] at counted
      push_cast at counted
      omega
    simpa [interruptions, List.countP_eq_zero] using none
  · intro quiet
    have all : Undisturbed message s ∧ ∀ event ∈ history, event.2.Within message := by
      revert quiet
      apply run.invariant (P := fun history s => (∀ event ∈ history, event.1 ≠ .interrupted) →
        Undisturbed message s ∧ ∀ event ∈ history, event.2.Within message)
      · exact fun _ => ⟨⟨rfl, by simp [start], List.nil_prefix⟩, by simp⟩
      · intro history s result r t _ ih step quiet
        obtain ⟨before, within⟩ := ih fun event earlier => quiet event (by simp [earlier])
        obtain ⟨after, inside⟩ := before.pass stored (quiet (result, r) (by simp)) step
        refine ⟨after, fun event member => ?_⟩
        obtain earlier | last := List.mem_append.mp member
        · exact within event earlier
        · obtain rfl := List.mem_singleton.mp last
          exact inside
    obtain ⟨⟨behind, rest, front⟩, within⟩ := all
    have ended := returned.1
    refine ⟨front.eq_of_length_le ?_, within⟩
    omega

/-- A message of two bytes in two partial writes. -/
theorem run_pushes_iff_two :
    ∃ s, (pass fun i => if i = 0 then 65 else 66).Run (start 2)
      [(.written 1, ⟨0, 2⟩), (.written 1, ⟨1, 1⟩)] s ∧ s.pipe = [65, 66] := by
  have executed : ∃ s, (pass fun i => if i = 0 then 65 else 66).exec (start 2)
      [.written 1, .written 1] =
        some ([(.written 1, ⟨0, 2⟩), (.written 1, ⟨1, 1⟩)], s) ∧ Returned s :=
    ⟨_, rfl, by decide, rfl⟩
  obtain ⟨s, computed, returned⟩ := executed
  have run := Machine.run_of_exec computed
  have stored : ∀ i (h : i < [65, 66].length),
      (if (i : ℤ) = 0 then 65 else 66 : UInt8) = [65, 66][i] := by decide
  exact ⟨s, run, ((run_pushes_iff stored run returned).mpr (by simp)).1⟩

/-- One interruption in front of the first byte: a foreign byte goes into the pipe. -/
theorem interruption_writes_foreign_byte :
    ¬ ∀ (memory : ℤ → UInt8) (message : List UInt8) (history : List (WriteResult × Request)) s,
      (∀ i (h : i < message.length), memory i = message[i]) →
      (pass memory).Run (start message.length) history s → Returned s →
      s.pipe = message ∧ ∀ event ∈ history, event.2.Within message := by
  intro always
  have executed : ∃ history s, (pass fun i => if i = 0 then 65 else 0).exec (start 1)
      [.interrupted, .written 2] = some (history, s) ∧ Returned s ∧ s.pipe = [0, 65] :=
    ⟨_, _, rfl, ⟨by decide, rfl⟩, by decide⟩
  obtain ⟨history, s, computed, returned, foreign⟩ := executed
  have stored : ∀ i (h : i < [65].length),
      (if (i : ℤ) = 0 then 65 else 0 : UInt8) = [65][i] := by decide
  obtain ⟨exactly, -⟩ := always _ [65] history s stored (Machine.run_of_exec computed) returned
  rw [foreign] at exactly
  exact absurd exactly (by decide)

end WritePipeDescriptor
end Crs
