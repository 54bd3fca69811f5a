import Crs.Foundation.Marks
import Crs.Sc.Output

/-!
# Two ways out of a serial port

`write` gives its bytes to the operating system itself, and leaves to the output buffer what
is left when `EAGAIN` comes. It does not look into the buffer before. The port never looks at
the bytes, so each of them carries the number of its call here.
-/

namespace Crs.Sc

open Foundation

/-- The bytes that a call of `::write` has taken. -/
def WriteResult.count : WriteResult → Nat
  | .written count => count
  | .interrupted | .again | .failed => 0

/-- `write`, with the results of its calls of `::write`: the bytes that it gave to the
operating system, and whether it returned or threw. -/
def OutPort.write {α : Type*} :
    List WriteResult → List α → OutPort α → Option (List α × Bool × OutPort α)
  | [], lpBuf, s => if lpBuf.isEmpty then some ([], true, s) else none
  | result :: rest, lpBuf, s =>
      if lpBuf.isEmpty then none
      else
        match result with
        | .interrupted => write rest lpBuf s
        | .again =>
            if rest.isEmpty then (s.post lpBuf).map fun (posted, s) => ([], posted, s) else none
        | .failed => if rest.isEmpty then some ([], false, s) else none
        | .written count =>
            if count ≤ lpBuf.length then
              (write rest (lpBuf.drop count) s).map fun (bytes, returned, s) =>
                (lpBuf.take count ++ bytes, returned, s)
            else none

/-- A port and the number of calls of `write` so far. -/
structure Writer where
  port : OutPort (Nat × UInt8)
  calls : Nat := 0

inductive WriteAction where
  | write (lpBuf : List UInt8) (results : List WriteResult)
  | handleWrite (a : DrainAction)
  deriving DecidableEq

/-- A call of `write` with the bytes it gave away, or a step of `handle_write`. -/
inductive WriteSeen where
  | wrote (call : Nat) (bytes : List (Nat × UInt8)) (returned : Bool)
  | drained (seen : OutSeen (Nat × UInt8))

namespace Writer

open Marks

def machine : Machine Writer WriteAction WriteSeen where
  step s
    | .write lpBuf results =>
        (OutPort.write results (mark (s.calls, lpBuf)) s.port).map
          fun (bytes, returned, port) =>
            (.wrote s.calls bytes returned, { port, calls := s.calls + 1 })
    | .handleWrite a =>
        (s.port.handleWrite a).map fun (seen, port) => (.drained seen, { s with port })

/-- A port with an empty output buffer. -/
def new (outBuf : List (Nat × UInt8)) : Writer := { port := OutPort.new outBuf }

def WriteSeen.bytes : WriteSeen → List (Nat × UInt8)
  | .wrote _ bytes _ => bytes
  | .drained seen => OutPort.OutSeen.bytes seen

/-- The bytes given to the operating system, on both ways. -/
def handed (history : List (WriteAction × WriteSeen)) : List (Nat × UInt8) :=
  history.flatMap fun event => WriteSeen.bytes event.2

/-- The call that a step was, if it returned normally. -/
def returned? : WriteAction × WriteSeen → Option (Nat × List UInt8)
  | (.write lpBuf _, .wrote call _ true) => some (call, lpBuf)
  | _ => none

/-- The calls of `write` that returned normally, with their bytes. -/
def normal (history : List (WriteAction × WriteSeen)) : List (Nat × List UInt8) :=
  history.filterMap returned?

/-- `write` hands bytes over itself only if nothing is left in the buffer, and no
`handle_write` returns from a loop that `EAGAIN` has ended. -/
def Careful (s : Writer) : WriteAction → Bool
  | .write _ results => s.port.kept.isEmpty || results.all fun result => result.count = 0
  | .handleWrite a => s.port.Finishes a

/-- Of the calls that returned normally, the operating system has the first bytes, and the
buffer the others. -/
structure InOrder (history : List (WriteAction × WriteSeen)) (s : Writer) : Prop where
  ready : s.port.Ready
  numbered : ∀ call ∈ normal history, call.1 < s.calls
  sorted : (normal history).Pairwise fun a b => a.1 < b.1
  old : ∀ byte ∈ handed history, byte.1 < s.calls
  balance : (handed history).filter (fun byte => byte.1 ∈ (normal history).map Prod.fst) ++
    s.port.kept = stream (normal history)

section Steps

variable {history : List (WriteAction × WriteSeen)} {s s' : Writer} {a : WriteAction}
  {o : WriteSeen}

@[simp] theorem handed_snoc :
    handed (history ++ [(a, o)]) = handed history ++ WriteSeen.bytes o := by
  simp [handed]

@[simp] theorem normal_snoc :
    normal (history ++ [(a, o)]) = normal history ++ (returned? (a, o)).toList :=
  Machine.filterMap_snoc _ history (a, o)

/-- A call that returns has given away the first part of its bytes, and posted the rest. A
call that throws leaves the buffer alone. -/
theorem write_spec {α : Type*} {results : List WriteResult} {port port' : OutPort α}
    {lpBuf bytes : List α} {returned : Bool} (ready : port.Ready)
    (called : OutPort.write results lpBuf port = some (bytes, returned, port')) :
    bytes <+: lpBuf ∧ port'.Ready ∧
      ((∀ result ∈ results, result.count = 0) → bytes = []) ∧
      (returned = true → ∃ rest, lpBuf = bytes ++ rest ∧ port'.kept = port.kept ++ rest) ∧
      (returned = false → port' = port) := by
  induction results generalizing lpBuf bytes with
  | nil =>
    rw [OutPort.write] at called
    split at called
    · rename_i empty
      obtain ⟨rfl, rfl, rfl⟩ := by simpa using called
      refine ⟨List.nil_prefix, ready, fun _ => rfl, fun _ => ⟨[], ?_, ?_⟩, nofun⟩
      · simpa using empty
      · rw [List.append_nil]
    · cases called
  | cons result rest ih =>
    simp only [OutPort.write] at called
    split at called
    · cases called
    · cases result with
      | interrupted =>
        obtain ⟨front, ready', silent, normal, thrown⟩ := ih called
        exact ⟨front, ready', fun all => silent fun r m => all r (List.mem_cons_of_mem _ m),
          normal, thrown⟩
      | again =>
        simp only at called
        split at called
        · obtain ⟨⟨posted, t⟩, posts, result⟩ := Option.map_eq_some_iff.mp called
          obtain ⟨rfl, rfl, rfl⟩ := by simpa using result
          obtain ⟨rfl, rfl⟩ | ⟨rfl, ready', -, more⟩ := OutPort.post_spec ready posts
          · exact ⟨List.nil_prefix, ready, fun _ => rfl, nofun, fun _ => rfl⟩
          · exact ⟨List.nil_prefix, ready', fun _ => rfl, fun _ => ⟨lpBuf, rfl, more⟩, nofun⟩
        · cases called
      | failed =>
        simp only at called
        split at called
        · obtain ⟨rfl, rfl, rfl⟩ := by simpa using called
          exact ⟨List.nil_prefix, ready, fun _ => rfl, nofun, fun _ => rfl⟩
        · cases called
      | written count =>
        simp only at called
        split at called
        · obtain ⟨⟨more, returned, t⟩, calls, result⟩ := Option.map_eq_some_iff.mp called
          obtain ⟨rfl, rfl, rfl⟩ := by simpa using result
          obtain ⟨⟨behind, front⟩, ready', silent, normal, thrown⟩ := ih calls
          refine ⟨⟨behind, ?_⟩, ready', fun all => ?_, fun back => ?_, thrown⟩
          · rw [List.append_assoc, front, List.take_append_drop]
          · have zero : count = 0 := all (.written count) (by simp)
            rw [silent fun r m => all r (List.mem_cons_of_mem _ m), zero]
            rfl
          · obtain ⟨left, split, kept⟩ := normal back
            exact ⟨left, by rw [List.append_assoc, ← split, List.take_append_drop], kept⟩
        · cases called

/-- Bytes under the number of a call that did not return are left out. -/
private theorem filter_unknown {bytes : List (Nat × UInt8)} {numbers : List Nat}
    (unknown : ∀ byte ∈ bytes, byte.1 ∉ numbers) :
    bytes.filter (fun byte => byte.1 ∈ numbers) = [] := by
  apply List.filter_eq_nil_iff.mpr
  intro byte member
  simpa using unknown byte member

private theorem filter_known {bytes : List (Nat × UInt8)} {numbers : List Nat}
    (known : ∀ byte ∈ bytes, byte.1 ∈ numbers) :
    bytes.filter (fun byte => byte.1 ∈ numbers) = bytes := by
  apply List.filter_eq_self.mpr
  intro byte member
  simpa using known byte member

/-- A call that returns adds its bytes at the end. -/
theorem write_inOrder (held : InOrder history s) {lpBuf : List UInt8}
    {results : List WriteResult} (careful : s.Careful (.write lpBuf results) = true)
    (step : machine.step s (.write lpBuf results) = some (o, s')) :
    InOrder (history ++ [(.write lpBuf results, o)]) s' := by
  obtain ⟨⟨bytes, returned, port⟩, called, result⟩ := Option.map_eq_some_iff.mp step
  obtain ⟨rfl, rfl⟩ := by simpa using result
  obtain ⟨front, ready, silent, normal, thrown⟩ := write_spec held.ready called
  have own : ∀ byte ∈ bytes, byte.1 = s.calls :=
    fun byte member => eq_of_mem_mark (front.subset member)
  have older : ∀ byte ∈ Writer.handed history, byte.1 < s.calls + 1 :=
    fun byte member => Nat.lt_succ_of_lt (held.old byte member)
  have old : ∀ byte ∈ Writer.handed (history ++
      [(.write lpBuf results, .wrote s.calls bytes returned)]), byte.1 < s.calls + 1 := by
    intro byte member
    rw [handed_snoc] at member
    obtain member | member := List.mem_append.mp member
    · exact older byte member
    · exact (own byte member).trans_lt (Nat.lt_succ_self _)
  have balance := held.balance
  cases returned with
  | false =>
    obtain rfl := thrown rfl
    have unknown : ∀ byte ∈ bytes, byte.1 ∉ (Writer.normal history).map Prod.fst := by
      intro byte member known
      obtain ⟨call, here, same⟩ := List.mem_map.mp known
      have less := held.numbered call here
      rw [same, own byte member] at less
      exact lt_irrefl _ less
    refine ⟨ready, ?_, ?_, old, ?_⟩
    · simpa [returned?] using fun call here => Nat.lt_succ_of_lt (held.numbered call here)
    · simpa [returned?] using held.sorted
    · rw [handed_snoc, normal_snoc]
      simp only [returned?, Option.toList_none, List.append_nil, List.filter_append,
        WriteSeen.bytes]
      rw [filter_unknown unknown, List.append_nil]
      exact balance
  | true =>
    obtain ⟨rest, split, kept⟩ := normal rfl
    -- what is handed over at once has nothing in front of it
    have direct : bytes ++ s.port.kept = s.port.kept ++ bytes := by
      simp only [Careful, Bool.or_eq_true, List.isEmpty_iff, List.all_eq_true,
        decide_eq_true_eq] at careful
      obtain none | nothing := careful
      · rw [none, List.append_nil, List.nil_append]
      · rw [silent nothing, List.append_nil, List.nil_append]
    refine ⟨ready, ?_, ?_, old, ?_⟩
    · intro call member
      rw [normal_snoc] at member
      obtain member | here := List.mem_append.mp member
      · exact Nat.lt_succ_of_lt (held.numbered call member)
      · obtain rfl : call = (s.calls, lpBuf) := by simpa [returned?] using here
        exact Nat.lt_succ_self _
    · rw [normal_snoc]
      apply List.pairwise_append.mpr
      refine ⟨held.sorted, List.pairwise_singleton _ _, fun call member last here => ?_⟩
      obtain rfl : last = (s.calls, lpBuf) := by simpa [returned?] using here
      exact held.numbered call member
    · have same : (Writer.handed history).filter
          (fun byte => byte.1 ∈ (Writer.normal history).map Prod.fst ++ [s.calls]) =
          (Writer.handed history).filter
            (fun byte => byte.1 ∈ (Writer.normal history).map Prod.fst) := by
        apply List.filter_congr
        intro byte member
        have less := held.old byte member
        simp [less.ne]
      have known : ∀ byte ∈ bytes, byte.1 ∈ (Writer.normal history).map Prod.fst ++ [s.calls] :=
        fun byte member => List.mem_append_right _ (by simp [own byte member])
      rw [handed_snoc, normal_snoc]
      simp only [returned?, Option.toList_some, WriteSeen.bytes, stream_snoc, List.map_append,
        List.map_cons, List.map_nil, List.filter_append]
      rw [same, filter_known known, kept, split, ← balance]
      simp only [List.append_assoc]
      rw [← List.append_assoc bytes, direct, List.append_assoc]

/-- `handle_write` gives away bytes that calls have posted. -/
theorem handleWrite_inOrder (held : InOrder history s) {a : DrainAction}
    (careful : s.Careful (.handleWrite a) = true) (unfailed : a ≠ .write .failed)
    (step : machine.step s (.handleWrite a) = some (o, s')) :
    InOrder (history ++ [(.handleWrite a, o)]) s' := by
  obtain ⟨⟨seen, port⟩, called, result⟩ := Option.map_eq_some_iff.mp step
  obtain ⟨rfl, rfl⟩ := by simpa using result
  obtain ⟨-, ready, ⟨-, moves⟩ | ⟨part, -⟩⟩ :=
    OutPort.handleWrite_spec held.ready unfailed called
  · have known : ∀ byte ∈ OutPort.OutSeen.bytes seen,
        byte.1 ∈ (normal history).map Prod.fst := by
      intro byte member
      have inStream : byte ∈ stream (normal history) := by
        rw [← held.balance, ← moves]
        exact List.mem_append_right _ (List.mem_append_left _ member)
      obtain ⟨call, here, same⟩ := exists_of_mem_stream inStream
      exact List.mem_map.mpr ⟨call, here, same.symm⟩
    refine ⟨ready, ?_, ?_, ?_, ?_⟩
    · simpa [returned?] using held.numbered
    · simpa [returned?] using held.sorted
    · intro byte member
      rw [handed_snoc] at member
      obtain member | member := List.mem_append.mp member
      · exact held.old byte member
      · obtain ⟨call, here, same⟩ := List.mem_map.mp (known byte member)
        rw [← same]
        exact held.numbered call here
    · rw [handed_snoc, normal_snoc]
      simp only [returned?, Option.toList_none, List.append_nil, List.filter_append,
        WriteSeen.bytes]
      rw [filter_known known, List.append_assoc, moves]
      exact held.balance
  · rw [Careful, part] at careful
    cases careful

theorem run_inOrder {outBuf : List (Nat × UInt8)} (run : machine.Run (new outBuf) history s)
    (unfailed : ∀ o, (.handleWrite (.write .failed), o) ∉ history)
    (careful : machine.BeforeEach (new outBuf) (fun _ s a => s.Careful a = true) history) :
    InOrder history s := by
  induction run with
  | nil => exact ⟨⟨Nat.zero_le _, nofun, nofun⟩, nofun, .nil, nofun, rfl⟩
  | @snoc history t u a o earlier step ih =>
    obtain ⟨before, now⟩ := (Machine.beforeEach_snoc earlier).mp careful
    have held := ih (fun o member => unfailed o (List.mem_append_left _ member)) before
    cases a with
    | write lpBuf results => exact write_inOrder held now step
    | handleWrite a =>
      apply handleWrite_inOrder held now ?_ step
      rintro rfl
      exact unfailed o (by simp)

/-- In a run with careful steps, a byte of a call of `write` that returned normally is handed
over after all bytes of every earlier such call. -/
theorem run_ordered {outBuf : List (Nat × UInt8)} (run : machine.Run (new outBuf) history s)
    (unfailed : ∀ o, (.handleWrite (.write .failed), o) ∉ history)
    (careful : machine.BeforeEach (new outBuf) (fun _ s a => s.Careful a = true) history)
    {i j : Nat} {bytes later : List UInt8} (first : (i, bytes) ∈ normal history)
    (second : (j, later) ∈ normal history) (order : i < j) {front rest : List (Nat × UInt8)}
    {byte : UInt8} (split : handed history = front ++ (j, byte) :: rest) :
    front.filter (fun byte => byte.1 = i) = bytes.map fun byte => (i, byte) := by
  have held := run_inOrder run unfailed careful
  have balance := held.balance
  have known : ∀ {call : Nat × List UInt8}, call ∈ normal history →
      call.1 ∈ (normal history).map Prod.fst := fun member => List.mem_map_of_mem member
  rw [split, List.filter_append, List.filter_cons_of_pos (by simpa using known second),
    List.append_assoc, List.cons_append] at balance
  have picked := filter_front held.sorted first balance.symm order
  rw [List.filter_filter] at picked
  rw [← show mark (i, bytes) = bytes.map fun byte => (i, byte) from rfl, ← picked]
  apply List.filter_congr
  intro byte _
  by_cases same : byte.1 = i
  · simpa [same] using known first
  · simp [same]

/-- A call with one byte for the buffer, `handle_write`, and one more call. -/
theorem run_ordered_two : ∃ history s, machine.Run (new (List.replicate 4 (0, 0))) history s ∧
    normal history = [(0, [1, 2]), (1, [3])] ∧ handed history = [(0, 1), (0, 2), (1, 3)] ∧
      [((0 : Nat), (1 : UInt8)), (0, 2)].filter (fun byte => byte.1 = 0) =
        [(1 : UInt8), 2].map fun byte => (0, byte) := by
  have executed : ∃ history s, (machine.guard fun s a => s.Careful a = true).exec
      (new (List.replicate 4 (0, 0)))
      [.write [1, 2] [.written 1, .again], .handleWrite .begin,
        .handleWrite (.write (.written 1)), .handleWrite .finish,
        .write [3] [.interrupted, .written 1]] = some (history, s) ∧
      normal history = [(0, [1, 2]), (1, [3])] ∧ handed history = [(0, 1), (0, 2), (1, 3)] ∧
      ∀ o, (.handleWrite (.write .failed), o) ∉ history :=
    ⟨_, _, rfl, by decide, by decide, by simp⟩
  obtain ⟨history, s, computed, calls, bytes, unfailed⟩ := executed
  obtain ⟨run, careful⟩ := Machine.run_of_guard (Machine.run_of_exec computed)
  have first : (0, [1, 2]) ∈ normal history := by simp [calls]
  have second : (1, [3]) ∈ normal history := by simp [calls]
  have split : handed history = [(0, 1), (0, 2)] ++ (1, 3) :: [] := bytes
  exact ⟨history, s, run, calls, bytes,
    run_ordered run unfailed careful first second Nat.one_pos split⟩

/-- The second byte of a call is left to the buffer, and the next call overtakes it. -/
theorem pending_overtaken : ∃ history s, machine.Run (new (List.replicate 4 (0, 0))) history s ∧
    normal history = [(0, [1, 2]), (1, [3])] ∧ handed history = [(0, 1), (1, 3)] ∧
      s.port.kept = [(0, 2)] := by
  have executed : ∃ history s, machine.exec (new (List.replicate 4 (0, 0)))
      [.write [1, 2] [.written 1, .again], .write [3] [.written 1]] = some (history, s) ∧
      normal history = [(0, [1, 2]), (1, [3])] ∧ handed history = [(0, 1), (1, 3)] ∧
      s.port.kept = [(0, 2)] := ⟨_, _, rfl, by decide⟩
  obtain ⟨history, s, computed, shown⟩ := executed
  exact ⟨history, s, Machine.run_of_exec computed, shown⟩

end Steps

end Writer

end Crs.Sc
