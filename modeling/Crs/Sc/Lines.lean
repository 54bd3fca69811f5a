import Crs.Foundation.Lines
import Crs.Sc.Reading
import Mathlib.Data.List.TakeWhile

/-!
# Lines from a serial port

`compileResponse` of the base class looks for a line terminator with `strpbrk`, which knows
nothing of the number of bytes that are available: it goes on to the first NUL. A call appends
one line to the text and skips one group of terminators, and `processIncomingBytes` calls it
once for each read.
-/

namespace Crs.Sc

open Foundation

/-- A string was appended to the text, or the callback was called. -/
inductive TextEffect where
  | inBufAppend (line : List UInt8)
  | incomingData
  deriving DecidableEq

namespace TextPort

open InPort

/-- `"\n\r"`. -/
def delim (c : UInt8) : Bool := c == 10 || c == 13

/-- The index of the first terminator, or none for a null pointer if a NUL comes first. There is
no result where the memory ends without any of them. -/
def strpbrk : List UInt8 → Option (Option Nat)
  | [] => none
  | c :: rest =>
      if c = 0 then some none
      else if delim c then some (some 0)
      else (strpbrk rest).map fun p => p.map (· + 1)

/-- The device is the text buffer, `_strInBuf`. -/
def compileResponse : CompileResponse (List UInt8) TextEffect :=
  fun lpBuf dwAvailable strInBuf =>
    (strpbrk lpBuf).map fun
      | none => ([], 0, strInBuf)
      | some p =>
          if p < dwAvailable then
            let line := lpBuf.take p
            let group := ((lpBuf.take dwAvailable).drop p).takeWhile delim
            ([.inBufAppend line, .incomingData], p + group.length, strInBuf ++ line)
          else ([], 0, strInBuf)

def machine : Machine (InPort (List UInt8)) (ReadAction (List UInt8)) (ReadSeen TextEffect) :=
  InPort.machine compileResponse

/-- The bytes of a read are no NULs. -/
def NulFree (_ : InPort (List UInt8)) : ReadAction (List UInt8) → Prop
  | .handleRead results => 0 ∉ arrived results
  | .others _ => True

instance (s : InPort (List UInt8)) : DecidablePred (NulFree s)
  | .handleRead results => inferInstanceAs (Decidable (0 ∉ arrived results))
  | .others _ => inferInstanceAs (Decidable True)

def effectsOf : ReadSeen TextEffect → List TextEffect
  | .processed _ effects => effects
  | .returned | .threw | .undefined | .quiet => []

/-- What was appended and notified so far. -/
def effects (history : List (ReadAction (List UInt8) × ReadSeen TextEffect)) : List TextEffect :=
  history.flatMap fun event => effectsOf event.2

/-- A line appended, with its notification. -/
def announced (lines : List (List UInt8)) : List TextEffect :=
  lines.flatMap fun line => [.inBufAppend line, .incomingData]

/-- The lines that have ended were announced, in order, and the last one waits. -/
structure Split (history : List (ReadAction (List UInt8) × ReadSeen TextEffect))
    (s : InPort (List UInt8)) : Prop where
  defined : s.undefined = false
  lines : effects history = announced (Lines.ended delim (received history))
  rest : s.waiting = Lines.unended delim (received history)

/-- A read has one group of terminators and ends a line with it; or it has none, and a NUL or a
terminator was left in the buffer behind it. -/
def Tidy (s : InPort (List UInt8)) : ReadAction (List UInt8) → Prop
  | .handleRead results =>
      let bytes := arrived results
      if bytes.any delim then
        (s.waiting ≠ [] ∨ bytes.takeWhile (!delim ·) ≠ []) ∧
          ((bytes.dropWhile (!delim ·)).dropWhile delim).all (!delim ·) = true
      else bytes = [] ∨
        (s.inBuf.drop (s.inBufPtr + bytes.length)).any (fun c => c == 0 || delim c) = true
  | .others _ => True

section Scan

variable {front rest line group : List UInt8}

/-- Neither a terminator nor a NUL. -/
def Plain (bytes : List UInt8) : Prop := ∀ c ∈ bytes, c ≠ 0 ∧ delim c = false

theorem strpbrk_plain (plain : Plain front) :
    strpbrk (front ++ rest) = (strpbrk rest).map fun p => p.map (· + front.length) := by
  induction front with
  | nil => simp
  | cons c front ih =>
    obtain ⟨⟨other, free⟩, plain⟩ := List.forall_mem_cons.mp plain
    rw [List.cons_append, strpbrk, if_neg other, if_neg (by simp [free]), ih plain]
    cases strpbrk rest with
    | none => rfl
    | some p => cases p <;> simp [Nat.add_assoc]

theorem strpbrk_eq_none_iff :
    strpbrk rest = none ↔ rest.any (fun c => c == 0 || delim c) = false := by
  induction rest with
  | nil => simp [strpbrk]
  | cons c rest ih =>
    rw [strpbrk]
    split_ifs <;> simp_all

/-- Nothing is done while no terminator is among the bytes that are available. -/
theorem compileResponse_plain (rest strInBuf : List UInt8) (plain : Plain front) :
    compileResponse (front ++ rest) front.length strInBuf =
      if rest.any (fun c => c == 0 || delim c) then some ([], 0, strInBuf) else none := by
  rw [compileResponse, strpbrk_plain plain]
  cases found : strpbrk rest with
  | none =>
    rw [strpbrk_eq_none_iff.mp found]
    rfl
  | some p =>
    have some : rest.any (fun c => c == 0 || delim c) = true := by
      by_contra none
      simp [strpbrk_eq_none_iff.mpr (by simpa using none)] at found
    rw [some]
    cases p <;> simp

/-- One line and one group of terminators. -/
theorem compileResponse_group {more : List UInt8} (rest strInBuf : List UInt8)
    (plain : Plain line) (nonempty : group ≠ []) (terminators : ∀ c ∈ group, delim c = true)
    (behind : more.head?.any delim = false) :
    compileResponse (line ++ (group ++ more) ++ rest) (line ++ (group ++ more)).length strInBuf =
      some ([.inBufAppend line, .incomingData], line.length + group.length, strInBuf ++ line) := by
  obtain ⟨c, others, rfl⟩ := List.exists_cons_of_ne_nil nonempty
  have first : strpbrk ((c :: others) ++ (more ++ rest)) = some (some 0) := by
    have now := terminators c List.mem_cons_self
    have other : c ≠ 0 := by
      rintro rfl
      cases now
    simp [strpbrk, other, now]
  have skips : ((c :: others) ++ more).takeWhile delim = c :: others := by
    rw [List.takeWhile_append_of_pos terminators]
    cases more with
    | nil => simp
    | cons d more =>
      have other : delim d = false := by simpa using behind
      simp [other]
  have inside : line.length < (line ++ ((c :: others) ++ more)).length := by simp
  rw [List.append_assoc, List.append_assoc, compileResponse, strpbrk_plain plain, first]
  simp only [Option.map_some, Nat.zero_add, inside, if_true]
  rw [← List.append_assoc _ more, ← List.append_assoc line, List.take_left, List.append_assoc line,
    List.take_left, List.drop_left, skips]

end Scan

section Receive

variable {s s' : InPort (List UInt8)} {bytes : List UInt8} {o : ReadSeen TextEffect}

theorem length_waiting (filled : s.inBufPtr ≤ s.inBuf.length) :
    s.waiting.length = s.inBufPtr := by
  rw [waiting, List.length_take]
  omega

/-- Bytes without a terminator are left in the buffer; the scan has to end behind them. -/
theorem receive_plain (filled : s.inBufPtr ≤ s.inBuf.length) (fits : bytes.length ≤ s.room)
    (old : Plain s.waiting) (new : Plain bytes)
    (received : s.receive compileResponse bytes = some (o, s')) :
    if (s.inBuf.drop (s.inBufPtr + bytes.length)).any (fun c => c == 0 || delim c) then
      o = .processed bytes [] ∧ s'.undefined = s.undefined ∧ s'.waiting = s.waiting ++ bytes ∧
        s'.inBufPtr = s.inBufPtr + bytes.length ∧ s'.inBuf.length = s.inBuf.length
    else s'.undefined = true := by
  have inside : s.inBufPtr + bytes.length ≤ s.inBuf.length := by
    rw [room] at fits
    omega
  obtain ⟨inBuf, length, front, stale, result⟩ :=
    receive_spec compileResponse inside
  have size : (s.waiting ++ bytes).length = s.inBufPtr + bytes.length := by
    rw [List.length_append, length_waiting filled]
  have plain : Plain (s.waiting ++ bytes) := fun c member =>
    (List.mem_append.mp member).elim (old c) (new c)
  have compiled := compileResponse_plain (inBuf.drop (s.inBufPtr + bytes.length)) s.device plain
  rw [← front, List.take_append_drop, front, size, stale] at compiled
  split at compiled
  · rename_i found
    obtain ⟨inBuf', gives, same, moved⟩ := processIncomingBytes_spec
      (s := { s with inBuf }) (by simpa [length] using inside) (Nat.zero_le _) compiled
    rw [gives] at result
    obtain ⟨rfl, rfl⟩ := by simpa using result.symm.trans received
    rw [if_pos found]
    exact ⟨rfl, rfl, moved.trans front, rfl, same.trans length⟩
  · rename_i found
    have fails : ({ s with inBuf } : InPort (List UInt8)).processIncomingBytes compileResponse
        bytes.length = none := by
      simp [processIncomingBytes, compiled]
    rw [fails] at result
    obtain ⟨-, rfl⟩ := by simpa using result.symm.trans received
    rw [if_neg found]

/-- Of bytes with terminators, the first line and the first group are taken. -/
theorem receive_group {line group more : List UInt8} (filled : s.inBufPtr ≤ s.inBuf.length)
    (fits : (line ++ (group ++ more)).length ≤ s.room) (old : Plain s.waiting) (new : Plain line)
    (nonempty : group ≠ []) (terminators : ∀ c ∈ group, delim c = true)
    (behind : more.head?.any delim = false)
    (received : s.receive compileResponse (line ++ (group ++ more)) = some (o, s')) :
    o = .processed (line ++ (group ++ more))
        [.inBufAppend (s.waiting ++ line), .incomingData] ∧
      s'.undefined = s.undefined ∧ s'.waiting = more ∧ s'.inBufPtr = more.length ∧
      s'.inBuf.length = s.inBuf.length := by
  have inside : s.inBufPtr + (line ++ (group ++ more)).length ≤ s.inBuf.length := by
    rw [room] at fits
    omega
  obtain ⟨inBuf, length, front, -, result⟩ :=
    receive_spec compileResponse inside
  have size := length_waiting filled
  have plain : Plain (s.waiting ++ line) := fun c member =>
    (List.mem_append.mp member).elim (old c) (new c)
  have compiled := compileResponse_group
    (inBuf.drop (s.inBufPtr + (line ++ (group ++ more)).length)) s.device plain nonempty
    terminators behind
  have whole : s.waiting ++ line ++ (group ++ more) =
      inBuf.take (s.inBufPtr + (line ++ (group ++ more)).length) := by
    rw [front, List.append_assoc]
  have count : (s.waiting ++ line ++ (group ++ more)).length =
      s.inBufPtr + (line ++ (group ++ more)).length := by
    simp only [List.length_append, size]
    omega
  rw [count, whole, List.take_append_drop] at compiled
  obtain ⟨inBuf', gives, same, moved⟩ := processIncomingBytes_spec (s := { s with inBuf })
    (by simpa [length] using inside) (by simp only [List.length_append, size]; omega) compiled
  rw [gives] at result
  obtain ⟨rfl, rfl⟩ := Prod.mk.inj (Option.some.inj (result.symm.trans received))
  have left : s.inBufPtr + (line ++ (group ++ more)).length -
      ((s.waiting ++ line).length + group.length) = more.length := by
    simp only [List.length_append, size]
    omega
  refine ⟨rfl, rfl, ?_, left, same.trans length⟩
  simp only at moved
  rw [left, ← whole, ← List.append_assoc, ← List.length_append, List.drop_left] at moved
  simp only [waiting] at left moved ⊢
  rw [left]
  exact moved

end Receive

section Steps

variable {history : List (ReadAction (List UInt8) × ReadSeen TextEffect)}
  {s s' : InPort (List UInt8)} {a : ReadAction (List UInt8)} {o : ReadSeen TextEffect}

@[simp] theorem effects_snoc :
    effects (history ++ [(a, o)]) = effects history ++ effectsOf o := by
  simp [effects]

@[simp] theorem announced_append (lines more : List (List UInt8)) :
    announced (lines ++ more) = announced lines ++ announced more :=
  List.flatMap_append

/-- The buffer has no NUL and is not overfull. -/
def Sound (s : InPort (List UInt8)) : Prop :=
  s.undefined = false → s.inBufPtr ≤ s.inBuf.length ∧ 0 ∉ s.waiting

/-- Bytes up to the first group of terminators, the group, and the others. -/
theorem exists_group {bytes : List UInt8} (some : bytes.any delim = true) :
    ∃ line group more, bytes = line ++ (group ++ more) ∧ bytes.takeWhile (!delim ·) = line ∧
      (bytes.dropWhile (!delim ·)).dropWhile delim = more ∧ (∀ c ∈ line, delim c = false) ∧
      group ≠ [] ∧ (∀ c ∈ group, delim c = true) ∧ more.head?.any delim = false := by
  refine ⟨_, (bytes.dropWhile (!delim ·)).takeWhile delim, _, ?_, rfl, rfl, ?_, ?_, ?_, ?_⟩
  · rw [List.takeWhile_append_dropWhile, List.takeWhile_append_dropWhile]
  · intro c member
    simpa using List.mem_takeWhile_imp member
  · cases begins : bytes.dropWhile (!delim ·) with
    | nil =>
      obtain ⟨c, member, terminates⟩ := List.any_eq_true.mp some
      have none := List.dropWhile_eq_nil_iff.mp begins c member
      simp [terminates] at none
    | cons c rest =>
      have first := List.head?_dropWhile_not (fun c => !delim c) bytes
      rw [begins] at first
      have here : delim c = true := by simpa using first
      simp [here]
  · exact fun c member => List.mem_takeWhile_imp member
  · cases begins : (bytes.dropWhile (!delim ·)).dropWhile delim with
    | nil => rfl
    | cons c rest =>
      have first := List.head?_dropWhile_not delim (bytes.dropWhile (!delim ·))
      rw [begins] at first
      simpa using first

theorem unended_eq_iff {more : List UInt8} :
    more = Lines.unended delim more ↔ ∀ c ∈ more, delim c = false := by
  constructor
  · intro same
    rw [same]
    exact Lines.unended_free more
  · intro free
    exact (Lines.append_free [] free).2.symm

/-- A line with its terminators is what the text gets, exactly if there is such a line and no
other one. -/
theorem announced_eq_iff {line more : List UInt8} :
    ([.inBufAppend line, .incomingData] = announced (Lines.flush line ++ Lines.ended delim more) ∧
        more = Lines.unended delim more) ↔
      line ≠ [] ∧ ∀ c ∈ more, delim c = false := by
  rw [unended_eq_iff]
  apply and_congr_left
  intro free
  have none : Lines.ended delim more = [] := (Lines.append_free [] free).1
  by_cases empty : line = []
  · simp [none, empty, announced]
  · simp [none, empty, announced, Lines.flush_of_ne_nil]

theorem plain_waiting (sound : Sound s) (split : Split history s) : Plain s.waiting := by
  intro c member
  refine ⟨?_, Lines.unended_free _ c (split.rest ▸ member)⟩
  rintro rfl
  exact (sound split.defined).2 member

theorem plain_of_free {bytes : List UInt8} (nulFree : 0 ∉ bytes)
    (free : ∀ c ∈ bytes, delim c = false) : Plain bytes := by
  intro c member
  refine ⟨?_, free c member⟩
  rintro rfl
  exact nulFree member

/-- A read with a terminator announces its first line, and the other bytes wait. -/
theorem receive_group_split (sound : Sound s) (split : Split history s)
    {line group more : List UInt8} (nulFree : 0 ∉ line ++ (group ++ more))
    (fits : (line ++ (group ++ more)).length ≤ s.room) (free : ∀ c ∈ line, delim c = false)
    (nonempty : group ≠ []) (terminators : ∀ c ∈ group, delim c = true)
    (behind : more.head?.any delim = false)
    (received : s.receive compileResponse (line ++ (group ++ more)) = some (o, s')) :
    Sound s' ∧ (Split (history ++ [(a, o)]) s' ↔
      s.waiting ++ line ≠ [] ∧ ∀ c ∈ more, delim c = false) := by
  obtain ⟨filled, clean⟩ := sound split.defined
  have new : Plain line :=
    plain_of_free (fun member => nulFree (List.mem_append_left _ member)) free
  obtain ⟨rfl, defined, waiting, ptr, length⟩ :=
    receive_group filled fits (plain_waiting sound split) new nonempty terminators behind received
  have sound' : Sound s' := by
    intro _
    rw [waiting, ptr, length]
    refine ⟨?_, fun member => nulFree (by simp [member])⟩
    simp only [room, List.length_append] at fits
    omega
  refine ⟨sound', ?_⟩
  obtain ⟨lines, rest⟩ := Lines.append_group (InPort.received history) more free nonempty
    terminators
  rw [← announced_eq_iff]
  constructor
  · rintro ⟨-, all, open_⟩
    rw [effects_snoc, received_snoc, ReadSeen.bytes, lines, split.lines, List.append_assoc,
      announced_append] at all
    rw [received_snoc, ReadSeen.bytes, rest, waiting] at open_
    refine ⟨?_, open_⟩
    rw [split.rest]
    simpa [effectsOf, split.rest] using all
  · rintro ⟨all, open_⟩
    refine ⟨defined.trans split.defined, ?_, ?_⟩
    · rw [effects_snoc, received_snoc, ReadSeen.bytes, lines, split.lines, List.append_assoc,
        announced_append, effectsOf, all, split.rest]
    · rw [received_snoc, ReadSeen.bytes, rest, waiting]
      exact open_

/-- A read without a terminator waits, if the scan ends. -/
theorem receive_plain_split (sound : Sound s) (split : Split history s) {bytes : List UInt8}
    (nulFree : 0 ∉ bytes) (fits : bytes.length ≤ s.room) (free : ∀ c ∈ bytes, delim c = false)
    (received : s.receive compileResponse bytes = some (o, s')) :
    Sound s' ∧ (Split (history ++ [(a, o)]) s' ↔
      (s.inBuf.drop (s.inBufPtr + bytes.length)).any (fun c => c == 0 || delim c) = true) := by
  obtain ⟨filled, clean⟩ := sound split.defined
  have result := receive_plain filled fits (plain_waiting sound split)
    (plain_of_free nulFree free) received
  split at result
  · rename_i found
    obtain ⟨rfl, defined, waiting, ptr, length⟩ := result
    obtain ⟨lines, rest⟩ := Lines.append_free (InPort.received history) free
    refine ⟨fun _ => ⟨?_, ?_⟩, iff_of_true ⟨defined.trans split.defined, ?_, ?_⟩ found⟩
    · rw [room] at fits
      omega
    · rw [waiting]
      exact fun member => (List.mem_append.mp member).elim clean nulFree
    · rw [effects_snoc, received_snoc, ReadSeen.bytes, lines, split.lines, effectsOf,
        List.append_nil]
    · rw [received_snoc, ReadSeen.bytes, rest, waiting, split.rest]
  · rename_i found
    refine ⟨fun defined => absurd (defined.symm.trans result) (by simp), ?_⟩
    refine iff_of_false (fun split => ?_) found
    exact absurd (split.defined.symm.trans result) (by simp)

theorem receive_sound_split (sound : Sound s) (split : Split history s) {bytes : List UInt8}
    (nonempty : bytes ≠ []) (nulFree : 0 ∉ bytes) (fits : bytes.length ≤ s.room)
    (received : s.receive compileResponse bytes = some (o, s')) :
    Sound s' ∧ (Split (history ++ [(a, o)]) s' ↔
      if bytes.any delim then
        (s.waiting ≠ [] ∨ bytes.takeWhile (!delim ·) ≠ []) ∧
          ((bytes.dropWhile (!delim ·)).dropWhile delim).all (!delim ·) = true
      else bytes = [] ∨
        (s.inBuf.drop (s.inBufPtr + bytes.length)).any (fun c => c == 0 || delim c) = true) := by
  by_cases some : bytes.any delim = true
  · rw [if_pos some]
    obtain ⟨line, group, more, rfl, takes, drops, free, several, terminators, behind⟩ :=
      exists_group some
    obtain ⟨sound', exactly⟩ := receive_group_split (a := a) sound split nulFree fits free several
      terminators behind received
    refine ⟨sound', ?_⟩
    rw [exactly, takes, drops]
    simp [-not_and, not_and_or]
  · have free : ∀ c ∈ bytes, delim c = false := by
      intro c member
      by_contra terminates
      exact some (List.any_eq_true.mpr ⟨c, member, by simpa using terminates⟩)
    rw [if_neg some, or_iff_right nonempty]
    exact receive_plain_split sound split nulFree fits free received

/-- A step keeps the lines apart exactly if it is tidy. -/
theorem step_split_iff (sound : Sound s) (split : Split history s)
    (step : (machine.guard NulFree).step s a = some (o, s')) :
    Sound s' ∧ (Split (history ++ [(a, o)]) s' ↔ Tidy s a) := by
  obtain ⟨nulFree, step⟩ := Machine.guard_step_iff.mp step
  obtain ⟨results, rfl, -, ⟨empty, rfl, quiet⟩ | ⟨nonempty, fits, receives⟩⟩ |
    ⟨device, rfl, rfl, rfl⟩ := InPort.step_cases step
  · refine ⟨sound, iff_of_true ⟨split.defined, ?_, ?_⟩ (by simp [Tidy, empty])⟩
    · obtain rfl | rfl := quiet <;> simpa [effectsOf, ReadSeen.bytes] using split.lines
    · obtain rfl | rfl := quiet <;> simpa [ReadSeen.bytes] using split.rest
  · exact receive_sound_split sound split nonempty nulFree fits receives
  · refine ⟨sound, iff_of_true ⟨split.defined, ?_, ?_⟩ trivial⟩
    · simpa [effectsOf, ReadSeen.bytes] using split.lines
    · rw [received_snoc, ReadSeen.bytes, List.append_nil]
      exact split.rest

end Steps

instance (s : InPort (List UInt8)) : DecidablePred (Tidy s)
  | .handleRead results => by
    unfold Tidy
    infer_instance
  | .others _ => inferInstanceAs (Decidable True)

end TextPort

end Crs.Sc
