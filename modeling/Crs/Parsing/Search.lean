import Crs.Foundation.InputStream
import Crs.Foundation.Occurrence

/-!
# Searching a stream

`search_forward` matches a sample character by character. After a mismatch it goes on with the
second character of the sample, so the character that did not match counts as the first one, and
nothing before it is looked at again.
-/

namespace Crs.Parsing

open Foundation Occurrence

section SearchForward

variable (signed : Bool) (sample : List Char)

/-- A character from `get` is compared with a `char`. If that type is signed, a character from
128 on differs from itself. -/
def sameChar (ch expected : Char) : Bool := ch == expected && (!signed || ch.toNat < 128)

/-- The loop of `search_forward`, with a bound for its rounds: how many characters have matched
when it ends. -/
def searchLoop : (rounds : ℕ) → InputStream → (matched : ℕ) → Option (ℕ × InputStream)
  | 0, _, _ => none
  | rounds + 1, s, matched =>
      if matched < sample.length then
        match s.get with
        | (none, s) => some (matched, s)
        | (some ch, s) =>
            -- `match` is set to zero at a mismatch, and incremented then
            if (sample[matched]?.any (sameChar signed ch)) then searchLoop rounds s (matched + 1)
            else searchLoop rounds s 1
      else some (matched, s)

/-- `search_forward`: the offset, or none for -1. The position is saved first, and restored in
the end. -/
def searchForward (s : InputStream) : Option (Option ℕ × InputStream) :=
  let (position, s) := s.tellg
  (searchLoop signed sample (s.text.length + 1) s 0).map fun (matched, s) =>
    let (result, s) :=
      if matched = sample.length then
        let (position, s) := s.tellg
        (position.map (· - matched), s)
      else (none, s)
    (result, s.clear.clear.seekg position)

/-- Whether a search finds what it should from here on: an attempt that is complete is the
sample; and where one ends at a mismatch, no occurrence begins in it. -/
def Clean (attempt : List Char) : (rest : List Char) → Prop
  | [] => attempt.length = sample.length → attempt = sample
  | ch :: rest =>
      if attempt.length = sample.length then attempt = sample
      else if sample[attempt.length]?.any (sameChar signed ch) then Clean (attempt ++ [ch]) rest
      else (∀ i < attempt.length, ¬sample <+: (attempt ++ ch :: rest).drop i) ∧ Clean [ch] rest

instance decidableClean (attempt : List Char) :
    (rest : List Char) → Decidable (Clean signed sample attempt rest)
  | [] => inferInstanceAs (Decidable (attempt.length = sample.length → attempt = sample))
  | ch :: rest =>
      have := decidableClean (attempt ++ [ch]) rest
      have := decidableClean [ch] rest
      inferInstanceAs (Decidable (if attempt.length = sample.length then attempt = sample
        else if sample[attempt.length]?.any (sameChar signed ch) then
          Clean signed sample (attempt ++ [ch]) rest
        else (∀ i < attempt.length, ¬sample <+: (attempt ++ ch :: rest).drop i) ∧
          Clean signed sample [ch] rest))

/-- A stream that can be read, and a search that finds what it should; or no occurrence. -/
def Searchable (s : InputStream) : Prop :=
  if s.good then Clean signed sample [] (s.text.drop s.position)
  else ∀ n, s.position ≤ n → ¬sample <+: s.text.drop n

end SearchForward

section Search

/-- What the loop finds, counted from the begin of the attempt. -/
def Ends (sample : List Char) (start matched : ℕ) (s : InputStream) : Option ℕ → Prop
  | some k => matched = sample.length ∧ s.good = true ∧ s.position = start + k + matched
  | none => matched ≠ sample.length

/-- The loop ends, and what it finds is the first occurrence exactly if the search is clean. -/
theorem searchLoop_spec (signed : Bool) (sample rest attempt : List Char) {rounds start : ℕ}
    {s : InputStream} (good : s.good = true) (left : s.text.drop s.position = rest)
    (begun : s.position = start + attempt.length) (short : attempt.length ≤ sample.length)
    (enough : rest.length < rounds) :
    ∃ matched t result, searchLoop signed sample rounds s attempt.length = some (matched, t) ∧
      Ends sample start matched t result ∧ t.text = s.text ∧
      (IsFirst sample (attempt ++ rest) 0 result ↔ Clean signed sample attempt rest) := by
  obtain ⟨rounds, rfl⟩ : ∃ n, rounds = n + 1 := ⟨rounds - 1, by omega⟩
  induction rest generalizing attempt rounds start s with
  | nil =>
    rw [searchLoop]
    by_cases complete : attempt.length = sample.length
    · refine ⟨_, s, some 0, if_neg (by omega), ⟨complete, good, begun⟩, rfl, ?_⟩
      rw [isFirst_front_iff complete, Clean]
      exact ⟨fun same _ => same, fun all => all complete⟩
    · rw [if_pos (by omega), InputStream.get_nil good left]
      refine ⟨_, _, none, rfl, complete, rfl, iff_of_true (isFirst_of_short ?_) fun same => ?_⟩
      · rw [List.append_nil]
        omega
      · exact absurd same complete
  | cons ch rest ih =>
    rw [searchLoop, Clean]
    by_cases complete : attempt.length = sample.length
    · refine ⟨_, s, some 0, if_neg (by omega), ⟨complete, good, begun⟩, rfl, ?_⟩
      rw [isFirst_front_iff complete, if_pos complete]
    · obtain ⟨gets, left'⟩ := InputStream.get_cons good left
      obtain ⟨rounds, rfl⟩ : ∃ n, rounds = n + 1 := ⟨rounds - 1, by
        rw [List.length_cons] at enough
        omega⟩
      rw [if_pos (by omega), if_neg complete, gets]
      have fewer : rest.length < rounds + 1 := by
        rw [List.length_cons] at enough
        omega
      by_cases same : sample[attempt.length]?.any (sameChar signed ch) = true
      · -- the attempt goes on
        obtain ⟨matched, t, result, loop, ends, text, exactly⟩ := @ih (attempt ++ [ch]) start
          { s with position := s.position + 1 } good left'
          (by simp only [List.length_append, List.length_singleton]; omega)
          (by simp only [List.length_append, List.length_singleton]; omega) rounds fewer
        rw [List.length_append, List.length_singleton] at loop
        rw [List.append_assoc, List.singleton_append] at exactly
        rw [if_pos same]
        exact ⟨matched, t, result, by simp only [same, if_true]; exact loop, ends, text, exactly⟩
      · -- the next attempt begins with the character that did not match
        obtain ⟨matched, t, result, loop, ends, text, exactly⟩ := @ih [ch] (start + attempt.length)
          { s with position := s.position + 1 } good left'
          (by simp only [List.length_singleton]; omega)
          (by simp only [List.length_singleton]; omega) rounds fewer
        rw [if_neg same]
        refine ⟨matched, t, result.map (· + attempt.length), by simp only [if_neg same]; exact loop,
          ?_, text, ?_⟩
        · cases result with
          | none => exact ends
          | some k =>
            obtain ⟨whole, good, position⟩ := ends
            refine ⟨whole, good, ?_⟩
            change t.position = start + (k + attempt.length) + matched
            omega
        · rw [isFirst_append_iff, ← exactly]
          rfl

/-- A search of a stream that can be read. -/
theorem searchForward_of_good (signed : Bool) (sample : List Char) {s : InputStream}
    (good : s.good = true) : ∃ result t, searchForward signed sample s = some (result, t) ∧
      t.position = s.position ∧ (IsFirst sample s.text s.position result ↔
        Clean signed sample [] (s.text.drop s.position)) := by
  have enough : (s.text.drop s.position).length < s.text.length + 1 := by
    rw [List.length_drop]
    omega
  obtain ⟨matched, t, result, loop, ends, -, exactly⟩ :=
    searchLoop_spec signed sample (s.text.drop s.position) [] good rfl
      (Nat.add_zero s.position).symm (Nat.zero_le _) enough
  rw [List.nil_append, ← isFirst_drop_iff] at exactly
  have found : (if matched = sample.length then
      (t.tellg.1.map (· - matched), t.tellg.2) else (none, t)) =
        (result.map (· + s.position), t) := by
    cases result with
    | none => exact if_neg ends
    | some k =>
      obtain ⟨whole, fine, position⟩ := ends
      have offset : t.position - matched = k + s.position := by omega
      rw [if_pos whole, InputStream.tellg_of_good fine]
      simp [offset]
  refine ⟨result.map (· + s.position), t.clear.clear.seekg (some s.position), ?_, rfl, exactly⟩
  rw [List.length_nil] at loop
  rw [searchForward, InputStream.tellg_of_good good]
  simp [loop, found]

/-- Where a stream cannot be read nothing is found, not even an empty sample. -/
theorem searchForward_of_not_good (signed : Bool) (sample : List Char) {s : InputStream}
    (bad : s.good = false) : ∃ t, searchForward signed sample s = some (none, t) ∧
      t.position = s.position := by
  rw [searchForward, InputStream.tellg_of_not_good bad]
  generalize failed : ({ s with failbit := true } : InputStream) = u
  have position : u.position = s.position := by rw [← failed]
  have bad : u.good = false := by simp [← failed, InputStream.good]
  refine ⟨({ u with failbit := true } : InputStream).clear.clear.seekg none, ?_, position⟩
  cases sample with
  | nil => simp [searchLoop, InputStream.tellg_of_not_good bad]
  | cons c sample => simp [searchLoop, InputStream.get_of_not_good bad]

/-- The search always returns, and restores the position. What it returns is the first occurrence
exactly if the stream is searchable. -/
theorem searchForward_iff (signed : Bool) (sample : List Char) (s : InputStream) :
    ∃ result t, searchForward signed sample s = some (result, t) ∧
      (IsFirst sample s.text s.position result ∧ t.position = s.position ↔
        Searchable signed sample s) := by
  rw [Searchable]
  cases good : s.good with
  | true =>
    obtain ⟨result, t, returns, position, exactly⟩ := searchForward_of_good signed sample good
    rw [if_pos rfl]
    exact ⟨result, t, returns, (and_iff_left position).trans exactly⟩
  | false =>
    obtain ⟨t, returns, position⟩ := searchForward_of_not_good signed sample good
    rw [if_neg (by decide)]
    exact ⟨none, t, returns, and_iff_left position⟩

/-- A mismatch inside a sample that begins again right there. -/
example : Clean true ['a', 'b'] [] ['a', 'a', 'b'] := by decide

/-- A character that does not match counts as the first one; and an occurrence that begins in an
attempt before is missed. -/
theorem mismatch_counts :
    (searchForward true ['a', 'b'] { text := ['x', 'b'] }).map Prod.fst = some (some 0) ∧
      ¬IsFirst ['a', 'b'] ['x', 'b'] 0 (some 0) ∧
      (searchForward true ['a', 'a', 'b'] { text := ['a', 'a', 'a', 'b'] }).map Prod.fst =
        some none ∧
      ¬IsFirst ['a', 'a', 'b'] ['a', 'a', 'a', 'b'] 0 none := by
  refine ⟨by decide, fun first => ?_, by decide, fun never => ?_⟩
  · exact absurd first.1.2 (by decide)
  · exact absurd (by decide) (never 1 (Nat.zero_le _))

end Search

end Crs.Parsing
