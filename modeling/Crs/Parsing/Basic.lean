import Crs.Foundation.Text

/-!
# Scanning tokens

The overload of `predicate_scan_token` for a string works with indices and erases what it has
scanned. The one for a stream reads character by character; where the stream ends, `get` gives
EOF again and again, so a scan that waits for a closing quote does not return.
-/

namespace Crs.Parsing

open Foundation

def doubleL : Char := '"'

/-- EOF, stored in a `char`. -/
def eof : Char := Char.ofNat 255

section Scanners

variable (prd : Char → Bool)

/-- The loop over the string from the index `i` on: where the token begins and ends. -/
def scanString : List Char → (idxFrom i : ℕ) → (longString : Bool) → ℕ × ℕ
  | [], idxFrom, i, _ => (idxFrom, i)
  | ch :: rest, idxFrom, i, longString =>
      if ch = doubleL then
        if longString then (idxFrom, i) else scanString rest (idxFrom + 1) (i + 1) true
      else if longString then scanString rest idxFrom (i + 1) longString
      else if prd ch then (idxFrom, i)
      else scanString rest idxFrom (i + 1) longString

/-- `predicate_scan_token` for a string: the token, and what is left of the string. -/
def predicateScanString (s : List Char) : List Char × List Char :=
  let i := (s.takeWhile isspace).length
  let (idxFrom, i) := scanString prd (s.drop i) i i false
  ((s.drop idxFrom).take (i - idxFrom), s.drop i)

/-- The loop over the stream. -/
def scanStream : List Char → (longString : Bool) → (res : List Char) →
    Option (List Char × List Char)
  | [], longString, res =>
      if longString then none
      else if prd eof then some (if res = [] then [eof] else res, [])
      else none
  | ch :: rest, longString, res =>
      if ch = doubleL then if longString then some (res, rest) else scanStream rest true res
      else if longString then scanStream rest longString (res ++ [ch])
      else if prd ch then some (if res = [] then ([ch], rest) else (res, ch :: rest))
      else scanStream rest longString (res ++ [ch])

/-- `predicate_scan_token` for a stream: the token, and what is left in the stream. -/
def predicateScanStream (is : List Char) : Option (List Char × List Char) :=
  scanStream prd (is.dropWhile isspace) false []

end Scanners

/-- Taking tokens until only white space is left. -/
inductive Takes (scan : List Char → Option (List Char × List Char)) :
    List Char → List (List Char) → Prop where
  | blank {s : List Char} (ended : s.all isspace) : Takes scan s []
  | token {s token rest : List Char} {tokens : List (List Char)} (more : ¬s.all isspace)
      (scanned : scan s = some (token, rest)) (others : Takes scan rest tokens) :
      Takes scan s (token :: tokens)

section Takes

variable {scan : List Char → Option (List Char × List Char)} {s token rest : List Char}
  {tokens : List (List Char)}

theorem takes_blank (ended : s.all isspace) : Takes scan s tokens ↔ tokens = [] := by
  constructor
  · intro takes
    cases takes with
    | blank => rfl
    | token more => exact absurd ended more
  · rintro rfl
    exact .blank ended

theorem takes_token (more : ¬s.all isspace) (scanned : scan s = some (token, rest)) :
    Takes scan s tokens ↔ ∃ others, tokens = token :: others ∧ Takes scan rest others := by
  constructor
  · intro takes
    cases takes with
    | blank ended => exact absurd ended more
    | token _ again others =>
      obtain ⟨rfl, rfl⟩ : token = _ ∧ rest = _ := by simpa [scanned] using again
      exact ⟨_, rfl, others⟩
  · rintro ⟨others, rfl, takes⟩
    exact .token more scanned takes

/-- A scan that does not return gives no list of tokens. -/
theorem not_takes_of_none (more : ¬s.all isspace) (scanned : scan s = none) :
    ¬Takes scan s tokens := by
  intro takes
  cases takes with
  | blank ended => exact more ended
  | token _ again => simp [scanned] at again

/-- Neither does one that takes nothing from the string. -/
theorem not_takes_of_same (more : ¬s.all isspace) (scanned : scan s = some (token, s)) :
    ¬Takes scan s tokens := by
  intro takes
  induction tokens with
  | nil =>
    cases takes with
    | blank ended => exact more ended
  | cons first tokens ih =>
    obtain ⟨others, same, takes⟩ := (takes_token more scanned).mp takes
    obtain ⟨-, rfl⟩ := List.cons.inj same
    exact ih takes

end Takes

section Loops

variable {prd : Char → Bool} {word rest : List Char}

/-- No quote and no delimiter. -/
def Plain (prd : Char → Bool) (word : List Char) : Prop :=
  ∀ c ∈ word, c ≠ doubleL ∧ prd c = false

theorem scanString_plain (plain : Plain prd word) (idxFrom i : ℕ) :
    scanString prd (word ++ rest) idxFrom i false =
      scanString prd rest idxFrom (i + word.length) false := by
  induction word generalizing i with
  | nil => simp
  | cons c word ih =>
    obtain ⟨⟨quote, delimiter⟩, plain⟩ := List.forall_mem_cons.mp plain
    simp [scanString, quote, delimiter, ih plain, Nat.add_comm, Nat.add_left_comm]

theorem scanString_quoted (inner : doubleL ∉ word) (idxFrom i : ℕ) :
    scanString prd (word ++ rest) idxFrom i true =
      scanString prd rest idxFrom (i + word.length) true := by
  induction word generalizing i with
  | nil => simp
  | cons c word ih =>
    rw [List.mem_cons, not_or] at inner
    obtain ⟨quote, inner⟩ := inner
    simp [scanString, Ne.symm quote, ih inner, Nat.add_comm, Nat.add_left_comm]

theorem scanStream_plain (plain : Plain prd word) (res : List Char) :
    scanStream prd (word ++ rest) false res = scanStream prd rest false (res ++ word) := by
  induction word generalizing res with
  | nil => simp
  | cons c word ih =>
    obtain ⟨⟨quote, delimiter⟩, plain⟩ := List.forall_mem_cons.mp plain
    simp [scanStream, quote, delimiter, ih plain]

theorem scanStream_quoted (inner : doubleL ∉ word) (res : List Char) :
    scanStream prd (word ++ rest) true res = scanStream prd rest true (res ++ word) := by
  induction word generalizing res with
  | nil => simp
  | cons c word ih =>
    rw [List.mem_cons, not_or] at inner
    obtain ⟨quote, inner⟩ := inner
    simp [scanStream, Ne.symm quote, ih inner]

theorem scanString_shift (s : List Char) (k idxFrom i : ℕ) (longString : Bool) :
    scanString prd s (idxFrom + k) (i + k) longString =
      ((scanString prd s idxFrom i longString).1 + k,
        (scanString prd s idxFrom i longString).2 + k) := by
  fun_induction scanString prd s idxFrom i longString with
  | case1 => simp [scanString]
  | case2 => simp_all [scanString]
  | case3 rest idxFrom i => simp_all [scanString, Nat.add_right_comm]
  | case4 => simp_all [scanString, Nat.add_right_comm]
  | case5 => simp_all [scanString]
  | case6 => simp_all [scanString, Nat.add_right_comm]

/-- The white space in front of a token does not matter. -/
theorem predicateScanString_eq (s : List Char) :
    predicateScanString prd s =
      let s := s.dropWhile isspace
      let (idxFrom, i) := scanString prd s 0 0 false
      ((s.drop idxFrom).take (i - idxFrom), s.drop i) := by
  have blank : s.drop (s.takeWhile isspace).length = s.dropWhile isspace := by
    have cut : (s.takeWhile isspace ++ s.dropWhile isspace).drop (s.takeWhile isspace).length =
        s.dropWhile isspace := List.drop_left
    rwa [List.takeWhile_append_dropWhile] at cut
  have shift := @scanString_shift prd (s.dropWhile isspace) (s.takeWhile isspace).length 0 0 false
  simp only [Nat.zero_add] at shift
  simp only [predicateScanString, blank, shift, Nat.add_sub_add_right]
  simp only [Nat.add_comm _ (s.takeWhile isspace).length, ← List.drop_drop, blank]

end Loops

end Crs.Parsing
