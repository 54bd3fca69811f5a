import Crs.Parsing.Basic

/-!
# Words of an unquoted piece

Outside of quotes both overloads take words, as long as no delimiter but white space is met.
The last word of a piece is still open: it goes on behind the piece.
-/

namespace Crs.Parsing

open Foundation

variable (prd : Char → Bool)

/-- The word that a delimiter ends. -/
def flush (word : List Char) : List (List Char) :=
  if word = [] then [] else [word]

/-- The tokens that end in a piece, and the word that it leaves open. -/
def words : List Char → (word : List Char) → List (List Char) × List Char
  | [], word => ([], word)
  | c :: rest, word =>
      if prd c then
        (flush word ++ (if isspace c then [] else [[c]]) ++ (words rest []).1, (words rest []).2)
      else words rest (word ++ [c])

/-- A delimiter that is a token of its own. -/
def Single (token : List Char) : Prop :=
  ∃ d, token = [d] ∧ prd d = true ∧ isspace d = false

/-- What both overloads do outside of quotes. -/
structure Scans (scan : List Char → Option (List Char × List Char)) : Prop where
  skip {c : Char} {s : List Char} : isspace c = true → scan (c :: s) = scan s
  word {word : List Char} {c : Char} {rest : List Char} : word ≠ [] → Plain prd word →
    c ≠ doubleL → prd c = true → scan (word ++ c :: rest) = some (word, c :: rest)

section Words

variable {prd} {piece word token tail : List Char}

@[simp] theorem flush_nil : flush [] = [] := rfl

theorem flush_of_ne_nil (some : word ≠ []) : flush word = [word] := if_neg some

theorem Plain.append {last : List Char} (plain : Plain prd word) (others : Plain prd last) :
    Plain prd (word ++ last) := by
  intro c member
  obtain member | member := List.mem_append.mp member
  · exact plain c member
  · exact others c member

theorem plain_nil : Plain prd [] := by
  simp [Plain]

theorem plain_singleton {c : Char} (quote : c ≠ doubleL) (delimiter : prd c = false) :
    Plain prd [c] := by
  simp [Plain, quote, delimiter]

variable (spaces : ∀ c, isspace c = true → prd c = true)
include spaces

theorem Plain.not_isspace (plain : Plain prd word) {c : Char} (member : c ∈ word) :
    isspace c = false := by
  by_contra space
  have := spaces c (by simpa using space)
  simp [(plain c member).2] at this

theorem Plain.not_blank (plain : Plain prd word) (some : word ≠ []) :
    ¬(word ++ tail).all isspace := by
  obtain ⟨c, member⟩ := List.exists_mem_of_ne_nil word some
  intro blank
  have := List.all_eq_true.mp blank c (List.mem_append_left _ member)
  simp [plain.not_isspace spaces member] at this

theorem dropWhile_plain (plain : Plain prd word) (some : word ≠ []) :
    (word ++ tail).dropWhile isspace = word ++ tail := by
  obtain ⟨c, rest, rfl⟩ := List.exists_cons_of_ne_nil some
  simp [plain.not_isspace spaces List.mem_cons_self]

theorem scans_string : Scans prd fun s => some (predicateScanString prd s) where
  skip space := by simp [predicateScanString_eq, space]
  word some plain quote delimiter := by
    simp only [predicateScanString_eq, dropWhile_plain spaces plain some, scanString_plain plain]
    simp [scanString, quote, delimiter]

theorem scans_stream : Scans prd (predicateScanStream prd) where
  skip space := by simp [predicateScanStream, space]
  word some plain quote delimiter := by
    rw [predicateScanStream, dropWhile_plain spaces plain some, scanStream_plain plain]
    simp [scanStream, quote, delimiter, some]

omit spaces in
theorem Scans.takes_skip {scan : List Char → Option (List Char × List Char)}
    (scans : Scans prd scan) {c : Char} {s : List Char} {tokens : List (List Char)}
    (space : isspace c = true) : Takes scan (c :: s) tokens ↔ Takes scan s tokens := by
  have same := scans.skip (s := s) space
  by_cases blank : s.all isspace
  · rw [takes_blank blank, takes_blank (by simp [space, blank])]
  · have more : ¬(c :: s).all isspace := by simpa [space] using blank
    cases scanned : scan s with
    | none =>
      rw [scanned] at same
      exact iff_of_false (not_takes_of_none more same) (not_takes_of_none blank scanned)
    | some result =>
      rw [scanned] at same
      rw [takes_token more same, takes_token blank scanned]

/-- A piece without quotes gives its words. A delimiter that is no white space has to be a
token of its own. -/
theorem Scans.takes_piece {scan : List Char → Option (List Char × List Char)}
    (scans : Scans prd scan) {tokens : List (List Char)} (unquoted : doubleL ∉ piece)
    (single : ∀ c ∈ piece, prd c = true → isspace c = true ∨
      ∀ s, scan (c :: s) = some ([c], s)) (plain : Plain prd word) :
    Takes scan (word ++ piece ++ tail) tokens ↔ ∃ others,
      tokens = (words prd piece word).1 ++ others ∧
        Takes scan ((words prd piece word).2 ++ tail) others := by
  induction piece generalizing word tokens with
  | nil => simp [words]
  | cons c piece ih =>
    rw [List.mem_cons, not_or] at unquoted
    obtain ⟨quote, unquoted⟩ := unquoted
    obtain ⟨now, single⟩ := List.forall_mem_cons.mp single
    by_cases delimiter : prd c = true
    · have inner (others : List (List Char)) : Takes scan (piece ++ tail) others ↔
          ∃ last, others = (words prd piece []).1 ++ last ∧
            Takes scan ((words prd piece []).2 ++ tail) last :=
        ih unquoted single plain_nil
      have behind (others : List (List Char)) : Takes scan (c :: piece ++ tail) others ↔
          ∃ last, others = (if isspace c then [] else [[c]]) ++ (words prd piece []).1 ++ last ∧
            Takes scan ((words prd piece []).2 ++ tail) last := by
        rw [List.cons_append]
        by_cases space : isspace c = true
        · simp [scans.takes_skip space, inner, space]
        · have scanned := (now delimiter).resolve_left space (piece ++ tail)
          rw [takes_token (by simp [space]) scanned, if_neg space]
          constructor
          · rintro ⟨_, rfl, takes⟩
            obtain ⟨last, rfl, others⟩ := (inner _).mp takes
            exact ⟨last, by simp, others⟩
          · rintro ⟨last, rfl, takes⟩
            exact ⟨_, by simp, (inner _).mpr ⟨last, rfl, takes⟩⟩
      simp only [words, delimiter, if_true]
      by_cases empty : word = []
      · subst empty
        exact behind tokens
      · rw [List.append_assoc, List.cons_append, takes_token (plain.not_blank spaces empty)
          (scans.word empty plain (Ne.symm quote) delimiter), flush_of_ne_nil empty]
        constructor
        · rintro ⟨_, rfl, takes⟩
          obtain ⟨last, rfl, others⟩ := (behind _).mp takes
          exact ⟨last, by simp, others⟩
        · rintro ⟨last, rfl, takes⟩
          exact ⟨_, by simp, (behind _).mpr ⟨last, rfl, takes⟩⟩
    · have longer := plain.append (plain_singleton (Ne.symm quote) (by simpa using delimiter))
      simpa [words, delimiter] using ih unquoted single longer

omit spaces in
theorem words_append (piece others word : List Char) :
    words prd (piece ++ others) word =
      ((words prd piece word).1 ++ (words prd others (words prd piece word).2).1,
        (words prd others (words prd piece word).2).2) := by
  fun_induction words prd piece word with
  | case1 word => simp
  | case2 c piece word delimiter ih => simp [words, delimiter, ih]
  | case3 c piece word delimiter ih => simp [words, delimiter, ih]

omit spaces in
theorem words_plain (plain : Plain prd piece) : words prd piece word = ([], word ++ piece) := by
  induction piece generalizing word with
  | nil => simp [words]
  | cons c piece ih =>
    obtain ⟨⟨-, delimiter⟩, plain⟩ := List.forall_mem_cons.mp plain
    simp [words, delimiter, ih plain]

omit spaces in
theorem words_single (single : Single prd token) : words prd token [] = ([token], []) := by
  obtain ⟨d, rfl, delimiter, space⟩ := single
  simp [words, delimiter, space]

omit spaces in
theorem words_last_plain (plain : Plain prd word) (unquoted : doubleL ∉ piece) :
    Plain prd (words prd piece word).2 := by
  fun_induction words prd piece word with
  | case1 word => exact plain
  | case2 c piece word delimiter ih =>
    exact ih plain_nil (fun member => unquoted (List.mem_cons_of_mem _ member))
  | case3 c piece word delimiter ih =>
    rw [List.mem_cons, not_or] at unquoted
    apply ih
    · exact plain.append (plain_singleton (Ne.symm unquoted.1) (by simpa using delimiter))
    · exact unquoted.2

omit spaces in
/-- A token is a word without delimiters, or one delimiter. -/
theorem words_tokens (plain : Plain prd word) (unquoted : doubleL ∉ piece)
    (member : token ∈ (words prd piece word).1) :
    token ≠ [] ∧ Plain prd token ∨ Single prd token := by
  fun_induction words prd piece word with
  | case1 word => cases member
  | case2 c piece word delimiter ih =>
    rw [List.mem_append, List.mem_append] at member
    obtain (ended | alone) | later := member
    · unfold flush at ended
      split at ended
      · cases ended
      · rename_i some
        obtain rfl := List.mem_singleton.mp ended
        exact .inl ⟨some, plain⟩
    · split at alone
      · cases alone
      · rename_i space
        exact .inr ⟨c, List.mem_singleton.mp alone, delimiter, by simpa using space⟩
    · exact ih plain_nil (fun inside => unquoted (List.mem_cons_of_mem _ inside)) later
  | case3 c piece word delimiter ih =>
    rw [List.mem_cons, not_or] at unquoted
    refine ih ?_ unquoted.2 member
    exact plain.append (plain_singleton (Ne.symm unquoted.1) (by simpa using delimiter))

/-- Only the white space of a piece is in no word. -/
theorem words_flatten (piece word : List Char) :
    (words prd piece word).1.flatten ++ (words prd piece word).2 =
      word ++ piece.filter (!isspace ·) := by
  have flush_flatten (word : List Char) : (flush word).flatten = word := by
    by_cases empty : word = [] <;> simp [flush, empty]
  fun_induction words prd piece word with
  | case1 word => simp
  | case2 c piece word delimiter ih =>
    by_cases space : isspace c = true <;> simp_all
  | case3 c piece word delimiter ih =>
    have space : isspace c = false := by simpa using mt (spaces c) delimiter
    simp [ih, space]

theorem mem_piece_of_mem_words {c : Char} (member : token ∈ (words prd piece []).1)
    (inside : c ∈ token) : c ∈ piece := by
  have kept : c ∈ (words prd piece []).1.flatten ++ (words prd piece []).2 :=
    List.mem_append_left _ (List.mem_flatten_of_mem member inside)
  rw [words_flatten spaces, List.nil_append] at kept
  exact List.mem_of_mem_filter kept

omit spaces in
/-- No word is open where a piece ends in a delimiter. -/
theorem words_last_eq_nil : (words prd piece []).2 = [] ↔ ∀ c ∈ piece.getLast?, prd c = true := by
  induction piece using List.reverseRecOn with
  | nil => simp [words]
  | append_singleton piece c ih =>
    by_cases delimiter : prd c = true <;> simp [words_append, words, delimiter]

end Words

end Crs.Parsing
