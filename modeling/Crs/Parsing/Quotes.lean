import Crs.Parsing.Words

/-!
# Quoted stretches

A text is cut at its quotes. The overload for a string leaves a closing quote in the string,
where the next scan takes it for an opening one: behind the first quote each piece becomes a
token. The overload for a stream takes the pieces in turn as quoted and unquoted ones. So the
two agree only on texts whose unquoted pieces are single tokens.
-/

namespace Crs.Parsing

open Foundation

variable (prd : Char → Bool)

/-- The tokens that the stream gives for the pieces of a text, the first one unquoted. -/
def streamTokens : List (List Char) → Option (List (List Char))
  | [] => none
  | [last] => some ((words prd last []).1 ++ flush (words prd last []).2)
  | piece :: quoted :: rest =>
      (streamTokens rest).map fun tokens =>
        (words prd piece []).1 ++ ((words prd piece []).2 ++ quoted) :: tokens

/-- The stretches between an opening and a closing quote. -/
def quoted : List (List Char) → List (List Char)
  | _ :: stretch :: rest => stretch :: quoted rest
  | _ => []

/-- Both overloads give the same tokens; no token contains a quote, and each quoted stretch
stands in one. -/
def Agree (s : List Char) : Prop :=
  ∃ tokens, Takes (fun s => some (predicateScanString prd s)) s tokens ∧
    (∀ c, isspace c = true → Takes (predicateScanStream prd) (s ++ [c]) tokens) ∧
    (∀ token ∈ tokens, doubleL ∉ token) ∧
    ∀ stretch ∈ quoted (s.splitOn doubleL), ∃ token ∈ tokens, stretch <:+: token

/-- Behind a closing quote there is one delimiter that is no white space and the next opening
quote, or one token and the end. -/
def Spaced : List (List Char) → Prop
  | [] => False
  | [last] => last ≠ [] ∧ Plain prd last ∨ Single prd last
  | gap :: _ :: rest => Single prd gap ∧ Spaced rest

/-- White space is the only delimiter in front of the first quote, and that quote begins a
token. -/
def Separated : List (List Char) → Prop
  | [] => True
  | first :: rest =>
      (∀ c ∈ first, prd c = true → isspace c = true) ∧
        match rest with
        | [] => True
        | _ :: rest => (∀ c ∈ first.getLast?, isspace c = true) ∧ Spaced prd rest

section String

variable {prd} {word stretch tail : List Char} {pieces tokens : List (List Char)}

theorem not_blank_of_quote : ¬(doubleL :: tail).all isspace := by
  simp [doubleL, isspace]

theorem dropWhile_quote : (doubleL :: tail).dropWhile isspace = doubleL :: tail := by
  simp [doubleL, isspace]

/-- A quoted token ends at the next quote, or at the end. -/
theorem scanString_stretch (inner : doubleL ∉ stretch) (idxFrom i : ℕ) :
    scanString prd (stretch ++ Text.behind doubleL pieces) idxFrom i true =
      (idxFrom, i + stretch.length) := by
  rw [scanString_quoted inner]
  cases pieces <;> simp [scanString]

theorem predicateScanString_quote (inner : doubleL ∉ stretch) :
    predicateScanString prd (Text.behind doubleL (stretch :: pieces)) =
      (stretch, Text.behind doubleL pieces) := by
  rw [predicateScanString_eq, Text.behind_cons, dropWhile_quote]
  simp [scanString, scanString_stretch inner, Nat.add_comm 1]

/-- Behind the first quote, each piece is a token. -/
theorem takes_string_quoted (inner : ∀ piece ∈ pieces, doubleL ∉ piece) :
    Takes (fun s => some (predicateScanString prd s)) (Text.behind doubleL pieces) tokens ↔
      tokens = pieces := by
  induction pieces generalizing tokens with
  | nil => simpa using takes_blank rfl
  | cons stretch pieces ih =>
    obtain ⟨now, inner⟩ := List.forall_mem_cons.mp inner
    have more : ¬(Text.behind doubleL (stretch :: pieces)).all isspace := by
      rw [Text.behind_cons]
      exact not_blank_of_quote
    rw [takes_token more (congrArg some (predicateScanString_quote now))]
    simp [ih inner]

variable (spaces : ∀ c, isspace c = true → prd c = true)
include spaces

/-- The last word of a string. -/
theorem takes_string_last (plain : Plain prd word) :
    Takes (fun s => some (predicateScanString prd s)) word tokens ↔ tokens = flush word := by
  by_cases empty : word = []
  · subst empty
    exact takes_blank rfl
  · have more : ¬word.all isspace := by
      rw [← List.append_nil word]
      exact plain.not_blank spaces empty
    have scanned : predicateScanString prd word = (word, []) := by
      have ends : scanString prd (word ++ []) 0 0 false = (0, word.length) := by
        rw [scanString_plain plain]
        simp [scanString]
      have start : (word ++ []).dropWhile isspace = word ++ [] :=
        dropWhile_plain spaces plain empty
      rw [List.append_nil] at ends start
      rw [predicateScanString_eq, start]
      simp [ends]
    have ended (others : List (List Char)) :
        Takes (fun s => some (predicateScanString prd s)) [] others ↔ others = [] := takes_blank rfl
    rw [takes_token more (congrArg some scanned), flush_of_ne_nil empty]
    simp [ended]

/-- A quote inside of a word moves the begin of the token and stays in it. -/
theorem quote_mem_of_takes_string (nonempty : word ≠ []) (plain : Plain prd word)
    (inner : doubleL ∉ stretch) (takes : Takes (fun s => some (predicateScanString prd s))
      (word ++ Text.behind doubleL (stretch :: pieces)) tokens) :
    ∃ token ∈ tokens, doubleL ∈ token := by
  obtain ⟨c, word, rfl⟩ := List.exists_cons_of_ne_nil nonempty
  have scanned : predicateScanString prd (c :: word ++ Text.behind doubleL (stretch :: pieces)) =
      (word ++ doubleL :: stretch, Text.behind doubleL pieces) := by
    rw [predicateScanString_eq, dropWhile_plain spaces plain nonempty]
    simp only [scanString_plain plain, Text.behind_cons, scanString, if_true]
    rw [if_neg (by simp), scanString_stretch inner]
    have cut : c :: word ++ doubleL :: (stretch ++ Text.behind doubleL pieces) =
        c :: (word ++ doubleL :: stretch) ++ Text.behind doubleL pieces := by simp
    have length : 0 + (c :: word).length + 1 + stretch.length =
        (c :: (word ++ doubleL :: stretch)).length := by
      simp
      omega
    rw [cut, length]
    exact Prod.ext List.take_left List.drop_left
  rw [takes_token (plain.not_blank spaces nonempty) (congrArg some scanned)] at takes
  obtain ⟨others, rfl, -⟩ := takes
  exact ⟨_, List.mem_cons_self, by simp⟩

/-- A delimiter that is no white space is never taken from the string. -/
theorem not_takes_string_single {d : Char} (delimiter : prd d = true) (space : isspace d = false)
    (quote : d ≠ doubleL) (plain : Plain prd word) :
    ¬Takes (fun s => some (predicateScanString prd s)) (word ++ d :: tail) tokens := by
  have never (tokens : List (List Char)) :
      ¬Takes (fun s => some (predicateScanString prd s)) (d :: tail) tokens := by
    refine not_takes_of_same (by simp [space]) (?_ : _ = some ([], _))
    simp [predicateScanString_eq, space, scanString, delimiter, quote]
  by_cases empty : word = []
  · subst empty
    exact never tokens
  · rw [takes_token (plain.not_blank spaces empty)
      ((scans_string spaces).word empty plain quote delimiter)]
    rintro ⟨others, -, takes⟩
    exact never others takes

theorem takes_string_piece {piece : List Char} (unquoted : doubleL ∉ piece)
    (white : ∀ c ∈ piece, prd c = true → isspace c = true) :
    Takes (fun s => some (predicateScanString prd s)) (piece ++ tail) tokens ↔ ∃ others,
      tokens = (words prd piece []).1 ++ others ∧
        Takes (fun s => some (predicateScanString prd s)) ((words prd piece []).2 ++ tail) others :=
  (scans_string spaces).takes_piece spaces unquoted
    (fun c member delimiter => .inl (white c member delimiter)) plain_nil

/-- White space is the only delimiter in front of the first quote. -/
theorem white_of_takes_string {piece : List Char} (unquoted : doubleL ∉ piece)
    (takes : Takes (fun s => some (predicateScanString prd s)) (piece ++ tail) tokens) :
    ∀ c ∈ piece, prd c = true → isspace c = true := by
  by_contra other
  let white (c : Char) : Bool := !prd c || isspace c
  have some : piece.dropWhile white ≠ [] := by
    rw [Ne, List.dropWhile_eq_nil_iff]
    simpa [white, or_iff_not_imp_left] using other
  obtain ⟨d, behind, cut⟩ := List.exists_cons_of_ne_nil some
  have first : white d = false := by
    simpa [cut] using List.head_dropWhile_not white some
  have whole : piece = piece.takeWhile white ++ d :: behind := by
    rw [← cut, List.takeWhile_append_dropWhile]
  have before (c : Char) (member : c ∈ piece.takeWhile white) (delimiter : prd c = true) :
      isspace c = true := by
    simpa [white, delimiter] using List.mem_takeWhile_imp member
  rw [whole, List.mem_append, List.mem_cons, not_or, not_or] at unquoted
  rw [whole, List.append_assoc, takes_string_piece spaces unquoted.1 before] at takes
  obtain ⟨others, -, takes⟩ := takes
  simp only [white, Bool.or_eq_false_iff, Bool.not_eq_false'] at first
  refine not_takes_string_single spaces first.1 first.2 ?_ ?_ takes
  · exact Ne.symm unquoted.2.1
  · exact words_last_plain plain_nil unquoted.1

end String

section Stream

variable {prd} {word stretch tail : List Char} {tokens : List (List Char)}
  (spaces : ∀ c, isspace c = true → prd c = true)
include spaces

theorem dropWhile_word_quote (plain : Plain prd word) :
    (word ++ doubleL :: tail).dropWhile isspace = word ++ doubleL :: tail := by
  by_cases empty : word = []
  · subst empty
    exact dropWhile_quote
  · exact dropWhile_plain spaces plain empty

theorem not_blank_word_quote (plain : Plain prd word) :
    ¬(word ++ doubleL :: tail).all isspace := by
  by_cases empty : word = []
  · subst empty
    exact not_blank_of_quote
  · exact plain.not_blank spaces empty

/-- A quoted stretch ends the open word. -/
theorem predicateScanStream_quote (plain : Plain prd word) (inner : doubleL ∉ stretch) :
    predicateScanStream prd (word ++ doubleL :: (stretch ++ doubleL :: tail)) =
      some (word ++ stretch, tail) := by
  rw [predicateScanStream, dropWhile_word_quote spaces plain, scanStream_plain plain]
  simp [scanStream, scanStream_quoted inner]

/-- Without a closing quote the scan does not return. -/
theorem predicateScanStream_unclosed (plain : Plain prd word) (inner : doubleL ∉ stretch) :
    predicateScanStream prd (word ++ doubleL :: stretch) = none := by
  rw [predicateScanStream, dropWhile_word_quote spaces plain, scanStream_plain plain,
    ← List.append_nil stretch]
  simp only [scanStream, if_true]
  rw [if_neg (by simp), scanStream_quoted inner]
  simp [scanStream]

/-- The white space behind the text ends the last word. -/
theorem takes_stream_last (plain : Plain prd word) {c : Char} (space : isspace c = true) :
    Takes (predicateScanStream prd) (word ++ [c]) tokens ↔ tokens = flush word := by
  have ended (others : List (List Char)) :
      Takes (predicateScanStream prd) [c] others ↔ others = [] := takes_blank (by simp [space])
  by_cases empty : word = []
  · subst empty
    exact ended tokens
  · have quote : c ≠ doubleL := by
      rintro rfl
      cases space
    rw [takes_token (plain.not_blank spaces empty)
      ((scans_stream spaces).word empty plain quote (spaces c space)), flush_of_ne_nil empty]
    simp [ended]

theorem takes_stream_piece {piece : List Char} (unquoted : doubleL ∉ piece) :
    Takes (predicateScanStream prd) (piece ++ tail) tokens ↔ ∃ others,
      tokens = (words prd piece []).1 ++ others ∧
        Takes (predicateScanStream prd) ((words prd piece []).2 ++ tail) others := by
  refine (scans_stream spaces).takes_piece spaces unquoted (fun d member delimiter => ?_) plain_nil
  have quote : d ≠ doubleL := fun same => unquoted (same ▸ member)
  by_cases space : isspace d = true
  · exact .inl space
  · right
    intro s
    simp [predicateScanStream, space, scanStream, delimiter, quote]

/-- The stream gives exactly the tokens of the pieces. -/
theorem takes_stream {pieces : List (List Char)} (inner : ∀ piece ∈ pieces, doubleL ∉ piece)
    {piece : List Char} (unquoted : doubleL ∉ piece) {c : Char} (space : isspace c = true) :
    Takes (predicateScanStream prd) (piece ++ Text.behind doubleL pieces ++ [c]) tokens ↔
      streamTokens prd (piece :: pieces) = some tokens := by
  induction pieces using List.twoStepInduction generalizing piece tokens with
  | nil =>
    have plain : Plain prd (words prd piece []).2 := words_last_plain plain_nil unquoted
    rw [Text.behind_nil, List.append_nil, takes_stream_piece spaces unquoted]
    simp [takes_stream_last spaces plain space, streamTokens, eq_comm]
  | singleton stretch =>
    have plain : Plain prd (words prd piece []).2 := words_last_plain plain_nil unquoted
    have unclosed : doubleL ∉ stretch ++ [c] := by
      have other : doubleL ≠ c := by
        rintro rfl
        cases space
      simpa [other] using inner
    have never (others : List (List Char)) : ¬Takes (predicateScanStream prd)
        ((words prd piece []).2 ++ doubleL :: (stretch ++ [c])) others :=
      not_takes_of_none (not_blank_word_quote spaces plain)
        (predicateScanStream_unclosed spaces plain unclosed)
    rw [List.append_assoc, takes_stream_piece spaces unquoted]
    simp [never, streamTokens]
  | cons_cons stretch next rest ih _ =>
    have plain : Plain prd (words prd piece []).2 := words_last_plain plain_nil unquoted
    obtain ⟨now, inner⟩ := List.forall_mem_cons.mp inner
    obtain ⟨unquoted', inner⟩ := List.forall_mem_cons.mp inner
    have step (others : List (List Char)) : Takes (predicateScanStream prd)
        ((words prd piece []).2 ++ doubleL :: (stretch ++ doubleL ::
          (next ++ Text.behind doubleL rest ++ [c]))) others ↔
        ∃ last, others = ((words prd piece []).2 ++ stretch) :: last ∧
          streamTokens prd (next :: rest) = some last := by
      rw [takes_token (not_blank_word_quote spaces plain)
        (predicateScanStream_quote spaces plain now)]
      simp only [ih inner unquoted']
    have cut : piece ++ Text.behind doubleL (stretch :: next :: rest) ++ [c] =
        piece ++ doubleL :: (stretch ++ doubleL :: (next ++ Text.behind doubleL rest ++ [c])) := by
      simp
    rw [cut, takes_stream_piece spaces unquoted, streamTokens, Option.map_eq_some_iff]
    simp only [step]
    constructor
    · rintro ⟨_, rfl, last, rfl, others⟩
      exact ⟨last, others, rfl⟩
    · rintro ⟨last, others, rfl⟩
      exact ⟨_, rfl, last, rfl, others⟩

end Stream

section Agreement

variable {prd} {pieces tokens : List (List Char)}

/-- The stream has no more characters in its tokens and no more empty tokens than its pieces. -/
theorem streamTokens_bounds (spaces : ∀ c, isspace c = true → prd c = true)
    (inner : ∀ piece ∈ pieces, doubleL ∉ piece) (result : streamTokens prd pieces = some tokens) :
    tokens.flatten.length ≤ pieces.flatten.length ∧ tokens.count [] ≤ pieces.count [] := by
  have size (piece : List Char) : (words prd piece []).1.flatten.length +
      (words prd piece []).2.length ≤ piece.length := by
    rw [← List.length_append, words_flatten spaces]
    simpa using List.length_filter_le _ piece
  have complete {piece : List Char} (unquoted : doubleL ∉ piece) :
      (words prd piece []).1.count [] = 0 := by
    rw [List.count_eq_zero]
    intro member
    obtain ⟨some, -⟩ | ⟨d, single, -⟩ := words_tokens plain_nil unquoted member
    · exact some rfl
    · cases single
  fun_induction streamTokens prd pieces generalizing tokens with
  | case1 => cases result
  | case2 last =>
    obtain rfl := Option.some.inj result
    have := size last
    have := complete (inner last List.mem_cons_self)
    by_cases empty : (words prd last []).2 = [] <;> simp_all [flush]
  | case3 piece stretch rest ih =>
    obtain ⟨unquoted, inner⟩ := List.forall_mem_cons.mp inner
    obtain ⟨-, inner⟩ := List.forall_mem_cons.mp inner
    obtain ⟨others, behind, rfl⟩ := Option.map_eq_some_iff.mp result
    obtain ⟨length, count⟩ := ih inner behind
    have short := size piece
    have none := complete unquoted
    constructor
    · simp only [List.flatten_append, List.flatten_cons, List.length_append] at short ⊢
      omega
    · simp only [List.count_append, List.count_cons, none]
      by_cases empty : stretch = []
      · simp only [empty, beq_self_eq_true, if_true]
        split <;> split <;> omega
      · have token : (words prd piece []).2 ++ stretch ≠ [] := by simp [empty]
        simp only [beq_iff_eq, token, empty, if_false]
        split <;> omega

/-- The tokens of a stream are its pieces only from the first one on. -/
theorem eq_nil_of_streamTokens {more : List (List Char)}
    (spaces : ∀ c, isspace c = true → prd c = true) (inner : ∀ piece ∈ pieces, doubleL ∉ piece)
    (result : streamTokens prd pieces = some (more ++ pieces)) : more = [] := by
  obtain ⟨length, count⟩ := streamTokens_bounds spaces inner result
  rw [List.flatten_append, List.length_append] at length
  rw [List.count_append] at count
  have empty : ∀ token ∈ more, [] = token := by
    have none : more.flatten = [] := List.eq_nil_of_length_eq_zero (by omega)
    exact fun token member => (List.flatten_eq_nil_iff.mp none token member).symm
  have all : more.count [] = more.length := List.count_eq_length.mpr empty
  exact List.eq_nil_of_length_eq_zero (by omega)

/-- The last piece is its own only token. -/
theorem words_flush_iff {last : List Char} (unquoted : doubleL ∉ last) :
    (words prd last []).1 ++ flush (words prd last []).2 = [last] ↔
      last ≠ [] ∧ Plain prd last ∨ Single prd last := by
  constructor
  · intro alone
    have member : last ∈ (words prd last []).1 ++ flush (words prd last []).2 := by simp [alone]
    obtain ended | still := List.mem_append.mp member
    · exact words_tokens plain_nil unquoted ended
    · unfold flush at still
      split at still
      · cases still
      · rename_i some
        rw [List.mem_singleton] at still
        rw [still]
        exact .inl ⟨some, words_last_plain plain_nil unquoted⟩
  · rintro (⟨some, plain⟩ | single)
    · simp [words_plain plain, flush, some]
    · simp [words_single single]

/-- A piece between two quoted ones is the only token that ends in it. -/
theorem words_gap_iff {gap : List Char} (unquoted : doubleL ∉ gap) :
    words prd gap [] = ([gap], []) ↔ Single prd gap := by
  constructor
  · intro alone
    obtain ⟨-, plain⟩ | single :=
      @words_tokens prd gap [] gap plain_nil unquoted (by simp [alone])
    · simp [words_plain plain] at alone
    · exact single
  · exact words_single

/-- The stream takes the pieces behind a closing quote as they are only if each unquoted one is
a token. -/
theorem streamTokens_eq_iff (spaces : ∀ c, isspace c = true → prd c = true)
    (inner : ∀ piece ∈ pieces, doubleL ∉ piece) :
    streamTokens prd pieces = some pieces ↔ Spaced prd pieces := by
  fun_induction Spaced prd pieces with
  | case1 => simp [streamTokens]
  | case2 last =>
    rw [streamTokens, Option.some.injEq]
    exact words_flush_iff (inner last List.mem_cons_self)
  | case3 gap stretch rest ih =>
    obtain ⟨unquoted, inner⟩ := List.forall_mem_cons.mp inner
    obtain ⟨now, inner⟩ := List.forall_mem_cons.mp inner
    rw [← ih inner, ← words_gap_iff unquoted, streamTokens, Option.map_eq_some_iff]
    constructor
    · rintro ⟨others, behind, same⟩
      -- No token, one token or more tokens have ended in the gap.
      match ended : (words prd gap []).1 with
      | [] =>
        rw [ended] at same
        obtain ⟨-, rfl⟩ := List.cons.inj same
        have empty : [stretch] = [] := eq_nil_of_streamTokens spaces inner behind
        cases empty
      | [token] =>
        rw [ended] at same
        simp only [List.singleton_append, List.cons.injEq, List.append_left_eq_self] at same
        obtain ⟨rfl, last, rfl⟩ := same
        exact ⟨Prod.ext ended last, behind⟩
      | token :: next :: more =>
        rw [ended] at same
        obtain ⟨rfl, -⟩ := List.cons.inj same
        have size := congrArg List.length (words_flatten spaces token [])
        have short := List.length_filter_le (!isspace ·) token
        simp only [ended, List.flatten_cons, List.length_append, List.nil_append] at size
        have none : next = [] := List.eq_nil_of_length_eq_zero (by omega)
        obtain ⟨some, -⟩ | ⟨d, single, -⟩ :=
          @words_tokens prd token [] next plain_nil unquoted (by simp [ended])
        · exact absurd none some
        · simp [none] at single
    · rintro ⟨alone, behind⟩
      exact ⟨rest, behind, by simp [alone]⟩

end Agreement

theorem mem_of_mem_quoted {first stretch : List Char}
    (member : stretch ∈ quoted (first :: pieces)) : stretch ∈ pieces := by
  induction pieces using List.twoStepInduction generalizing first with
  | nil => cases member
  | singleton only => simpa [quoted] using member
  | cons_cons now next pieces ih _ =>
    obtain rfl | later := List.mem_cons.mp member
    · exact List.mem_cons_self
    · exact List.mem_cons_of_mem _ (List.mem_cons_of_mem _ (ih later))

section Claim

variable {prd} {s : List Char}

theorem unquoted_pieces {first : List Char} {rest : List (List Char)}
    (pieces : s.splitOn doubleL = first :: rest) :
    doubleL ∉ first ∧ ∀ piece ∈ rest, doubleL ∉ piece := by
  have inner : ∀ piece ∈ first :: rest, doubleL ∉ piece := by
    rw [← pieces]
    exact fun piece => Text.not_mem_of_mem_splitOn
  exact List.forall_mem_cons.mp inner

/-- Where the overloads agree, the string has reached the first quote at the begin of a token,
and the stream has taken the pieces behind it as they are. -/
theorem separated_of_agree {first : List Char} {rest : List (List Char)}
    (spaces : ∀ c, isspace c = true → prd c = true) (pieces : s.splitOn doubleL = first :: rest)
    (agree : Agree prd s) : Separated prd (first :: rest) := by
  obtain ⟨unquoted, inner⟩ := unquoted_pieces pieces
  have plain : Plain prd (words prd first []).2 := words_last_plain plain_nil unquoted
  rw [Agree, pieces, Text.eq_append_behind pieces] at agree
  obtain ⟨tokens, string, stream, quotes, -⟩ := agree
  have white := white_of_takes_string spaces unquoted string
  refine ⟨white, ?_⟩
  match rest with
  | [] => trivial
  | stretch :: rest =>
    obtain ⟨now, inner'⟩ := List.forall_mem_cons.mp inner
    rw [takes_string_piece spaces unquoted white] at string
    obtain ⟨others, rfl, string⟩ := string
    have begins : (words prd first []).2 = [] := by
      by_contra some
      obtain ⟨token, member, quote⟩ := quote_mem_of_takes_string spaces some plain now string
      exact quotes token (List.mem_append_right _ member) quote
    rw [begins, List.nil_append, takes_string_quoted inner] at string
    subst string
    have stream := stream ' ' rfl
    rw [takes_stream spaces inner unquoted rfl, streamTokens, Option.map_eq_some_iff] at stream
    obtain ⟨others, stream, same⟩ := stream
    obtain rfl : others = rest := by simpa [begins] using same
    refine ⟨fun c last => ?_, (streamTokens_eq_iff spaces inner').mp stream⟩
    exact white c (List.mem_of_getLast? last) (words_last_eq_nil.mp begins c last)

theorem agree_of_separated {first : List Char} {rest : List (List Char)}
    (spaces : ∀ c, isspace c = true → prd c = true) (pieces : s.splitOn doubleL = first :: rest)
    (separated : Separated prd (first :: rest)) : Agree prd s := by
  obtain ⟨unquoted, inner⟩ := unquoted_pieces pieces
  have plain : Plain prd (words prd first []).2 := words_last_plain plain_nil unquoted
  rw [Agree, pieces, Text.eq_append_behind pieces]
  obtain ⟨white, separated⟩ := separated
  match rest with
  | [] =>
    refine ⟨(words prd first []).1 ++ flush (words prd first []).2, ?_, fun c space => ?_, ?_, ?_⟩
    · rw [takes_string_piece spaces unquoted white, Text.behind_nil, List.append_nil]
      exact ⟨_, rfl, (takes_string_last spaces plain).mpr rfl⟩
    · rw [takes_stream spaces inner unquoted space, streamTokens]
    · intro token member quote
      obtain ended | still := List.mem_append.mp member
      · exact unquoted (mem_piece_of_mem_words spaces ended quote)
      · unfold flush at still
        split at still
        · cases still
        · obtain rfl := List.mem_singleton.mp still
          exact (plain doubleL quote).1 rfl
    · simp [quoted]
  | stretch :: rest =>
    obtain ⟨ends, spaced⟩ := separated
    obtain ⟨now, inner'⟩ := List.forall_mem_cons.mp inner
    have begins : (words prd first []).2 = [] :=
      words_last_eq_nil.mpr fun c last => spaces c (ends c last)
    refine ⟨(words prd first []).1 ++ stretch :: rest, ?_, fun c space => ?_, ?_, ?_⟩
    · rw [takes_string_piece spaces unquoted white, begins, List.nil_append]
      exact ⟨_, rfl, (takes_string_quoted inner).mpr rfl⟩
    · rw [takes_stream spaces inner unquoted space, streamTokens,
        (streamTokens_eq_iff spaces inner').mpr spaced, begins]
      rfl
    · intro token member quote
      obtain ended | piece := List.mem_append.mp member
      · exact unquoted (mem_piece_of_mem_words spaces ended quote)
      · exact inner token piece quote
    · intro token member
      have piece := mem_of_mem_quoted member
      exact ⟨token, List.mem_append_right _ piece, List.infix_rfl⟩

/-- The two overloads agree on a text exactly if its unquoted pieces are single tokens. -/
theorem agree_iff (spaces : ∀ c, isspace c = true → prd c = true) :
    Agree prd s ↔ Separated prd (s.splitOn doubleL) := by
  obtain ⟨first, rest, pieces⟩ := List.exists_cons_of_ne_nil (List.splitOn_ne_nil doubleL s)
  rw [pieces]
  constructor
  · exact separated_of_agree spaces pieces
  · exact agree_of_separated spaces pieces

/-- Two quoted stretches with a comma between them, and a word. -/
theorem agree_stretches :
    Agree (fun c => isspace c || c = ',') ['"', 'a', ' ', 'b', '"', ',', '"', ' ', '"', 'c'] := by
  rw [agree_iff fun c space => by simp [space]]
  refine ⟨by simp, by simp, ⟨',', rfl, rfl, rfl⟩, .inl ⟨by simp, ?_⟩⟩
  rintro c (_ | ⟨_, ⟨⟩⟩)
  exact ⟨by decide, rfl⟩

/-- The string keeps the closing quote, and the blank behind it comes into the next token. -/
theorem not_agree_closing : ¬Agree isspace ['"', 'a', ' ', 'b', '"', ' ', 'c'] := by
  rintro ⟨tokens, string, stream, -⟩
  have left : tokens = [['a', ' ', 'b'], [' ', 'c']] :=
    (takes_string_quoted (by decide)).mp string
  have right : streamTokens isspace [[], ['a', ' ', 'b'], [' ', 'c']] = some tokens :=
    (takes_stream (fun _ space => space) (by decide) (by decide) rfl).mp (stream ' ' rfl)
  rw [left] at right
  exact absurd right (by decide)

end Claim

end Crs.Parsing
