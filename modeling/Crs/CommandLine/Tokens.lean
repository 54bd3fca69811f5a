import Crs.CommandLine.Reader
import Crs.Parsing.Endings

/-!
# The tokens of a script

`pprocess` takes tokens from a script until it gets an empty one. `scan_token` does not return
where the text ends, so the loop ends at an empty quotation and nowhere else. What stands in
front of it are the tokens of the script.
-/

namespace Crs.CommandLine

open Foundation Parsing

/-- `scan_token`. -/
def scanToken : List Char → Option (Token × List Char) := predicateScanStream isspace

/-- What `pprocess` does with a token; `nested` is its call for another script. -/
def useToken (nested : Token → List Token → Option (List Token)) (script : List Token)
    (oneToken : Token) : Option (List Token) :=
  if isScript oneToken then
    if isScript oneToken.tail then some (script ++ [oneToken.tail])
    else nested oneToken.tail script
  else some (script ++ [oneToken])

/-- The loop of `pprocess`, with a bound for its rounds. -/
def pprocessLoop (nested : Token → List Token → Option (List Token)) :
    (rounds : ℕ) → List Char → List Token → Option (List Token)
  | 0, _, _ => none
  | rounds + 1, subscriptFile, script =>
      (scanToken subscriptFile).bind fun (oneToken, subscriptFile) =>
        if oneToken = [] then some script
        else (useToken nested script oneToken).bind (pprocessLoop nested rounds subscriptFile)

/-- The tokens in front of the first empty one. -/
def scriptTokens : (rounds : ℕ) → List Char → Option (List Token)
  | 0, _ => none
  | rounds + 1, is =>
      (scanToken is).bind fun (oneToken, is) =>
        if oneToken = [] then some []
        else (scriptTokens rounds is).map (oneToken :: ·)

/-- Where a text is read: at the begin of a token, in a word, or in a quotation. -/
inductive Place where
  | start
  | word
  | quoted

/-- An empty quotation stands outside of the quotations, at the begin of the text, behind white
space or behind a closing quote. -/
def emptyQuotation : Place → List Char → Bool
  | _, [] => false
  | .quoted, c :: rest => emptyQuotation (if c = doubleL then .start else .quoted) rest
  | .word, c :: rest =>
      emptyQuotation (if c = doubleL then .quoted else if isspace c then .start else .word) rest
  | .start, c :: rest =>
      if c = doubleL then rest.head? == some doubleL || emptyQuotation .quoted rest
      else emptyQuotation (if isspace c then .start else .word) rest

section Places

variable {spaces word inner rest : List Char}

theorem emptyQuotation_spaces (blank : spaces.all isspace = true) :
    emptyQuotation .start (spaces ++ rest) = emptyQuotation .start rest := by
  induction spaces with
  | nil => rfl
  | cons c spaces ih =>
    obtain ⟨space, blank⟩ := by simpa using blank
    have other : c ≠ doubleL := by
      rintro rfl
      cases space
    rw [List.cons_append, emptyQuotation, if_neg other, if_pos space, ih (by simpa using blank)]

theorem emptyQuotation_inner (open_ : doubleL ∉ inner) :
    emptyQuotation .quoted (inner ++ rest) = emptyQuotation .quoted rest := by
  induction inner with
  | nil => rfl
  | cons c inner ih =>
    rw [List.mem_cons, not_or] at open_
    rw [List.cons_append, emptyQuotation, if_neg (Ne.symm open_.1), ih open_.2]

theorem emptyQuotation_word (plain : Plain isspace word) (some : word ≠ []) :
    emptyQuotation .start (word ++ rest) = emptyQuotation .word rest := by
  have inside (word : List Char) (plain : Plain isspace word) :
      emptyQuotation .word (word ++ rest) = emptyQuotation .word rest := by
    induction word with
    | nil => rfl
    | cons c word ih =>
      obtain ⟨⟨quote, space⟩, plain⟩ := List.forall_mem_cons.mp plain
      rw [List.cons_append, emptyQuotation, if_neg quote, if_neg (by simp [space]), ih plain]
  obtain ⟨c, word, rfl⟩ := List.exists_cons_of_ne_nil some
  obtain ⟨⟨quote, space⟩, plain⟩ := List.forall_mem_cons.mp plain
  rw [List.cons_append, emptyQuotation, if_neg quote, if_neg (by simp [space]), inside word plain]

end Places

section Tokens

variable {is rest : List Char} {token : Token}

/-- A text is white space, a plain word, and what stands behind it. -/
theorem exists_cut (is : List Char) : ∃ spaces word rest, is = spaces ++ (word ++ rest) ∧
    spaces.all isspace = true ∧ Plain isspace word ∧
      (∀ c ∈ rest.head?, c = doubleL ∨ (isspace c = true ∧ word ≠ [])) ∧
      scanToken is = scanStream isspace rest false word := by
  refine ⟨is.takeWhile isspace, (is.dropWhile isspace).takeWhile (goesOn isspace),
    (is.dropWhile isspace).dropWhile (goesOn isspace), ?_, List.all_takeWhile, ?_, ?_, ?_⟩
  · rw [List.takeWhile_append_dropWhile, List.takeWhile_append_dropWhile]
  · intro c member
    simpa [goesOn] using List.mem_takeWhile_imp member
  · intro c first
    have stops := List.head?_dropWhile_not (goesOn isspace) (is.dropWhile isspace)
    have begins := List.head?_dropWhile_not isspace is
    have whole := List.takeWhile_append_dropWhile (p := goesOn isspace) (l := is.dropWhile isspace)
    rw [Option.mem_def.mp first] at stops
    by_cases quote : c = doubleL
    · exact .inl quote
    · have space : isspace c = true := by simpa [goesOn, quote] using stops
      refine .inr ⟨space, fun none => ?_⟩
      rw [none, List.nil_append] at whole
      rw [← whole, Option.mem_def.mp first] at begins
      simp [space] at begins
  · exact scanStream_outer _

theorem emptyQuotation_plain {word : List Char} (plain : Plain isspace word) :
    emptyQuotation .start word = false := by
  by_cases none : word = []
  · rw [none]
    rfl
  · have alone : emptyQuotation .start (word ++ []) = emptyQuotation .word [] :=
      emptyQuotation_word plain none
    rw [List.append_nil] at alone
    rw [alone]
    rfl

/-- Behind a word, a quote begins a quotation that is not empty. -/
theorem emptyQuotation_quote {word more : List Char} (plain : Plain isspace word)
    (other : word ≠ [] ∨ more.head? ≠ some doubleL) :
    emptyQuotation .start (word ++ doubleL :: more) = emptyQuotation .quoted more := by
  by_cases none : word = []
  · have first : more.head? ≠ some doubleL := other.resolve_left (not_not.mpr none)
    simp [none, emptyQuotation, first]
  · rw [emptyQuotation_word plain none, emptyQuotation, if_pos rfl]

/-- A scan in front of a quote. -/
theorem scanToken_quote {word more : List Char} (plain : Plain isspace word)
    (scanned : scanToken is = scanStream isspace more true word)
    (same : emptyQuotation .start is = emptyQuotation .start (word ++ doubleL :: more))
    (shorter : more.length < is.length) :
    (scanToken is = none ∧ emptyQuotation .start is = false) ∨
      (∃ rest, scanToken is = some ([], rest) ∧ emptyQuotation .start is = true) ∨
      ∃ token rest, scanToken is = some (token, rest) ∧ token ≠ [] ∧ rest.length < is.length ∧
        emptyQuotation .start is = emptyQuotation .start rest := by
  by_cases closed : doubleL ∈ more
  · obtain ⟨inner, behind, rfl, open_⟩ := List.eq_append_cons_of_mem closed
    rw [scanStream_quoted open_, scanStream, if_pos rfl, if_pos rfl] at scanned
    by_cases empty : word ++ inner = []
    · obtain ⟨rfl, rfl⟩ := List.append_eq_nil_iff.mp empty
      exact .inr (.inl ⟨behind, scanned, by simp [same, emptyQuotation]⟩)
    · have other : word ≠ [] ∨ (inner ++ doubleL :: behind).head? ≠ some doubleL := by
        by_contra neither
        obtain ⟨none, first⟩ := not_or.mp neither
        cases inner with
        | nil => exact empty (by rw [not_not.mp none, List.append_nil])
        | cons d inner =>
          obtain rfl : d = doubleL := by simpa using first
          exact open_ List.mem_cons_self
      refine .inr (.inr ⟨word ++ inner, behind, scanned, empty, ?_, ?_⟩)
      · rw [List.length_append, List.length_cons] at shorter
        omega
      · rw [same, emptyQuotation_quote plain other, emptyQuotation_inner open_, emptyQuotation,
          if_pos rfl]
  · have other : more.head? ≠ some doubleL := fun first => closed (List.mem_of_mem_head? first)
    have ends : scanStream isspace (more ++ []) true word = none := scanStream_quoted closed word
    have alone : emptyQuotation .quoted (more ++ []) = false := emptyQuotation_inner closed
    rw [List.append_nil] at ends alone
    exact .inl ⟨scanned.trans ends, by rw [same, emptyQuotation_quote plain (.inr other), alone]⟩

/-- A scan does not return, or takes an empty quotation, or takes a token and leaves less. -/
theorem scanToken_cases (is : List Char) :
    (scanToken is = none ∧ emptyQuotation .start is = false) ∨
      (∃ rest, scanToken is = some ([], rest) ∧ emptyQuotation .start is = true) ∨
      ∃ token rest, scanToken is = some (token, rest) ∧ token ≠ [] ∧ rest.length < is.length ∧
        emptyQuotation .start is = emptyQuotation .start rest := by
  obtain ⟨spaces, word, rest, rfl, blank, plain, stops, scanned⟩ := exists_cut is
  have same : emptyQuotation .start (spaces ++ (word ++ rest)) =
      emptyQuotation .start (word ++ rest) := emptyQuotation_spaces blank
  cases rest with
  | nil =>
    have open_ : scanStream isspace [] false word = none := by simp [scanStream, isspace_eof]
    exact .inl ⟨scanned.trans open_, by rw [same, List.append_nil, emptyQuotation_plain plain]⟩
  | cons c more =>
    obtain rfl | ⟨space, nonempty⟩ := stops c rfl
    · rw [scanStream, if_pos rfl, if_neg (by decide)] at scanned
      refine scanToken_quote plain scanned same ?_
      simp only [List.length_append, List.length_cons]
      omega
    · have quote : c ≠ doubleL := by
        rintro rfl
        cases space
      rw [scanStream, if_neg quote, if_neg (by decide), if_pos space, if_neg nonempty] at scanned
      refine .inr (.inr ⟨word, c :: more, scanned, nonempty, ?_, ?_⟩)
      · have positive := List.length_pos_of_ne_nil nonempty
        simp only [List.length_append]
        omega
      · simp [same, emptyQuotation_word plain nonempty, emptyQuotation, quote, space]

/-- The tokens come to an end where there is an empty quotation. -/
theorem exists_scriptTokens {rounds : ℕ} (quotation : emptyQuotation .start is = true)
    (enough : is.length < rounds) : ∃ tokens, scriptTokens rounds is = some tokens := by
  induction rounds generalizing is with
  | zero => exact absurd enough (Nat.not_lt_zero _)
  | succ rounds ih =>
    obtain ⟨-, none⟩ | ⟨rest, scanned, -⟩ | ⟨token, rest, scanned, nonempty, shorter, same⟩ :=
      scanToken_cases is
    · rw [quotation] at none
      cases none
    · exact ⟨[], by rw [scriptTokens, scanned]; rfl⟩
    · obtain ⟨tokens, taken⟩ := ih (same ▸ quotation) (by omega)
      exact ⟨token :: tokens, by simp [scriptTokens, scanned, nonempty, taken]⟩

/-- Where the tokens come to an end, there is an empty quotation. -/
theorem emptyQuotation_of_scriptTokens {rounds : ℕ} {tokens : List Token}
    (taken : scriptTokens rounds is = some tokens) : emptyQuotation .start is = true := by
  induction rounds generalizing is tokens with
  | zero => cases taken
  | succ rounds ih =>
    obtain ⟨scanned, -⟩ | ⟨rest, -, quotation⟩ | ⟨token, rest, scanned, nonempty, -, same⟩ :=
      scanToken_cases is
    · rw [scriptTokens, scanned] at taken
      cases taken
    · exact quotation
    · simp only [scriptTokens, scanned, Option.bind_some, if_neg nonempty, Option.map_eq_some_iff]
        at taken
      obtain ⟨others, later, -⟩ := taken
      rw [same]
      exact ih later

/-- The loop of `pprocess` goes over the tokens of the script. -/
theorem pprocessLoop_eq (nested : Token → List Token → Option (List Token)) (rounds : ℕ)
    (is : List Char) (script : List Token) : pprocessLoop nested rounds is script =
      (scriptTokens rounds is).bind fun tokens => tokens.foldlM (useToken nested) script := by
  induction rounds generalizing is script with
  | zero => rfl
  | succ rounds ih =>
    rw [pprocessLoop, scriptTokens]
    cases scanToken is with
    | none => rfl
    | some result =>
      obtain ⟨oneToken, rest⟩ := result
      simp only [Option.bind_some]
      by_cases empty : oneToken = []
      · simp [empty]
      · rw [if_neg empty, if_neg empty, Option.bind_map]
        simp only [Function.comp_def, List.foldlM_cons]
        cases useToken nested script oneToken with
        | none => simp
        | some next => exact ih rest next

theorem exists_foldlM_useToken (called : Token → List Token → List Token)
    (tokens script : List Token) :
    ∃ result, tokens.foldlM (useToken fun name script => some (called name script)) script =
      some result := by
  induction tokens generalizing script with
  | nil => exact ⟨script, rfl⟩
  | cons token tokens ih =>
    obtain ⟨next, used⟩ : ∃ next,
        useToken (fun name script => some (called name script)) script token = some next := by
      rw [useToken]
      split_ifs
      all_goals exact ⟨_, rfl⟩
    obtain ⟨result, all⟩ := ih next
    exact ⟨result, by rw [List.foldlM_cons, used, Option.bind_eq_bind, Option.bind_some, all]⟩

/-- If the calls for other scripts return, the loop of `pprocess` ends exactly as the tokens do. -/
theorem exists_pprocessLoop_iff (called : Token → List Token → List Token) (script : List Token) :
    (∃ rounds result, pprocessLoop (fun name script => some (called name script)) rounds is script =
        some result) ↔ emptyQuotation .start is = true := by
  constructor
  · rintro ⟨rounds, result, ends⟩
    rw [pprocessLoop_eq, Option.bind_eq_some_iff] at ends
    obtain ⟨tokens, taken, -⟩ := ends
    exact emptyQuotation_of_scriptTokens taken
  · intro quotation
    obtain ⟨tokens, taken⟩ := exists_scriptTokens quotation (Nat.lt_succ_self _)
    obtain ⟨result, all⟩ := exists_foldlM_useToken called tokens script
    exact ⟨_, result, by rw [pprocessLoop_eq, taken, Option.bind_some, all]⟩

end Tokens

/-- `pprocess`, on the texts of the scripts. -/
def pprocessText (texts : List (Token × List Char)) : ℕ → Token → List Token → Option (List Token)
  | 0, _, _ => none
  | fuel + 1, sName, script =>
      (texts.lookup sName).bind fun text =>
        pprocessLoop (pprocessText texts fuel) (text.length + 1) text script

/-- The tokens of a script are what stands in front of its first empty quotation. -/
theorem pprocessText_eq {texts : List (Token × List Char)} {files : Files}
    (tokens : ∀ name, files.lookup name =
      (texts.lookup name).bind fun text => scriptTokens (text.length + 1) text)
    (fuel : ℕ) : pprocessText texts fuel = pprocess files fuel := by
  induction fuel with
  | zero => rfl
  | succ fuel ih =>
    funext sName script
    rw [pprocessText, pprocess, tokens, Option.bind_assoc]
    refine congrArg _ (funext fun text => ?_)
    rw [pprocessLoop_eq, ih]
    rfl

/-- `predicate_scan_token` returns; of white space alone it returns an empty token; and the loop
of `pprocess` over the text ends, if the calls for other scripts return. -/
structure Ends (prd : Char → Bool) (is : List Char) : Prop where
  returns : (predicateScanStream prd is).isSome = true
  blank : is.all isspace = true → ∃ rest, predicateScanStream prd is = some ([], rest)
  script : ∀ (called : Token → List Token → List Token) (script : List Token),
    ∃ rounds result,
      pprocessLoop (fun name script => some (called name script)) rounds is script = some result

/-- The scan is closed, and the script has an empty quotation. -/
structure Ended (prd : Char → Bool) (is : List Char) : Prop where
  closes : Closes prd is
  quotation : emptyQuotation .start is = true

/-- A stream lets its scans end exactly if it has something to end them. -/
theorem ends_iff_ended (prd : Char → Bool) (is : List Char) : Ends prd is ↔ Ended prd is := by
  constructor
  · intro ends
    exact ⟨(predicateScanStream_isSome_iff is).mp ends.returns,
      (exists_pprocessLoop_iff (fun _ script => script) []).mp (ends.script _ [])⟩
  · intro ended
    refine ⟨(predicateScanStream_isSome_iff is).mpr ended.closes, fun blank => ?_,
      fun called script => (exists_pprocessLoop_iff called script).mpr ended.quotation⟩
    have alone : emptyQuotation .start (is ++ []) = false := emptyQuotation_spaces blank
    rw [List.append_nil, ended.quotation] at alone
    cases alone

/-- At the end of a stream: nothing at all, an open quotation, and a script of one word. -/
theorem eof_never_ends : predicateScanStream isspace [] = none ∧
    predicateScanStream isspace ['"', 'a'] = none ∧
    (∀ rounds, pprocessLoop (fun _ script => some script) rounds ['a', '\n'] [] = none) ∧
    ¬Ends isspace [] := by
  refine ⟨by decide, by decide, fun rounds => ?_, fun ends => absurd ends.returns (by decide)⟩
  by_contra some
  obtain ⟨result, returns⟩ := Option.ne_none_iff_exists'.mp some
  rw [pprocessLoop_eq, Option.bind_eq_some_iff] at returns
  obtain ⟨tokens, taken, -⟩ := returns
  exact absurd (emptyQuotation_of_scriptTokens taken) (by decide)

end Crs.CommandLine
