import Crs.Parsing.Basic

/-!
# The end of a stream

`get` gives EOF again and again where a stream ends, and the scan of a token only looks at
characters. So it ends at a closing quote or at a delimiter, and at the end of the stream only if
EOF, taken for a character, is a delimiter. It never returns the empty token there.
-/

namespace Crs.Parsing

open Foundation

variable (prd : Char → Bool)

/-- Neither a quote nor a delimiter. -/
def goesOn (ch : Char) : Bool := ch ≠ doubleL && !prd ch

/-- Behind the white space in front, the first quote or delimiter is a delimiter, or a quote that
is closed. If there is none, EOF is a delimiter. -/
def Closes (is : List Char) : Prop :=
  match (is.dropWhile isspace).dropWhile (goesOn prd) with
  | [] => prd eof = true
  | ch :: rest => ch = doubleL → doubleL ∈ rest

section Endings

variable {prd}

theorem isspace_eof : isspace eof = false := by decide

theorem isspace_doubleL : isspace doubleL = false := by decide

/-- A quotation is scanned up to the quote that closes it. -/
theorem scanStream_inner (rest res : List Char) :
    scanStream prd rest true res =
      match rest.dropWhile (· ≠ doubleL) with
      | [] => none
      | _ :: behind => some (res ++ rest.takeWhile (· ≠ doubleL), behind) := by
  induction rest generalizing res with
  | nil => rfl
  | cons ch rest ih =>
    by_cases quote : ch = doubleL
    · simp [scanStream, quote]
    · rw [scanStream, if_neg quote, if_pos rfl, ih,
        List.dropWhile_cons_of_pos (by simpa using quote),
        List.takeWhile_cons_of_pos (by simpa using quote)]
      simp

/-- Outside of a quotation, a scan goes on to a quote or a delimiter. -/
theorem scanStream_outer (s : List Char) : scanStream prd s false [] =
    scanStream prd (s.dropWhile (goesOn prd)) false (s.takeWhile (goesOn prd)) := by
  have plain : Plain prd (s.takeWhile (goesOn prd)) := by
    intro c member
    simpa [goesOn] using List.mem_takeWhile_imp member
  have whole := List.takeWhile_append_dropWhile (p := goesOn prd) (l := s)
  conv_lhs => rw [← whole]
  rw [scanStream_plain plain, List.nil_append]

/-- A scan returns exactly if it finds its end. -/
theorem predicateScanStream_isSome_iff (is : List Char) :
    (predicateScanStream prd is).isSome = true ↔ Closes prd is := by
  rw [predicateScanStream, scanStream_outer, Closes]
  generalize (is.dropWhile isspace).takeWhile (goesOn prd) = word
  cases left : (is.dropWhile isspace).dropWhile (goesOn prd) with
  | nil =>
    rw [scanStream, if_neg (by decide)]
    by_cases delimiter : prd eof = true
    · simp [delimiter]
    · simp [delimiter]
  | cons ch rest =>
    have stops : goesOn prd ch = false := by
      have first := List.head?_dropWhile_not (goesOn prd) (is.dropWhile isspace)
      rw [left] at first
      simpa using first
    by_cases quote : ch = doubleL
    · simp only [quote, forall_const]
      rw [scanStream, if_pos rfl, if_neg (by decide), scanStream_inner]
      have closed : rest.dropWhile (· ≠ doubleL) = [] ↔ doubleL ∉ rest := by
        simp [List.dropWhile_eq_nil_iff, List.forall_mem_ne']
      cases behind : rest.dropWhile (· ≠ doubleL) with
      | nil => simp [closed.mp behind]
      | cons d behind' =>
        have member : doubleL ∈ rest := by
          by_contra open_
          rw [closed.mpr open_] at behind
          cases behind
        simp [member]
    · have delimiter : prd ch = true := by simpa [goesOn, quote] using stops
      rw [scanStream, if_neg quote, if_neg (by decide), if_pos delimiter]
      simp [quote]

/-- Of white space alone, nothing or EOF is returned, never an empty token. -/
theorem predicateScanStream_blank {is : List Char} (blank : is.all isspace = true) :
    predicateScanStream prd is = if prd eof then some ([eof], []) else none := by
  have none : is.dropWhile isspace = [] := by
    simpa [List.dropWhile_eq_nil_iff] using blank
  rw [predicateScanStream, none]
  rfl

end Endings

end Crs.Parsing
