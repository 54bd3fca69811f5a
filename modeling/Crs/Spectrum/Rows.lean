import Crs.Foundation.InputStream
import Crs.Spectrum.Basic

/-!
# Points from a text

`read` takes one point from each line. The format names the columns; a line may have fewer of
them, and the others keep the values of the lines before. A line in which a number is looked for
and nothing but white space is left ends the reading.

`sigma` is set back in front of every column, so that a sigma is lost when another column follows.
How a number is extracted is left open.
-/

namespace Crs.Spectrum

open Foundation Peak

/-- What `operator >>` does to a good stream: the number it stores, none if infinity is found where
it was put before, the characters that are left, and whether the stream is still good. -/
structure Extracted where
  tmp : Option ℚ
  rest : List Char
  good : Bool

/-- `switch( format[ p ] )`. -/
def column (row : Point) (entry : Char × ℚ) : Point :=
  let row := { row with ss := 1 }
  match entry.1 with
  | 'm' | 'M' => { row with mm := entry.2 }
  | 't' | 'T' => { row with tt := entry.2 }
  | 'i' | 'I' => { row with ii := entry.2 }
  | 's' | 'S' => { row with ss := entry.2 }
  | _ => row

/-- The loop over the columns, and none for the end of reading. -/
def readColumns (extract : List Char → Extracted) :
    List Char → List Char → Bool → Point → Option Point
  | [], _, _, row => some row
  | c :: format, line, good, row =>
      if good then
        let next := extract line
        match next.tmp with
        | none => none
        | some tmp => readColumns extract format next.rest next.good (column row (c, tmp))
      else some row

namespace MassSpectrum

/-- The loop over the lines. -/
def readLines (extract : List Char → Extracted) (format : List Char) (fresh : ℕ → Data) :
    ℕ → InputStream → List Char → Point → MassSpectrum → Option (InputStream × MassSpectrum)
  | 0, _, _, _, _ => none
  | fuel + 1, is, lineBuffer, row, s =>
      if is.good then
        let (lineBuffer, is) := is.getline lineBuffer
        match readColumns extract format lineBuffer true row with
        | none => some (is, s)
        | some row => do
            let s ← s.addPoint (fresh s.nPoints) row
            readLines extract format fresh fuel is lineBuffer row s
      else some (is, s)

def read (s : MassSpectrum) (extract : List Char → Extracted) (format : List Char)
    (fresh : ℕ → Data) (is : InputStream) : Option (InputStream × MassSpectrum) :=
  readLines extract format fresh (is.text.length + 2) is [] { mm := 1, ii := 0, ss := 1, tt := 0 } s

end MassSpectrum

/-- The columns that are found in a line, and none if the line ends the reading. -/
def entries (extract : List Char → Extracted) :
    List Char → List Char → Bool → Option (List (Char × ℚ))
  | [], _, _ => some []
  | c :: format, line, good =>
      if good then
        let next := extract line
        next.tmp.bind fun tmp =>
          (entries extract format next.rest next.good).map ((c, tmp) :: ·)
      else some []

/-- The lines before the one that ends the reading. -/
def whole (extract : List Char → Extracted) (format : List Char) :
    List (List Char) → List (List (Char × ℚ))
  | [] => []
  | line :: lines =>
      match entries extract format line true with
      | none => []
      | some found => found :: whole extract format lines

/-- The last number under one of the letters. -/
def latest (letters : List Char) (default : ℚ) (found : List (Char × ℚ)) : ℚ :=
  ((found.filter fun entry => entry.1 ∈ letters).getLast?.map Prod.snd).getD default

/-- A sigma counts in the last column of the line. -/
def sigma (found : List (Char × ℚ)) : ℚ :=
  match found.getLast? with
  | some entry => if entry.1 ∈ ['s', 'S'] then entry.2 else 1
  | none => 1

/-- The point of a line, behind what the lines before have found. -/
def rowOf (before found : List (Char × ℚ)) : Point where
  mm := latest ['m', 'M'] 1 (before ++ found)
  ii := latest ['i', 'I'] 0 (before ++ found)
  ss := sigma found
  tt := latest ['t', 'T'] 0 (before ++ found)

def rows : List (Char × ℚ) → List (List (Char × ℚ)) → List Point
  | _, [] => []
  | before, found :: lines => rowOf before found :: rows (before ++ found) lines

section Columns

variable {extract : List Char → Extracted} {format line letters : List Char} {good : Bool}
  {row : Point} {found before : List (Char × ℚ)} {entry : Char × ℚ} {d : ℚ}

theorem readColumns_eq : readColumns extract format line good row =
    (entries extract format line good).map fun found => found.foldl column row := by
  induction format generalizing line good row with
  | nil => rfl
  | cons c format ih =>
    rw [readColumns, entries]
    split
    · cases stored : (extract line).tmp with
      | none => simp [stored]
      | some tmp =>
        simp only [stored, Option.bind_some, Option.map_map, ih]
        rfl
    · rfl

/-- The first column of a line is always looked for. -/
theorem entries_ne_nil {c : Char} (read : entries extract (c :: format) line true = some found) :
    found ≠ [] := by
  rw [entries, if_pos rfl] at read
  obtain ⟨tmp, -, read⟩ := Option.bind_eq_some_iff.mp read
  obtain ⟨others, -, rfl⟩ := Option.map_eq_some_iff.mp read
  exact List.cons_ne_nil _ _

theorem latest_append (letters : List Char) (d : ℚ) (before found : List (Char × ℚ)) :
    latest letters d (before ++ found) = latest letters (latest letters d before) found := by
  rw [latest, latest, latest, List.filter_append, List.getLast?_append]
  cases (found.filter fun entry => entry.1 ∈ letters).getLast? <;> simp

theorem latest_concat (letters : List Char) (d : ℚ) (found : List (Char × ℚ))
    (entry : Char × ℚ) : latest letters d (found ++ [entry]) =
      if entry.1 ∈ letters then entry.2 else latest letters d found := by
  rw [latest_append]
  by_cases member : entry.1 ∈ letters
  · simp [latest, member]
  · simp [latest, member]

/-- One column sets one variable, and sigma is set back. -/
theorem column_eq (row : Point) (entry : Char × ℚ) : column row entry =
    { mm := if entry.1 ∈ ['m', 'M'] then entry.2 else row.mm
      ii := if entry.1 ∈ ['i', 'I'] then entry.2 else row.ii
      ss := if entry.1 ∈ ['s', 'S'] then entry.2 else 1
      tt := if entry.1 ∈ ['t', 'T'] then entry.2 else row.tt } := by
  obtain ⟨c, v⟩ := entry
  rw [column]
  split <;> simp_all

theorem foldl_column (row : Point) (found : List (Char × ℚ)) : found.foldl column row =
    { mm := latest ['m', 'M'] row.mm found
      ii := latest ['i', 'I'] row.ii found
      ss := if found = [] then row.ss else sigma found
      tt := latest ['t', 'T'] row.tt found } := by
  induction found using List.reverseRecOn with
  | nil => rfl
  | append_singleton found entry ih =>
    rw [List.foldl_append, ih, List.foldl_cons, List.foldl_nil, column_eq]
    have last : sigma (found ++ [entry]) = if entry.1 ∈ ['s', 'S'] then entry.2 else 1 := by
      rw [sigma, List.getLast?_concat]
    simp [latest_concat, last]

/-- The variables before a line. -/
structure Carries (format : List Char) (before : List (Char × ℚ)) (row : Point) : Prop where
  mm : row.mm = latest ['m', 'M'] 1 before
  ii : row.ii = latest ['i', 'I'] 0 before
  tt : row.tt = latest ['t', 'T'] 0 before
  ss : format = [] → row.ss = 1

theorem carries_start (format : List Char) :
    Carries format [] { mm := 1, ii := 0, ss := 1, tt := 0 } :=
  ⟨rfl, rfl, rfl, fun _ => rfl⟩

theorem Carries.row_eq (carries : Carries format before row)
    (read : entries extract format line true = some found) :
    found.foldl column row = rowOf before found := by
  have last : (if found = [] then row.ss else sigma found) = sigma found := by
    split
    · next none =>
      subst none
      cases format with
      | nil => exact carries.ss rfl
      | cons => exact absurd rfl (entries_ne_nil read)
    · rfl
  rw [foldl_column, last, carries.mm, carries.ii, carries.tt, ← latest_append, ← latest_append,
    ← latest_append, rowOf]

theorem carries_rowOf (read : entries extract format line true = some found) :
    Carries format (before ++ found) (rowOf before found) := by
  refine ⟨rfl, rfl, rfl, ?_⟩
  rintro rfl
  obtain rfl : [] = found := Option.some.inj read
  rfl

end Columns

namespace MassSpectrum

/-- These lines are left to be read. -/
def Left (is : InputStream) (lines : List (List Char)) : Prop :=
  if lines = [] then is.good = false else is.Stands lines

section Lines

variable {extract : List Char → Extracted} {format : List Char} {fresh : ℕ → Data}
  {is : InputStream} {lines : List (List Char)} {row : Point} {before : List (Char × ℚ)}
  {s : MassSpectrum} {fuel : ℕ}

/-- The stream after a line. -/
theorem left_of_getline {line : List Char} (stands : is.Stands (line :: lines))
    (buf : List Char) : (is.getline buf).1 = line ∧ Left (is.getline buf).2 lines := by
  cases lines with
  | nil =>
    rw [stands.getline_last]
    exact ⟨rfl, by simp [Left, InputStream.good]⟩
  | cons next lines =>
    rw [stands.getline_next (List.cons_ne_nil _ _), Left, if_neg (List.cons_ne_nil _ _)]
    exact ⟨rfl, stands.next (List.cons_ne_nil _ _)⟩

theorem readLines_spec (left : Left is lines) (enough : lines.length < fuel) (buf : List Char)
    (wellFormed : s.WellFormed) (carries : Carries format before row) :
    ∃ is' t, readLines extract format fresh fuel is buf row s = some (is', t) ∧ t.WellFormed ∧
      t.points = s.points ++ rows before (whole extract format lines) ∧
      Left is' (lines.drop ((whole extract format lines).length + 1)) := by
  induction lines generalizing is fuel buf row before s with
  | nil =>
    obtain ⟨fuel, rfl⟩ : ∃ rest, fuel = rest + 1 := ⟨fuel - 1, by omega⟩
    have ended : is.good = false := by simpa [Left] using left
    refine ⟨is, s, ?_, wellFormed, by simp [whole, rows], left⟩
    rw [readLines, if_neg (by simp [ended])]
  | cons line lines ih =>
    obtain ⟨fuel, rfl⟩ : ∃ rest, fuel = rest + 1 := ⟨fuel - 1, by omega⟩
    have stands : is.Stands (line :: lines) := by simpa [Left] using left
    obtain ⟨same, left'⟩ := left_of_getline stands buf
    have step : readLines extract format fresh (fuel + 1) is buf row s =
        match (entries extract format line true).map fun found => found.foldl column row with
        | none => some ((is.getline buf).2, s)
        | some row => (s.addPoint (fresh s.nPoints) row).bind fun s =>
            readLines extract format fresh fuel (is.getline buf).2 line row s := by
      rw [readLines, if_pos stands.good, ← readColumns_eq, ← same]
      rfl
    rw [step]
    cases read : entries extract format line true with
    | none =>
      refine ⟨(is.getline buf).2, s, rfl, wellFormed, ?_, ?_⟩
      · simp [whole, read, rows]
      · simpa [whole, read] using left'
    | some found =>
      simp only [Option.map_some, carries.row_eq read]
      obtain ⟨u, added, wellFormed', points, -⟩ :=
        addPoint_spec wellFormed (fresh s.nPoints) (rowOf before found)
      have carries' : Carries format (before ++ found) (rowOf before found) := carries_rowOf read
      obtain ⟨is', t, readOn, wellFormed'', more, left''⟩ :=
        ih left' (by simpa using enough) line wellFormed' carries'
      refine ⟨is', t, by rw [added, Option.bind_some, readOn], wellFormed'', ?_, ?_⟩
      · rw [more, points, whole, read]
        simp [rows]
      · simpa [whole, read] using left''

/-- The lines of a stream, if it is good. -/
def linesOf (is : InputStream) : List (List Char) :=
  if is.good then (is.text.drop is.position).splitOn '\n' else []

/-- Reading adds the points of the lines up to the first one that ends it, which is taken from the
stream too. -/
theorem read_points (wellFormed : s.WellFormed) (extract : List Char → Extracted)
    (format : List Char) (fresh : ℕ → Data) (is : InputStream) :
    let found := whole extract format (linesOf is)
    ∃ is' t, s.read extract format fresh is = some (is', t) ∧ t.WellFormed ∧
      t.points = s.points ++ rows [] found ∧ Left is' ((linesOf is).drop (found.length + 1)) := by
  have left : Left is (linesOf is) := by
    rw [Left, linesOf]
    by_cases good : is.good
    · rw [if_pos good, if_neg (List.splitOn_ne_nil _ _)]
      exact ⟨good, rfl⟩
    · simp [good]
  have enough : (linesOf is).length < is.text.length + 2 := by
    rw [linesOf]
    split
    · have few := Text.length_splitOn_le '\n' (is.text.drop is.position)
      rw [List.length_drop] at few
      omega
    · simp
  exact readLines_spec left enough [] wellFormed (carries_start format)

/-- A reader of natural numbers. -/
private def extractNatural (line : List Char) : Extracted :=
  let rest := line.dropWhile isspace
  let digits := rest.takeWhile Char.isDigit
  let value := digits.foldl (fun n c => 10 * n + (c.toNat - '0'.toNat)) 0
  if rest = [] then ⟨none, [], false⟩
  else ⟨some value, rest.drop digits.length, digits ≠ [] ∧ digits.length < rest.length⟩

/-- The first sigma is lost, the second one is the last of its line; the empty line ends the
reading. -/
theorem read_points_two :
    ∃ is' t, (massSpectrum fun _ => 0).read extractNatural ['m', 's', 'i'] (fun _ _ => 0)
        { text := "1 2 3\n4 5\n\n6 7".toList } = some (is', t) ∧
      t.points = [⟨1, 3, 1, 0⟩, ⟨4, 3, 5, 0⟩] ∧ is'.Stands ["6 7".toList] := by
  obtain ⟨is', t, read, -, points, left⟩ := read_points (wellFormed_massSpectrum fun _ => 0)
    extractNatural ['m', 's', 'i'] (fun _ _ => 0) { text := "1 2 3\n4 5\n\n6 7".toList }
  refine ⟨is', t, read, points.trans ?_, ?_⟩
  · rfl
  · exact left

end Lines

end MassSpectrum

end Crs.Spectrum
