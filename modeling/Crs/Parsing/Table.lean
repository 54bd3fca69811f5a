import Crs.Foundation.InputStream
import Mathlib.Algebra.BigOperators.Group.Finset.Basic
import Mathlib.Algebra.GroupWithZero.Nat
import Mathlib.Algebra.Order.BigOperators.Group.Finset
import Mathlib.Data.List.GetD

/-!
# Tables of fixed width

`tab2fixed` reads a table of cells behind tabulators, collects the width of each column from all
rows, and prints the cells in the middle of their columns. The header is printed along the
columns, so that the first row must have all of them. An access that leaves an array gives none.
-/

namespace Crs.Parsing

open Foundation

/-- Place the text in the middle of the field. -/
def setCenter (str : List Char) (nWidth : ℕ) (fillChar : Char) : List Char :=
  if nWidth < str.length then str
  else
    let nRestSpaces := nWidth - str.length
    let result := List.replicate (nRestSpaces / 2) fillChar ++ str
    result ++ List.replicate (nWidth - result.length) fillChar

/-- `convert` of the measure. -/
def convert (s : List Char) : List Char := s.takeWhile (· != '\r')

/-- A cell for the last row, and its width for the column. -/
def pushCell (state : List (List Char) × List ℕ) (cell : List Char) :
    Option (List (List Char) × List ℕ) :=
  let (row, colWidth) := state
  let row := row ++ [convert cell]
  let colWidth :=
    if colWidth.length < row.length then
      colWidth ++ List.replicate (row.length - colWidth.length) 0
    else colWidth
  let cellWidth := (convert cell).length
  match colWidth[row.length - 1]? with
  | none => none
  | some width =>
      some (row, if width < cellWidth then colWidth.set (row.length - 1) cellWidth else colWidth)

/-- A row for the table. -/
def pushRow (state : List (List (List Char)) × List ℕ) (lineBuffer : List Char) :
    Option (List (List (List Char)) × List ℕ) := do
  let (table, colWidth) := state
  let (row, colWidth) ← InputStream.forPieces '\t' pushCell (lineBuffer.length + 2)
    { text := lineBuffer } [] ([], colWidth)
  some (table ++ [row], colWidth)

def readAndMeasureTable (srcTable : List Char) : Option (List (List (List Char)) × List ℕ) :=
  InputStream.forPieces '\n' pushRow (srcTable.length + 2) { text := srcTable } [] ([], [])

/-- The loop over the columns: what it prints, the widths, and the full width. -/
def printHeader (table : List (List (List Char))) (nExtraSpaces : ℕ) :
    List ℕ → (nCol nFullWidth : ℕ) → Option (List Char × List ℕ × ℕ)
  | [], _, nFullWidth => some ([], [], nFullWidth)
  | width :: colWidth, nCol, nFullWidth => do
      let width := (width + nExtraSpaces) % 2 ^ 64
      let nFullWidth := (nFullWidth + width) % 2 ^ 64
      let row ← table[0]?
      let cell ← row[nCol]?
      let (text, colWidth, nFullWidth) ←
        printHeader table nExtraSpaces colWidth (nCol + 1) nFullWidth
      some (setCenter cell width ' ' ++ text, width :: colWidth, nFullWidth)

/-- The loop over the cells of a row. -/
def printRow (colWidth : List ℕ) : List (List Char) → (nCol : ℕ) → Option (List Char)
  | [], _ => some []
  | cell :: row, nCol => do
      let width ← colWidth[nCol]?
      let text ← printRow colWidth row (nCol + 1)
      some (setCenter cell width ' ' ++ text)

def printRows (colWidth : List ℕ) : List (List (List Char)) → Option (List Char)
  | [] => some []
  | row :: table => do
      let text ← printRow colWidth row 0
      let rest ← printRows colWidth table
      some (text ++ '\n' :: rest)

/-- Convert the table to text-printer friendly form. -/
def tab2fixed (srcTable : List Char) (nExtraSpaces : ℕ) (lineChar : Char) :
    Option (List Char) := do
  let (table, colWidth) ← readAndMeasureTable srcTable
  let (header, colWidth, nFullWidth) ← printHeader table nExtraSpaces colWidth 0 0
  let rows ← printRows colWidth (table.drop 1)
  some (header ++ '\n' :: (List.replicate nFullWidth lineChar ++ '\n' :: rows))

/-- The rows of a table, with their cells. -/
def rowsOf (srcTable : List Char) : List (List (List Char)) :=
  (InputStream.unlessEmpty (srcTable.splitOn '\n')).map fun line =>
    (InputStream.unlessEmpty (line.splitOn '\t')).map convert

/-- The greatest value over a list. -/
def greatest {α : Type*} (f : α → ℕ) : List α → ℕ
  | [] => 0
  | a :: l => max (f a) (greatest f l)

section Greatest

variable {α : Type*} (f : α → ℕ)

theorem greatest_append (l l' : List α) :
    greatest f (l ++ l') = max (greatest f l) (greatest f l') := by
  induction l with
  | nil => simp [greatest]
  | cons a l ih => rw [List.cons_append, greatest, ih, greatest, Nat.max_assoc]

theorem le_greatest {a : α} {l : List α} (member : a ∈ l) : f a ≤ greatest f l := by
  induction l with
  | nil => simp at member
  | cons b l ih =>
    obtain rfl | member := List.mem_cons.mp member
    · exact Nat.le_max_left _ _
    · exact Nat.le_trans (ih member) (Nat.le_max_right _ _)

theorem greatest_le {l : List α} {bound : ℕ} (all : ∀ a ∈ l, f a ≤ bound) :
    greatest f l ≤ bound := by
  induction l with
  | nil => exact Nat.zero_le _
  | cons a l ih =>
    exact Nat.max_le.mpr ⟨all a List.mem_cons_self, ih fun b member =>
      all b (List.mem_cons_of_mem _ member)⟩

theorem lt_greatest {l : List α} {bound : ℕ} (lt : bound < greatest f l) :
    ∃ a ∈ l, bound < f a := by
  by_contra none
  simp only [not_exists, not_and, Nat.not_lt] at none
  exact Nat.not_le.mpr lt (greatest_le f none)

end Greatest

/-- The number of columns. -/
def columns (table : List (List (List Char))) : ℕ := greatest List.length table

/-- The length of the longest cell of a column. -/
def longest (table : List (List (List Char))) (j : ℕ) : ℕ :=
  greatest (fun row => (row.getD j []).length) table

section Measuring

variable {table : List (List (List Char))} {row : List (List Char)} {colWidth : List ℕ}

/-- The widths collected so far are those of the longest cells. -/
structure Measured (table : List (List (List Char))) (colWidth : List ℕ) : Prop where
  length : colWidth.length = columns table
  widths : ∀ j, colWidth.getD j 0 = longest table j

theorem columns_append_row (table : List (List (List Char))) (row : List (List Char)) :
    columns (table ++ [row]) = max (columns table) row.length := by
  rw [columns, greatest_append, greatest, greatest, Nat.max_zero, columns]

theorem longest_append_row (table : List (List (List Char))) (row : List (List Char)) (j : ℕ) :
    longest (table ++ [row]) j = max (longest table j) (row.getD j []).length := by
  rw [longest, greatest_append, greatest, greatest, Nat.max_zero, longest]

theorem measured_nil : Measured [] [] :=
  ⟨rfl, fun _ => rfl⟩

theorem Measured.empty_row (measured : Measured table colWidth) :
    Measured (table ++ [[]]) colWidth := by
  constructor
  · rw [columns_append_row, measured.length, List.length_nil, Nat.max_zero]
  · intro j
    rw [longest_append_row, measured.widths]
    simp

/-- Widening the list of widths keeps them. -/
theorem getD_append_zeros (colWidth : List ℕ) (n j : ℕ) :
    (colWidth ++ List.replicate n 0).getD j 0 = colWidth.getD j 0 := by
  rcases Nat.lt_or_ge j colWidth.length with inside | outside
  · rw [List.getD_append _ _ _ _ inside]
  · rw [List.getD_append_right _ _ _ _ outside, List.getD_eq_default _ _ outside]
    simp [List.getD_eq_getElem?_getD, List.getElem?_replicate]
    split <;> rfl

/-- The width of one column is raised where the cell is wider. -/
theorem getD_raise {i : ℕ} (inside : i < colWidth.length) (width j : ℕ) :
    (if colWidth.getD i 0 < width then colWidth.set i width else colWidth).getD j 0 =
      max (colWidth.getD j 0) (if j = i then width else 0) := by
  by_cases at_i : j = i
  · subst at_i
    rw [if_pos rfl]
    split
    · rw [List.getD_eq_getElem _ _ (by simpa using inside), List.getElem_set_self]
      omega
    · omega
  · rw [if_neg at_i, Nat.max_zero]
    split
    · rw [List.getD_eq_getElem?_getD, List.getElem?_set_ne (Ne.symm at_i),
        ← List.getD_eq_getElem?_getD]
    · rfl

theorem length_getD_append_cell (row : List (List Char)) (cell : List Char) (j : ℕ) :
    ((row ++ [cell]).getD j []).length =
      max (row.getD j []).length (if j = row.length then cell.length else 0) := by
  rcases Nat.lt_trichotomy j row.length with inside | rfl | outside
  · rw [List.getD_append _ _ _ _ inside, if_neg (Nat.ne_of_lt inside), Nat.max_zero]
  · rw [List.getD_append_right _ _ _ _ (Nat.le_refl _), if_pos rfl,
      List.getD_eq_default row _ (Nat.le_refl _)]
    simp
  · rw [List.getD_eq_default _ _ (by simp; omega), if_neg (Nat.ne_of_gt outside),
      List.getD_eq_default _ _ (Nat.le_of_lt outside)]
    simp

theorem pushCell_spec (measured : Measured (table ++ [row]) colWidth) (cell : List Char) :
    ∃ colWidth', pushCell (row, colWidth) cell = some (row ++ [convert cell], colWidth') ∧
      Measured (table ++ [row ++ [convert cell]]) colWidth' := by
  set widened := if colWidth.length < (row ++ [convert cell]).length then
      colWidth ++ List.replicate ((row ++ [convert cell]).length - colWidth.length) 0
    else colWidth with widened_eq
  have columns : colWidth.length = max (columns table) row.length := by
    rw [measured.length, columns_append_row]
  have length : widened.length = max colWidth.length (row.length + 1) := by
    rw [widened_eq, List.length_append, List.length_singleton]
    split
    · simp; omega
    · omega
  have same (j : ℕ) : widened.getD j 0 = colWidth.getD j 0 := by
    rw [widened_eq]
    split
    · exact getD_append_zeros _ _ _
    · rfl
  have inside : row.length < widened.length := by omega
  have width : widened[row.length]? = some (widened.getD row.length 0) := by
    rw [List.getD_eq_getElem _ _ inside, List.getElem?_eq_getElem inside]
  refine ⟨if widened.getD row.length 0 < (convert cell).length then
      widened.set row.length (convert cell).length else widened, ?_, ?_, ?_⟩
  · simp only [pushCell, ← widened_eq]
    rw [List.length_append, List.length_singleton, Nat.add_sub_cancel, width]
  · rw [columns_append_row, List.length_append, List.length_singleton]
    split
    · rw [List.length_set]
      omega
    · omega
  · intro j
    rw [getD_raise inside, same, measured.widths, longest_append_row, longest_append_row,
      length_getD_append_cell, Nat.max_assoc]

theorem pushCells_spec (measured : Measured (table ++ [row]) colWidth)
    (cells : List (List Char)) :
    ∃ colWidth', cells.foldlM pushCell (row, colWidth) =
        some (row ++ cells.map convert, colWidth') ∧
      Measured (table ++ [row ++ cells.map convert]) colWidth' := by
  induction cells generalizing row colWidth with
  | nil => exact ⟨colWidth, by simp, by simpa using measured⟩
  | cons cell cells ih =>
    obtain ⟨pushed, push, measured⟩ := pushCell_spec measured cell
    obtain ⟨widths, fold, measured⟩ := ih measured
    refine ⟨widths, ?_, by simpa using measured⟩
    rw [List.foldlM_cons, push]
    simpa using fold

theorem pushRow_spec (measured : Measured table colWidth) (line : List Char) :
    ∃ colWidth', pushRow (table, colWidth) line =
        some (table ++ [(InputStream.unlessEmpty (line.splitOn '\t')).map convert], colWidth') ∧
      Measured (table ++ [(InputStream.unlessEmpty (line.splitOn '\t')).map convert])
        colWidth' := by
  obtain ⟨widths, fold, measured⟩ := pushCells_spec measured.empty_row
    (InputStream.unlessEmpty (line.splitOn '\t'))
  have enough : (line.splitOn '\t').length < line.length + 2 :=
    Nat.lt_succ_of_le (Text.length_splitOn_le _ _)
  refine ⟨widths, ?_, by simpa using measured⟩
  simp only [pushRow]
  rw [InputStream.forPieces_spec (InputStream.standsBy_start '\t' line) enough, fold]
  rfl

theorem pushRows_spec (measured : Measured table colWidth) (lines : List (List Char)) :
    ∃ colWidth', lines.foldlM pushRow (table, colWidth) =
        some (table ++ lines.map fun line =>
          (InputStream.unlessEmpty (line.splitOn '\t')).map convert, colWidth') ∧
      Measured (table ++ lines.map fun line =>
        (InputStream.unlessEmpty (line.splitOn '\t')).map convert) colWidth' := by
  induction lines generalizing table colWidth with
  | nil => exact ⟨colWidth, by simp, by simpa using measured⟩
  | cons line lines ih =>
    obtain ⟨pushed, push, measured⟩ := pushRow_spec measured line
    obtain ⟨widths, fold, measured⟩ := ih measured
    refine ⟨widths, ?_, by simpa using measured⟩
    rw [List.foldlM_cons, push]
    simpa using fold

/-- Every text is a table, and the widths are measured. -/
theorem readAndMeasureTable_spec (srcTable : List Char) :
    ∃ colWidth, readAndMeasureTable srcTable = some (rowsOf srcTable, colWidth) ∧
      Measured (rowsOf srcTable) colWidth := by
  obtain ⟨widths, fold, measured⟩ := pushRows_spec measured_nil
    (InputStream.unlessEmpty (srcTable.splitOn '\n'))
  have enough : (srcTable.splitOn '\n').length < srcTable.length + 2 :=
    Nat.lt_succ_of_le (Text.length_splitOn_le _ _)
  refine ⟨widths, ?_, measured⟩
  rw [readAndMeasureTable,
    InputStream.forPieces_spec (InputStream.standsBy_start '\n' srcTable) enough, fold]
  rfl

end Measuring

/-- The fields of a row, one behind the other. -/
def line (width : ℕ → ℕ) : List (List Char) → List Char
  | [] => []
  | cell :: row => setCenter cell (width 0) ' ' ++ line (fun j => width (j + 1)) row

section Printing

variable {table : List (List (List Char))} {row : List (List Char)} {colWidth : List ℕ}

theorem printRow_spec {nCol : ℕ} (inside : nCol + row.length ≤ colWidth.length) :
    printRow colWidth row nCol = some (line (fun j => colWidth.getD (nCol + j) 0) row) := by
  induction row generalizing nCol with
  | nil => rfl
  | cons cell row ih =>
    rw [List.length_cons] at inside
    have here : colWidth[nCol]? = some (colWidth.getD nCol 0) := by
      rw [List.getD_eq_getElem _ _ (by omega), List.getElem?_eq_getElem]
    have next (j : ℕ) : nCol + 1 + j = nCol + (j + 1) := by omega
    rw [printRow, here, ih (by omega)]
    simp only [line, next, Nat.add_zero, Option.bind_eq_bind, Option.bind_some]

theorem printRows_spec (inside : ∀ row ∈ table, row.length ≤ colWidth.length) :
    printRows colWidth table =
      some (table.flatMap fun row => line (fun j => colWidth.getD j 0) row ++ ['\n']) := by
  induction table with
  | nil => rfl
  | cons row table ih =>
    rw [printRows, printRow_spec (by simpa using inside row List.mem_cons_self),
      ih fun row member => inside row (List.mem_cons_of_mem _ member)]
    simp

/-- The header has all columns of the widths that are still to be printed. -/
theorem length_le_of_printHeader {nExtraSpaces nCol nFullWidth : ℕ}
    {printed : List Char × List ℕ × ℕ}
    (some_eq : printHeader table nExtraSpaces colWidth nCol nFullWidth = some printed) :
    colWidth.length ≤ (table.headD []).length - nCol := by
  induction colWidth generalizing nCol nFullWidth printed with
  | nil => exact Nat.zero_le _
  | cons width colWidth ih =>
    simp only [printHeader, Option.bind_eq_bind, Option.bind_eq_some_iff] at some_eq
    obtain ⟨row, first, cell, here, rest, others, -⟩ := some_eq
    have row_eq : table.headD [] = row := by
      rw [List.headD_eq_head?_getD, List.head?_eq_getElem?, first, Option.getD_some]
    obtain ⟨inside, -⟩ := List.getElem?_eq_some_iff.mp here
    have le := ih others
    rw [row_eq] at le ⊢
    rw [List.length_cons]
    omega

theorem printHeader_spec (first : table[0]? = some row) (nExtraSpaces : ℕ) {nCol : ℕ}
    (inside : nCol + colWidth.length ≤ row.length) (nFullWidth : ℕ) :
    printHeader table nExtraSpaces colWidth nCol (nFullWidth % 2 ^ 64) =
      some (line (fun j => (colWidth.getD j 0 + nExtraSpaces) % 2 ^ 64)
          ((row.drop nCol).take colWidth.length),
        colWidth.map fun width => (width + nExtraSpaces) % 2 ^ 64,
        (nFullWidth + ∑ j ∈ Finset.range colWidth.length, (colWidth.getD j 0 + nExtraSpaces)) %
          2 ^ 64) := by
  induction colWidth generalizing nCol nFullWidth with
  | nil => simp [printHeader, line]
  | cons width colWidth ih =>
    rw [List.length_cons] at inside
    have here : row[nCol]? = some row[nCol] := List.getElem?_eq_getElem (by omega)
    have full : (nFullWidth % 2 ^ 64 + (width + nExtraSpaces) % 2 ^ 64) % 2 ^ 64 =
        (nFullWidth + (width + nExtraSpaces)) % 2 ^ 64 := (Nat.add_mod _ _ _).symm
    simp only [printHeader, full, first, here, Option.bind_eq_bind, Option.bind_some]
    have left : row.drop nCol = row[nCol] :: row.drop (nCol + 1) :=
      List.drop_eq_getElem_cons (by omega)
    rw [ih (by omega), left, List.length_cons, List.take_succ_cons, Finset.sum_range_succ',
      Nat.add_assoc nFullWidth, Nat.add_comm (width + nExtraSpaces)]
    simp only [line, List.getD_cons_zero, List.getD_cons_succ, List.map_cons, Option.bind_some]

end Printing

section Fields

theorem length_setCenter (str : List Char) (nWidth : ℕ) (fillChar : Char) :
    (setCenter str nWidth fillChar).length = max nWidth str.length := by
  rw [setCenter]
  split
  · omega
  · simp
    omega

/-- The fields depend on the widths of their own columns. -/
theorem line_congr {width width' : ℕ → ℕ} {row : List (List Char)}
    (same : ∀ j < row.length, width j = width' j) : line width row = line width' row := by
  induction row generalizing width width' with
  | nil => rfl
  | cons cell row ih =>
    rw [line, line, same 0 (Nat.succ_pos _)]
    congr 1
    exact ih fun j inside => same (j + 1) (Nat.succ_lt_succ inside)

theorem length_line (width : ℕ → ℕ) (row : List (List Char)) :
    (line width row).length =
      ∑ j ∈ Finset.range row.length, max (width j) (row.getD j []).length := by
  induction row generalizing width with
  | nil => simp [line]
  | cons cell row ih =>
    rw [line, List.length_append, length_setCenter, ih, List.length_cons,
      Finset.sum_range_succ', Nat.add_comm]
    simp only [List.getD_cons_zero, List.getD_cons_succ]

end Fields

/-- A field of a width, with a cell between blanks. -/
def Centred (width : ℕ) (cell field : List Char) : Prop :=
  ∃ left right, field = List.replicate left ' ' ++ cell ++ List.replicate right ' ' ∧
    left + cell.length + right = width

/-- Each cell stands in its own columns, behind the widths before it. -/
structure Aligned (width : ℕ → ℕ) (row : List (List Char)) (text : List Char) : Prop where
  length : text.length = ∑ j ∈ Finset.range row.length, width j
  placed : ∀ j cell, row[j]? = some cell →
    Centred (width j) cell ((text.drop (∑ i ∈ Finset.range j, width i)).take (width j))

/-- A header, a line behind it, and the other rows. -/
def page (header : List Char) (nFullWidth : ℕ) (lineChar : Char) (body : List (List Char)) :
    List Char :=
  header ++ '\n' ::
    (List.replicate nFullWidth lineChar ++ '\n' :: body.flatMap fun text => text ++ ['\n'])

/-- The sum of the widths of all columns. -/
def fullWidth (table : List (List (List Char))) (nExtraSpaces : ℕ) : ℕ :=
  (∑ j ∈ Finset.range (columns table), (nExtraSpaces + longest table j)) % 2 ^ 64

/-- A page with the cells of a table, each in the columns of its own. -/
def Layout (table : List (List (List Char))) (nExtraSpaces : ℕ) (lineChar : Char)
    (out : List Char) : Prop :=
  ∃ header body, out = page header (fullWidth table nExtraSpaces) lineChar body ∧
    Aligned (fun j => nExtraSpaces + longest table j) (table.headD []) header ∧
    List.Forall₂ (Aligned fun j => nExtraSpaces + longest table j) (table.drop 1) body

theorem centred_setCenter {cell : List Char} {width : ℕ} (fits : cell.length ≤ width) :
    Centred width cell (setCenter cell width ' ') := by
  refine ⟨(width - cell.length) / 2, width - ((width - cell.length) / 2 + cell.length), ?_, ?_⟩
  · rw [setCenter, if_neg (Nat.not_lt.mpr fits)]
    simp
  · omega

/-- Fields that are wide enough stand in their own columns. -/
theorem aligned_line {width : ℕ → ℕ} {row : List (List Char)}
    (fits : ∀ j cell, row[j]? = some cell → cell.length ≤ width j) :
    Aligned width row (line width row) := by
  induction row generalizing width with
  | nil => exact ⟨rfl, by simp⟩
  | cons cell row ih =>
    have fits_first : cell.length ≤ width 0 := fits 0 cell rfl
    have first : (setCenter cell (width 0) ' ').length = width 0 := by
      rw [length_setCenter, Nat.max_eq_left fits_first]
    have rest := ih fun j other at_j => fits (j + 1) other at_j
    constructor
    · rw [line, List.length_append, first, rest.length, List.length_cons,
        Finset.sum_range_succ', Nat.add_comm]
    · intro j other at_j
      cases j with
      | zero =>
        obtain rfl : cell = other := Option.some.inj at_j
        rw [line, Finset.range_zero, Finset.sum_empty, List.drop_zero,
          List.take_left' first]
        exact centred_setCenter fits_first
      | succ j =>
        rw [line, Finset.sum_range_succ', Nat.add_comm _ (width 0), ← List.drop_drop,
          List.drop_left' first]
        exact rest.placed j other at_j

section Layouts

variable {srcTable : List Char} {nExtraSpaces : ℕ} {lineChar : Char}

/-- No row is longer than the first one. -/
def Headed (table : List (List (List Char))) : Prop :=
  ∀ row ∈ table, row.length ≤ (table.headD []).length

instance (table : List (List (List Char))) : Decidable (Headed table) :=
  inferInstanceAs (Decidable (∀ row ∈ table, row.length ≤ (table.headD []).length))

theorem headed_iff (table : List (List (List Char))) :
    Headed table ↔ columns table = (table.headD []).length := by
  constructor
  · intro headed
    apply Nat.le_antisymm (greatest_le _ headed)
    cases table with
    | nil => exact Nat.zero_le _
    | cons row table => exact le_greatest List.length List.mem_cons_self
  · intro same row member
    rw [← same]
    exact le_greatest List.length member

/-- The lines that are printed, where the header has all columns. -/
theorem tab2fixed_of_headed (headed : Headed (rowsOf srcTable)) (nExtraSpaces : ℕ)
    (lineChar : Char) :
    tab2fixed srcTable nExtraSpaces lineChar =
      let width := fun j => (longest (rowsOf srcTable) j + nExtraSpaces) % 2 ^ 64
      some (page (line width ((rowsOf srcTable).headD []))
        (fullWidth (rowsOf srcTable) nExtraSpaces) lineChar
        (((rowsOf srcTable).drop 1).map (line width))) := by
  obtain ⟨colWidth, read, measured⟩ := readAndMeasureTable_spec srcTable
  have length := measured.length
  have columns_eq := (headed_iff _).mp headed
  simp only [tab2fixed, read, Option.bind_eq_bind, Option.bind_some]
  cases table : rowsOf srcTable with
  | nil =>
    rw [table] at length
    obtain rfl : colWidth = [] := List.length_eq_zero_iff.mp length
    rfl
  | cons row rows =>
    rw [table] at length columns_eq headed measured
    rw [List.headD_cons] at columns_eq
    have columns_le : 0 + colWidth.length ≤ row.length := by omega
    have first : (row :: rows)[0]? = some row := rfl
    have header := printHeader_spec first nExtraSpaces columns_le 0
    rw [Nat.zero_mod, List.drop_zero, List.take_of_length_le (by omega)] at header
    simp only [measured.widths] at header
    rw [header, Option.bind_some, List.drop_succ_cons, List.drop_zero]
    -- the other rows are printed with the widths that the header has set
    have inside (other : List (List Char)) (member : other ∈ rows) :
        other.length ≤ (colWidth.map fun width => (width + nExtraSpaces) % 2 ^ 64).length := by
      rw [List.length_map, length]
      exact le_greatest List.length (List.mem_cons_of_mem _ member)
    have widths (other : List (List Char)) (member : other ∈ rows) :
        line (fun j => (colWidth.map fun width => (width + nExtraSpaces) % 2 ^ 64).getD j 0)
          other = line (fun j => (longest (row :: rows) j + nExtraSpaces) % 2 ^ 64) other := by
      apply line_congr
      intro j at_j
      have within : j < colWidth.length := by
        have := inside other member
        rw [List.length_map] at this
        omega
      have at_width := measured.widths j
      rw [List.getD_eq_getElem _ _ within] at at_width
      rw [List.getD_eq_getElem _ _ (by simpa using within), List.getElem_map, at_width]
    have body := List.flatMap_congr fun other member =>
      congrArg (fun text => text ++ ['\n']) (widths other member)
    have full : ∑ j ∈ Finset.range (columns (row :: rows)),
        (longest (row :: rows) j + nExtraSpaces) =
          ∑ j ∈ Finset.range (columns (row :: rows)),
            (nExtraSpaces + longest (row :: rows) j) :=
      Finset.sum_congr rfl fun j _ => Nat.add_comm _ _
    rw [printRows_spec inside, Option.bind_some, body, length, Nat.zero_add, full]
    simp only [page, fullWidth, List.headD_cons, List.flatMap_map]

theorem headed_of_tab2fixed {out : List Char}
    (some_eq : tab2fixed srcTable nExtraSpaces lineChar = some out) :
    Headed (rowsOf srcTable) := by
  obtain ⟨colWidth, read, measured⟩ := readAndMeasureTable_spec srcTable
  simp only [tab2fixed, read, Option.bind_eq_bind, Option.bind_some,
    Option.bind_eq_some_iff] at some_eq
  obtain ⟨printed, header, -⟩ := some_eq
  have le := length_le_of_printHeader header
  rw [measured.length, Nat.sub_zero] at le
  intro row member
  exact Nat.le_trans (le_greatest List.length member) le

theorem length_page (header : List Char) (nFullWidth : ℕ) (lineChar : Char)
    (body : List (List Char)) :
    (page header nFullWidth lineChar body).length =
      nFullWidth + 1 + ((header :: body).map fun text => text.length + 1).sum := by
  have rows : (body.flatMap fun text => text ++ ['\n']).length =
      (body.map fun text => text.length + 1).sum := by
    rw [List.length_flatMap]
    simp
  simp only [page, List.length_append, List.length_cons, List.length_replicate, rows,
    List.map_cons, List.sum_cons]
  omega

/-- A cell of the table is no longer than the longest one of its column. -/
theorem length_le_longest {table : List (List (List Char))} {row : List (List Char)}
    (member : row ∈ table) {j : ℕ} {cell : List Char} (at_j : row[j]? = some cell) :
    cell.length ≤ longest table j := by
  have le := le_greatest (fun row : List (List Char) => (row.getD j []).length) member
  rw [List.getD_eq_getElem?_getD, at_j] at le
  exact le

theorem aligned_of_lt {table : List (List (List Char))} {row : List (List Char)}
    (member : row ∈ table)
    (lt : ∀ j < columns table, longest table j + nExtraSpaces < 2 ^ 64) :
    Aligned (fun j => nExtraSpaces + longest table j) row
      (line (fun j => (longest table j + nExtraSpaces) % 2 ^ 64) row) := by
  have same : line (fun j => (longest table j + nExtraSpaces) % 2 ^ 64) row =
      line (fun j => nExtraSpaces + longest table j) row := by
    apply line_congr
    intro j at_j
    rw [Nat.mod_eq_of_lt (lt j (Nat.lt_of_lt_of_le at_j (le_greatest List.length member))),
      Nat.add_comm]
  rw [same]
  apply aligned_line
  intro j cell at_j
  exact Nat.le_trans (length_le_longest member at_j) (Nat.le_add_left _ _)

/-- Widths that do not wrap give the layout. -/
theorem layout_of_lt (headed : Headed (rowsOf srcTable))
    (lt : ∀ j < columns (rowsOf srcTable), longest (rowsOf srcTable) j + nExtraSpaces < 2 ^ 64) :
    ∃ out, tab2fixed srcTable nExtraSpaces lineChar = some out ∧
      Layout (rowsOf srcTable) nExtraSpaces lineChar out := by
  refine ⟨_, tab2fixed_of_headed headed _ _, _, _, rfl, ?_, ?_⟩
  · cases table : rowsOf srcTable with
    | nil => exact ⟨rfl, by simp⟩
    | cons row rows =>
      rw [table] at lt
      exact aligned_of_lt List.mem_cons_self lt
  · rw [List.forall₂_map_right_iff, List.forall₂_same]
    intro row member
    exact aligned_of_lt (List.mem_of_mem_drop member) lt

theorem length_cell_le {row : List (List Char)} {cell : List Char}
    (row_mem : row ∈ rowsOf srcTable) (cell_mem : cell ∈ row) :
    cell.length ≤ srcTable.length := by
  obtain ⟨text, text_mem, rfl⟩ := List.mem_map.mp row_mem
  obtain ⟨piece, piece_mem, rfl⟩ := List.mem_map.mp cell_mem
  have text_le := Text.length_le_of_mem_splitOn (InputStream.mem_of_mem_unlessEmpty text_mem)
  have piece_le := Text.length_le_of_mem_splitOn (InputStream.mem_of_mem_unlessEmpty piece_mem)
  have convert_le : (convert piece).length ≤ piece.length :=
    (List.takeWhile_sublist _).length_le
  omega

theorem longest_le (srcTable : List Char) (j : ℕ) :
    longest (rowsOf srcTable) j ≤ srcTable.length := by
  apply greatest_le
  intro row member
  rw [List.getD_eq_getElem?_getD]
  cases at_j : row[j]? with
  | none => exact Nat.zero_le _
  | some cell => exact length_cell_le member (List.mem_of_getElem? at_j)

/-- What is printed of a row is no longer than its columns. -/
theorem max_width_le {row : List (List Char)} (member : row ∈ rowsOf srcTable) (j : ℕ) :
    max ((longest (rowsOf srcTable) j + nExtraSpaces) % 2 ^ 64) (row.getD j []).length ≤
      nExtraSpaces + longest (rowsOf srcTable) j := by
  have cell := le_greatest (fun row : List (List Char) => (row.getD j []).length) member
  have mod := Nat.mod_le (longest (rowsOf srcTable) j + nExtraSpaces) (2 ^ 64)
  rw [← longest] at cell
  omega

/-- Where the width of a column has wrapped, its cells do not fill it. -/
theorem length_line_lt {row : List (List Char)} (size : srcTable.length < 2 ^ 64)
    (member : row ∈ rowsOf srcTable) {j : ℕ} (inside : j < row.length)
    (wrapped : 2 ^ 64 ≤ longest (rowsOf srcTable) j + nExtraSpaces) :
    (line (fun j => (longest (rowsOf srcTable) j + nExtraSpaces) % 2 ^ 64) row).length <
      ∑ j ∈ Finset.range row.length, (nExtraSpaces + longest (rowsOf srcTable) j) := by
  rw [length_line]
  apply Finset.sum_lt_sum fun j _ => max_width_le member j
  refine ⟨j, Finset.mem_range.mpr inside, ?_⟩
  have cell := le_greatest (fun row : List (List Char) => (row.getD j []).length) member
  have mod := Nat.mod_lt (longest (rowsOf srcTable) j + nExtraSpaces) (show 0 < 2 ^ 64 by decide)
  have small := longest_le srcTable j
  rw [← longest] at cell
  omega

theorem lengths_of_aligned {width : ℕ → ℕ} {table : List (List (List Char))}
    {texts : List (List Char)} (aligned : List.Forall₂ (Aligned width) table texts) :
    texts.map (fun text => text.length + 1) =
      table.map fun row => ∑ j ∈ Finset.range row.length, width j + 1 := by
  induction aligned with
  | nil => rfl
  | cons first _ ih => rw [List.map_cons, List.map_cons, first.length, ih]

theorem lt_of_layout (size : srcTable.length < 2 ^ 64) {out : List Char}
    (some_eq : tab2fixed srcTable nExtraSpaces lineChar = some out)
    (layout : Layout (rowsOf srcTable) nExtraSpaces lineChar out) {j : ℕ}
    (inside : j < columns (rowsOf srcTable)) :
    longest (rowsOf srcTable) j + nExtraSpaces < 2 ^ 64 := by
  by_contra wrapped
  rw [Nat.not_lt] at wrapped
  obtain ⟨row, member, within⟩ := lt_greatest List.length inside
  rw [tab2fixed_of_headed (headed_of_tab2fixed some_eq)] at some_eq
  obtain ⟨header, body, rfl, header_aligned, body_aligned⟩ := layout
  have lengths := congrArg List.length (Option.some.inj some_eq)
  rw [length_page, length_page] at lengths
  cases table : rowsOf srcTable with
  | nil => simp [table] at member
  | cons first rows =>
    rw [table] at header_aligned body_aligned
    have aligned : List.Forall₂ (Aligned fun j => nExtraSpaces + longest (first :: rows) j)
        (first :: rows) (header :: body) := .cons header_aligned body_aligned
    have printed : (line (fun j => (longest (rowsOf srcTable) j + nExtraSpaces) % 2 ^ 64) first ::
        rows.map (line fun j => (longest (rowsOf srcTable) j + nExtraSpaces) % 2 ^ 64)).map
          (fun text => text.length + 1) = (first :: rows).map fun row =>
            (line (fun j => (longest (rowsOf srcTable) j + nExtraSpaces) % 2 ^ 64) row).length +
              1 := by
      rw [List.map_cons, List.map_map, List.map_cons]
      rfl
    have shorter := List.sum_lt_sum (fun row =>
        (line (fun j => (longest (rowsOf srcTable) j + nExtraSpaces) % 2 ^ 64) row).length + 1)
      (fun row => ∑ j ∈ Finset.range row.length, (nExtraSpaces + longest (rowsOf srcTable) j) + 1)
      (l := rowsOf srcTable)
      (fun row member => Nat.succ_le_succ (by
        rw [length_line]
        exact Finset.sum_le_sum fun j _ => max_width_le member j))
      ⟨row, member, Nat.succ_lt_succ (length_line_lt size member within wrapped)⟩
    rw [lengths_of_aligned aligned] at lengths
    rw [table] at lengths printed shorter
    rw [List.headD_cons, List.drop_succ_cons, List.drop_zero, printed] at lengths
    omega

end Layouts

/-- The table is printed with each cell in the columns of its own exactly where no row is longer
than the first one, and no width wraps. -/
theorem tab2fixed_iff {srcTable : List Char} (size : srcTable.length < 2 ^ 64)
    (nExtraSpaces : ℕ) (lineChar : Char) :
    (∃ out, tab2fixed srcTable nExtraSpaces lineChar = some out ∧
      Layout (rowsOf srcTable) nExtraSpaces lineChar out) ↔
    Headed (rowsOf srcTable) ∧
      ∀ j < columns (rowsOf srcTable), longest (rowsOf srcTable) j + nExtraSpaces < 2 ^ 64 := by
  constructor
  · rintro ⟨out, some_eq, layout⟩
    exact ⟨headed_of_tab2fixed some_eq, fun j inside => lt_of_layout size some_eq layout inside⟩
  · rintro ⟨headed, lt⟩
    exact layout_of_lt headed lt

/-- A header and a row, of two cells each. -/
theorem tab2fixed_square :
    ∃ out, tab2fixed "a\tb\n\nc\td".toList 2 '-' = some out ∧
      Layout (rowsOf "a\tb\n\nc\td".toList) 2 '-' out :=
  (tab2fixed_iff (by decide) 2 '-').mpr ⟨by decide, by decide⟩

/-- The second row has a cell that the header does not have. -/
theorem tab2fixed_ragged :
    ¬∃ out, tab2fixed "a\nb\tc".toList 2 '-' = some out ∧
      Layout (rowsOf "a\nb\tc".toList) 2 '-' out := by
  rintro ⟨out, some_eq, -⟩
  have none_eq : tab2fixed "a\nb\tc".toList 2 '-' = none := by decide
  rw [none_eq] at some_eq
  exact absurd some_eq.symm (Option.some_ne_none out)

end Crs.Parsing
