import Crs.ObjectIO.IniFile

/-!
# Sections of a text

Each line is a header or a variable of the section in which it stands. `read` gives these
sections, except for a header in the last line: behind another hub it is lost, since `last` is
still set when `Hub::read` has gone back to it; as the first header it gets a variable, since
`Hub::read` then reads a line at the end of the stream.
-/

namespace Crs.ObjectIO

open Foundation

/-- The database of variables and the hubs behind them. -/
def entries (sections : List Var × List Hub) : List Entry :=
  sections.1.map .var ++ sections.2.map .hub

/-- The variables in front of the first header, and a hub for each header. -/
def sections (header : List Char → Bool) : List (List Char) → List Var × List Hub
  | [] => ([], [])
  | line :: lines =>
      let (vars, hubs) := sections header lines
      if header line then ([], Hub.create (trim line) vars :: hubs)
      else (Var.create (trim line) :: vars, hubs)

/-- The first character that is not blank is `[`. -/
def blankHeader (line : List Char) : Bool :=
  isHeader (firstchar line)

/-- The lines that `read` takes for headers. -/
def lineHeader (line : List Char) : Bool :=
  isHeader (trim line)

/-- The hubs are the headers of the text, and each other line is a variable of its section. -/
def ReadsLines (text : List Char) : Prop :=
  INIFile.read text = some (entries (sections blankHeader (text.splitOn '\n')))

/-- The last line is no header, and no header has `\r` among the blanks in front of it. -/
def Regular (lines : List (List Char)) : Prop :=
  (∀ line ∈ lines.getLast?, blankHeader line = false) ∧
    ∀ line ∈ lines, blankHeader line = true → '\r' ∉ line.takeWhile isspace

section Lines

variable {header : List Char → Bool} {line : List Char} {lines others : List (List Char)}

theorem sections_append (plain : ∀ line ∈ lines, header line = false) :
    sections header (lines ++ others) =
      (lines.map (fun line => Var.create (trim line)) ++ (sections header others).1,
        (sections header others).2) := by
  induction lines with
  | nil => rfl
  | cons line lines ih =>
    obtain ⟨now, plain⟩ := List.forall_mem_cons.mp plain
    simp [sections, now, ih plain]

theorem sections_plain (plain : ∀ line ∈ lines, header line = false) :
    sections header lines = (lines.map fun line => Var.create (trim line), []) := by
  rw [← List.append_nil lines, sections_append plain]
  simp [sections]

theorem length_sections_hubs : (sections header lines).2.length = lines.countP header := by
  induction lines with
  | nil => rfl
  | cons line lines ih => by_cases h : header line = true <;> simp [sections, h, ih]

theorem entries_injective {a b : List Var × List Hub} (same : entries a = entries b) : a = b := by
  obtain ⟨vars, hubs⟩ := a
  obtain ⟨vars', hubs'⟩ := b
  have front (vars : List Var) (hubs : List Hub) :
      (entries (vars, hubs)).filter (·.isVar) = vars.map Entry.var := by
    simp [entries, Entry.isVar, List.filter_map, Function.comp_def]
  have behind (vars : List Var) (hubs : List Hub) :
      (entries (vars, hubs)).filter (!·.isVar) = hubs.map Entry.hub := by
    simp [entries, Entry.isVar, List.filter_map, Function.comp_def]
  refine Prod.ext ?_ ?_
  · apply List.map_injective_iff.mpr fun v v' => Entry.var.inj
    rw [← front vars hubs, same, front vars' hubs']
  · apply List.map_injective_iff.mpr fun h h' => Entry.hub.inj
    rw [← behind vars hubs, same, behind vars' hubs']

/-- A header of the code is one of the text, and the code misses only those behind `\r`. -/
theorem lineHeader_eq : lineHeader line = (blankHeader line && '\r' ∉ line.takeWhile isspace) := by
  simp only [lineHeader, blankHeader, trim, firstchar]
  induction line with
  | nil => rfl
  | cons c line ih =>
    by_cases carriage : c = '\r'
    · subst carriage
      simp [isHeader, isspace]
    · by_cases space : isspace c = true
      · simp [carriage, space, ih, Ne.symm carriage]
      · simp [carriage, space, isHeader]

end Lines

section Hubs

variable {is : InputStream} {lines : List (List Char)}

/-- `Hub::read` takes the lines up to the next header. It goes back to it, but in the last line
the end was seen. -/
theorem readLines_hub {fuel : ℕ} (enough : lines.length ≤ fuel) (stands : is.Stands lines)
    (buf : List Char) (olist : List Var) : ∃ last is',
      Hub.readLines fuel is buf olist = some (olist ++ (lines.takeWhile (!lineHeader ·)).map
        (fun line => Var.create (trim line)), last, is') ∧
      (last = true ↔ (lines.dropWhile (!lineHeader ·)).length ≤ 1) ∧
      (last = false → is'.Stands (lines.dropWhile (!lineHeader ·)) ∧ is'.text = is.text) := by
  induction fuel generalizing is lines buf olist with
  | zero =>
    have := stands.ne_nil
    simp_all
  | succ fuel ih =>
    obtain ⟨line, lines, rfl⟩ := List.exists_cons_of_ne_nil stands.ne_nil
    have told : is.tellg = (some is.position, is) := if_pos stands.good
    have folded : isHeader (trim line) = lineHeader line := rfl
    rw [Hub.readLines, told]
    by_cases more : lines = []
    · subst more
      simp only [stands.getline_last, folded]
      by_cases header : lineHeader line = true
      · rw [List.takeWhile_cons_of_neg (by simp [header]),
          List.dropWhile_cons_of_neg (by simp [header]), if_pos header, List.map_nil,
          List.append_nil]
        exact ⟨true, _, rfl, by simp, by simp⟩
      · rw [List.takeWhile_cons_of_pos (by simp [header]),
          List.dropWhile_cons_of_pos (by simp [header]), if_neg header]
        exact ⟨true, _, rfl, by simp, by simp⟩
    · have next := stands.next more
      simp only [stands.getline_next more, stands.eofbit, folded]
      by_cases header : lineHeader line = true
      · rw [List.takeWhile_cons_of_neg (by simp [header]),
          List.dropWhile_cons_of_neg (by simp [header]), if_pos header, List.map_nil,
          List.append_nil]
        exact ⟨false, _, rfl, by simpa using more, fun _ => ⟨stands.seekg rfl, rfl⟩⟩
      · rw [List.takeWhile_cons_of_pos (by simp [header]),
          List.dropWhile_cons_of_pos (by simp [header]), if_neg header, List.map_cons]
        simp only [stands.eofbit] at next
        simpa using ih (by simpa using enough) next (trim line) (olist ++ [Var.create (trim line)])

theorem read_hub (stands : is.Stands lines) : ∃ last is',
    Hub.read is = some ((lines.takeWhile (!lineHeader ·)).map
      (fun line => Var.create (trim line)), last, is') ∧
    (last = true ↔ (lines.dropWhile (!lineHeader ·)).length ≤ 1) ∧
    (last = false → is'.Stands (lines.dropWhile (!lineHeader ·)) ∧ is'.text = is.text) := by
  obtain ⟨last, is', result, ends, goes⟩ := readLines_hub stands.length_le stands [] []
  refine ⟨last, is'.clear, ?_, ends, fun more => ⟨(goes more).1.clear, (goes more).2⟩⟩
  rw [Hub.read, result]
  rfl

/-- Behind a header in the last line, `Hub::read` makes a variable of nothing. -/
theorem read_hub_end (ends : is.eofbit = true) :
    ∃ is', Hub.read is = some ([Var.create []], true, is') := by
  have good : is.good = false := by simp [InputStream.good, ends]
  have told : is.tellg = (none, { is with failbit := true }) := if_neg (by simp [good])
  rw [Hub.read, Hub.readLines, told]
  simp [InputStream.getline, InputStream.good, ends, trim, firstchar, isHeader]

end Hubs

section Files

variable {is : InputStream} {line : List Char} {lines others : List (List Char)}

/-- The lines without a header at the end. -/
def complete (lines : List (List Char)) : List (List Char) :=
  if lines.getLast?.any lineHeader then lines.dropLast else lines

theorem complete_append (some : others ≠ []) :
    complete (lines ++ others) = lines ++ complete others := by
  obtain ⟨front, last, rfl⟩ := (List.eq_nil_or_concat others).resolve_left some
  rw [complete, complete, List.concat_eq_append, ← List.append_assoc]
  by_cases header : lineHeader last = true <;> simp [header]

theorem complete_cons (some : lines ≠ []) : complete (line :: lines) = line :: complete lines := by
  rw [← List.singleton_append, complete_append some, List.singleton_append]

theorem complete_eq (plain : ∀ line ∈ lines.getLast?, lineHeader line = false) :
    complete lines = lines := by
  apply if_neg
  cases last : lines.getLast? with
  | none => simp
  | some line => simp [plain line last]

/-- The lines of a section, and the rest with the next header. -/
theorem exists_section (lines : List (List Char)) : ∃ front rest,
    lines = front ++ rest ∧ lines.takeWhile (!lineHeader ·) = front ∧
      lines.dropWhile (!lineHeader ·) = rest ∧ (∀ line ∈ front, lineHeader line = false) ∧
      ∀ line ∈ rest.head?, lineHeader line = true := by
  refine ⟨_, _, List.takeWhile_append_dropWhile.symm, rfl, rfl, fun line member => ?_, ?_⟩
  · simpa using List.mem_takeWhile_imp member
  · intro line head
    have := List.head?_dropWhile_not (!lineHeader ·) lines
    rw [head] at this
    simpa using this

theorem complete_section (plain : ∀ line ∈ lines, lineHeader line = false)
    (headers : ∀ line ∈ others.head?, lineHeader line = true) (few : others.length ≤ 1) :
    complete (lines ++ others) = lines := by
  match others, few with
  | [], _ =>
    rw [List.append_nil]
    exact complete_eq fun line last => plain line (List.mem_of_getLast? last)
  | [last], _ =>
    have header : lineHeader last = true := headers last rfl
    rw [complete_append (by simp)]
    simp [complete, header]

/-- The last line is no header, or it stands behind another one. -/
def Covered (lines : List (List Char)) : Prop :=
  (∀ line ∈ lines.getLast?, lineHeader line = false) ∨
    ∃ line ∈ lines.dropLast, lineHeader line = true

theorem Covered.tail (covered : Covered (line :: lines)) (plain : lineHeader line = false)
    (some : lines ≠ []) : Covered lines := by
  obtain ⟨next, lines, rfl⟩ := List.exists_cons_of_ne_nil some
  obtain last | ⟨header, member, is⟩ := covered
  · exact .inl (by simpa using last)
  · rw [List.dropLast_cons_cons] at member
    obtain rfl | member := List.mem_cons.mp member
    · rw [plain] at is
      cases is
    · exact .inr ⟨header, member, is⟩

theorem readLines_eq {fuel : ℕ} (enough : lines.length ≤ fuel) (stands : is.Stands lines)
    (covered : Covered lines) (buf : List Char) (olist : List Entry) :
    INIFile.readLines fuel is buf olist =
      some (olist ++ entries (sections lineHeader (complete lines))) := by
  induction fuel generalizing is lines buf olist with
  | zero => exact absurd (List.eq_nil_of_length_eq_zero (by omega)) stands.ne_nil
  | succ fuel ih =>
    obtain ⟨line, lines, rfl⟩ := List.exists_cons_of_ne_nil stands.ne_nil
    have folded : isHeader (trim line) = lineHeader line := rfl
    rw [INIFile.readLines]
    by_cases header : lineHeader line = true
    · have more : lines ≠ [] := by
        rintro rfl
        obtain last | ⟨_, member, -⟩ := covered
        · simp [header] at last
        · cases member
      have next := stands.next more
      simp only [stands.eofbit] at next
      obtain ⟨last, is', result, ends, goes⟩ := read_hub next
      obtain ⟨front, rest, whole, taken, dropped, plain, headers⟩ := exists_section lines
      rw [taken] at result
      rw [dropped] at ends goes
      simp only [stands.getline_next more, folded, header, if_true, stands.eofbit, result,
        Option.bind_some, Bool.false_or]
      rw [complete_cons more, whole]
      cases last with
      | true =>
        rw [complete_section plain headers (ends.mp rfl)]
        simp [sections, header, sections_plain plain, entries]
      | false =>
        obtain ⟨stands', -⟩ := goes rfl
        have two : 1 < rest.length := Nat.lt_of_not_le fun short => by simpa using ends.mpr short
        obtain ⟨first, second, rest, rfl⟩ :
            ∃ first second more, rest = first :: second :: more := by
          match rest, two with
          | first :: second :: more, _ => exact ⟨first, second, more, rfl⟩
        have head : lineHeader first = true := headers first rfl
        have enough' : (first :: second :: rest).length ≤ fuel := by
          simp only [whole, List.length_cons, List.length_append] at enough ⊢
          omega
        rw [if_neg (by simp), ih enough' stands' (.inr ⟨first, by simp, head⟩),
          complete_append (by simp), complete_cons (by simp)]
        simp [sections, header, head, sections_append plain, entries]
    · have plain : lineHeader line = false := by simpa using header
      by_cases more : lines = []
      · subst more
        simp only [stands.getline_last, folded, plain]
        rw [complete_eq (by simpa using plain)]
        simp [sections, plain, entries]
      · have next := stands.next more
        simp only [stands.eofbit] at next
        simp only [stands.getline_next more, folded, plain, stands.eofbit]
        have result := ih (by simpa using enough) next (covered.tail plain more) (trim line)
          (olist ++ [.var (Var.create (trim line))])
        rw [complete_cons more]
        simpa [sections, plain, entries] using result

/-- A text whose only header is its last line: the hub gets a variable of nothing. -/
theorem readLines_only {fuel : ℕ} (enough : lines.length < fuel)
    (plain : ∀ line ∈ lines, lineHeader line = false) (header : lineHeader line = true)
    (stands : is.Stands (lines ++ [line])) (buf : List Char) (olist : List Entry) :
    INIFile.readLines fuel is buf olist =
      some (olist ++ entries (lines.map (fun line => Var.create (trim line)),
        [Hub.create (trim line) [Var.create []]])) := by
  induction fuel generalizing is lines buf olist with
  | zero => omega
  | succ fuel ih =>
    rw [INIFile.readLines]
    cases lines with
    | nil =>
      have folded : isHeader (trim line) = lineHeader line := rfl
      obtain ⟨is', result⟩ := @read_hub_end { is with
        position := is.position + line.length
        eofbit := true
        failbit := line.isEmpty } rfl
      simp only [List.nil_append] at stands
      simp [stands.getline_last, folded, header, result, entries]
    | cons first lines =>
      obtain ⟨now, plain⟩ := List.forall_mem_cons.mp plain
      have folded : isHeader (trim first) = lineHeader first := rfl
      have next := stands.next (by simp)
      simp only [stands.eofbit] at next
      simp only [List.cons_append] at stands
      simp only [stands.getline_next (by simp), folded, now, stands.eofbit]
      have result := ih (by simpa using enough) plain next (trim first)
        (olist ++ [.var (Var.create (trim first))])
      simpa [entries] using result

end Files

section Reading

variable {text : List Char} {line : List Char} {lines : List (List Char)}

theorem read_eq (covered : Covered (text.splitOn '\n')) : INIFile.read text =
    some (entries (sections lineHeader (complete (text.splitOn '\n')))) := by
  have stands := InputStream.stands_start text
  exact readLines_eq stands.length_le stands covered [] []

theorem read_only (whole : text.splitOn '\n' = lines ++ [line])
    (plain : ∀ line ∈ lines, lineHeader line = false) (header : lineHeader line = true) :
    INIFile.read text = some (entries (lines.map (fun line => Var.create (trim line)),
      [Hub.create (trim line) [Var.create []]])) := by
  have stands := InputStream.stands_start text
  rw [whole] at stands
  have enough := stands.length_le
  rw [List.length_append, List.length_singleton] at enough
  exact readLines_only (Nat.lt_of_succ_le enough) plain header stands [] []

theorem sections_congr {p q : List Char → Bool} (same : ∀ line ∈ lines, p line = q line) :
    sections p lines = sections q lines := by
  induction lines with
  | nil => rfl
  | cons line lines ih =>
    obtain ⟨now, same⟩ := List.forall_mem_cons.mp same
    simp [sections, now, ih same]

/-- A header in the last line is a hub without variables. -/
theorem mem_sections_last {header : List Char → Bool} (last : header line = true) :
    Hub.create (trim line) [] ∈ (sections header (lines ++ [line])).2 := by
  induction lines with
  | nil => simp [sections, last]
  | cons first lines ih =>
    by_cases h : header first = true
    · simp only [List.cons_append, sections, h, if_true]
      exact List.mem_cons_of_mem _ ih
    · simpa [sections, h] using ih

theorem blankHeader_of_lineHeader (header : lineHeader line = true) : blankHeader line = true := by
  rw [lineHeader_eq, Bool.and_eq_true] at header
  exact header.1

theorem countP_lineHeader_le : lines.countP lineHeader ≤ lines.countP blankHeader :=
  List.countP_mono_left fun _ _ => blankHeader_of_lineHeader

theorem lineHeader_eq_of_countP (same : lines.countP lineHeader = lines.countP blankHeader) :
    ∀ line ∈ lines, lineHeader line = blankHeader line := by
  induction lines with
  | nil => simp
  | cons line lines ih =>
    have le : lines.countP lineHeader ≤ lines.countP blankHeader := countP_lineHeader_le
    rw [List.countP_cons, List.countP_cons] at same
    by_cases header : lineHeader line = true
    · have blank := blankHeader_of_lineHeader header
      simp only [header, blank, if_true, Nat.add_right_cancel_iff] at same
      exact List.forall_mem_cons.mpr ⟨by rw [header, blank], ih same⟩
    · by_cases blank : blankHeader line = true
      · simp only [header, blank, if_true, Bool.false_eq_true, if_false] at same
        omega
      · simp only [header, blank] at same
        exact List.forall_mem_cons.mpr ⟨by simp_all, ih same⟩

theorem regular_iff : Regular lines ↔ (∀ line ∈ lines.getLast?, blankHeader line = false) ∧
    ∀ line ∈ lines, lineHeader line = blankHeader line := by
  simp [Regular, lineHeader_eq]

/-- Each line is read as what it is exactly if the last line is no header, and no header stands
behind a carriage return. -/
theorem readsLines_iff : ReadsLines text ↔ Regular (text.splitOn '\n') := by
  obtain ⟨lines, line, whole⟩ : ∃ lines line, text.splitOn '\n' = lines ++ [line] := by
    obtain ⟨lines, line, concat⟩ :=
      (List.eq_nil_or_concat (text.splitOn '\n')).resolve_left (List.splitOn_ne_nil _ _)
    exact ⟨lines, line, by rw [concat, List.concat_eq_append]⟩
  have hubs {result : List Var × List Hub} (read : INIFile.read text = some (entries result))
      (reads : ReadsLines text) : result.2 = (sections blankHeader (lines ++ [line])).2 := by
    rw [ReadsLines, read, whole] at reads
    rw [entries_injective (Option.some.inj reads)]
  rw [whole, regular_iff, List.getLast?_concat]
  constructor
  · intro reads
    by_cases header : lineHeader line = true
    · have blank := blankHeader_of_lineHeader header
      by_cases earlier : ∃ other ∈ lines, lineHeader other = true
      · have covered : Covered (text.splitOn '\n') := by
          rw [whole, Covered, List.dropLast_concat]
          exact .inr earlier
        have front : complete (lines ++ [line]) = lines := by simp [complete, header]
        have fewer := congrArg List.length (hubs (read_eq covered) reads)
        have le : lines.countP lineHeader ≤ lines.countP blankHeader := countP_lineHeader_le
        rw [whole, front, length_sections_hubs, length_sections_hubs, List.countP_append] at fewer
        simp only [List.countP_singleton, blank, if_true] at fewer
        omega
      · have plain (other : List Char) (member : other ∈ lines) : lineHeader other = false := by
          simpa using fun header => earlier ⟨other, member, header⟩
        have member := @mem_sections_last line lines blankHeader blank
        rw [← hubs (read_only whole plain header) reads] at member
        simp [Hub.create] at member
    · have plain : lineHeader line = false := by simpa using header
      have covered : Covered (text.splitOn '\n') := by
        rw [whole, Covered, List.getLast?_concat]
        exact .inl (by simpa using plain)
      have all : complete (lines ++ [line]) = lines ++ [line] := complete_eq (by simpa using plain)
      have same := congrArg List.length (hubs (read_eq covered) reads)
      rw [whole, all, length_sections_hubs, length_sections_hubs] at same
      have agree := lineHeader_eq_of_countP same
      refine ⟨?_, agree⟩
      simpa [← agree line (by simp)] using plain
  · rintro ⟨last, agree⟩
    have plain : ∀ other ∈ (lines ++ [line]).getLast?, lineHeader other = false := by
      simpa [agree line (by simp)] using last
    have covered : Covered (text.splitOn '\n') := by
      rw [whole]
      exact .inl plain
    rw [ReadsLines, read_eq covered, whole, complete_eq plain, sections_congr agree]

/-- The second header is lost. -/
theorem not_readsLines_last : ¬ReadsLines ['[', 'a', ']', '\n', '[', 'b', ']'] := by
  rw [ReadsLines]
  decide

end Reading

end Crs.ObjectIO
