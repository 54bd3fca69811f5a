import Mathlib.Data.List.Basic

/-!
# Lines of a growing text

A text is split at separators into lines; empty ones do not count. The lines that a separator
has ended stay as they are while the text grows, and the last one is still open.
-/

namespace Foundation.Lines

variable {α : Type*} (sep : α → Bool)

/-- The lines that have ended. -/
def ended (text : List α) : List (List α) :=
  (text.splitOnP sep).dropLast.filter fun line => !line.isEmpty

/-- The line that is still open. -/
def unended (text : List α) : List α := (text.splitOnP sep).getLastD []

/-- The line that a separator ends. -/
def flush (line : List α) : List (List α) := [line].filter fun line => !line.isEmpty

variable {sep} {text more : List α} {c : α}

@[simp] theorem flush_nil : flush ([] : List α) = [] := rfl

theorem flush_of_ne_nil {line : List α} (some : line ≠ []) : flush line = [line] := by
  simp [flush, some]

theorem ended_of_splitOnP {pieces : List (List α)} {last : List α}
    (split : text.splitOnP sep = pieces ++ [last]) :
    ended sep text = pieces.filter (fun line => !line.isEmpty) ∧ unended sep text = last := by
  rw [ended, unended, split, List.dropLast_concat, List.getLastD_concat]
  exact ⟨rfl, rfl⟩

variable (sep) in
/-- The last piece is the open line; it has no separator, and without one it grows. -/
theorem exists_splitOnP (text : List α) : ∃ pieces last, text.splitOnP sep = pieces ++ [last] ∧
    (∀ d ∈ last, sep d = false) ∧ ∀ more : List α, (∀ d ∈ more, sep d = false) →
      (text ++ more).splitOnP sep = pieces ++ [last ++ more] := by
  induction text with
  | nil =>
    exact ⟨[], [], rfl, by simp, fun more free => List.splitOnP_eq_singleton free⟩
  | cons d text ih =>
    obtain ⟨pieces, last, split, free, grows⟩ := ih
    simp only [List.cons_append, List.splitOnP_cons_eq_if_modifyHead, split]
    by_cases separates : sep d = true
    · refine ⟨[] :: pieces, last, by simp [separates], free, fun more others => ?_⟩
      simp [separates, grows more others]
    · cases pieces with
      | nil =>
        refine ⟨[], d :: last, by simp [separates], ?_, fun more others => ?_⟩
        · exact List.forall_mem_cons.mpr ⟨by simpa using separates, free⟩
        · simp [separates, grows more others]
      | cons first pieces =>
        refine ⟨(d :: first) :: pieces, last, by simp [separates], free, fun more others => ?_⟩
        simp [separates, grows more others]

theorem unended_free (text : List α) : ∀ d ∈ unended sep text, sep d = false := by
  obtain ⟨pieces, last, split, free, -⟩ := exists_splitOnP sep text
  rw [(ended_of_splitOnP split).2]
  exact free

/-- Without a separator the open line grows. -/
theorem append_free (text : List α) (free : ∀ d ∈ more, sep d = false) :
    ended sep (text ++ more) = ended sep text ∧
      unended sep (text ++ more) = unended sep text ++ more := by
  obtain ⟨pieces, last, split, -, grows⟩ := exists_splitOnP sep text
  obtain ⟨lines, rest⟩ := ended_of_splitOnP split
  obtain ⟨lines', rest'⟩ := ended_of_splitOnP (grows more free)
  rw [lines, rest, lines', rest']
  exact ⟨rfl, rfl⟩

/-- A separator ends the open line. -/
theorem append_sep (text more : List α) (separates : sep c = true) :
    ended sep (text ++ c :: more) =
        ended sep text ++ flush (unended sep text) ++ ended sep more ∧
      unended sep (text ++ c :: more) = unended sep more := by
  obtain ⟨pieces, last, split, -⟩ := exists_splitOnP sep text
  obtain ⟨pieces', last', split', -⟩ := exists_splitOnP sep more
  have whole : (text ++ c :: more).splitOnP sep = pieces ++ [last] ++ pieces' ++ [last'] := by
    rw [List.splitOnP_append_cons _ _ separates, split, split', List.append_assoc _ pieces']
  obtain ⟨lines, rest⟩ := ended_of_splitOnP split
  obtain ⟨lines', rest'⟩ := ended_of_splitOnP split'
  obtain ⟨all, open_⟩ := ended_of_splitOnP whole
  rw [all, open_, lines, rest, lines', rest', flush, List.filter_append, List.filter_append]
  exact ⟨rfl, rfl⟩

/-- Separators alone end nothing. -/
theorem skip_separators (more : List α) {group : List α}
    (separators : ∀ d ∈ group, sep d = true) :
    ended sep (group ++ more) = ended sep more ∧
      unended sep (group ++ more) = unended sep more := by
  induction group with
  | nil => exact ⟨rfl, rfl⟩
  | cons d group ih =>
    obtain ⟨now, separators⟩ := List.forall_mem_cons.mp separators
    obtain ⟨lines, rest⟩ := ih separators
    obtain ⟨first, last⟩ := append_sep [] (group ++ more) now
    exact ⟨first.trans lines, last.trans rest⟩

/-- The rest of a line, a group of separators, and what follows. -/
theorem append_group (text more : List α) {line group : List α}
    (free : ∀ d ∈ line, sep d = false) (some : group ≠ [])
    (separators : ∀ d ∈ group, sep d = true) :
    ended sep (text ++ (line ++ (group ++ more))) =
        ended sep text ++ flush (unended sep text ++ line) ++ ended sep more ∧
      unended sep (text ++ (line ++ (group ++ more))) = unended sep more := by
  obtain ⟨d, group, rfl⟩ := List.exists_cons_of_ne_nil some
  obtain ⟨now, separators⟩ := List.forall_mem_cons.mp separators
  obtain ⟨lines, rest⟩ := append_sep (text ++ line) (group ++ more) now
  obtain ⟨before, open_⟩ := append_free text free
  obtain ⟨skips, last⟩ := skip_separators more separators
  rw [List.cons_append, ← List.append_assoc, lines, rest, before, open_, skips, last]
  exact ⟨rfl, rfl⟩

end Foundation.Lines
