import Crs.ObjectIO.Sections

/-!
# Writing and reading back

What `write` puts on a line, `read` takes apart again. There is no quoting: contents end with the
first `;`, and a variable without a name has nothing but its comment written.
-/

namespace Crs.ObjectIO

open Foundation

def vars (olist : List Entry) : List Var :=
  olist.filterMap fun
    | .var v => some v
    | .hub _ => none

def hubs (olist : List Entry) : List Hub :=
  olist.filterMap fun
    | .var _ => none
    | .hub h => some h

/-- The variables of the file and of its hubs. -/
def allVars (olist : List Entry) : List Var :=
  vars olist ++ (hubs olist).flatMap Hub.olist

/-- What the callers of `writevar` promise. -/
structure Call.Valid (call : Call) : Prop where
  name : call.name ≠ []
  name_free : ∀ c ∈ ['\n', '\r', '[', '=', ';'], c ∉ call.name
  name_blank : ∀ c ∈ call.name.head?, isspace c = false
  str_free : ∀ c ∈ ['\n', '\r'], c ∉ call.str

/-- Nothing of a variable is lost on its line. -/
def Var.Kept (v : Var) : Prop :=
  ';' ∉ v.contents ∧ (v.name = [] → v.contents = [])

/-- What holds of each variable, where it comes from a line or from `writevar`. -/
structure Var.Sound (v : Var) : Prop where
  name_free : ∀ c ∈ ['\n', '\r', '=', ';'], c ∉ v.name
  name_head : ∀ c ∈ v.name.head?, isspace c = false ∧ c ≠ '['
  contents_free : ∀ c ∈ ['\n', '\r', '\x00'], c ∉ v.contents
  description_free : ∀ c ∈ ['\n', '\r'], c ∉ v.description

structure Hub.Sound (h : Hub) : Prop where
  name_free : ∀ c ∈ ['\n', '\r', ']', ';'], c ∉ h.name
  description_free : ∀ c ∈ ['\n', '\r'], c ∉ h.description
  olist : ∀ v ∈ h.olist, v.Sound

def Entry.Sound : Entry → Prop
  | .var v => v.Sound
  | .hub h => h.Sound

section Cuts

variable {sep c : Char} {line rest : List Char}

theorem takeWhile_of_not_mem (free : sep ∉ line) : line.takeWhile (· != sep) = line := by
  rw [List.takeWhile_eq_self_iff]
  intro c member
  rw [bne_iff_ne]
  rintro rfl
  exact free member

theorem cutfrom_of_not_mem (free : sep ∉ line) : cutfrom line sep = (line, []) := by
  have all := takeWhile_of_not_mem free
  have none : line.dropWhile (· != sep) = [] := by
    rw [List.dropWhile_eq_nil_iff]
    rw [List.takeWhile_eq_self_iff] at all
    exact all
  simp [cutfrom, all, none]

theorem cutfrom_append (free : sep ∉ line) : cutfrom (line ++ sep :: rest) sep = (line, rest) := by
  have all : ∀ c ∈ line, (c != sep) = true :=
    List.takeWhile_eq_self_iff.mp (takeWhile_of_not_mem free)
  simp [cutfrom, List.takeWhile_append_of_pos all, List.dropWhile_append_of_pos all]

theorem not_mem_cutfrom : sep ∉ (cutfrom line sep).1 := by
  intro member
  simpa using List.mem_takeWhile_imp member

theorem mem_of_mem_cutfrom (member : c ∈ (cutfrom line sep).1) : c ∈ line :=
  (List.takeWhile_sublist _).subset member

theorem mem_of_mem_cutfrom_rest (member : c ∈ (cutfrom line sep).2) : c ∈ line :=
  (List.dropWhile_sublist _).subset (List.mem_of_mem_tail member)

theorem head_of_cutfrom (head : c ∈ (cutfrom line sep).1.head?) : c ∈ line.head? := by
  cases line with
  | nil => cases head
  | cons first line =>
    by_cases same : (first != sep) = true <;> simp_all [cutfrom]

theorem mem_of_mem_trim (member : c ∈ trim line) : c ∈ line :=
  (List.takeWhile_sublist _).subset ((List.dropWhile_sublist _).subset member)

theorem not_mem_trim : '\r' ∉ trim line := by
  intro member
  simpa using List.mem_takeWhile_imp ((List.dropWhile_sublist _).subset member)

theorem head_trim (head : c ∈ (trim line).head?) : isspace c = false := by
  have := List.head?_dropWhile_not isspace (line.takeWhile (· != '\r'))
  rw [trim, firstchar] at head
  rw [head] at this
  exact this

end Cuts

section Sound

variable {buf : List Char} {olist : List Entry}

/-- A variable from a line is sound. -/
theorem sound_create (unbroken : '\n' ∉ buf) (plain : lineHeader buf = false) :
    (Var.create (trim buf)).Sound := by
  have newline : '\n' ∉ trim buf := fun member => unbroken (mem_of_mem_trim member)
  have front {c : Char} (free : c ∉ trim buf) : c ∉ (cutfrom (trim buf) ';').1 :=
    fun member => free (mem_of_mem_cutfrom member)
  have contents {c : Char} (free : c ∉ trim buf) :
      c ∉ cStr (cutfrom (cutfrom (trim buf) ';').1 '=').2 := fun member =>
    front free (mem_of_mem_cutfrom_rest ((List.takeWhile_sublist _).subset member))
  refine ⟨?_, fun c head => ?_, ?_, ?_⟩
  · have name {c : Char} (free : c ∉ (cutfrom (trim buf) ';').1) :
        c ∉ (cutfrom (cutfrom (trim buf) ';').1 '=').1 :=
      fun member => free (mem_of_mem_cutfrom member)
    simpa [Var.create] using
      ⟨name (front newline), name (front not_mem_trim), not_mem_cutfrom, name not_mem_cutfrom⟩
  · have first : c ∈ (trim buf).head? := head_of_cutfrom (head_of_cutfrom head)
    refine ⟨head_trim first, ?_⟩
    rintro rfl
    rw [lineHeader, isHeader, first] at plain
    cases plain
  · have ended : '\x00' ∉ cStr (cutfrom (cutfrom (trim buf) ';').1 '=').2 := not_mem_cutfrom
    simpa [Var.create] using ⟨contents newline, contents not_mem_trim, ended⟩
  · have description {c : Char} (free : c ∉ trim buf) : c ∉ (cutfrom (trim buf) ';').2 :=
      fun member => free (mem_of_mem_cutfrom_rest member)
    simpa [Var.create] using ⟨description newline, description not_mem_trim⟩

theorem sound_hub (unbroken : '\n' ∉ buf) {olist : List Var} (sound : ∀ v ∈ olist, v.Sound) :
    (Hub.create (trim buf) olist).Sound := by
  have inside {c : Char} (free : c ∉ trim buf) : c ∉ (trim buf).tail :=
    fun member => free (List.mem_of_mem_tail member)
  have newline : '\n' ∉ trim buf := fun member => unbroken (mem_of_mem_trim member)
  refine ⟨?_, ?_, sound⟩
  · have name {c : Char} (free : c ∉ (cutfrom (trim buf).tail ';').1) :
        c ∉ (cutfrom (cutfrom (trim buf).tail ';').1 ']').1 :=
      fun member => free (mem_of_mem_cutfrom member)
    have front {c : Char} (free : c ∉ trim buf) : c ∉ (cutfrom (trim buf).tail ';').1 :=
      fun member => inside free (mem_of_mem_cutfrom member)
    simpa [Hub.create] using
      ⟨name (front newline), name (front not_mem_trim), not_mem_cutfrom, name not_mem_cutfrom⟩
  · have description {c : Char} (free : c ∉ trim buf) : c ∉ (cutfrom (trim buf).tail ';').2 :=
      fun member => inside free (mem_of_mem_cutfrom_rest member)
    simpa [Hub.create] using ⟨description newline, description not_mem_trim⟩

theorem sound_empty : (Var.create []).Sound := by
  have empty : Var.create [] = {} := rfl
  rw [empty]
  refine ⟨?_, ?_, ?_, ?_⟩ <;> simp

theorem sound_sections {lines : List (List Char)} (unbroken : ∀ line ∈ lines, '\n' ∉ line) :
    (∀ v ∈ (sections lineHeader lines).1, v.Sound) ∧
      ∀ h ∈ (sections lineHeader lines).2, h.Sound := by
  induction lines with
  | nil => simp [sections]
  | cons line lines ih =>
    obtain ⟨now, unbroken⟩ := List.forall_mem_cons.mp unbroken
    obtain ⟨vars, hubs⟩ := ih unbroken
    by_cases header : lineHeader line = true
    · simpa [sections, header] using ⟨sound_hub now vars, hubs⟩
    · simpa [sections, header] using ⟨⟨sound_create now (by simpa using header), vars⟩, hubs⟩

theorem sound_entries {sections : List Var × List Hub} (vars : ∀ v ∈ sections.1, v.Sound)
    (hubs : ∀ h ∈ sections.2, h.Sound) : ∀ e ∈ entries sections, e.Sound := by
  intro e member
  obtain member | member := List.mem_append.mp member
  · obtain ⟨v, inside, rfl⟩ := List.mem_map.mp member
    exact vars v inside
  · obtain ⟨h, inside, rfl⟩ := List.mem_map.mp member
    exact hubs h inside

theorem entries_sections_ne_nil {lines : List (List Char)} (some : lines ≠ []) :
    entries (sections lineHeader lines) ≠ [] := by
  obtain ⟨line, lines, rfl⟩ := List.exists_cons_of_ne_nil some
  by_cases header : lineHeader line = true <;> simp [sections, header, entries]

theorem complete_ne_nil {lines : List (List Char)} (some : lines ≠ []) (covered : Covered lines) :
    complete lines ≠ [] := by
  obtain plain | ⟨line, member, -⟩ := covered
  · rwa [complete_eq plain]
  · rw [complete]
    split
    · exact List.ne_nil_of_mem member
    · exact some

theorem mem_of_mem_complete {line : List Char} {lines : List (List Char)}
    (member : line ∈ complete lines) : line ∈ lines := by
  rw [complete] at member
  split at member
  · exact List.mem_of_mem_dropLast member
  · exact member

/-- Each text is read, and gives sound entries. -/
theorem read_sound (text : List Char) :
    ∃ olist, INIFile.read text = some olist ∧ olist ≠ [] ∧ ∀ e ∈ olist, e.Sound := by
  have unbroken (line : List Char) (member : line ∈ text.splitOn '\n') : '\n' ∉ line :=
    Text.not_mem_of_mem_splitOn member
  by_cases covered : Covered (text.splitOn '\n')
  · have sound := sound_sections fun line member => unbroken line (mem_of_mem_complete member)
    refine ⟨_, read_eq covered, ?_, sound_entries sound.1 sound.2⟩
    exact entries_sections_ne_nil (complete_ne_nil (List.splitOn_ne_nil _ _) covered)
  · obtain ⟨lines, line, concat⟩ :=
      (List.eq_nil_or_concat (text.splitOn '\n')).resolve_left (List.splitOn_ne_nil _ _)
    rw [List.concat_eq_append] at concat
    rw [concat, Covered, List.getLast?_concat, List.dropLast_concat, not_or] at covered
    obtain ⟨last, none⟩ := covered
    have header : lineHeader line = true := by simpa using last
    have plain : ∀ other ∈ lines, lineHeader other = false := by simpa using none
    rw [concat] at unbroken
    refine ⟨_, read_only concat plain header, by simp [entries], sound_entries ?_ ?_⟩
    · intro v member
      obtain ⟨other, inside, rfl⟩ := List.mem_map.mp member
      exact sound_create (unbroken other (by simp [inside])) (plain other inside)
    · intro h member
      obtain rfl := List.mem_singleton.mp member
      exact sound_hub (unbroken line (by simp)) (by simpa using sound_empty)

theorem Var.Sound.set {v : Var} (sound : v.Sound) {str : List Char}
    (free : ∀ c ∈ ['\n', '\r'], c ∉ str) : (v.set str).Sound := by
  have inside {c : Char} (free : c ∉ str) : c ∉ cStr str :=
    fun member => free ((List.takeWhile_sublist _).subset member)
  have ended : '\x00' ∉ cStr str := not_mem_cutfrom
  obtain ⟨newline, carriage⟩ : '\n' ∉ str ∧ '\r' ∉ str := by simpa using free
  refine ⟨sound.name_free, sound.name_head, ?_, sound.description_free⟩
  simpa [Var.set] using ⟨inside newline, inside carriage, ended⟩

theorem Call.Valid.sound {call : Call} (valid : call.Valid) :
    (({ name := call.name } : Var).set call.str).Sound := by
  refine Var.Sound.set ⟨?_, fun c head => ⟨valid.name_blank c head, ?_⟩, by simp, by simp⟩
    valid.str_free
  · have free := valid.name_free
    simp only [List.forall_mem_cons] at free ⊢
    exact ⟨free.1, free.2.1, free.2.2.2.1, free.2.2.2.2.1, by simp⟩
  · rintro rfl
    exact valid.name_free '[' (by simp) (List.mem_of_mem_head? head)

/-- Writing one entry keeps what holds of all entries. -/
theorem assign_sound {α : Type*} {nameOf : α → List Char} {name : List Char} {set : α → Option α}
    {new : α} {olist result : List α} {P : α → Prop} (before : ∀ a ∈ olist, P a)
    (changed : ∀ a b, P a → set a = some b → P b) (appended : P new)
    (assigned : assign nameOf name set new olist = some result) :
    result ≠ [] ∧ ∀ a ∈ result, P a := by
  induction olist generalizing result with
  | nil =>
    obtain rfl := Option.some.inj assigned
    simpa using appended
  | cons a olist ih =>
    obtain ⟨now, before⟩ := List.forall_mem_cons.mp before
    rw [assign] at assigned
    split at assigned
    · obtain ⟨b, written, rfl⟩ := Option.map_eq_some_iff.mp assigned
      exact ⟨by simp, List.forall_mem_cons.mpr ⟨changed a b now written, before⟩⟩
    · obtain ⟨rest, later, rfl⟩ := Option.map_eq_some_iff.mp assigned
      exact ⟨by simp, List.forall_mem_cons.mpr ⟨now, (ih before later).2⟩⟩

theorem writevar_sound {call : Call} (valid : call.Valid) {result : List Entry}
    (some : olist ≠ []) (sound : ∀ e ∈ olist, e.Sound)
    (written : INIFile.writevar olist call = .some result) :
    result ≠ [] ∧ ∀ e ∈ result, e.Sound := by
  rw [INIFile.writevar] at written
  split at written
  · refine assign_sound sound (fun e e' before set => ?_) ?_ written
    · cases e with
      | var v =>
        obtain rfl := Option.some.inj set
        exact Var.Sound.set before valid.str_free
      | hub h => cases set
    · exact valid.sound
  · split at written
    · rename_i h found
      obtain ⟨vars, assigned, rfl⟩ := Option.map_eq_some_iff.mp written
      have before : h.Sound := sound _ (List.mem_of_getElem? found)
      obtain ⟨-, after⟩ := assign_sound (P := Var.Sound) before.olist (fun v v' before set =>
        Option.some.inj set ▸ before.set valid.str_free) valid.sound assigned
      refine ⟨by simpa using some, fun e member => ?_⟩
      obtain old | rfl := List.mem_or_eq_of_mem_set member
      · exact sound e old
      · exact ⟨before.name_free, before.description_free, after⟩
    · cases written

theorem edit_sound {text : List Char} {calls : List Call} (valid : ∀ call ∈ calls, call.Valid)
    (edited : INIFile.edit text calls = some olist) : olist ≠ [] ∧ ∀ e ∈ olist, e.Sound := by
  obtain ⟨start, read, nonempty, sound⟩ := read_sound text
  rw [INIFile.edit, read, Option.bind_some] at edited
  clear read
  induction calls generalizing start with
  | nil =>
    obtain rfl := Option.some.inj edited
    exact ⟨nonempty, sound⟩
  | cons call calls ih =>
    obtain ⟨now, valid⟩ := List.forall_mem_cons.mp valid
    rw [List.foldlM_cons] at edited
    obtain ⟨next, written, edited⟩ := Option.bind_eq_some_iff.mp edited
    obtain ⟨nonempty, sound⟩ := writevar_sound now nonempty sound written
    exact ih valid next edited nonempty sound

end Sound

section Sorting

variable {olist : List Entry}

@[simp] theorem vars_cons_var (v : Var) : vars (.var v :: olist) = v :: vars olist := rfl

@[simp] theorem vars_cons_hub (h : Hub) : vars (.hub h :: olist) = vars olist := rfl

@[simp] theorem hubs_cons_var (v : Var) : hubs (.var v :: olist) = hubs olist := rfl

@[simp] theorem hubs_cons_hub (h : Hub) : hubs (.hub h :: olist) = h :: hubs olist := rfl

/-- A variable behind others and hubs moves between them. -/
theorem moveVar_var (a b rest : List Entry) (v : Var) :
    moveVar (a ++ b ++ .var v :: rest, a.length) (a.length + b.length) =
      (a ++ .var v :: b ++ rest, a.length + 1) := by
  have here : (a ++ b ++ .var v :: rest)[a.length + b.length]? = some (.var v) := by
    rw [← List.length_append]
    simp
  have front : (a ++ b ++ .var v :: rest).take a.length = a := by
    rw [List.append_assoc, List.take_left]
  have hubs : ((a ++ b ++ .var v :: rest).take (a.length + b.length)).drop a.length = b := by
    rw [← List.length_append, List.take_left, List.drop_left]
  have behind : (a ++ b ++ .var v :: rest).drop (a.length + b.length + 1) = rest := by
    rw [← List.drop_drop, ← List.length_append, List.drop_left]
    rfl
  simp only [moveVar, here, front, hubs, behind]

theorem moveVar_hub (a rest : List Entry) (i : ℕ) (h : Hub) :
    moveVar (a ++ .hub h :: rest, i) a.length = (a ++ .hub h :: rest, i) := by
  simp [moveVar]

/-- The rounds of the first loop: `i` is behind the variables, `p` behind the hubs that were
passed. -/
theorem foldl_moveVar (front : List Var) (passed : List Hub) (rest : List Entry) :
    ((List.range' (front.length + passed.length) rest.length).foldl moveVar
      (front.map .var ++ passed.map .hub ++ rest, front.length)).1 =
      entries (front ++ vars rest, passed ++ hubs rest) := by
  induction rest generalizing front passed with
  | nil => simp [entries, vars, hubs]
  | cons e rest ih =>
    rw [List.length_cons, List.range'_succ, List.foldl_cons]
    cases e with
    | var v =>
      have moved := moveVar_var (front.map .var) (passed.map .hub) rest v
      rw [List.length_map, List.length_map] at moved
      rw [moved]
      simpa [Nat.add_right_comm] using ih (front ++ [v]) passed
    | hub h =>
      have passes := moveVar_hub (front.map .var ++ passed.map .hub) rest front.length h
      rw [List.length_append, List.length_map, List.length_map] at passes
      rw [passes]
      simpa [Nat.add_assoc] using ih front (passed ++ [h])

/-- The variables come in front of the hubs, and each keep their order. -/
theorem sortVars_eq (olist : List Entry) : sortVars olist = entries (vars olist, hubs olist) := by
  obtain ⟨front, rest, whole, taken⟩ : ∃ (front : List Var) (rest : List Entry),
      olist = front.map .var ++ rest ∧ olist.takeWhile Entry.isVar = front.map .var := by
    induction olist with
    | nil => exact ⟨[], [], rfl, rfl⟩
    | cons e olist ih =>
      cases e with
      | hub h => exact ⟨[], .hub h :: olist, rfl, rfl⟩
      | var v =>
        obtain ⟨front, rest, rfl, taken⟩ := ih
        refine ⟨v :: front, rest, rfl, ?_⟩
        rw [List.takeWhile_cons_of_pos rfl, taken, List.map_cons]
  have folded := foldl_moveVar front [] rest
  rw [sortVars, taken, List.length_map, whole]
  simp only [vars, hubs, List.filterMap_append, List.filterMap_map] at folded ⊢
  simpa using folded

end Sorting

section Writing

variable {olist : List Entry} {v : Var} {h : Hub}

/-- The lines of an entry. -/
def Entry.lines : Entry → List (List Char)
  | .var v => [v.write]
  | .hub h => h.writeHeader :: h.olist.map Var.write

theorem writeContents_var (olist : List Var) :
    writeContents Var.write olist true = Text.behind '\n' (olist.map Var.write) := by
  induction olist with
  | nil => rfl
  | cons v olist ih => simp [writeContents, ih]

theorem write_eq (e : Entry) : ∃ line lines, e.lines = line :: lines ∧
    e.write = line ++ Text.behind '\n' lines := by
  cases e with
  | var v => exact ⟨v.write, [], rfl, by simp [Entry.write]⟩
  | hub h =>
    refine ⟨h.writeHeader, h.olist.map Var.write, rfl, ?_⟩
    rw [Entry.write, Hub.write, writeContents_var]

theorem writeContents_entry (olist : List Entry) :
    writeContents Entry.write olist true = Text.behind '\n' (olist.flatMap Entry.lines) := by
  induction olist with
  | nil => rfl
  | cons e olist ih =>
    obtain ⟨line, lines, parts, written⟩ := write_eq e
    simp [writeContents, ih, parts, written, Text.behind]

/-- The text of a database is its lines, with newlines between them. -/
theorem writeContents_lines (some : olist ≠ []) :
    writeContents Entry.write olist false = ['\n'].intercalate (olist.flatMap Entry.lines) := by
  obtain ⟨e, olist, rfl⟩ := List.exists_cons_of_ne_nil some
  obtain ⟨line, lines, parts, written⟩ := write_eq e
  simp [writeContents, writeContents_entry, parts, written, Text.intercalate_cons, Text.behind]

theorem not_mem_write {c : Char} (name : c ∉ v.name) (contents : c ∉ v.contents)
    (description : c ∉ v.description) (other : c ≠ '=' ∧ c ≠ ';') : c ∉ v.write := by
  rw [Var.write, List.mem_append, not_or]
  constructor
  · split
    · simp
    · simp [name, contents, other.1]
  · split
    · simp
    · simp [description, other.2]

theorem not_mem_writeHeader {c : Char} (name : c ∉ h.name) (description : c ∉ h.description)
    (other : c ≠ '[' ∧ c ≠ ']' ∧ c ≠ ';') : c ∉ h.writeHeader := by
  rw [Hub.writeHeader]
  split <;> simp [name, description, other]

theorem Var.Sound.free_write (sound : v.Sound) {c : Char} (line : c ∈ ['\n', '\r']) :
    c ∉ v.write := by
  obtain ⟨name, -, contents, description⟩ := sound
  obtain rfl | rfl : c = '\n' ∨ c = '\r' := by simpa using line
  all_goals
    apply not_mem_write
    · exact name _ (by simp)
    · exact contents _ (by simp)
    · exact description _ (by simp)
    · decide

theorem Hub.Sound.free_writeHeader (sound : h.Sound) {c : Char} (line : c ∈ ['\n', '\r']) :
    c ∉ h.writeHeader := by
  obtain ⟨name, description, -⟩ := sound
  obtain rfl | rfl : c = '\n' ∨ c = '\r' := by simpa using line
  all_goals
    apply not_mem_writeHeader
    · exact name _ (by simp)
    · exact description _ (by simp)
    · decide

/-- A written line is trimmed. -/
theorem Var.Sound.trim_write (sound : v.Sound) : trim v.write = v.write := by
  rw [trim, takeWhile_of_not_mem (sound.free_write (by simp)), firstchar, Var.write]
  cases named : v.name with
  | nil => by_cases empty : v.description = [] <;> simp [empty, isspace]
  | cons c name =>
    have := (sound.name_head c (by simp [named])).1
    simp [this]

theorem Var.Sound.not_lineHeader (sound : v.Sound) : lineHeader v.write = false := by
  rw [lineHeader, sound.trim_write, Var.write]
  cases named : v.name with
  | nil => by_cases empty : v.description = [] <;> simp [empty, isHeader]
  | cons c name =>
    have := (sound.name_head c (by simp [named])).2
    simp [isHeader, this]

theorem Hub.Sound.trim_writeHeader (sound : h.Sound) : trim h.writeHeader = h.writeHeader := by
  rw [trim, takeWhile_of_not_mem (sound.free_writeHeader (by simp)), firstchar, Hub.writeHeader]
  simp [isspace]

theorem Hub.Sound.writeHeader_lineHeader (sound : h.Sound) : lineHeader h.writeHeader = true := by
  rw [lineHeader, sound.trim_writeHeader]
  rfl

/-- A comment is cut off again. -/
theorem cutfrom_remark {front : List Char} (free : ';' ∉ front) (description : List Char) :
    cutfrom (front ++ if description = [] then [] else ';' :: description) ';' =
      (front, description) := by
  by_cases empty : description = []
  · simpa [empty] using cutfrom_of_not_mem free
  · rw [if_neg empty]
    exact cutfrom_append free

/-- The header of a hub is read back. -/
theorem Hub.Sound.create_writeHeader (sound : h.Sound) (olist : List Var) :
    Hub.create h.writeHeader olist = { h with olist } := by
  obtain ⟨name, description, -⟩ := sound
  have bracket : ']' ∉ h.name := name _ (by simp)
  have remark : ';' ∉ h.name ++ [']'] := by simpa using name ';' (by simp)
  have front : cutfrom (h.name ++ [']']) ']' = (h.name, []) := cutfrom_append bracket
  have cut := cutfrom_remark remark h.description
  rw [List.append_assoc] at cut
  simp only [Hub.create, Hub.writeHeader, List.cons_append, List.tail_cons]
  simp only [List.singleton_append] at cut
  rw [cut, front]

/-- A variable is read back if and only if it is kept. -/
theorem Var.Sound.create_write_iff (sound : v.Sound) : Var.create v.write = v ↔ v.Kept := by
  constructor
  · intro same
    have contents : cStr (cutfrom (cutfrom v.write ';').1 '=').2 = v.contents :=
      congrArg Var.contents same
    rw [Var.Kept, ← contents]
    constructor
    · intro member
      have inside := (List.takeWhile_sublist _).subset member
      exact not_mem_cutfrom (mem_of_mem_cutfrom_rest inside)
    · intro empty
      have line : cutfrom v.write ';' = ([], v.description) := by
        have cut := @cutfrom_remark [] (by simp) v.description
        simpa [Var.write, empty] using cut
      rw [line]
      rfl
  · rintro ⟨free, nameless⟩
    by_cases empty : v.name = []
    · have line : cutfrom v.write ';' = ([], v.description) := by
        have cut := @cutfrom_remark [] (by simp) v.description
        simpa [Var.write, empty] using cut
      obtain ⟨name, contents, description⟩ := v
      obtain rfl : name = [] := empty
      obtain rfl : contents = [] := nameless rfl
      simp only [Var.create, line]
      rfl
    · have remark : ';' ∉ v.name ++ '=' :: v.contents := by
        simpa [free] using sound.name_free ';' (by simp)
      have line : cutfrom v.write ';' = (v.name ++ '=' :: v.contents, v.description) := by
        rw [Var.write, if_neg empty]
        exact cutfrom_remark remark v.description
      have parts : cutfrom (v.name ++ '=' :: v.contents) '=' = (v.name, v.contents) :=
        cutfrom_append (sound.name_free '=' (by simp))
      have ended : cStr v.contents = v.contents :=
        takeWhile_of_not_mem (sound.contents_free '\x00' (by simp))
      simp only [Var.create, line, parts, ended]

/-- A hub as it is read back. -/
def Hub.reread (h : Hub) : Hub :=
  { h with olist := h.olist.map fun v => Var.create v.write }

/-- The written lines are the sections of the database. -/
theorem sections_lines {vars : List Var} {hubs : List Hub} (sound : ∀ v ∈ vars, v.Sound)
    (soundHubs : ∀ h ∈ hubs, h.Sound) :
    sections lineHeader ((entries (vars, hubs)).flatMap Entry.lines) =
      (vars.map fun v => Var.create v.write, hubs.map Hub.reread) := by
  have own {olist : List Var} (sound : ∀ v ∈ olist, v.Sound) (rest : List (List Char)) :
      sections lineHeader (olist.map Var.write ++ rest) =
        ((olist.map fun v => Var.create v.write) ++ (sections lineHeader rest).1,
          (sections lineHeader rest).2) := by
    rw [sections_append]
    · have same : ∀ v ∈ olist, Var.create (trim v.write) = Var.create v.write :=
        fun v member => by rw [(sound v member).trim_write]
      rw [List.map_map, ← List.map_congr_left same]
      rfl
    · intro line member
      obtain ⟨v, inside, rfl⟩ := List.mem_map.mp member
      exact (sound v inside).not_lineHeader
  have behind : sections lineHeader ((hubs.map Entry.hub).flatMap Entry.lines) =
      ([], hubs.map Hub.reread) := by
    induction hubs with
    | nil => rfl
    | cons h hubs ih =>
      obtain ⟨now, soundHubs⟩ := List.forall_mem_cons.mp soundHubs
      simp only [List.map_cons, List.flatMap_cons, Entry.lines, List.cons_append, sections,
        own now.olist, ih soundHubs, now.writeHeader_lineHeader, now.trim_writeHeader, if_true,
        List.append_nil, now.create_writeHeader]
      rfl
  have front : (vars.map Entry.var).flatMap Entry.lines = vars.map Var.write := by
    rw [List.flatMap_map, List.map_eq_flatMap]
    rfl
  rw [entries, List.flatMap_append, front, own sound, behind, List.append_nil]

theorem map_eq_self_iff {α : Type*} {f : α → α} {l : List α} : l.map f = l ↔ ∀ a ∈ l, f a = a := by
  induction l with
  | nil => simp
  | cons a l ih => simp [ih]

/-- The database that is read back is the same if and only if each variable is kept. -/
theorem reread_iff {vars : List Var} {hubs : List Hub} (sound : ∀ v ∈ vars, v.Sound)
    (soundHubs : ∀ h ∈ hubs, h.Sound) :
    (vars.map (fun v => Var.create v.write), hubs.map Hub.reread) = (vars, hubs) ↔
      ∀ v ∈ vars ++ hubs.flatMap Hub.olist, v.Kept := by
  have own {olist : List Var} (sound : ∀ v ∈ olist, v.Sound) :
      (olist.map fun v => Var.create v.write) = olist ↔ ∀ v ∈ olist, v.Kept := by
    rw [map_eq_self_iff]
    exact forall₂_congr fun v member => (sound v member).create_write_iff
  have hub (h : Hub) (member : h ∈ hubs) : h.reread = h ↔ ∀ v ∈ h.olist, v.Kept := by
    rw [← own (soundHubs h member).olist]
    constructor
    · exact fun same => congrArg Hub.olist same
    · intro same
      rw [Hub.reread, same]
  rw [Prod.mk.injEq, own sound, map_eq_self_iff, forall₂_congr hub]
  simp only [List.mem_append, List.mem_flatMap, or_imp, forall_and]
  refine and_congr_right fun _ => ⟨?_, ?_⟩
  · rintro all v ⟨h, member, inside⟩
    exact all h member v inside
  · exact fun all h member v inside => all v ⟨h, member, inside⟩

theorem mem_vars {olist : List Entry} {v : Var} (member : v ∈ vars olist) : .var v ∈ olist := by
  obtain ⟨e, inside, same⟩ := List.mem_filterMap.mp member
  cases e with
  | var w =>
    obtain rfl := Option.some.inj same
    exact inside
  | hub h => cases same

theorem mem_hubs {olist : List Entry} {h : Hub} (member : h ∈ hubs olist) : .hub h ∈ olist := by
  obtain ⟨e, inside, same⟩ := List.mem_filterMap.mp member
  cases e with
  | var w => cases same
  | hub k =>
    obtain rfl := Option.some.inj same
    exact inside

theorem vars_hubs_ne_nil {olist : List Entry} (some : olist ≠ []) :
    vars olist ≠ [] ∨ hubs olist ≠ [] := by
  obtain ⟨e, olist, rfl⟩ := List.exists_cons_of_ne_nil some
  cases e <;> simp

/-- If the last hub has a variable, the last line is one. -/
theorem exists_last {vars : List Var} {hubs : List Hub} (some : vars ≠ [] ∨ hubs ≠ [])
    (sound : ∀ v ∈ vars, v.Sound) (soundHubs : ∀ h ∈ hubs, h.Sound)
    (ends : ∀ h ∈ hubs.getLast?, h.olist ≠ []) : ∃ v : Var, v.Sound ∧
      ((entries (vars, hubs)).flatMap Entry.lines).getLast? = .some v.write := by
  obtain rfl | ⟨front, h, rfl⟩ := List.eq_nil_or_concat hubs
  · obtain ⟨front, v, rfl⟩ := (List.eq_nil_or_concat vars).resolve_left (by simpa using some)
    rw [List.concat_eq_append] at sound ⊢
    refine ⟨v, sound v (by simp), ?_⟩
    simp [entries, Entry.lines]
  · rw [List.concat_eq_append] at ends soundHubs ⊢
    have filled : h.olist ≠ [] := ends h (by simp)
    obtain ⟨olist, v, last⟩ := (List.eq_nil_or_concat h.olist).resolve_left filled
    rw [List.concat_eq_append] at last
    refine ⟨v, (soundHubs h (by simp)).olist v (by simp [last]), ?_⟩
    simp [entries, Entry.lines, last, List.getLast?_append, List.getLast?_cons]

theorem unbroken_lines {vars : List Var} {hubs : List Hub} (sound : ∀ v ∈ vars, v.Sound)
    (soundHubs : ∀ h ∈ hubs, h.Sound) :
    ∀ line ∈ (entries (vars, hubs)).flatMap Entry.lines, '\n' ∉ line := by
  have own {olist : List Var} (sound : ∀ v ∈ olist, v.Sound) :
      ∀ line ∈ olist.map Var.write, '\n' ∉ line := by
    intro line member
    obtain ⟨v, inside, rfl⟩ := List.mem_map.mp member
    exact (sound v inside).free_write (by simp)
  intro line member
  obtain ⟨e, inside, among⟩ := List.mem_flatMap.mp member
  obtain var | hub := List.mem_append.mp inside
  · obtain ⟨v, here, rfl⟩ := List.mem_map.mp var
    obtain rfl := List.mem_singleton.mp among
    exact own sound _ (List.mem_map_of_mem here)
  · obtain ⟨h, here, rfl⟩ := List.mem_map.mp hub
    obtain rfl | own' := List.mem_cons.mp among
    · exact (soundHubs h here).free_writeHeader (by simp)
    · exact own (soundHubs h here).olist line own'

end Writing

section Rereading

variable {text : List Char} {calls : List Call} {olist : List Entry}

/-- `write` leaves the variables and the hubs each in their order. If the last hub is not empty,
reading the text gives this database back exactly if no contents contain a `;`, and no variable
without a name has contents. -/
theorem read_write_iff (valid : ∀ call ∈ calls, call.Valid)
    (edited : INIFile.edit text calls = some olist)
    (ends : ∀ h ∈ (hubs olist).getLast?, h.olist ≠ []) :
    (INIFile.write olist).2 = entries (vars olist, hubs olist) ∧
      (INIFile.read (INIFile.write olist).1 = some (INIFile.write olist).2 ↔
        ∀ v ∈ allVars olist, v.Kept) := by
  refine ⟨sortVars_eq olist, ?_⟩
  obtain ⟨nonempty, sound⟩ := edit_sound valid edited
  have soundVars (v : Var) (member : v ∈ vars olist) : v.Sound := sound _ (mem_vars member)
  have soundHubs (h : Hub) (member : h ∈ hubs olist) : h.Sound := sound _ (mem_hubs member)
  have some := vars_hubs_ne_nil nonempty
  obtain ⟨v, soundLast, last⟩ := exists_last some soundVars soundHubs ends
  have filled : entries (vars olist, hubs olist) ≠ [] := by
    intro empty
    simp [empty] at last
  have lines : (INIFile.write olist).1.splitOn '\n' =
      (entries (vars olist, hubs olist)).flatMap Entry.lines := by
    rw [INIFile.write, sortVars_eq, writeContents_lines filled]
    apply List.splitOn_intercalate '\n' (unbroken_lines soundVars soundHubs)
    intro empty
    simp [empty] at last
  have plain : ∀ line ∈ ((INIFile.write olist).1.splitOn '\n').getLast?,
      lineHeader line = false := by
    rw [lines, last]
    simpa using soundLast.not_lineHeader
  have read := read_eq (.inl plain)
  rw [complete_eq plain, lines, sections_lines soundVars soundHubs] at read
  rw [read, INIFile.write, sortVars_eq, Option.some.injEq, allVars,
    ← reread_iff soundVars soundHubs]
  exact ⟨entries_injective, congrArg entries⟩

/-- A variable for the hub and one for the file, which is written in front of the hub. -/
theorem read_write_two : ∃ olist, INIFile.edit ['[', 'h', ']', '\n', 'x', '=', '1']
      [⟨some 0, ['y'], [' ', '2']⟩, ⟨none, ['t'], ['=']⟩] = some olist ∧
    INIFile.read (INIFile.write olist).1 = some (INIFile.write olist).2 := by
  have valid : ∀ call ∈ ([⟨some 0, ['y'], [' ', '2']⟩, ⟨none, ['t'], ['=']⟩] : List Call),
      call.Valid := by
    simp only [List.forall_mem_cons]
    refine ⟨⟨?_, ?_, ?_, ?_⟩, ⟨?_, ?_, ?_, ?_⟩, by simp⟩ <;> simp [Foundation.isspace]
  have edited : INIFile.edit ['[', 'h', ']', '\n', 'x', '=', '1']
      [⟨some 0, ['y'], [' ', '2']⟩, ⟨none, ['t'], ['=']⟩] =
        some [.hub ⟨['h'], [], [⟨['x'], ['1'], []⟩, ⟨['y'], [' ', '2'], []⟩]⟩,
          .var ⟨['t'], ['='], []⟩] := by decide
  refine ⟨_, edited, (read_write_iff valid edited (by decide)).2.mpr ?_⟩
  intro v member
  have kept : ∀ v ∈ ([⟨['t'], ['='], []⟩, ⟨['x'], ['1'], []⟩, ⟨['y'], [' ', '2'], []⟩] : List Var),
      ';' ∉ v.contents ∧ (v.name = [] → v.contents = []) := by decide
  exact kept v member

/-- A remark sign in the value: what is read back has no value. -/
theorem not_read_write_remark :
    (∀ call ∈ ([⟨none, ['a'], [';']⟩] : List Call), call.Valid) ∧
      ∃ olist, INIFile.edit [] [⟨none, ['a'], [';']⟩] = some olist ∧
        INIFile.read (INIFile.write olist).1 ≠ some (INIFile.write olist).2 := by
  have edited : INIFile.edit [] [⟨none, ['a'], [';']⟩] =
      some [.var ⟨[], [], []⟩, .var ⟨['a'], [';'], []⟩] := by decide
  refine ⟨?_, _, edited, by decide⟩
  simp only [List.forall_mem_cons]
  refine ⟨⟨?_, ?_, ?_, ?_⟩, by simp⟩ <;> simp [Foundation.isspace]

end Rereading

end Crs.ObjectIO
