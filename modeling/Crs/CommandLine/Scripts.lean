import Crs.CommandLine.Reader
import Mathlib.Data.List.Forall2

/-!
# Flattening scripts

`pprocess` flattens the tokens of a script. `get_sw` does the same with the arguments, but it
lacks the branch for `@@`: such an argument is taken for a script whose name begins with `@`.
-/

namespace Crs.CommandLine

open Foundation

/-- A token that stands for a script. -/
def Names (token name : Token) : Prop :=
  isScript token = true ∧ isScript token.tail = false ∧ token.tail = name

def Includes (files : Files) (a b : Token) : Prop :=
  ∃ tokens, files.lookup a = some tokens ∧ ∃ token ∈ tokens, Names token b

/-- A set of scripts that includes no script in itself and has all that it includes. -/
structure Scripts where
  files : Files
  nonempty : ∀ name tokens, files.lookup name = some tokens → [] ∉ tokens
  acyclic : Acyclic (Includes files)
  closed : ∀ a b, Includes files a b → (files.lookup b).isSome

/-- The tokens with each script replaced by its own ones. -/
inductive Flat (files : Files) : List Token → List Token → Prop where
  | nil : Flat files [] []
  | plain {token : Token} {tokens flat : List Token} : isScript token = false →
      Flat files tokens flat → Flat files (token :: tokens) (token :: flat)
  | escaped {token : Token} {tokens flat : List Token} : isScript token = true →
      isScript token.tail = true → Flat files tokens flat →
      Flat files (token :: tokens) (token.tail :: flat)
  | script {token : Token} {inner tokens flat rest : List Token} : isScript token = true →
      isScript token.tail = false → files.lookup token.tail = some inner →
      Flat files inner flat → Flat files tokens rest →
      Flat files (token :: tokens) (flat ++ rest)

/-- The switches of each argument, with its position. -/
def tagged : ℕ → List (List Token) → List (ℕ × Token)
  | _, [] => []
  | position, part :: parts => part.map (position, ·) ++ tagged (position + 1) parts

/-- `get_sw` delivers the arguments in order, flattened; and if they are the tokens of a script,
`@file` alone gives the same commands. -/
def Expands (scripts : Scripts) (args : List Token) : Prop :=
  (∃ parts, List.Forall₂ (fun arg part => Flat scripts.files [arg] part) args parts ∧
    Delivers scripts.files (Reader.start args) (tagged 1 parts)) ∧
  ∀ file, scripts.files.lookup file = some args → isScript file = false → ∀ calls,
    ∃ fuel result, Reader.commands scripts.files fuel calls (Reader.start args) = some result ∧
      Reader.commands scripts.files fuel calls (Reader.start ['@' :: file]) = some result

/-- The scripts of the arguments exist. -/
def Present (files : Files) (args : List Token) : Prop :=
  ∀ arg ∈ args, ∀ name, Names arg name → (files.lookup name).isSome

/-- An argument with two prefixes is the name of a script that contains just this name. -/
def Unescaped (files : Files) (args : List Token) : Prop :=
  ∀ arg ∈ args, isScript arg = true → isScript arg.tail = true →
    ∃ tokens, files.lookup arg.tail = some tokens ∧ Flat files tokens [arg.tail]

section Flattening

variable {files : Files} {tokens others flat flat' : List Token} {token name : Token}

theorem Flat.append (first : Flat files tokens flat) (last : Flat files others flat') :
    Flat files (tokens ++ others) (flat ++ flat') := by
  induction first with
  | nil => exact last
  | plain plain _ ih => exact .plain plain ih
  | escaped script escape _ ih => exact .escaped script escape ih
  | script script name found inner _ _ ih =>
    rw [List.append_assoc]
    exact .script script name found inner ih

theorem Flat.unique (first : Flat files tokens flat) (second : Flat files tokens flat') :
    flat = flat' := by
  induction first generalizing flat' with
  | nil =>
    cases second
    rfl
  | plain plain _ ih =>
    cases second with
    | plain _ rest => rw [ih rest]
    | escaped script | script script => simp [plain] at script
  | escaped script escape _ ih =>
    cases second with
    | plain plain => simp [script] at plain
    | escaped _ _ rest => rw [ih rest]
    | script _ name => simp [escape] at name
  | script script name found _ _ ihInner ih =>
    cases second with
    | plain plain => simp [script] at plain
    | escaped _ escape => simp [name] at escape
    | script _ _ found' inner rest =>
      obtain rfl := Option.some.inj (found.symm.trans found')
      rw [ihInner inner, ih rest]

/-- One round of the loop of `pprocess`. -/
def push (files : Files) (fuel : ℕ) (script : List Token) (oneToken : Token) :
    Option (List Token) :=
  if isScript oneToken then
    if isScript oneToken.tail then some (script ++ [oneToken.tail])
    else pprocess files fuel oneToken.tail script
  else some (script ++ [oneToken])

theorem pprocess_eq (fuel : ℕ) (script : List Token) : pprocess files (fuel + 1) name script =
    (files.lookup name).bind fun tokens => tokens.foldlM (push files fuel) script := rfl

theorem flat_of_push {fuel : ℕ} {script result : List Token}
    (inner : ∀ name script result, pprocess files fuel name script = some result →
      ∃ tokens flat, files.lookup name = some tokens ∧ Flat files tokens flat ∧
        result = script ++ flat)
    (pushed : push files fuel script token = some result) :
    ∃ flat, Flat files [token] flat ∧ result = script ++ flat := by
  unfold push at pushed
  by_cases prefixed : isScript token = true
  · rw [if_pos prefixed] at pushed
    by_cases escape : isScript token.tail = true
    · rw [if_pos escape] at pushed
      obtain rfl := Option.some.inj pushed
      exact ⟨_, .escaped prefixed escape .nil, rfl⟩
    · rw [if_neg escape] at pushed
      obtain ⟨tokens, flat, found, flattened, rfl⟩ := inner _ _ _ pushed
      have whole := Flat.script prefixed (by simpa using escape) found flattened .nil
      exact ⟨_, whole, by simp⟩
  · rw [if_neg prefixed] at pushed
    obtain rfl := Option.some.inj pushed
    exact ⟨_, .plain (by simpa using prefixed) .nil, rfl⟩

/-- What `pprocess` appends is the flattened script. -/
theorem flat_of_pprocess {fuel : ℕ} {script result : List Token}
    (processed : pprocess files fuel name script = some result) :
    ∃ tokens flat, files.lookup name = some tokens ∧ Flat files tokens flat ∧
      result = script ++ flat := by
  induction fuel generalizing name script result with
  | zero => cases processed
  | succ fuel ih =>
    rw [pprocess_eq] at processed
    obtain ⟨tokens, found, loop⟩ := Option.bind_eq_some_iff.mp processed
    suffices flattened : ∃ flat, Flat files tokens flat ∧ result = script ++ flat by
      obtain ⟨flat, flattened, rfl⟩ := flattened
      exact ⟨tokens, flat, found, flattened, rfl⟩
    clear found processed
    induction tokens generalizing script with
    | nil =>
      obtain rfl := Option.some.inj loop
      exact ⟨[], .nil, by simp⟩
    | cons token tokens ihTokens =>
      rw [List.foldlM_cons] at loop
      obtain ⟨next, pushed, loop⟩ := Option.bind_eq_some_iff.mp loop
      obtain ⟨first, flattened, rfl⟩ := flat_of_push (fun _ _ _ => ih) pushed
      obtain ⟨rest, others, rfl⟩ := ihTokens loop
      exact ⟨first ++ rest, flattened.append others, by simp⟩

end Flattening

section Enough

variable {token name : Token} {tokens : List Token}

theorem push_flat {files : Files} {fuel : ℕ}
    (inner : ∀ name, Names token name → ∃ tokens flat, files.lookup name = some tokens ∧
      Flat files tokens flat ∧ ∀ script, pprocess files fuel name script = some (script ++ flat)) :
    ∃ flat, Flat files [token] flat ∧ ∀ script, push files fuel script token =
      some (script ++ flat) := by
  by_cases prefixed : isScript token = true
  · by_cases escape : isScript token.tail = true
    · exact ⟨_, .escaped prefixed escape .nil, fun script => by simp [push, prefixed, escape]⟩
    · have plain : isScript token.tail = false := by simpa using escape
      obtain ⟨tokens, flat, found, flattened, processed⟩ := inner _ ⟨prefixed, plain, rfl⟩
      refine ⟨_, .script prefixed plain found flattened .nil, fun script => ?_⟩
      simp [push, prefixed, plain, processed]
  · have plain : isScript token = false := by simpa using prefixed
    exact ⟨_, .plain plain .nil, fun script => by simp [push, plain]⟩

theorem foldlM_push {files : Files} {fuel : ℕ}
    (each : ∀ token ∈ tokens, ∃ flat, Flat files [token] flat ∧
      ∀ script, push files fuel script token = some (script ++ flat)) :
    ∃ flat, Flat files tokens flat ∧ ∀ script, tokens.foldlM (push files fuel) script =
      some (script ++ flat) := by
  induction tokens with
  | nil => exact ⟨[], .nil, fun script => by simp⟩
  | cons token tokens ih =>
    obtain ⟨now, each⟩ := List.forall_mem_cons.mp each
    obtain ⟨first, flattened, pushed⟩ := now
    obtain ⟨rest, others, loop⟩ := ih each
    exact ⟨first ++ rest, flattened.append others, fun script => by simp [pushed, loop]⟩

theorem Scripts.reach (scripts : Scripts) {a b : Token} (present : (scripts.files.lookup a).isSome)
    (path : Relation.ReflTransGen (Includes scripts.files) a b) :
    b ∈ scripts.files.map Prod.fst := by
  have found : (scripts.files.lookup b).isSome := by
    cases path with
    | refl => exact present
    | tail _ last => exact scripts.closed _ _ last
  obtain ⟨file, member, same⟩ := List.lookup_isSome_iff.mp found
  obtain rfl : b = file.1 := by simpa using same
  exact List.mem_map_of_mem member

/-- There is enough fuel for each script. -/
theorem Scripts.pprocess_flat (scripts : Scripts)
    (present : (scripts.files.lookup name).isSome) : ∃ tokens flat,
      scripts.files.lookup name = some tokens ∧ Flat scripts.files tokens flat ∧
        ∀ script, pprocess scripts.files scripts.files.length name script =
          some (script ++ flat) := by
  have all := scripts.acyclic.fuel_induction (P := fun fuel name =>
    (scripts.files.lookup name).isSome → ∃ tokens flat,
      scripts.files.lookup name = some tokens ∧ Flat scripts.files tokens flat ∧
        ∀ script, pprocess scripts.files fuel name script = some (script ++ flat))
    (fun fuel name ih present => ?_) (fun _ => scripts.reach present)
  · rw [List.length_map] at all
    exact all present
  · obtain ⟨tokens, found⟩ := Option.isSome_iff_exists.mp present
    obtain ⟨flat, flattened, loop⟩ := @foldlM_push tokens scripts.files fuel fun token member =>
      push_flat fun inner names =>
        have next : Includes scripts.files name inner := ⟨tokens, found, token, member, names⟩
        ih inner next (scripts.closed _ _ next)
    refine ⟨tokens, flat, found, flattened, fun script => ?_⟩
    rw [pprocess_eq, found]
    exact loop script

end Enough

namespace Reader

variable {files : Files} {s t : Reader} {rest : List (ℕ × Token)}

/-- What the code makes of an argument. -/
def Given (files : Files) (arg : Token) (part : List Token) : Prop :=
  if isScript arg then pprocess files files.length arg.tail [] = some part else part = [arg]

/-- The switches that are left: the rest of the script, and the arguments behind it. -/
def Left (files : Files) (s : Reader) (rest : List (ℕ × Token)) : Prop :=
  ∃ parts, List.Forall₂ (Given files) (s.av.drop (s.swPosition + 1)) parts ∧
    rest = (s.script.drop s.scriptIter).map (s.swPosition, ·) ++ tagged (s.swPosition + 1) parts

/-- No part of the script is left. -/
theorem readScript_eq_none : s.readScript = none ↔ s.script.drop s.scriptIter = [] := by
  simp [readScript]

theorem readScript_eq_some {csw : Token} (read : s.readScript = some (csw, t)) :
    s.script.drop s.scriptIter = csw :: t.script.drop t.scriptIter ∧ t.av = s.av ∧
      t.swPosition = s.swPosition := by
  obtain ⟨token, found, same⟩ := Option.map_eq_some_iff.mp read
  obtain ⟨rfl, rfl⟩ := Prod.mk.inj same
  obtain ⟨inside, rfl⟩ := List.getElem?_eq_some_iff.mp found
  exact ⟨List.drop_eq_getElem_cons inside, rfl, rfl⟩

theorem left_switch {csw : Token} (read : s.readScript = some (csw, t)) :
    Left files s rest ↔ ∃ rest', rest = (t.swPosition, csw) :: rest' ∧ Left files t rest' := by
  obtain ⟨script, av, position⟩ := readScript_eq_some read
  simp only [Left, script, av, position, List.map_cons, List.cons_append]
  constructor
  · rintro ⟨parts, given, rfl⟩
    exact ⟨_, rfl, parts, given, rfl⟩
  · rintro ⟨_, rfl, parts, given, rfl⟩
    exact ⟨parts, given, rfl⟩

/-- Behind the script comes the next argument. -/
theorem left_argument {csw : Token} (ended : s.readScript = none)
    (found : s.av[s.swPosition + 1]? = some csw) :
    Left files s rest ↔ ∃ part parts, Given files csw part ∧
      List.Forall₂ (Given files) (s.av.drop (s.swPosition + 1 + 1)) parts ∧
      rest = part.map (s.swPosition + 1, ·) ++ tagged (s.swPosition + 1 + 1) parts := by
  obtain ⟨inside, rfl⟩ := List.getElem?_eq_some_iff.mp found
  rw [Left, readScript_eq_none.mp ended, List.drop_eq_getElem_cons inside]
  constructor
  · rintro ⟨parts, given, rfl⟩
    cases given with
    | cons now given => exact ⟨_, _, now, given, by simp [tagged]⟩
  · rintro ⟨part, parts, now, given, rfl⟩
    exact ⟨part :: parts, .cons now given, by simp [tagged]⟩

theorem left_end (ended : s.readScript = none) (none : s.av[s.swPosition + 1]? = none) :
    Left files s rest ↔ rest = [] := by
  rw [List.getElem?_eq_none_iff] at none
  rw [Left, readScript_eq_none.mp ended, List.drop_eq_nil_of_le none]
  constructor
  · rintro ⟨parts, given, rfl⟩
    cases given
    simp [tagged]
  · rintro rfl
    exact ⟨[], .nil, by simp [tagged]⟩

/-- A call of `get_sw` takes the first switch that is left. -/
theorem getSwLoop_spec {fuel : ℕ} (one : 1 ≤ fuel) (enough : s.av.length ≤ s.swPosition + fuel) :
    Left files s rest ↔ ∃ r t, getSwLoop files fuel s = some (r, t) ∧
      match r with
      | none => rest = []
      | some csw => ∃ rest', rest = (t.swPosition, csw) :: rest' ∧ Left files t rest' := by
  induction fuel generalizing s with
  | zero => omega
  | succ fuel ih =>
    unfold getSwLoop
    cases read : s.readScript with
    | some result =>
      obtain ⟨csw, t⟩ := result
      simp [left_switch read]
    | none =>
      cases found : s.av[s.swPosition + 1]? with
      | none =>
        simp only [found, left_end read found]
        constructor
        · rintro rfl
          exact ⟨_, _, rfl, rfl⟩
        · rintro ⟨_, _, ⟨⟩, rfl⟩
          rfl
      | some csw =>
        obtain ⟨inside, -⟩ := List.getElem?_eq_some_iff.mp found
        simp only [found, left_argument read found]
        by_cases prefixed : isScript csw = true
        · simp only [Given, prefixed, if_true, useScript]
          cases processed : pprocess files files.length csw.tail [] with
          | none => simp
          | some script =>
            have next := @ih { s with swPosition := s.swPosition + 1, script, scriptIter := 0 }
              (by omega) (by simp only; omega)
            simp only [Option.map_some, Option.bind_some, ← next]
            rw [Left, List.drop_zero]
            constructor
            · rintro ⟨_, parts, ⟨⟩, given, rfl⟩
              exact ⟨parts, given, rfl⟩
            · rintro ⟨parts, given, rfl⟩
              exact ⟨_, parts, rfl, given, rfl⟩
        · simp only [Given, prefixed, if_false, Bool.false_eq_true]
          have ended := readScript_eq_none.mp read
          constructor
          · rintro ⟨_, parts, rfl, given, rfl⟩
            exact ⟨_, _, rfl, _, rfl, parts, given, by simp [ended]⟩
          · rintro ⟨_, _, ⟨⟩, _, rfl, parts, given, rfl⟩
            exact ⟨_, parts, rfl, given, by simp [ended]⟩

theorem getSw_spec : Left files s rest ↔ ∃ r t, getSw files s = some (r, t) ∧
    match r with
    | none => rest = []
    | some csw => ∃ rest', rest = (t.swPosition, csw) :: rest' ∧ Left files t rest' :=
  getSwLoop_spec (by omega) (by omega)

/-- At the end there is nothing left for later calls. -/
theorem left_of_getSwLoop {fuel : ℕ} (ended : getSwLoop files fuel s = some (none, t)) :
    Left files t [] := by
  induction fuel generalizing s with
  | zero => cases ended
  | succ fuel ih =>
    unfold getSwLoop at ended
    cases read : s.readScript with
    | some result => simp [read] at ended
    | none =>
      cases found : s.av[s.swPosition + 1]? with
      | none =>
        simp only [read, found, Option.some.injEq, Prod.mk.injEq, true_and] at ended
        subst ended
        rw [readScript_eq_none] at read
        rw [List.getElem?_eq_none_iff] at found
        have last := List.getElem?_eq_none_iff.mpr (Nat.le_succ_of_le found)
        refine (left_end (s := { s with swPosition := s.swPosition + 1 }) ?_ last).mpr rfl
        exact readScript_eq_none.mpr read
      | some csw =>
        simp only [read, found] at ended
        split at ended
        · obtain ⟨next, -, ended⟩ := Option.bind_eq_some_iff.mp ended
          exact ih ended
        · simp at ended

theorem delivers_iff : Delivers files s rest ↔ Left files s rest := by
  constructor
  · intro delivers
    induction delivers with
    | ended ended => exact getSw_spec.mpr ⟨none, _, ended, rfl⟩
    | switch next _ ih => exact getSw_spec.mpr ⟨some _, _, next, _, rfl, ih⟩
  · intro left
    induction rest generalizing s with
    | nil =>
      obtain ⟨r, t, result, same⟩ := getSw_spec.mp left
      cases r with
      | none => exact .ended result
      | some csw =>
        obtain ⟨_, same, -⟩ := same
        cases same
    | cons first rest ih =>
      obtain ⟨r, t, result, same⟩ := getSw_spec.mp left
      cases r with
      | none => cases same
      | some csw =>
        obtain ⟨_, ⟨⟩, left⟩ := same
        exact .switch result (ih left)

/-- The command at the begin of a list of switches, and the switches behind it. -/
def splitCommand : List Token → (command : List Token) → List Token × List Token
  | [], command => (command, [])
  | sw :: rest, command =>
      if sw = [] then splitCommand rest command
      else if isNextCommand sw then
        if isNextCommand sw.tail then splitCommand rest (command ++ [sw.tail]) else (command, rest)
      else splitCommand rest (command ++ [sw])

def splitCommands : ℕ → List Token → List (List Token)
  | 0, _ => []
  | calls + 1, switches =>
      (splitCommand switches []).1 :: splitCommands calls (splitCommand switches []).2

/-- The command depends on the switches only. -/
theorem nextCommand_spec {fuel : ℕ} (enough : rest.length < fuel) (left : Left files s rest)
    (command : List Token) : ∃ t rest',
      nextCommand files fuel s command = some ((splitCommand (rest.map Prod.snd) command).1, t) ∧
        Left files t rest' ∧ rest'.map Prod.snd = (splitCommand (rest.map Prod.snd) command).2 ∧
        rest'.length ≤ rest.length := by
  induction fuel generalizing s rest command with
  | zero => omega
  | succ fuel ih =>
    rw [nextCommand]
    obtain ⟨r, t, result, same⟩ := getSw_spec.mp left
    rw [result, Option.bind_some]
    cases r with
    | none =>
      subst same
      exact ⟨t, [], rfl, left_of_getSwLoop result, rfl, Nat.le_refl 0⟩
    | some sw =>
      obtain ⟨others, rfl, behind⟩ := same
      rw [List.length_cons] at enough
      simp only [List.map_cons, splitCommand, List.length_cons]
      have goes (command : List Token) : ∃ t' rest', nextCommand files fuel t command =
          some ((splitCommand (others.map Prod.snd) command).1, t') ∧ Left files t' rest' ∧
            rest'.map Prod.snd = (splitCommand (others.map Prod.snd) command).2 ∧
            rest'.length ≤ others.length + 1 := by
        obtain ⟨t', rest', result, left, same, shorter⟩ := ih (by omega) behind command
        exact ⟨t', rest', result, left, same, Nat.le_succ_of_le shorter⟩
      by_cases empty : sw = []
      · simpa only [empty, if_true] using goes command
      · by_cases next : isNextCommand sw = true
        · by_cases escape : isNextCommand sw.tail = true
          · simpa only [empty, next, escape, if_true, if_false] using goes (command ++ [sw.tail])
          · simp only [empty, next, escape, if_true, if_false]
            exact ⟨t, others, rfl, behind, rfl, Nat.le_succ _⟩
        · simpa only [empty, next, if_false, Bool.false_eq_true] using goes (command ++ [sw])

theorem commands_spec {fuel : ℕ} (calls : ℕ) (enough : rest.length < fuel)
    (left : Left files s rest) :
    commands files fuel calls s = some (splitCommands calls (rest.map Prod.snd)) := by
  induction calls generalizing s rest with
  | zero => rfl
  | succ calls ih =>
    obtain ⟨t, others, result, behind, same, shorter⟩ := nextCommand_spec enough left []
    rw [commands, result, Option.bind_some]
    simp only [ih (by omega) behind, same]
    rfl

end Reader

section Tags

variable {parts parts' : List (List Token)} {k : ℕ}

theorem le_of_mem_tagged {x : ℕ × Token} (member : x ∈ tagged k parts) : k ≤ x.1 := by
  induction parts generalizing k with
  | nil => cases member
  | cons part parts ih =>
    obtain now | later := List.mem_append.mp member
    · obtain ⟨token, -, rfl⟩ := List.mem_map.mp now
      exact Nat.le_refl k
    · exact Nat.le_of_succ_le (ih later)

theorem filter_tagged_first (part : List Token) :
    (tagged k (part :: parts)).filter (·.1 == k) = part.map (k, ·) := by
  rw [tagged, List.filter_append, List.filter_eq_self.mpr, List.filter_eq_nil_iff.mpr,
    List.append_nil]
  · intro x member
    have := le_of_mem_tagged member
    simp
    omega
  · simp

theorem filter_tagged_others (part : List Token) :
    (tagged k (part :: parts)).filter (k + 1 ≤ ·.1) = tagged (k + 1) parts := by
  rw [tagged, List.filter_append, List.filter_eq_nil_iff.mpr, List.filter_eq_self.mpr,
    List.nil_append]
  · intro x member
    simpa using le_of_mem_tagged member
  · simp

theorem tagged_injective (length : parts.length = parts'.length)
    (same : tagged k parts = tagged k parts') : parts = parts' := by
  induction parts generalizing parts' k with
  | nil =>
    cases parts' with
    | nil => rfl
    | cons => cases length
  | cons part parts ih =>
    cases parts' with
    | nil => cases length
    | cons part' parts' =>
      have others : tagged (k + 1) parts = tagged (k + 1) parts' := by
        rw [← filter_tagged_others part, same, filter_tagged_others]
      have first : part.map (k, ·) = part'.map (k, ·) := by
        rw [← filter_tagged_first, same, filter_tagged_first]
      rw [ih (by simpa using length) others]
      congr
      exact List.map_injective_iff.mpr (fun _ _ h => (Prod.mk.inj h).2) first

theorem map_snd_tagged : (tagged k parts).map Prod.snd = parts.flatten := by
  induction parts generalizing k with
  | nil => rfl
  | cons part parts ih => simp [tagged, ih, Function.comp_def]

end Tags

section Claim

variable {scripts : Scripts} {args : List Token} {arg : Token} {part : List Token}

/-- The code flattens an argument, unless it has two prefixes. -/
theorem given_of_flat (flat : Flat scripts.files [arg] part)
    (unescaped : isScript arg = true → isScript arg.tail = true →
      ∃ tokens, scripts.files.lookup arg.tail = some tokens ∧
        Flat scripts.files tokens [arg.tail]) : Reader.Given scripts.files arg part := by
  unfold Reader.Given
  cases flat with
  | plain plain rest =>
    cases rest
    simp [plain]
  | escaped prefixed escape rest =>
    cases rest
    obtain ⟨tokens, found, flattened⟩ := unescaped prefixed escape
    obtain ⟨tokens', flat, found', flattened', processed⟩ :=
      scripts.pprocess_flat (by rw [found]; rfl)
    obtain rfl := Option.some.inj (found.symm.trans found')
    rw [if_pos prefixed, processed, flattened'.unique flattened]
    rfl
  | script prefixed name found flattened rest =>
    cases rest
    obtain ⟨tokens', flat, found', flattened', processed⟩ :=
      scripts.pprocess_flat (by rw [found]; rfl)
    obtain rfl := Option.some.inj (found.symm.trans found')
    rw [if_pos prefixed, processed, flattened'.unique flattened]
    simp

theorem forall₂_both {α β : Type*} {R S : α → β → Prop} {l : List α} {m : List β}
    (first : List.Forall₂ R l m) (second : List.Forall₂ S l m) :
    ∀ a ∈ l, ∃ b, R a b ∧ S a b := by
  induction first with
  | nil => simp
  | cons now _ ih =>
    cases second with
    | cons now' rest => exact List.forall_mem_cons.mpr ⟨⟨_, now, now'⟩, ih rest⟩

theorem exists_flat (present : Present scripts.files args) : ∃ parts,
    List.Forall₂ (fun arg part => Flat scripts.files [arg] part) args parts := by
  induction args with
  | nil => exact ⟨[], .nil⟩
  | cons arg args ih =>
    obtain ⟨now, present⟩ := List.forall_mem_cons.mp present
    obtain ⟨parts, rest⟩ := ih present
    have inner (name : Token) (names : Names arg name) := scripts.pprocess_flat (now name names)
    obtain ⟨part, flat, -⟩ := push_flat inner
    exact ⟨part :: parts, .cons flat rest⟩

theorem forall₂_given {parts : List (List Token)}
    (flat : List.Forall₂ (fun arg part => Flat scripts.files [arg] part) args parts)
    (unescaped : Unescaped scripts.files args) :
    List.Forall₂ (Reader.Given scripts.files) args parts := by
  induction flat with
  | nil => exact .nil
  | cons now _ ih =>
    obtain ⟨own, unescaped⟩ := List.forall_mem_cons.mp unescaped
    exact .cons (given_of_flat now own) (ih unescaped)

theorem flat_flatten {parts : List (List Token)}
    (flat : List.Forall₂ (fun arg part => Flat scripts.files [arg] part) args parts) :
    Flat scripts.files args parts.flatten := by
  induction flat with
  | nil => exact .nil
  | cons now _ ih => exact now.append ih

/-- The arguments are flattened if and only if each one with two prefixes names a script that
contains its own name. -/
theorem expands_iff (present : Present scripts.files args) :
    Expands scripts args ↔ Unescaped scripts.files args := by
  constructor
  · rintro ⟨⟨parts, flat, delivers⟩, -⟩ arg member prefixed escape
    obtain ⟨parts', given, same⟩ := Reader.delivers_iff.mp delivers
    have given : List.Forall₂ (Reader.Given scripts.files) args parts' := given
    have length : parts.length = parts'.length := flat.length_eq.symm.trans given.length_eq
    obtain rfl : parts = parts' := tagged_injective length (by simpa [Reader.start] using same)
    obtain ⟨part, alone, given⟩ := forall₂_both flat given arg member
    have own : part = [arg.tail] := alone.unique (.escaped prefixed escape .nil)
    rw [Reader.Given, if_pos prefixed, own] at given
    obtain ⟨tokens, flat, found, flattened, rfl⟩ := flat_of_pprocess given
    exact ⟨tokens, found, flattened⟩
  · intro unescaped
    obtain ⟨parts, flat⟩ := exists_flat present
    have given := forall₂_given flat unescaped
    have left : Reader.Left scripts.files (Reader.start args) (tagged 1 parts) :=
      ⟨parts, given, rfl⟩
    refine ⟨⟨parts, flat, Reader.delivers_iff.mpr left⟩, fun file found plain calls => ?_⟩
    obtain ⟨tokens, whole, found', flattened, processed⟩ :=
      scripts.pprocess_flat (by rw [found]; rfl)
    obtain rfl := Option.some.inj (found.symm.trans found')
    obtain rfl := flattened.unique (flat_flatten flat)
    have script : Reader.Given scripts.files ('@' :: file) parts.flatten := by
      have prefixed : isScript ('@' :: file) = true := rfl
      rw [Reader.Given, if_pos prefixed]
      exact processed []
    have through : Reader.Left scripts.files (Reader.start ['@' :: file])
        (tagged 1 [parts.flatten]) := ⟨_, .cons script .nil, rfl⟩
    refine ⟨(tagged 1 parts).length + (tagged 1 [parts.flatten]).length + 1,
      Reader.splitCommands calls parts.flatten, ?_, ?_⟩
    · rw [Reader.commands_spec calls (by omega) left, map_snd_tagged]
    · rw [Reader.commands_spec calls (by omega) through, map_snd_tagged]
      simp

/-- A script that includes another one. -/
theorem expands_two : ∃ scripts : Scripts,
    scripts.files = [(['f'], [['a'], ['@', 'g'], ['@', '@', 'b']]), (['g'], [['&'], ['c']])] ∧
      Expands scripts [['x'], ['@', 'f']] := by
  obtain ⟨files, given⟩ : ∃ files : Files,
      files = [(['f'], [['a'], ['@', 'g'], ['@', '@', 'b']]), (['g'], [['&'], ['c']])] := ⟨_, rfl⟩
  have lookups (name : Token) (tokens : List Token) (found : files.lookup name = some tokens) :
      name = ['f'] ∧ tokens = [['a'], ['@', 'g'], ['@', '@', 'b']] ∨
        name = ['g'] ∧ tokens = [['&'], ['c']] := by
    rw [given, List.lookup_cons, List.lookup_cons] at found
    grind
  have includes (a b : Token) (step : Includes files a b) : a = ['f'] ∧ b = ['g'] := by
    obtain ⟨tokens, found, token, member, prefixed, plain, rfl⟩ := step
    obtain ⟨rfl, rfl⟩ | ⟨rfl, rfl⟩ := lookups a tokens found
    · have only : ∀ token ∈ [['a'], ['@', 'g'], ['@', '@', 'b']], isScript token = true →
          isScript token.tail = false → token.tail = ['g'] := by decide
      exact ⟨rfl, only token member prefixed plain⟩
    · have no : ∀ token ∈ [['&'], ['c']], isScript token = false := by decide
      rw [no token member] at prefixed
      cases prefixed
  have acyclic : Acyclic (Includes files) := by
    refine .of_rank (fun name => if name = ['f'] then 1 else 0) fun a b step => ?_
    obtain ⟨rfl, rfl⟩ := includes a b step
    decide
  have nonempty (name : Token) (tokens : List Token) (found : files.lookup name = some tokens) :
      [] ∉ tokens := by
    obtain ⟨-, rfl⟩ | ⟨-, rfl⟩ := lookups name tokens found <;> decide
  have closed (a b : Token) (step : Includes files a b) : (files.lookup b).isSome := by
    obtain ⟨-, rfl⟩ := includes a b step
    rw [given]
    rfl
  refine ⟨⟨files, nonempty, acyclic, closed⟩, given, (expands_iff ?_).mpr ?_⟩
  · intro arg member name names
    have only : ∀ arg ∈ [['x'], ['@', 'f']], isScript arg = true → arg.tail = ['f'] := by decide
    obtain rfl : ['f'] = name := (only arg member names.1).symm.trans names.2.2
    have present : (files.lookup ['f']).isSome := by
      rw [given]
      rfl
    exact present
  · intro arg member _ escape
    have no : ∀ arg ∈ [['x'], ['@', 'f']], isScript arg.tail = false := by decide
    rw [no arg member] at escape
    cases escape

/-- There is no script of this name, and the argument was not meant for one. -/
theorem not_expands_escaped : ∃ scripts : Scripts,
    scripts.files = [] ∧ ¬Expands scripts [['@', '@', 'x']] := by
  have none (a b : Token) : ¬Includes [] a b := by
    rintro ⟨tokens, found, -⟩
    cases found
  refine ⟨⟨[], by simp, .of_rank (fun _ => 0) fun a b step => absurd step (none a b),
    fun a b step => absurd step (none a b)⟩, rfl, ?_⟩
  rintro ⟨⟨parts, -, delivers⟩, -⟩
  have stuck : Reader.getSw [] (Reader.start [['@', '@', 'x']]) = .none := rfl
  generalize tagged 1 parts = switches at delivers
  cases delivers with
  | ended ended => simp [stuck] at ended
  | switch next => simp [stuck] at next

end Claim

end Crs.CommandLine
