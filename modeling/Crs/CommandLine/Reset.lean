import Crs.CommandLine.Scripts
import Mathlib.Algebra.GroupWithZero.Nat
import Mathlib.Algebra.Order.BigOperators.Group.List

/-!
# Starting over

`reset` sets the position of the arguments back and reads a command. It leaves the iterator into
the script where it stands, so that the rest of a script comes in front of the first argument.

Here a script that does not open throws: `use_script` has closed the script before, so that the
iterator is at the end of what `pprocess` has read until then, and `_command` keeps the switches
in front of it.
-/

namespace Crs.CommandLine.Reset

open Foundation

/-- Scripts without cyclic inclusion. A script that is included need not be there. -/
structure ScriptSet where
  files : Files
  nonempty : ∀ name tokens, files.lookup name = some tokens → [] ∉ tokens
  acyclic : Acyclic (Includes files)

/-- The loop over the tokens of a script. -/
def pprocessLoop (pprocess : Token → List Token → List Token × Option Token) :
    List Token → List Token → List Token × Option Token
  | [], script => (script, none)
  | oneToken :: tokens, script =>
      if isScript oneToken then
        if isScript oneToken.tail then pprocessLoop pprocess tokens (script ++ [oneToken.tail])
        else
          match pprocess oneToken.tail script with
          | (script, none) => pprocessLoop pprocess tokens script
          | (script, some sName) => (script, some sName)
      else pprocessLoop pprocess tokens (script ++ [oneToken])

/-- `_command`, and the script of an `ErrOpen` that ended the call. -/
structure Called where
  command : List Token
  thrown : Option Token := none
deriving DecidableEq

/-- What `get_sw` gives: a switch, or an `ErrOpen`. -/
inductive Item where
  | switch (csw : Token)
  | errOpen (sName : Token)
deriving DecidableEq

variable (files : Files)

/-- `pprocess`: `_script`, and the script of an `ErrOpen`. -/
def pprocess : ℕ → Token → List Token → List Token × Option Token
  | 0, sName, script => (script, some sName)
  | fuel + 1, sName, script =>
      match files.lookup sName with
      | none => (script, some sName)
      | some tokens => pprocessLoop (pprocess fuel) tokens script

def useScript (s : Reader) (sName : Token) : Reader × Option Token :=
  match pprocess files files.length sName [] with
  | (script, none) => ({ s with script, scriptIter := 0 }, none)
  | (script, some sName) => ({ s with script, scriptIter := script.length }, some sName)

/-- The loop of `get_sw`. -/
def getSwLoop : ℕ → Reader → Option (Option Item × Reader)
  | 0, _ => none
  | fuel + 1, s =>
      match s.readScript with
      | some (csw, s) => some (some (.switch csw), s)
      | none =>
          let s := { s with swPosition := s.swPosition + 1 }
          match s.av[s.swPosition]? with
          | some csw =>
              if isScript csw then
                match useScript files s csw.tail with
                | (s, none) => getSwLoop fuel s
                | (s, some sName) => some (some (.errOpen sName), s)
              else some (some (.switch csw), s)
          | none => some (none, s)

/-- `get_sw`: the next switch, or none at the end. -/
def getSw (s : Reader) : Option (Option Item × Reader) :=
  getSwLoop files (s.av.length + 1) s

/-- The loop of `next_command`. -/
def nextLoop : ℕ → Reader → (command : List Token) → Option (Called × Reader)
  | 0, _, _ => none
  | fuel + 1, s, command =>
      match getSw files s with
      | none => none
      | some (none, s) => some ({ command }, s)
      | some (some (.errOpen sName), s) => some ({ command, thrown := some sName }, s)
      | some (some (.switch curSw), s) =>
          if curSw = [] then nextLoop fuel s command
          else if isNextCommand curSw then
            if isNextCommand curSw.tail then nextLoop fuel s (command ++ [curSw.tail])
            else some ({ command }, s)
          else nextLoop fuel s (command ++ [curSw])

/-- What an argument gives. -/
def expand (arg : Token) : List Item :=
  if isScript arg then
    match pprocess files files.length arg.tail [] with
    | (script, none) => script.map .switch
    | (_, some sName) => [.errOpen sName]
  else [.switch arg]

/-- What is left to read: the rest of the script, and the arguments behind the position. -/
def left (s : Reader) : List Item :=
  (s.script.drop s.scriptIter).map .switch ++
    (s.av.drop (s.swPosition + 1)).flatMap (expand files)

/-- `next_command`. There is fuel for all that is left. -/
def nextCommand (s : Reader) : Option (Called × Reader) :=
  nextLoop files ((left files s).length + 1) s []

def reset (s : Reader) : Option (Called × Reader) :=
  nextCommand files { s with swPosition := 0 }

/-- So many calls of `next_command`. -/
def calls : ℕ → Reader → Option (List Called × Reader)
  | 0, s => some ([], s)
  | n + 1, s => do
      let (called, s) ← nextCommand files s
      let (others, s) ← calls n s
      some (called :: others, s)

/-- `reset`, and so many calls of `next_command` behind it. -/
def resetCalls (n : ℕ) (s : Reader) : Option (List Called × Reader) := do
  let (called, s) ← reset files s
  let (others, s) ← calls files n s
  some (called :: others, s)

/-- The reader delivers what a new one for the arguments delivers. -/
def StartsOver (args : List Token) (s : Reader) : Prop :=
  ∀ n, ∃ result t t', resetCalls files n s = some (result, t) ∧
    calls files (n + 1) (Reader.start args) = some (result, t')

/-- A switch of a command, or an `ErrOpen`; not an empty switch, and no end of a command. -/
def Item.delivers : Item → Bool
  | .switch csw => csw ≠ [] && (!isNextCommand csw || isNextCommand csw.tail)
  | .errOpen _ => true

/-- The arguments only give empty commands. -/
def OnlySeparators (args : List Token) : Prop :=
  ∀ item ∈ args.flatMap (expand files), item.delivers = false

section Preprocessing

variable {files : Files} {script : List Token} {sName : Token}

/-- Where each script opens, this is the `pprocess` of a reader. -/
theorem pprocess_returns_iff {fuel : ℕ} {result : List Token} :
    pprocess files fuel sName script = (result, none) ↔
      CommandLine.pprocess files fuel sName script = some result := by
  induction fuel generalizing sName script result with
  | zero => simp [pprocess, CommandLine.pprocess]
  | succ fuel ih =>
    rw [pprocess, pprocess_eq]
    cases files.lookup sName with
    | none => simp
    | some tokens =>
      rw [Option.bind_some]
      dsimp only
      induction tokens generalizing script with
      | nil => simp [pprocessLoop]
      | cons token tokens ihTokens =>
        rw [pprocessLoop, List.foldlM_cons, push]
        by_cases prefixed : isScript token = true
        · by_cases escape : isScript token.tail = true
          · simpa [prefixed, escape] using ihTokens
          · rw [if_pos prefixed, if_neg escape, if_pos prefixed, if_neg escape]
            cases inner : pprocess files fuel token.tail script with
            | mk script' thrown =>
              cases thrown with
              | none => simpa [ih.mp inner] using ihTokens
              | some name =>
                have fails : CommandLine.pprocess files fuel token.tail script = none := by
                  rw [Option.eq_none_iff_forall_ne_some]
                  intro other returns
                  exact Bool.noConfusion (congrArg (fun r => r.2.isSome)
                    (inner.symm.trans (ih.mpr returns)))
                simp [fails]
        · simpa [prefixed] using ihTokens

/-- A script that is not there does not open, whatever the fuel. -/
theorem pprocess_missing (missing : files.lookup sName = none) (fuel : ℕ) :
    pprocess files fuel sName script = (script, some sName) := by
  cases fuel with
  | zero => rfl
  | succ fuel => rw [pprocess, missing]

theorem pprocessLoop_congr {inner inner' : Token → List Token → List Token × Option Token}
    {tokens : List Token}
    (same : ∀ token ∈ tokens, ∀ script, Names token token.tail →
      inner token.tail script = inner' token.tail script) (script : List Token) :
    pprocessLoop inner tokens script = pprocessLoop inner' tokens script := by
  induction tokens generalizing script with
  | nil => rfl
  | cons token tokens ih =>
    obtain ⟨now, later⟩ := List.forall_mem_cons.mp same
    have rest := ih later
    rw [pprocessLoop, pprocessLoop]
    by_cases prefixed : isScript token = true
    · by_cases escape : isScript token.tail = true
      · simp only [prefixed, escape, if_true, rest]
      · simp only [prefixed, escape, if_true, if_false, Bool.false_eq_true, rest,
          now script ⟨prefixed, by simpa using escape, rfl⟩]
    · simp only [prefixed, Bool.false_eq_true, if_false, rest]

/-- More fuel than there are scripts changes nothing. -/
theorem ScriptSet.pprocess_enough (scripts : ScriptSet) (more : ℕ) (sName : Token)
    (script : List Token) :
    pprocess scripts.files (scripts.files.length + more) sName script =
      pprocess scripts.files scripts.files.length sName script := by
  have all (sName : Token) (present : (scripts.files.lookup sName).isSome) :
      ∀ more script, pprocess scripts.files ((scripts.files.map Prod.fst).length + more) sName
        script = pprocess scripts.files (scripts.files.map Prod.fst).length sName script := by
    refine Acyclic.fuel_induction (r := fun a b => Includes scripts.files a b ∧
        (scripts.files.lookup b).isSome) (P := fun fuel sName => ∀ more script,
          pprocess scripts.files (fuel + more) sName script =
            pprocess scripts.files fuel sName script) ?_ ?_ ?_
    · intro a cycle
      exact scripts.acyclic a (Relation.TransGen.mono (fun _ _ step => step.1) _ _ cycle)
    · intro fuel a ih more script
      rw [Nat.add_right_comm, pprocess, pprocess]
      cases found : scripts.files.lookup a with
      | none => rfl
      | some tokens =>
        refine pprocessLoop_congr (fun token member script names => ?_) script
        cases inner : scripts.files.lookup token.tail with
        | none => rw [pprocess_missing inner, pprocess_missing inner]
        | some _ =>
          exact ih token.tail ⟨⟨tokens, found, token, member, names⟩, by rw [inner]; rfl⟩ _ _
    · intro b path
      have found : (scripts.files.lookup b).isSome := by
        cases path with
        | refl => exact present
        | tail _ last => exact last.2
      obtain ⟨file, member, same⟩ := List.lookup_isSome_iff.mp found
      obtain rfl : b = file.1 := by simpa using same
      exact List.mem_map_of_mem member
  cases found : scripts.files.lookup sName with
  | none => rw [pprocess_missing found, pprocess_missing found]
  | some tokens =>
    have enough := all sName (by rw [found]; rfl) more script
    rwa [List.length_map] at enough

/-- There is no empty token in a script. -/
theorem ScriptSet.nonempty_pprocess (scripts : ScriptSet) (fuel : ℕ) (sName : Token)
    (free : [] ∉ script) : [] ∉ (pprocess scripts.files fuel sName script).1 := by
  induction fuel generalizing sName script with
  | zero => exact free
  | succ fuel ih =>
    rw [pprocess]
    cases found : scripts.files.lookup sName with
    | none => exact free
    | some tokens =>
      have tokens_free := scripts.nonempty _ _ found
      dsimp only
      clear found
      induction tokens generalizing script with
      | nil => exact free
      | cons token tokens ihTokens =>
        rw [List.mem_cons, not_or] at tokens_free
        rw [pprocessLoop]
        by_cases prefixed : isScript token = true
        · by_cases escape : isScript token.tail = true
          · rw [if_pos prefixed, if_pos escape]
            have other : [] ≠ token.tail := by
              rintro empty
              rw [← empty] at escape
              exact Bool.noConfusion escape
            exact ihTokens (by simp [free, other]) tokens_free.2
          · rw [if_pos prefixed, if_neg escape]
            have inner_free := ih token.tail free
            cases inner : pprocess scripts.files fuel token.tail script with
            | mk script' thrown =>
              rw [inner] at inner_free
              cases thrown with
              | none => exact ihTokens inner_free tokens_free.2
              | some name => exact inner_free
        · rw [if_neg prefixed]
          exact ihTokens (by simp [free, tokens_free.1]) tokens_free.2

end Preprocessing

section Reading

variable {files : Files} {s t : Reader}

/-- No script of the reader has an empty token. -/
def Kept (s : Reader) : Prop := [] ∉ s.script

theorem readScript_none (read : s.readScript = none) : s.script.drop s.scriptIter = [] := by
  rw [Reader.readScript, Option.map_eq_none_iff, List.getElem?_eq_none_iff] at read
  exact List.drop_eq_nil_of_le read

theorem readScript_some {csw : Token} (read : s.readScript = some (csw, t)) :
    s.script.drop s.scriptIter = csw :: s.script.drop (s.scriptIter + 1) ∧
      t = { s with scriptIter := s.scriptIter + 1 } := by
  rw [Reader.readScript, Option.map_eq_some_iff] at read
  obtain ⟨token, found, same⟩ := read
  obtain ⟨inside, at_iter⟩ := List.getElem?_eq_some_iff.mp found
  obtain ⟨rfl, rfl⟩ := Prod.mk.inj same
  exact ⟨by rw [← at_iter]; exact List.drop_eq_getElem_cons inside, rfl⟩

/-- The next item is taken from what is left. -/
theorem getSwLoop_spec (scripts : ScriptSet) {fuel : ℕ}
    (enough : s.av.length < s.swPosition + 1 + fuel) (positive : 0 < fuel) (kept : Kept s) :
    ∃ item t, getSwLoop scripts.files fuel s = some (item, t) ∧
      left scripts.files s = item.toList ++ left scripts.files t ∧
      (item = none → left scripts.files t = []) ∧ t.av = s.av ∧ Kept t := by
  induction fuel generalizing s with
  | zero => omega
  | succ fuel ih =>
    rw [getSwLoop]
    cases read : s.readScript with
    | some result =>
      obtain ⟨csw, t⟩ := result
      obtain ⟨rest, rfl⟩ := readScript_some read
      refine ⟨_, _, rfl, ?_, by simp, rfl, kept⟩
      simp [left, rest]
    | none =>
      have script_done := readScript_none read
      dsimp only
      cases next : s.av[s.swPosition + 1]? with
      | none =>
        have here := List.drop_eq_nil_of_le (List.getElem?_eq_none_iff.mp next)
        have behind := List.drop_eq_nil_of_le (Nat.le_succ_of_le
          (List.getElem?_eq_none_iff.mp next))
        refine ⟨_, _, rfl, ?_, ?_, rfl, kept⟩
        · simp only [left, script_done, here, behind, Option.toList_none, List.nil_append]
        · intro _
          simp only [left, script_done, behind, List.map_nil, List.flatMap_nil, List.append_nil]
      | some csw =>
        obtain ⟨inside, at_next⟩ := List.getElem?_eq_some_iff.mp next
        have args := List.drop_eq_getElem_cons inside
        rw [at_next] at args
        have whole : left scripts.files s = expand scripts.files csw ++
            (s.av.drop (s.swPosition + 1 + 1)).flatMap (expand scripts.files) := by
          rw [left, script_done, args, List.flatMap_cons, List.map_nil, List.nil_append]
        rw [whole, expand]
        dsimp only
        by_cases prefixed : isScript csw = true
        · rw [if_pos prefixed, if_pos prefixed, useScript]
          have free := scripts.nonempty_pprocess scripts.files.length csw.tail List.not_mem_nil
          cases processed : pprocess scripts.files scripts.files.length csw.tail [] with
          | mk script thrown =>
            rw [processed] at free
            cases thrown with
            | none =>
              -- the loop goes on in the script
              obtain ⟨item, t, result, items, ended, av, kept⟩ := ih (s := { s with
                swPosition := s.swPosition + 1, script, scriptIter := 0 })
                (by dsimp only; omega) (by omega) free
              exact ⟨item, t, result, items, ended, av, kept⟩
            | some sName =>
              refine ⟨_, _, rfl, ?_, by simp, rfl, free⟩
              simp [left]
        · rw [if_neg prefixed, if_neg prefixed]
          refine ⟨_, _, rfl, ?_, by simp, rfl, kept⟩
          simp [left, script_done]

theorem getSw_spec (scripts : ScriptSet) (kept : Kept s) :
    ∃ item t, getSw scripts.files s = some (item, t) ∧
      left scripts.files s = item.toList ++ left scripts.files t ∧
      (item = none → left scripts.files t = []) ∧ t.av = s.av ∧ Kept t :=
  getSwLoop_spec scripts (by omega) (Nat.succ_pos _) kept

/-- A command, and what is left behind it. -/
def split : List Item → (command : List Token) → Called × List Item
  | [], command => ({ command }, [])
  | .errOpen sName :: items, command => ({ command, thrown := some sName }, items)
  | .switch csw :: items, command =>
      if csw = [] then split items command
      else if isNextCommand csw then
        if isNextCommand csw.tail then split items (command ++ [csw.tail]) else ({ command }, items)
      else split items (command ++ [csw])

theorem split_suffix (items : List Item) (command : List Token) :
    (split items command).2 <:+ items := by
  induction items generalizing command with
  | nil => exact List.suffix_refl _
  | cons item items ih =>
    have behind : items <:+ item :: items := List.suffix_cons _ _
    cases item with
    | errOpen sName => exact behind
    | switch csw =>
      rw [split]
      split_ifs
      · exact (ih _).trans behind
      · exact (ih _).trans behind
      · exact behind
      · exact (ih _).trans behind

/-- A command depends on what is left only. -/
theorem nextLoop_spec (scripts : ScriptSet) {fuel : ℕ}
    (enough : (left scripts.files s).length < fuel) (kept : Kept s) (command : List Token) :
    ∃ t, nextLoop scripts.files fuel s command =
        some ((split (left scripts.files s) command).1, t) ∧
      left scripts.files t = (split (left scripts.files s) command).2 ∧ t.av = s.av ∧ Kept t := by
  induction fuel generalizing s command with
  | zero => omega
  | succ fuel ih =>
    obtain ⟨item, t, result, items, ended, av, kept⟩ := getSw_spec scripts kept
    rw [nextLoop, result, items]
    cases item with
    | none => exact ⟨t, by simp [split, ended rfl], by simp [split, ended rfl], av, kept⟩
    | some item =>
      cases item with
      | errOpen sName => exact ⟨t, rfl, rfl, av, kept⟩
      | switch curSw =>
        rw [items] at enough
        simp only [Option.toList_some, List.singleton_append, List.length_cons] at enough
        have goes (command : List Token) := ih (s := t) (by omega) kept command
        rw [av] at goes
        simp only [Option.toList_some, List.singleton_append, split]
        by_cases empty : curSw = []
        · simpa only [empty, if_true] using goes command
        · by_cases next : isNextCommand curSw = true
          · by_cases escape : isNextCommand curSw.tail = true
            · simpa only [empty, next, escape, if_true, if_false] using
                goes (command ++ [curSw.tail])
            · simp only [empty, next, escape, if_true, if_false]
              exact ⟨t, rfl, rfl, av, kept⟩
          · simpa only [empty, next, if_false, Bool.false_eq_true] using
              goes (command ++ [curSw])

theorem nextCommand_spec (scripts : ScriptSet) (kept : Kept s) :
    ∃ t, nextCommand scripts.files s = some ((split (left scripts.files s) []).1, t) ∧
      left scripts.files t = (split (left scripts.files s) []).2 ∧ t.av = s.av ∧ Kept t :=
  nextLoop_spec scripts (Nat.lt_succ_self _) kept []

/-- What so many calls give. -/
def outcomes : ℕ → List Item → List Called
  | 0, _ => []
  | n + 1, items => (split items []).1 :: outcomes n (split items []).2

theorem calls_spec (scripts : ScriptSet) (kept : Kept s) (n : ℕ) :
    ∃ t, calls scripts.files n s = some (outcomes n (left scripts.files s), t) ∧
      left scripts.files t <:+ left scripts.files s ∧ t.av = s.av ∧ Kept t := by
  induction n generalizing s with
  | zero => exact ⟨s, rfl, List.suffix_refl _, rfl, kept⟩
  | succ n ih =>
    obtain ⟨t, result, behind, av, kept⟩ := nextCommand_spec scripts kept
    obtain ⟨t', others, suffix, av', kept'⟩ := ih kept
    rw [behind] at suffix
    refine ⟨t', ?_, suffix.trans (split_suffix _ _), av'.trans av, kept'⟩
    rw [calls, result]
    simp [others, outcomes, behind]

end Reading

section Outcomes

variable {items : List Item} {csw : Token} {tokens : List Token}

/-- How many switches and exceptions a call has given. -/
def Called.size (called : Called) : ℕ :=
  called.command.length + if called.thrown.isSome then 1 else 0

/-- Each item that delivers something is in the command, or is left. -/
theorem size_split (items : List Item) (command : List Token) :
    (split items command).1.size + (split items command).2.countP Item.delivers =
      command.length + items.countP Item.delivers := by
  induction items generalizing command with
  | nil => simp [split, Called.size]
  | cons item items ih =>
    cases item with
    | errOpen sName =>
      simp [split, Called.size, Item.delivers, List.countP_cons]
      omega
    | switch csw =>
      rw [split, List.countP_cons]
      by_cases empty : csw = []
      · simp [empty, ih, Item.delivers]
      · by_cases next : isNextCommand csw = true
        · by_cases escape : isNextCommand csw.tail = true
          · simp [empty, next, escape, ih, Item.delivers]
            omega
          · simp [empty, next, escape, Called.size, Item.delivers]
        · simp [empty, next, ih, Item.delivers]
          omega

/-- What is left is shorter, up to the end. -/
theorem length_split (items : List Item) (command : List Token) :
    (split items command).2.length ≤ items.length - 1 := by
  induction items generalizing command with
  | nil => simp [split]
  | cons item items ih =>
    have goes (command : List Token) := Nat.le_trans (ih command) (Nat.sub_le _ _)
    cases item with
    | errOpen sName => exact Nat.le_refl _
    | switch csw =>
      rw [split, List.length_cons, Nat.add_sub_cancel]
      by_cases empty : csw = []
      · simpa only [empty, if_true] using goes command
      · by_cases next : isNextCommand csw = true
        · by_cases escape : isNextCommand csw.tail = true
          · simpa only [empty, next, escape, if_true, if_false] using
              goes (command ++ [csw.tail])
          · simp only [empty, next, escape, if_true, if_false]
            exact Nat.le_refl _
        · simpa only [empty, next, if_false, Bool.false_eq_true] using goes (command ++ [csw])

/-- After enough calls all items are delivered. -/
theorem size_outcomes {n : ℕ} (enough : items.length ≤ n) :
    ((outcomes n items).map Called.size).sum = items.countP Item.delivers := by
  induction n generalizing items with
  | zero =>
    obtain rfl := List.length_eq_zero_iff.mp (Nat.le_zero.mp enough)
    rfl
  | succ n ih =>
    have shorter := length_split items []
    have size := size_split items []
    rw [outcomes, List.map_cons, List.sum_cons, ih (by omega), size, List.length_nil,
      Nat.zero_add]

theorem size_eq_zero {called : Called} : called.size = 0 ↔ called = { command := [] } := by
  obtain ⟨command, thrown⟩ := called
  cases thrown <;> simp [Called.size]

theorem countP_delivers_eq_zero :
    items.countP Item.delivers = 0 ↔ ∀ item ∈ items, item.delivers = false := by
  simp [List.countP_eq_zero]

/-- Items that deliver nothing only give empty commands. -/
theorem outcomes_of_separators (separators : ∀ item ∈ items, item.delivers = false) (n : ℕ) :
    outcomes n items = List.replicate n { command := [] } := by
  rw [← countP_delivers_eq_zero] at separators
  induction n generalizing items with
  | zero => rfl
  | succ n ih =>
    have size := size_split items []
    rw [separators, List.length_nil, Nat.add_zero, Nat.add_eq_zero_iff] at size
    rw [outcomes, size_eq_zero.mp size.1, ih size.2, List.replicate_succ]

/-- A switch that is not empty and delivers nothing ends a command. -/
theorem split_separator (nonempty : csw ≠ []) (separates : (Item.switch csw).delivers = false)
    (command : List Token) : split (.switch csw :: items) command = ({ command }, items) := by
  simp only [Item.delivers, nonempty, ne_eq, not_false_eq_true, decide_true, Bool.true_and,
    Bool.or_eq_false_iff, Bool.not_eq_false'] at separates
  simp [split, nonempty, separates]

theorem outcomes_append (nonempty : [] ∉ tokens)
    (separate : ∀ csw ∈ tokens, (Item.switch csw).delivers = false) (n : ℕ) :
    outcomes (tokens.length + n) (tokens.map .switch ++ items) =
      List.replicate tokens.length { command := [] } ++ outcomes n items := by
  induction tokens with
  | nil => simp
  | cons csw tokens ih =>
    rw [List.mem_cons, not_or] at nonempty
    obtain ⟨now, later⟩ := List.forall_mem_cons.mp separate
    rw [List.length_cons, Nat.add_right_comm, outcomes, List.map_cons, List.cons_append,
      split_separator (Ne.symm nonempty.1) now, ih nonempty.2 later, List.replicate_succ,
      List.cons_append]

/-- The rest of a script in front of the items is noticed, unless the items deliver nothing. -/
theorem separators_of_same (nonempty : [] ∉ tokens) (more : tokens ≠ [])
    (same : ∀ n, outcomes (n + 1) (tokens.map .switch ++ items) = outcomes (n + 1) items) :
    ∀ item ∈ items, item.delivers = false := by
  -- the rest of the script delivers nothing, or there would be more than the items have
  have separate : ∀ csw ∈ tokens, (Item.switch csw).delivers = false := by
    have sizes := congrArg (fun result => (result.map Called.size).sum)
      (same (tokens.map Item.switch ++ items).length)
    rw [size_outcomes (Nat.le_succ _), size_outcomes (by simp; omega), List.countP_append,
      Nat.add_eq_right, countP_delivers_eq_zero] at sizes
    exact fun csw member => sizes _ (List.mem_map_of_mem member)
  have positive : 0 < tokens.length := List.length_pos_iff.mpr more
  -- so the empty commands that it gives come again and again
  have again (k : ℕ) : outcomes (k * tokens.length) items =
      List.replicate (k * tokens.length) { command := [] } := by
    induction k with
    | zero => rw [Nat.zero_mul, outcomes, List.replicate_zero]
    | succ k ih =>
      have shift := same (tokens.length - 1 + k * tokens.length)
      rw [show tokens.length - 1 + k * tokens.length + 1 = tokens.length + k * tokens.length by
        omega, outcomes_append nonempty separate, ih, ← List.replicate_add] at shift
      rw [Nat.succ_mul, Nat.add_comm, ← shift]
  have enough : items.length ≤ items.length * tokens.length :=
    Nat.le_mul_of_pos_right items.length positive
  have sizes := size_outcomes enough
  rw [again, List.map_replicate, List.sum_replicate] at sizes
  rw [← countP_delivers_eq_zero, ← sizes]
  simp [Called.size]

end Outcomes

theorem left_start (files : Files) (args : List Token) :
    left files (Reader.start args) = args.flatMap (expand files) := by
  simp [left, Reader.start]

/-- Whether the reader starts over depends on what is left of the script and the arguments. -/
theorem startsOver_iff (scripts : ScriptSet) {args : List Token} {s : Reader}
    (av : s.av = [] :: args) (kept : Kept s) :
    StartsOver scripts.files args s ↔ ∀ n,
      outcomes (n + 1) ((s.script.drop s.scriptIter).map .switch ++
        args.flatMap (expand scripts.files)) =
      outcomes (n + 1) (args.flatMap (expand scripts.files)) := by
  have again : left scripts.files { s with swPosition := 0 } =
      (s.script.drop s.scriptIter).map .switch ++ args.flatMap (expand scripts.files) := by
    simp [left, av]
  refine forall_congr' fun n => ?_
  obtain ⟨t, first, behind, -, kept⟩ :=
    nextCommand_spec scripts (s := { s with swPosition := 0 }) kept
  obtain ⟨t', others, -⟩ := calls_spec scripts kept n
  have resets : resetCalls scripts.files n s = some (outcomes (n + 1)
      ((s.script.drop s.scriptIter).map .switch ++ args.flatMap (expand scripts.files)), t') := by
    rw [resetCalls, reset, first]
    simp [others, behind, again, outcomes]
  obtain ⟨u, starts, -⟩ := calls_spec scripts (s := Reader.start args) List.not_mem_nil (n + 1)
  rw [left_start] at starts
  constructor
  · rintro ⟨result, _, _, resets', starts'⟩
    obtain ⟨rfl, -⟩ := Prod.mk.inj (Option.some.inj (resets.symm.trans resets'))
    exact (Prod.mk.inj (Option.some.inj (starts.symm.trans starts'))).1.symm
  · intro same
    exact ⟨_, t', u, resets, same ▸ starts⟩

/-- After any number of calls, `reset` starts over exactly where the iterator is at the end of a
script, or where the arguments only give empty commands. -/
theorem reset_iff (scripts : ScriptSet) (args : List Token) (n : ℕ) :
    ∃ result s, calls scripts.files n (Reader.start args) = some (result, s) ∧
      (StartsOver scripts.files args s ↔
        s.script.length ≤ s.scriptIter ∨ OnlySeparators scripts.files args) := by
  obtain ⟨s, result, suffix, av, kept⟩ :=
    calls_spec scripts (s := Reader.start args) List.not_mem_nil n
  refine ⟨_, s, result, ?_⟩
  rw [startsOver_iff scripts av kept]
  constructor
  · intro same
    rw [or_iff_not_imp_left, Nat.not_le]
    intro inside
    have nonempty : [] ∉ s.script.drop s.scriptIter := fun member =>
      kept (List.mem_of_mem_drop member)
    refine separators_of_same nonempty ?_ same
    rw [ne_eq, List.drop_eq_nil_iff, Nat.not_le]
    exact inside
  · rintro (ended | separators) n
    · rw [List.drop_eq_nil_of_le ended, List.map_nil, List.nil_append]
    · rw [outcomes_of_separators separators]
      apply outcomes_of_separators
      rw [List.forall_mem_append]
      refine ⟨fun item member => separators item ?_, separators⟩
      rw [← left_start]
      exact suffix.mem (List.mem_append_left _ member)

/-- The rest of a script is read again. -/
theorem reset_inside : ∃ scripts : ScriptSet,
    scripts.files = [(['f'], [['a'], ['&'], ['b']])] ∧
      ∃ result s, calls scripts.files 1 (Reader.start [['@', 'f']]) = some (result, s) ∧
        ¬StartsOver scripts.files [['@', 'f']] s := by
  have lookups (name : Token) (tokens : List Token)
      (found : [(['f'], [['a'], ['&'], ['b']])].lookup name = some tokens) :
      tokens = [['a'], ['&'], ['b']] := by
    rw [List.lookup_cons] at found
    grind
  have includes (a b : Token) : ¬Includes [(['f'], [['a'], ['&'], ['b']])] a b := by
    rintro ⟨tokens, found, token, member, prefixed, -⟩
    rw [lookups a tokens found] at member
    have no : ∀ token ∈ [['a'], ['&'], ['b']], isScript token = false := by decide
    rw [no token member] at prefixed
    cases prefixed
  refine ⟨⟨[(['f'], [['a'], ['&'], ['b']])], fun name tokens found => ?_,
    .of_rank (fun _ => 0) fun a b step => absurd step (includes a b)⟩, rfl, _, _, rfl,
    fun starts => ?_⟩
  · rw [lookups name tokens found]
    decide
  · obtain ⟨result, t, t', again, fresh⟩ := starts 0
    have delivered : (resetCalls [(['f'], [['a'], ['&'], ['b']])] 0
        { av := [[], ['@', 'f']], swPosition := 1, script := [['a'], ['&'], ['b']],
          scriptIter := 2 } |>.map Prod.fst) = some [{ command := [['b'], ['a']] }] := by decide
    have expected : (calls [(['f'], [['a'], ['&'], ['b']])] 1 (Reader.start [['@', 'f']])
        |>.map Prod.fst) = some [{ command := [['a']] }] := by decide
    rw [fresh] at expected
    have same := (congrArg (Option.map Prod.fst) again).symm.trans delivered
    exact absurd (same.symm.trans expected) (by decide)

end Crs.CommandLine.Reset
