import Crs.Foundation.Acyclic

/-!
# Reading the command line

An argument `@file` stands for the tokens of a script, which `pprocess` flattens into one list.
There a token `@@x` stands for `@x`. The tokens of a script are given. The last one before the
end is not empty, since an empty token ends the scan.

No result means that a script did not open, or that there was not enough fuel; one unit for
each script suffices if no script includes itself.
-/

namespace Crs.CommandLine

abbrev Token := List Char

/-- `SCRIPT_PREFFIX` stands at the begin. -/
def isScript (token : Token) : Bool :=
  token.head? == some '@'

/-- `NEXT_COMMAND` stands at the begin. -/
def isNextCommand (token : Token) : Bool :=
  token.head? == some '&'

/-- The files that can be opened, with their tokens. -/
abbrev Files := List (Token × List Token)

variable (files : Files)

/-- `pprocess`: appends the flattened script to `_script`. -/
def pprocess : ℕ → Token → List Token → Option (List Token)
  | 0, _, _ => none
  | fuel + 1, sName, script =>
      (files.lookup sName).bind fun tokens =>
        tokens.foldlM (fun script oneToken =>
          if isScript oneToken then
            if isScript oneToken.tail then some (script ++ [oneToken.tail])
            else pprocess fuel oneToken.tail script
          else some (script ++ [oneToken])) script

structure Reader where
  av : List Token
  swPosition : ℕ := 0
  script : List Token := []
  scriptIter : ℕ := 0

namespace Reader

def readScript (s : Reader) : Option (Token × Reader) :=
  (s.script[s.scriptIter]?).map fun token => (token, { s with scriptIter := s.scriptIter + 1 })

def useScript (s : Reader) (sName : Token) : Option Reader :=
  (pprocess files files.length sName []).map fun script => { s with script, scriptIter := 0 }

/-- The loop of `get_sw`. -/
def getSwLoop : ℕ → Reader → Option (Option Token × Reader)
  | 0, _ => none
  | fuel + 1, s =>
      match s.readScript with
      | some (csw, s) => some (some csw, s)
      | none =>
          let s := { s with swPosition := s.swPosition + 1 }
          match s.av[s.swPosition]? with
          | some csw =>
              if isScript csw then (s.useScript files csw.tail).bind (getSwLoop fuel)
              else some (some csw, s)
          | none => some (none, s)

/-- `get_sw`: the next switch, or none at the end. -/
def getSw (s : Reader) : Option (Option Token × Reader) :=
  getSwLoop files (s.av.length + 1) s

/-- `next_command` behind `_command.clear()`: the switches of the command. -/
def nextCommand : ℕ → Reader → (command : List Token) → Option (List Token × Reader)
  | 0, _, _ => none
  | fuel + 1, s, command =>
      (getSw files s).bind fun
        | (none, s) => some (command, s)
        | (some curSw, s) =>
            if curSw = [] then nextCommand fuel s command
            else if isNextCommand curSw then
              if isNextCommand curSw.tail then nextCommand fuel s (command ++ [curSw.tail])
              else some (command, s)
            else nextCommand fuel s (command ++ [curSw])

/-- The commands of so many calls of `next_command`. -/
def commands (fuel : ℕ) : ℕ → Reader → Option (List (List Token))
  | 0, _ => some []
  | calls + 1, s =>
      (nextCommand files fuel s []).bind fun (command, s) =>
        (commands fuel calls s).map (command :: ·)

/-- A reader for these arguments; the first element of `av` is the name of the program. -/
def start (args : List Token) : Reader :=
  { av := [] :: args }

end Reader

/-- The switches that `get_sw` delivers up to the end, each with the position of the argument
from which it comes. -/
inductive Delivers : Reader → List (ℕ × Token) → Prop where
  | ended {s t : Reader} : Reader.getSw files s = some (none, t) → Delivers s []
  | switch {s t : Reader} {csw : Token} {rest : List (ℕ × Token)} :
      Reader.getSw files s = some (some csw, t) → Delivers t rest →
      Delivers s ((t.swPosition, csw) :: rest)

end Crs.CommandLine
