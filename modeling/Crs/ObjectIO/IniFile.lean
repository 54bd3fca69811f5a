import Crs.Foundation.InputStream

/-!
# Initialisation files

A database is a list of variables and hubs, a hub is a list of variables. A variable is the line
`Name=Contents;Comment`, the header of a hub is `[Name];Comment`. `Hub::read` ends with the line
of the next header, to which it goes back.

The multimap of a hub finds the first of the entries with a name. The loops over a stream have
fuel; that of the callers suffices.
-/

namespace Crs.ObjectIO

open Foundation

/-- What stands in front of the first `sep`, and what stands behind it. -/
def cutfrom (line : List Char) (sep : Char) : List Char × List Char :=
  (line.takeWhile (· != sep), (line.dropWhile (· != sep)).tail)

/-- Without white space at the begin. -/
def firstchar (buf : List Char) : List Char :=
  buf.dropWhile isspace

/-- A C string ends with the first NUL. -/
def cStr (s : List Char) : List Char :=
  s.takeWhile (· != '\x00')

structure Var where
  name : List Char := []
  contents : List Char := []
  description : List Char := []
deriving DecidableEq

structure Hub where
  name : List Char := []
  description : List Char := []
  olist : List Var := []
deriving DecidableEq

inductive Entry where
  | var (v : Var)
  | hub (h : Hub)
deriving DecidableEq

def Entry.name : Entry → List Char
  | .var v => v.name
  | .hub h => h.name

/-- `entries() == -1`. -/
def Entry.isVar : Entry → Bool
  | .var _ => true
  | .hub _ => false

/-- Fills a variable from the string `Name=Contents;Comment`. -/
def Var.create (str : List Char) : Var :=
  let (line, description) := cutfrom str ';'
  let (name, contents) := cutfrom line '='
  { name, contents := cStr contents, description }

/-- A line up to the first `\r`, without white space at the begin. -/
def trim (buf : List Char) : List Char :=
  firstchar (buf.takeWhile (· != '\r'))

/-- `buf.size() && buf[0] == *SLAP_L`. -/
def isHeader (buf : List Char) : Bool :=
  buf.head? == some '['

/-- The loop of `Hub::read`: the variables, whether it ends with `msgEOF`, and the stream. -/
def Hub.readLines : ℕ → InputStream → (buf : List Char) → List Var →
    Option (List Var × Bool × InputStream)
  | 0, _, _, _ => none
  | fuel + 1, is, buf, olist =>
      let (lineStartPosition, is) := is.tellg
      let (buf, is) := is.getline buf
      let last := is.eofbit
      let buf := trim buf
      if isHeader buf then some (olist, last, is.clear.seekg lineStartPosition)
      else
        let olist := olist ++ [Var.create buf]
        if last then some (olist, last, is) else readLines fuel is buf olist

/-- `Hub::read`; in the end the stream is cleared. -/
def Hub.read (is : InputStream) : Option (List Var × Bool × InputStream) :=
  (Hub.readLines (is.text.length + 1) is [] []).map fun (olist, last, is) =>
    (olist, last, is.clear)

/-- A hub with the name and the comment of its header. -/
def Hub.create (buf : List Char) (olist : List Var) : Hub :=
  let (line, description) := cutfrom buf.tail ';'
  { name := (cutfrom line ']').1, description, olist }

namespace INIFile

/-- The loop of `cINIFile::read`. -/
def readLines : ℕ → InputStream → (buf : List Char) → List Entry → Option (List Entry)
  | 0, _, _, _ => none
  | fuel + 1, is, buf, olist =>
      let (buf, is) := is.getline buf
      let last := is.eofbit
      let buf := trim buf
      if isHeader buf then
        (Hub.read is).bind fun (vars, eof, is) =>
          let olist := olist ++ [.hub (Hub.create buf vars)]
          if last || eof then some olist else readLines fuel is buf olist
      else
        let olist := olist ++ [.var (Var.create buf)]
        if last then some olist else readLines fuel is buf olist

def read (text : List Char) : Option (List Entry) :=
  readLines (text.length + 1) { text } [] []

end INIFile

def Var.write (v : Var) : List Char :=
  (if v.name = [] then [] else v.name ++ '=' :: v.contents) ++
    if v.description = [] then [] else ';' :: v.description

/-- The second loop of `_write_contents`. -/
def writeContents {α : Type*} (write : α → List Char) : List α → (newLine : Bool) → List Char
  | [], _ => []
  | p :: olist, newLine =>
      (if newLine then ['\n'] else []) ++ write p ++ writeContents write olist true

/-- One round of the first loop: a variable at `p` moves to `i`, in front of the hubs. -/
def moveVar : List Entry × ℕ → ℕ → List Entry × ℕ
  | (olist, i), p =>
      match olist[p]? with
      | some (.var v) =>
          (olist.take i ++ .var v :: (olist.take p).drop i ++ olist.drop (p + 1), i + 1)
      | _ => (olist, i)

/-- The first loop of `_write_contents`. In a hub that was read, it moves nothing. -/
def sortVars (olist : List Entry) : List Entry :=
  let i := (olist.takeWhile Entry.isVar).length
  ((List.range' i (olist.length - i)).foldl moveVar (olist, i)).1

def Hub.writeHeader (h : Hub) : List Char :=
  '[' :: h.name ++ ']' :: if h.description = [] then [] else ';' :: h.description

def Hub.write (h : Hub) : List Char :=
  h.writeHeader ++ writeContents Var.write h.olist true

def Entry.write : Entry → List Char
  | .var v => v.write
  | .hub h => h.write

namespace INIFile

/-- The text that is written, and the database as it is left. -/
def write (olist : List Entry) : List Char × List Entry :=
  (writeContents Entry.write (sortVars olist) false, sortVars olist)

end INIFile

/-- The first entry with a name is written, or a new one appended. -/
def assign {α : Type*} (nameOf : α → List Char) (name : List Char) (set : α → Option α) (new : α) :
    List α → Option (List α)
  | [] => some [new]
  | a :: olist =>
      if nameOf a = name then (set a).map (· :: olist)
      else (assign nameOf name set new olist).map (a :: ·)

/-- A call of `writevar`, for the file or for one of its hubs. -/
structure Call where
  hub : Option ℕ
  name : List Char
  str : List Char

def Var.set (v : Var) (str : List Char) : Var :=
  { v with contents := cStr str }

/-- There is no variable behind the handle where the name is that of a hub. -/
def Entry.set (str : List Char) : Entry → Option Entry
  | .var v => some (.var (v.set str))
  | .hub _ => none

namespace INIFile

def writevar (olist : List Entry) (call : Call) : Option (List Entry) :=
  let new : Var := ({ name := call.name } : Var).set call.str
  match call.hub with
  | none => assign Entry.name call.name (Entry.set call.str) (.var new) olist
  | some i =>
      match olist[i]? with
      | some (.hub h) =>
          (assign Var.name call.name (fun v => some (v.set call.str)) new h.olist).map fun vars =>
            olist.set i (.hub { h with olist := vars })
      | _ => none

/-- Reading a text, and a sequence of calls of `writevar`. -/
def edit (text : List Char) (calls : List Call) : Option (List Entry) :=
  (read text).bind fun olist => calls.foldlM writevar olist

end INIFile

end Crs.ObjectIO
