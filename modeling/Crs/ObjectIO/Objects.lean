import Crs.Foundation.Machine
import Crs.ObjectIO.IniFile

/-!
# Objects behind handles

Variables, hubs and files as objects that are shared by handles, each with its flag `_modified`.
A hub keeps its entries in a multimap by the names that they had when they were appended, and in
`olist` in the order in which they came.

`hub::modified` walks along the multimap up to the first entry that answers true. A null handle,
or a hub where a variable is expected, gives none.
-/

namespace Crs.ObjectIO

open Foundation

abbrev Handle := ℕ

inductive Body where
  | var (contents : List Char)
  | hub (file : Bool) (entries : List (List Char × Handle)) (olist : List Handle)
deriving DecidableEq

/-- An object with the members of `BaseVar`. -/
structure Object where
  modified : Bool := false
  name : List Char
  description : List Char := []
  body : Body
deriving DecidableEq

/-- The objects, each behind the handle that is its index. -/
abbrev Objects := List Object

inductive Kind where
  | var
  | hub
  | file
deriving DecidableEq

namespace Object

/-- `new Var( name )`, `new Hub( name )` or `new cINIFile( name )`. -/
def new (name : List Char) : Kind → Object
  | .var => { name, body := .var [] }
  | .hub => { name, body := .hub false [] [] }
  | .file => { name, body := .hub true [] [] }

def ofVar (v : Var) : Object :=
  { name := v.name, description := v.description, body := .var v.contents }

/-- A hub without entries yet. -/
def ofHub (h : Hub) : Object :=
  { name := h.name, description := h.description, body := .hub false [] [] }

end Object

/-- A stream that fails behind so many lines, if at all. -/
structure Source where
  is : InputStream
  fails : Option ℕ := none

/-- `getline`, or none where the stream is bad. -/
def Source.getline (source : Source) (buf : List Char) : Option (List Char × Source) :=
  match source.fails with
  | some 0 => none
  | some (lines + 1) =>
      let (buf, is) := source.is.getline buf
      some (buf, { is, fails := some lines })
  | none =>
      let (buf, is) := source.is.getline buf
      some (buf, { is })

/-- How a read ends. -/
inductive Ended where
  | returned
  | msgEOF
  | errRead
deriving DecidableEq

namespace Objects

def setModified (heap : Objects) (h : Handle) (flag : Bool) : Objects :=
  match heap[h]? with
  | some object => heap.set h { object with modified := flag }
  | none => heap

/-- A multimap inserts behind the entries with the same key. -/
def insert (key : List Char) (v : Handle) (entries : List (List Char × Handle)) :
    List (List Char × Handle) :=
  entries.takeWhile (fun entry => !decide (key < entry.1)) ++
    (key, v) :: entries.dropWhile fun entry => !decide (key < entry.1)

def append (heap : Objects) (hub v : Handle) : Option Objects := do
  let object ← heap[v]?
  let owner ← heap[hub]?
  match owner.body with
  | .var _ => none
  | .hub file entries olist =>
      some (heap.set hub { owner with
        modified := true, body := .hub file (insert object.name v entries) (olist ++ [v]) })

def erase (heap : Objects) (hub : Handle) (key : List Char) : Option Objects := do
  let owner ← heap[hub]?
  match owner.body with
  | .var _ => none
  | .hub file entries olist =>
      match entries.find? fun entry => entry.1 = key with
      | none => some heap
      | some (_, v) =>
          some (heap.set hub { owner with
            modified := true
            body := .hub file (entries.eraseP fun entry => entry.1 = key) (olist.erase v) })

/-- `get` with a type for a new entry. -/
def get (heap : Objects) (hub : Handle) (key : List Char) (kind : Kind) :
    Option (Handle × Objects) := do
  let owner ← heap[hub]?
  match owner.body with
  | .var _ => none
  | .hub _ entries _ =>
      match entries.find? fun entry => entry.1 = key with
      | some (_, v) => some (v, heap)
      | none => do
          let heap' ← append (heap ++ [Object.new key kind]) hub heap.length
          some (heap.length, heap')

/-- `Var::operator =`, that is `base_assign`. -/
def assign (heap : Objects) (v : Handle) (str : List Char) : Option Objects := do
  let object ← heap[v]?
  match object.body with
  | .var _ => some (heap.set v { object with body := .var (cStr str) })
  | .hub .. => none

def writevar (heap : Objects) (hub : Handle) (name str : List Char) : Option Objects := do
  let (v, heap) ← get heap hub name .var
  assign heap v str

/-- The loop of `hub::modified` over the entries. -/
def anyModified (modified : Objects → Handle → Option (Bool × Objects)) :
    List Handle → Objects → Option (Bool × Objects)
  | [], heap => some (false, heap)
  | v :: entries, heap => do
      let (flag, heap) ← modified heap v
      if flag then some (true, heap) else anyModified modified entries heap

/-- `modified`: of a variable its flag, of a hub that of the first entry that is modified. -/
def modified : ℕ → Objects → Handle → Option (Bool × Objects)
  | 0, _, _ => none
  | fuel + 1, heap, h => do
      let object ← heap[h]?
      match object.body with
      | .var _ => some (object.modified, heap)
      | .hub _ entries _ => do
          let (flag, heap) ←
            anyModified (modified fuel) (entries.map Prod.snd) (setModified heap h false)
          some (flag, setModified heap h flag)

/-- `loadAll`, which has nothing to do for a variable. -/
def loadAll : ℕ → Objects → Handle → Option Objects
  | 0, _, _ => none
  | fuel + 1, heap, h => do
      let object ← heap[h]?
      match object.body with
      | .var _ => some heap
      | .hub _ _ olist => do
          let heap ← olist.foldlM (loadAll fuel) heap
          some (setModified heap h false)

/-- The loop of `Hub::read`. -/
def readHubLoop : ℕ → Objects → Handle → Source → (buf : List Char) →
    Option (Objects × Ended × Source)
  | 0, _, _, _, _ => none
  | fuel + 1, heap, hub, source, buf =>
      let (lineStartPosition, is) := source.is.tellg
      match { source with is }.getline buf with
      | none => some (heap, .errRead, { source with is })
      | some (buf, source) =>
          let last := source.is.eofbit
          let buf := trim buf
          if isHeader buf then
            some (heap, if last then .msgEOF else .returned,
              { source with is := source.is.clear.seekg lineStartPosition })
          else do
            let heap ← append (heap ++ [Object.ofVar (Var.create buf)]) hub heap.length
            if last then some (heap, .msgEOF, source) else readHubLoop fuel heap hub source buf

/-- `Hub::read`; the flag is cleared unless an exception ends it. -/
def readHub (heap : Objects) (hub : Handle) (source : Source) :
    Option (Objects × Ended × Source) := do
  let (heap, ended, source) ← readHubLoop (source.is.text.length + 1) heap hub source []
  let heap := if ended = .returned then setModified heap hub false else heap
  some (heap, ended, { source with is := source.is.clear })

/-- The loop of `cINIFile::read`. -/
def readFileLoop : ℕ → Objects → Handle → Source → (buf : List Char) → Option (Objects × Ended)
  | 0, _, _, _, _ => none
  | fuel + 1, heap, file, source, buf =>
      match source.getline buf with
      | none => some (heap, .errRead)
      | some (buf, source) =>
          let last := source.is.eofbit
          let buf := trim buf
          if isHeader buf then do
            let v := heap.length
            let (heap, ended, source) ←
              readHub (heap ++ [Object.ofHub (Hub.create buf [])]) v source
            if ended = .errRead then some (heap, .errRead)
            else do
              let heap ← append heap file v
              if last || ended = .msgEOF then some (heap, .returned)
              else readFileLoop fuel heap file source buf
          else do
            let heap ← append (heap ++ [Object.ofVar (Var.create buf)]) file heap.length
            if last then some (heap, .returned) else readFileLoop fuel heap file source buf

/-- `cINIFile::read`. -/
def readFile (heap : Objects) (file : Handle) (source : Source) : Option (Objects × Ended) := do
  let (heap, ended) ← readFileLoop (source.is.text.length + 1) heap file source []
  some (if ended = .returned then setModified heap file false else heap, ended)

/-- The `read` of a hub or of a file. -/
def read (heap : Objects) (h : Handle) (source : Source) : Option (Objects × Ended) := do
  let object ← heap[h]?
  match object.body with
  | .var _ => none
  | .hub true _ _ => readFile heap h source
  | .hub false _ _ => (readHub heap h source).map fun (heap, ended, _) => (heap, ended)

end Objects

/-- What a program does with its objects. A new variable may have been cleared before. -/
inductive Op where
  | createVar (modified : Bool) (v : Var)
  | createHub (name : List Char) (kind : Kind)
  | append (hub v : Handle)
  | erase (hub : Handle) (key : List Char)
  | get (hub : Handle) (key : List Char) (kind : Kind)
  | assign (v : Handle) (str : List Char)
  | writevar (hub : Handle) (name str : List Char)
  | read (hub : Handle) (source : Source)
  | loadAll (hub : Handle)
  | modified (hub : Handle)

inductive Outcome where
  | done
  | ended (how : Ended)
  | answer (flag : Bool)
deriving DecidableEq

def Objects.perform (heap : Objects) : Op → Option (Outcome × Objects)
  | .createVar modified v => some (.done, heap ++ [{ Object.ofVar v with modified }])
  | .createHub name kind => some (.done, heap ++ [Object.new name kind])
  | .append hub v => (heap.append hub v).map (.done, ·)
  | .erase hub key => (heap.erase hub key).map (.done, ·)
  | .get hub key kind => (heap.get hub key kind).map fun (_, heap) => (.done, heap)
  | .assign v str => (heap.assign v str).map (.done, ·)
  | .writevar hub name str => (heap.writevar hub name str).map (.done, ·)
  | .read hub source => (heap.read hub source).map fun (heap, how) => (.ended how, heap)
  | .loadAll hub => (heap.loadAll heap.length hub).map (.done, ·)
  | .modified hub => (heap.modified heap.length hub).map fun (flag, heap) => (.answer flag, heap)

def objectMachine : Machine Objects Op Outcome where
  step := Objects.perform

end Crs.ObjectIO
