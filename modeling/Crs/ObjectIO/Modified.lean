import Crs.Foundation.Acyclic
import Crs.ObjectIO.Objects

/-!
# Whether a hub is modified

No operation sets the flag of a variable that is in a hub: an assignment leaves it, and new
entries come without it. `hub::modified` forgets the flag of the hub itself, and so it only
answers for variables that were cleared before they were appended.
-/

namespace Crs.ObjectIO

open Foundation Relation

namespace Object

/-- The entries of a hub. -/
def children (object : Object) : List Handle :=
  match object.body with
  | .var _ => []
  | .hub _ entries _ => entries.map Prod.snd

/-- A variable with its flag set. -/
def flagged (object : Object) : Bool :=
  match object.body with
  | .var _ => object.modified
  | .hub .. => false

/-- An object without its flag. -/
def content (object : Object) : Object := { object with modified := false }

theorem children_content (object : Object) : object.content.children = object.children := rfl

end Object

namespace Objects

def children (heap : Objects) (h : Handle) : List Handle :=
  (heap[h]?.map Object.children).getD []

def flagged (heap : Objects) (h : Handle) : Bool :=
  (heap[h]?.map Object.flagged).getD false

def content (heap : Objects) (h : Handle) : Option Object :=
  heap[h]?.map Object.content

def Child (heap : Objects) (h v : Handle) : Prop := v ∈ heap.children h

/-- In the hub, however deep, or the hub itself. -/
def Reach (heap : Objects) : Handle → Handle → Prop := ReflTransGen heap.Child

/-- Some variable in the hub has its flag set. -/
def Marked (heap : Objects) (root : Handle) : Prop :=
  ∃ h, heap.Reach root h ∧ heap.flagged h = true

/-- An object in the hub has other contents. -/
def Changes (heap heap' : Objects) (root : Handle) : Prop :=
  ∃ h, heap.Reach root h ∧ heap.content h ≠ heap'.content h

/-- The handles in hubs are those of objects. -/
def Closed (heap : Objects) : Prop := ∀ h v, heap.Child h v → v < heap.length

end Objects

/-- A read of the hub that is not ended by an error, or `loadAll`. -/
def Completes (root : Handle) : Op × Outcome → Prop
  | (.read hub _, .ended how) => hub = root ∧ how ≠ .errRead
  | (.loadAll hub, _) => hub = root
  | _ => False

section History

variable (start : Objects) (root : Handle)

/-- A step has changed the content of the hub, and it was not read or loaded since. -/
def ChangedSince (history : List (Op × Outcome)) : Prop :=
  ∃ earlier op outcome later t u, history = earlier ++ (op, outcome) :: later ∧
    objectMachine.Run start earlier t ∧ t.perform op = some (outcome, u) ∧ t.Changes u root ∧
    ∀ event ∈ (op, outcome) :: later, ¬Completes root event

/-- `modified` answers, and the answer is right. -/
def Reports (history : List (Op × Outcome)) (t : Objects) : Prop :=
  ∃ flag u, t.perform (.modified root) = some (.answer flag, u) ∧
    (flag = true ↔ ChangedSince start root history)

end History

/-- No hub is put into itself. -/
def NoCycle (t : Objects) : Op → Prop
  | .append hub v => ¬t.Reach v hub
  | _ => True

/-- A read or `loadAll` of the hub finds no flag, and any other step that changes the hub finds
one. -/
def Finds (root : Handle) (t : Objects) (op : Op) : Prop :=
  ∀ outcome u, t.perform op = some (outcome, u) →
    (Completes root (op, outcome) → ¬t.Marked root) ∧
    (¬Completes root (op, outcome) → t.Changes u root → t.Marked root)

/-- The condition on a step. The flag may also come with a new entry; where an entry is erased, it
must be that of another one. -/
def Sound (root : Handle) (t : Objects) : Op → Prop
  | .append hub v => t.Reach root hub → t.Marked root ∨ t.Marked v
  | .erase hub key => ∀ u, t.erase hub key = some u → t.Changes u root → u.Marked root
  | op => Finds root t op

namespace Objects

section Flags

variable {heap heap' : Objects} {h v root : Handle}

/-- The same objects, up to the flags of hubs. -/
structure Similar (heap heap' : Objects) : Prop where
  content : ∀ h, heap'.content h = heap.content h
  flagged : ∀ h, heap'.flagged h = heap.flagged h

theorem similar_refl (heap : Objects) : Similar heap heap := ⟨fun _ => rfl, fun _ => rfl⟩

theorem Similar.trans {heap'' : Objects} (first : Similar heap heap')
    (second : Similar heap' heap'') : Similar heap heap'' :=
  ⟨fun h => (second.content h).trans (first.content h),
    fun h => (second.flagged h).trans (first.flagged h)⟩

/-- The entries of a hub are part of its content. -/
theorem children_eq (heap : Objects) (h : Handle) :
    heap.children h = ((heap.content h).map Object.children).getD [] := by
  rw [children, content, Option.map_map]
  rfl

theorem Similar.children (similar : Similar heap heap') (h : Handle) :
    heap'.children h = heap.children h := by
  rw [children_eq, children_eq, similar.content]

theorem Similar.child (similar : Similar heap heap') : heap'.Child = heap.Child := by
  funext h v
  rw [Child, Child, similar.children]

theorem Similar.reach (similar : Similar heap heap') : heap'.Reach = heap.Reach := by
  rw [Reach, Reach, similar.child]

theorem Similar.marked_iff (similar : Similar heap heap') (root : Handle) :
    heap'.Marked root ↔ heap.Marked root := by
  rw [Marked, Marked, similar.reach]
  simp only [similar.flagged]

theorem Similar.not_changes (similar : Similar heap heap') (root : Handle) :
    ¬heap.Changes heap' root := by
  rintro ⟨h, -, differs⟩
  exact differs (similar.content h).symm

theorem content_eq_none_iff : heap.content h = none ↔ heap.length ≤ h := by
  rw [content, Option.map_eq_none_iff, List.getElem?_eq_none_iff]

theorem Similar.length_le (similar : Similar heap heap') : heap'.length ≤ heap.length := by
  have same : heap'.content heap.length = heap.content heap.length := similar.content heap.length
  exact content_eq_none_iff.mp (same.trans (content_eq_none_iff.mpr le_rfl))

theorem Similar.symm (similar : Similar heap heap') : Similar heap' heap :=
  ⟨fun h => (similar.content h).symm, fun h => (similar.flagged h).symm⟩

theorem Similar.length_eq (similar : Similar heap heap') : heap'.length = heap.length :=
  Nat.le_antisymm similar.length_le similar.symm.length_le

theorem Similar.closed (similar : Similar heap heap') (closed : heap.Closed) : heap'.Closed := by
  rw [Closed, similar.child, similar.length_eq]
  exact closed

theorem getElem?_set {object : Object} (found : heap[h]? = some object) (object' : Object)
    (k : Handle) : (heap.set h object')[k]? = if h = k then some object' else heap[k]? := by
  rw [List.getElem?_set, if_pos (List.getElem?_eq_some_iff.mp found).1]

theorem similar_set {object object' : Object} (found : heap[h]? = some object)
    (content : object'.content = object.content) (flagged : object'.flagged = object.flagged) :
    Similar heap (heap.set h object') := by
  constructor
  · intro k
    rw [Objects.content, Objects.content, getElem?_set found]
    split
    · next same => rw [← same, found, Option.map_some, Option.map_some, content]
    · rfl
  · intro k
    rw [Objects.flagged, Objects.flagged, getElem?_set found]
    split
    · next same => rw [← same, found, Option.map_some, Option.map_some, flagged]
    · rfl

/-- The flag of a hub says nothing. -/
theorem similar_setModified {object : Object} {file : Bool}
    {entries : List (List Char × Handle)} {olist : List Handle} (found : heap[h]? = some object)
    (body : object.body = .hub file entries olist) (flag : Bool) :
    Similar heap (heap.setModified h flag) := by
  rw [setModified, found]
  apply similar_set found
  · rfl
  · simp only [Object.flagged, body]

/-- What was a hub is still one. -/
theorem Similar.setModified {object : Object} {file : Bool}
    {entries : List (List Char × Handle)} {olist : List Handle} (similar : Similar heap heap')
    (found : heap[h]? = some object) (body : object.body = .hub file entries olist)
    (flag : Bool) : Similar heap' (heap'.setModified h flag) := by
  obtain ⟨object', found'⟩ : ∃ object', heap'[h]? = some object' :=
    ⟨_, List.getElem?_eq_getElem (similar.length_eq ▸ (List.getElem?_eq_some_iff.mp found).1)⟩
  have contents := similar.content h
  rw [Objects.content, Objects.content, found, found', Option.map_some, Option.map_some,
    Option.some.injEq] at contents
  exact similar_setModified found' ((congrArg Object.body contents).trans body) flag

end Flags

section Answers

variable {heap heap' : Objects} {h v root : Handle}

/-- What `modified` does on the objects that are similar to given ones. -/
def Answers (heap : Objects) (fuel : ℕ) (h : Handle) : Prop :=
  ∀ heap', Similar heap heap' → ∃ flag u, modified fuel heap' h = some (flag, u) ∧
    (flag = true ↔ heap.Marked h) ∧ Similar heap u

theorem anyModified_spec {fuel : ℕ} {entries : List Handle}
    (each : ∀ v ∈ entries, Answers heap fuel v) (similar : Similar heap heap') :
    ∃ flag u, anyModified (modified fuel) entries heap' = some (flag, u) ∧
      (flag = true ↔ ∃ v ∈ entries, heap.Marked v) ∧ Similar heap u := by
  induction entries generalizing heap' with
  | nil => exact ⟨false, heap', rfl, by simp, similar⟩
  | cons v entries ih =>
    obtain ⟨now, later⟩ := List.forall_mem_cons.mp each
    obtain ⟨flag, u, answer, exact_flag, similar⟩ := now heap' similar
    rw [anyModified, answer]
    cases flag with
    | true => exact ⟨true, u, rfl, by simp [exact_flag.mp rfl], similar⟩
    | false =>
      obtain ⟨flag, u, rest, exact_rest, similar⟩ := ih later similar
      refine ⟨flag, u, rest, ?_, similar⟩
      have unmarked : ¬heap.Marked v := fun marked => Bool.false_ne_true (exact_flag.mpr marked)
      rw [exact_rest, List.exists_mem_cons_iff, or_iff_right unmarked]

/-- A hub is marked if one of its entries is, a variable if its flag is set. -/
theorem marked_iff (heap : Objects) (h : Handle) :
    heap.Marked h ↔ heap.flagged h = true ∨ ∃ v ∈ heap.children h, heap.Marked v := by
  constructor
  · rintro ⟨k, path, flag⟩
    obtain rfl | ⟨v, step, path⟩ := path.cases_head
    · exact .inl flag
    · exact .inr ⟨v, step, k, path, flag⟩
  · rintro (flag | ⟨v, step, k, path, flag⟩)
    · exact ⟨h, .refl, flag⟩
    · exact ⟨k, path.head step, flag⟩

theorem answers_succ {fuel : ℕ} (inside : h < heap.length)
    (each : ∀ v, heap.Child h v → Answers heap fuel v) : Answers heap (fuel + 1) h := by
  intro heap' similar
  obtain ⟨object, found⟩ : ∃ object, heap'[h]? = some object :=
    ⟨_, List.getElem?_eq_getElem (similar.length_eq ▸ inside)⟩
  have same_children := similar.children h
  have same_flag := similar.flagged h
  rw [children, found, Option.map_some, Option.getD_some] at same_children
  rw [flagged, found, Option.map_some, Option.getD_some] at same_flag
  rw [marked_iff, ← same_flag, ← same_children, modified, found]
  cases body : object.body with
  | var contents =>
    refine ⟨object.modified, heap', by simp [body], ?_, similar⟩
    simp [Object.flagged, Object.children, body]
  | hub file entries olist =>
    have cleared := similar.trans (similar_setModified found body false)
    have entries_eq : object.children = entries.map Prod.snd := by rw [Object.children, body]
    have answered (v : Handle) (member : v ∈ entries.map Prod.snd) : Answers heap fuel v :=
      each v (by rwa [Child, ← same_children, entries_eq])
    obtain ⟨flag, u, loop, exact_flag, similar_u⟩ := anyModified_spec answered cleared
    have last := (similar.symm.trans similar_u).setModified found body flag
    refine ⟨flag, u.setModified h flag, by simp [body, loop], ?_, similar_u.trans last⟩
    rw [exact_flag, entries_eq, Object.flagged, body]
    simp

/-- Without cycles, `modified` answers, and says whether a variable in the hub has its flag set. -/
theorem answers (closed : heap.Closed) (acyclic : Acyclic heap.Child) (inside : h < heap.length) :
    Answers heap heap.length h := by
  have reached (b : Handle) (path : heap.Reach h b) : b < heap.length := by
    obtain rfl | ⟨c, -, step⟩ := path.cases_tail
    · exact inside
    · exact closed c b step
  have listed (b : Handle) (path : heap.Reach h b) : b ∈ List.range heap.length :=
    List.mem_range.mpr (reached b path)
  have all := acyclic.fuel_induction
    (P := fun fuel a => a < heap.length → Answers heap fuel a)
    (fun fuel a each inside => answers_succ inside fun v step => each v step (closed a v step))
    listed
  rw [List.length_range] at all
  exact all inside

/-- `loadAll` only clears flags of hubs. -/
theorem similar_loadAll {fuel : ℕ} {u : Objects} (loaded : loadAll fuel heap h = some u) :
    Similar heap u := by
  induction fuel generalizing heap h u with
  | zero => cases loaded
  | succ fuel ih =>
    simp only [loadAll, Option.bind_eq_bind, Option.bind_eq_some_iff] at loaded
    obtain ⟨object, found, loaded⟩ := loaded
    cases body : object.body with
    | var contents =>
      simp only [body, Option.some.injEq] at loaded
      exact loaded ▸ similar_refl heap
    | hub file entries olist =>
      simp only [body, Option.bind_eq_some_iff, Option.some.injEq] at loaded
      obtain ⟨heap', each, rfl⟩ := loaded
      have similar : Similar heap heap' := by
        clear found body
        induction olist generalizing heap with
        | nil =>
          obtain rfl := Option.some.inj each
          exact similar_refl heap
        | cons v olist ihList =>
          rw [List.foldlM_cons] at each
          obtain ⟨next, first, rest⟩ := Option.bind_eq_some_iff.mp each
          exact (ih first).trans (ihList rest)
      exact similar.trans (similar.setModified found body false)

end Answers

section Updates

variable {heap base u : Objects} {h hub v k root : Handle} {object object' : Object}

theorem children_set (found : heap[h]? = some object) (object' : Object) (k : Handle) :
    children (heap.set h object') k = if h = k then object'.children else heap.children k := by
  rw [children, getElem?_set found]
  split
  · rfl
  · rfl

theorem flagged_set (found : heap[h]? = some object) (same : object'.flagged = object.flagged)
    (k : Handle) : flagged (heap.set h object') k = heap.flagged k := by
  rw [flagged, flagged, getElem?_set found]
  split
  · next at_k => rw [← at_k, found, Option.map_some, Option.map_some, same]
  · rfl

/-- A change of one object is a change of the hubs that have it. -/
theorem changes_set_iff (found : heap[h]? = some object)
    (differs : object'.content ≠ object.content) :
    heap.Changes (heap.set h object') root ↔ heap.Reach root h := by
  constructor
  · rintro ⟨k, path, other⟩
    rw [content, content, getElem?_set found] at other
    by_cases at_k : h = k
    · exact at_k ▸ path
    · rw [if_neg at_k] at other
      exact absurd rfl other
  · intro path
    refine ⟨h, path, ?_⟩
    rw [content, content, getElem?_set found, if_pos rfl, found, Option.map_some,
      Option.map_some, ne_eq, Option.some.injEq]
    exact Ne.symm differs

theorem children_alloc (heap : Objects) (object : Object) (leaf : object.children = [])
    (k : Handle) : children (heap ++ [object]) k = heap.children k := by
  rw [children, children, List.getElem?_append]
  split
  · rfl
  · next outside =>
    rw [List.getElem?_eq_none (Nat.not_lt.mp outside), List.getElem?_singleton]
    split
    · simp [leaf]
    · rfl

theorem flagged_alloc (heap : Objects) (object : Object) (unflagged : object.flagged = false)
    (k : Handle) : flagged (heap ++ [object]) k = heap.flagged k := by
  rw [flagged, flagged, List.getElem?_append]
  split
  · rfl
  · next outside =>
    rw [List.getElem?_eq_none (Nat.not_lt.mp outside), List.getElem?_singleton]
    split
    · simp [unflagged]
    · rfl

theorem mem_insert {key : List Char} {entries : List (List Char × Handle)} :
    k ∈ (insert key v entries).map Prod.snd ↔ k = v ∨ k ∈ entries.map Prod.snd := by
  have parts := List.takeWhile_append_dropWhile
    (p := fun entry : List Char × Handle => !decide (key < entry.1)) (l := entries)
  rw [insert]
  conv_rhs => rw [← parts]
  simp only [List.map_append, List.map_cons, List.mem_append, List.mem_cons]
  exact or_left_comm

/-- What `append` does to the objects. -/
theorem append_spec (appended : heap.append hub v = some u) :
    ∃ owner file entries olist key, heap[hub]? = some owner ∧ owner.body = .hub file entries olist ∧
      v < heap.length ∧ u = heap.set hub { owner with
        modified := true, body := .hub file (insert key v entries) (olist ++ [v]) } := by
  simp only [append, Option.bind_eq_bind, Option.bind_eq_some_iff] at appended
  obtain ⟨object, found, owner, found_hub, appended⟩ := appended
  cases body : owner.body with
  | var contents => simp [body] at appended
  | hub file entries olist =>
    simp only [body, Option.some.injEq] at appended
    exact ⟨owner, file, entries, olist, object.name, found_hub, body,
      (List.getElem?_eq_some_iff.mp found).1, appended.symm⟩

theorem append_child (appended : heap.append hub v = some u) :
    u.Child = InsertEdge heap.Child hub v := by
  obtain ⟨owner, file, entries, olist, key, found, body, -, rfl⟩ := append_spec appended
  funext x y
  apply propext
  rw [Child, children_set found, InsertEdge, Child]
  by_cases at_x : hub = x
  · subst at_x
    rw [if_pos rfl, children, found, Option.map_some, Option.getD_some, Object.children,
      Object.children, body]
    simp only [mem_insert, true_and]
    exact or_comm
  · rw [if_neg at_x]
    simp [Ne.symm at_x]

theorem append_flagged (appended : heap.append hub v = some u) (k : Handle) :
    u.flagged k = heap.flagged k := by
  obtain ⟨owner, file, entries, olist, key, found, body, -, rfl⟩ := append_spec appended
  apply flagged_set found
  simp only [Object.flagged, body]

theorem append_length (appended : heap.append hub v = some u) : u.length = heap.length := by
  obtain ⟨owner, file, entries, olist, key, -, -, -, rfl⟩ := append_spec appended
  exact List.length_set

theorem append_changes_iff (appended : heap.append hub v = some u) :
    heap.Changes u root ↔ heap.Reach root hub := by
  obtain ⟨owner, file, entries, olist, key, found, body, -, rfl⟩ := append_spec appended
  apply changes_set_iff found
  intro same
  have olist_same := congrArg Object.body same
  simp [Object.content, body] at olist_same

end Updates

section Growing

variable {heap base u : Objects} {h hub v root : Handle} {source : Source}

/-- The objects with new ones behind them, which are not flagged. They are only in hubs that were
created before them. -/
structure Grown (base heap : Objects) : Prop where
  closed : heap.Closed
  length : base.length ≤ heap.length
  flagged : ∀ h, heap.flagged h = base.flagged h
  grows : Grows base.length base.Child heap.Child

theorem grown_refl (closed : heap.Closed) : Grown heap heap where
  closed := closed
  length := Nat.le_refl _
  flagged _ := rfl
  grows := {
    old _ _ := id
    inner _ _ step _ _ := step
    upwards x y step new := by
      have inside : x < heap.length := by
        by_contra outside
        rw [Child, children, List.getElem?_eq_none (Nat.not_lt.mp outside)] at step
        simp at step
      omega }

theorem Grown.lt_of_flagged (grown : Grown base heap) (flag : heap.flagged h = true) :
    h < base.length := by
  by_contra outside
  rw [grown.flagged, Objects.flagged, List.getElem?_eq_none (Nat.not_lt.mp outside)] at flag
  simp at flag

theorem Grown.marked_iff (grown : Grown base heap) (root : Handle) :
    heap.Marked root ↔ base.Marked root := by
  constructor
  · rintro ⟨h, path, flag⟩
    have inside := grown.lt_of_flagged flag
    exact ⟨h, (grown.grows.reflTransGen_iff inside).mp path, grown.flagged h ▸ flag⟩
  · rintro ⟨h, path, flag⟩
    rw [← grown.flagged] at flag
    exact ⟨h, (grown.grows.reflTransGen_iff (grown.lt_of_flagged flag)).mpr path, flag⟩

/-- Objects with the same entries and flags. -/
theorem Grown.congr (grown : Grown base heap) (length : u.length = heap.length)
    (children : ∀ h, u.children h = heap.children h)
    (flagged : ∀ h, u.flagged h = heap.flagged h) : Grown base u where
  closed := by
    intro h v step
    rw [Child, children] at step
    rw [length]
    exact grown.closed h v step
  length := length ▸ grown.length
  flagged h := (flagged h).trans (grown.flagged h)
  grows := by
    have same : u.Child = heap.Child := by
      funext h v
      rw [Child, Child, children]
    exact same ▸ grown.grows

theorem Grown.similar (grown : Grown base heap) (similar : Similar heap u) : Grown base u :=
  grown.congr similar.length_eq similar.children similar.flagged

theorem Grown.alloc (grown : Grown base heap) {object : Object} (leaf : object.children = [])
    (unflagged : object.flagged = false) : Grown base (heap ++ [object]) where
  closed := by
    intro h v step
    rw [Child, children_alloc heap object leaf] at step
    rw [List.length_append]
    exact Nat.lt_add_right _ (grown.closed h v step)
  length := by
    rw [List.length_append]
    exact Nat.le_add_right_of_le grown.length
  flagged h := (flagged_alloc heap object unflagged h).trans (grown.flagged h)
  grows := by
    have same : Child (heap ++ [object]) = heap.Child := by
      funext h v
      rw [Child, Child, children_alloc heap object leaf]
    exact same ▸ grown.grows

theorem Grown.alloc_ofVar (grown : Grown base heap) (v : Var) :
    Grown base (heap ++ [Object.ofVar v]) :=
  grown.alloc rfl rfl

theorem Grown.append (grown : Grown base heap) (appended : heap.append hub v = some u)
    (new : base.length ≤ v) (later : hub < v) : Grown base u where
  closed := by
    intro x y step
    rw [append_length appended]
    rw [append_child appended] at step
    obtain old | ⟨-, rfl⟩ := step
    · exact grown.closed x y old
    · obtain ⟨-, -, -, -, -, -, -, inside, -⟩ := append_spec appended
      exact inside
  length := append_length appended ▸ grown.length
  flagged h := (append_flagged appended h).trans (grown.flagged h)
  grows := by
    rw [append_child appended]
    constructor
    · exact fun x y step => .inl (grown.grows.old x y step)
    · rintro x y (old | ⟨rfl, rfl⟩) x_old y_old
      · exact grown.grows.inner x y old x_old y_old
      · omega
    · rintro x y (old | ⟨rfl, rfl⟩) x_new
      · exact grown.grows.upwards x y old x_new
      · exact later

/-- There is a hub behind the handle. -/
def IsHub (heap : Objects) (h : Handle) : Prop :=
  ∃ object file entries olist, heap[h]? = some object ∧ object.body = .hub file entries olist

theorem IsHub.lt (isHub : heap.IsHub h) : h < heap.length := by
  obtain ⟨_, _, _, _, found, -⟩ := isHub
  exact (List.getElem?_eq_some_iff.mp found).1

theorem IsHub.alloc (isHub : heap.IsHub h) (object : Object) :
    IsHub (heap ++ [object]) h := by
  obtain ⟨owner, file, entries, olist, found, body⟩ := isHub
  refine ⟨owner, file, entries, olist, ?_, body⟩
  rw [List.getElem?_append_left (List.getElem?_eq_some_iff.mp found).1, found]

theorem isHub_alloc (heap : Objects) (new : Hub) :
    IsHub (heap ++ [Object.ofHub new]) heap.length := by
  refine ⟨Object.ofHub new, false, [], [], ?_, rfl⟩
  rw [List.getElem?_append_right (Nat.le_refl _), Nat.sub_self]
  rfl

theorem IsHub.append (isHub : heap.IsHub h) (appended : heap.append hub v = some u) :
    u.IsHub h := by
  obtain ⟨owner, file, entries, olist, key, found, -, -, rfl⟩ := append_spec appended
  by_cases at_h : hub = h
  · exact ⟨_, _, _, _, by rw [getElem?_set found, if_pos at_h], rfl⟩
  · obtain ⟨object, file', entries', olist', found', body⟩ := isHub
    exact ⟨object, file', entries', olist', by rw [getElem?_set found, if_neg at_h, found'], body⟩

theorem IsHub.similar (isHub : heap.IsHub h) (flag : Bool) :
    Similar heap (heap.setModified h flag) := by
  obtain ⟨_, _, _, _, found, body⟩ := isHub
  exact similar_setModified found body flag

theorem IsHub.setModified (isHub : heap.IsHub h) (k : Handle) (flag : Bool) :
    IsHub (heap.setModified k flag) h := by
  obtain ⟨object, file, entries, olist, found, body⟩ := isHub
  rw [IsHub, Objects.setModified]
  cases found_k : heap[k]? with
  | none => exact ⟨object, file, entries, olist, found, body⟩
  | some other =>
    by_cases at_h : k = h
    · subst at_h
      obtain rfl := Option.some.inj (found.symm.trans found_k)
      exact ⟨{ object with modified := flag }, file, entries, olist,
        by rw [getElem?_set found_k, if_pos rfl], body⟩
    · exact ⟨object, file, entries, olist, by rw [getElem?_set found_k, if_neg at_h, found], body⟩

theorem readHubLoop_grown {fuel : ℕ} {buf : List Char} {ended : Ended} {source' : Source}
    (grown : Grown base heap) (inside : hub < heap.length)
    (read : readHubLoop fuel heap hub source buf = some (u, ended, source')) :
    Grown base u ∧ ∀ h, heap.IsHub h → u.IsHub h := by
  induction fuel generalizing heap source buf with
  | zero => cases read
  | succ fuel ih =>
    rw [readHubLoop] at read
    dsimp only at read
    split at read
    · cases read
      exact ⟨grown, fun _ => id⟩
    · split at read
      · cases read
        exact ⟨grown, fun _ => id⟩
      · obtain ⟨next, appended, read⟩ := Option.bind_eq_some_iff.mp read
        have grown_next := (grown.alloc_ofVar _).append appended
          grown.length inside
        have hubs (h : Handle) (isHub : heap.IsHub h) := (isHub.alloc _).append appended
        split at read
        · cases read
          exact ⟨grown_next, hubs⟩
        · have inside_next : hub < next.length := by
            rw [append_length appended, List.length_append]
            exact Nat.lt_add_right _ inside
          obtain ⟨grown_u, hubs_u⟩ := ih grown_next inside_next read
          exact ⟨grown_u, fun h isHub => hubs_u h (hubs h isHub)⟩

theorem readHub_grown {ended : Ended} {source' : Source} (grown : Grown base heap)
    (isHub : heap.IsHub hub) (read : readHub heap hub source = some (u, ended, source')) :
    Grown base u ∧ ∀ h, heap.IsHub h → u.IsHub h := by
  simp only [readHub, Option.bind_eq_bind, Option.bind_eq_some_iff, Option.some.injEq,
    Prod.mk.injEq] at read
  obtain ⟨⟨heap', ended', source'⟩, loop, rfl, rfl, rfl⟩ := read
  obtain ⟨grown', hubs⟩ := readHubLoop_grown grown isHub.lt loop
  dsimp only
  split
  · exact ⟨grown'.similar ((hubs hub isHub).similar false),
      fun h isHub => (hubs h isHub).setModified hub false⟩
  · exact ⟨grown', hubs⟩

theorem readFileLoop_grown {fuel : ℕ} {buf : List Char} {ended : Ended} {file : Handle}
    (grown : Grown base heap) (isHub : heap.IsHub file)
    (read : readFileLoop fuel heap file source buf = some (u, ended)) :
    Grown base u ∧ u.IsHub file := by
  induction fuel generalizing heap source buf with
  | zero => cases read
  | succ fuel ih =>
    rw [readFileLoop] at read
    split at read
    · cases read
      exact ⟨grown, isHub⟩
    · dsimp only at read
      split at read
      · -- a new hub is read, and appended
        obtain ⟨⟨next, how, source'⟩, read_hub, read⟩ := Option.bind_eq_some_iff.mp read
        obtain ⟨grown_hub, hubs⟩ := readHub_grown (grown.alloc rfl rfl) (isHub_alloc heap _)
          read_hub
        have file_hub := hubs file (isHub.alloc _)
        dsimp only at read
        split at read
        · cases read
          exact ⟨grown_hub, file_hub⟩
        · obtain ⟨last, appended, read⟩ := Option.bind_eq_some_iff.mp read
          have grown_last := grown_hub.append appended grown.length isHub.lt
          split at read
          · cases read
            exact ⟨grown_last, file_hub.append appended⟩
          · exact ih grown_last (file_hub.append appended) read
      · obtain ⟨next, appended, read⟩ := Option.bind_eq_some_iff.mp read
        have grown_next := (grown.alloc_ofVar _).append appended
          grown.length isHub.lt
        split at read
        · cases read
          exact ⟨grown_next, (isHub.alloc _).append appended⟩
        · exact ih grown_next ((isHub.alloc _).append appended) read

/-- A read appends new entries. -/
theorem read_grown {ended : Ended} (closed : heap.Closed)
    (read : heap.read h source = some (u, ended)) : Grown heap u := by
  simp only [Objects.read, Option.bind_eq_bind, Option.bind_eq_some_iff] at read
  obtain ⟨object, found, read⟩ := read
  cases body : object.body with
  | var contents => simp [body] at read
  | hub file entries olist =>
    have isHub : heap.IsHub h := ⟨object, file, entries, olist, found, body⟩
    cases file with
    | false =>
      simp only [body, Option.map_eq_some_iff, Prod.mk.injEq] at read
      obtain ⟨⟨_, _, source'⟩, read, rfl, rfl⟩ := read
      exact (readHub_grown (grown_refl closed) isHub read).1
    | true =>
      simp only [body, readFile, Option.bind_eq_bind, Option.bind_eq_some_iff, Option.some.injEq,
        Prod.mk.injEq] at read
      obtain ⟨⟨heap', ended'⟩, loop, rfl, rfl⟩ := read
      obtain ⟨grown, isHub'⟩ := readFileLoop_grown (grown_refl closed) isHub loop
      dsimp only
      split
      · exact grown.similar (isHub'.similar false)
      · exact grown

theorem new_leaf (name : List Char) (kind : Kind) :
    (Object.new name kind).children = [] ∧ (Object.new name kind).flagged = false := by
  cases kind <;> exact ⟨rfl, rfl⟩

theorem get_grown {key : List Char} {kind : Kind} (closed : heap.Closed)
    (got : heap.get h key kind = some (v, u)) : Grown heap u := by
  simp only [get, Option.bind_eq_bind, Option.bind_eq_some_iff] at got
  obtain ⟨owner, found, got⟩ := got
  cases body : owner.body with
  | var contents => simp [body] at got
  | hub file entries olist =>
    simp only [body] at got
    split at got
    · cases got
      exact grown_refl closed
    · simp only [Option.bind_eq_some_iff, Option.some.injEq, Prod.mk.injEq] at got
      obtain ⟨_, appended, -, rfl⟩ := got
      obtain ⟨leaf, unflagged⟩ := new_leaf key kind
      exact ((grown_refl closed).alloc leaf unflagged).append appended (Nat.le_refl _)
        (List.getElem?_eq_some_iff.mp found).1

theorem assign_grown {str : List Char} (grown : Grown base heap)
    (assigned : heap.assign v str = some u) : Grown base u := by
  simp only [assign, Option.bind_eq_bind, Option.bind_eq_some_iff] at assigned
  obtain ⟨object, found, assigned⟩ := assigned
  cases body : object.body with
  | hub file entries olist => simp [body] at assigned
  | var contents =>
    simp only [body, Option.some.injEq] at assigned
    subst assigned
    refine grown.congr List.length_set (fun h => ?_) (flagged_set found ?_)
    · rw [children_set found]
      split
      · next at_h =>
        rw [← at_h, children, found, Option.map_some, Option.getD_some]
        simp only [Object.children, body]
      · rfl
    · simp only [Object.flagged, body]

end Growing

/-- No cycles, and the hub is there. -/
structure Inv (root : Handle) (t : Objects) : Prop where
  closed : t.Closed
  acyclic : Acyclic t.Child
  inside : root < t.length

section Steps

variable {t u : Objects} {root hub v : Handle} {key : List Char} {op : Op} {outcome : Outcome}

/-- What the flags say behind a step, if they said the right before. -/
def Right (root : Handle) (t u : Objects) (event : Op × Outcome) : Prop :=
  u.Marked root ↔ ¬Completes root event ∧ (t.Marked root ∨ t.Changes u root)

theorem right_iff_finds (same : u.Marked root ↔ t.Marked root)
    (performed : t.perform op = some (outcome, u)) :
    Right root t u (op, outcome) ↔ Finds root t op := by
  rw [Right, same]
  constructor
  · intro right outcome' u' performed'
    obtain ⟨rfl, rfl⟩ := Prod.mk.inj (Option.some.inj (performed.symm.trans performed'))
    exact ⟨fun completes marked => (right.mp marked).1 completes,
      fun incomplete changes => right.mpr ⟨incomplete, .inr changes⟩⟩
  · intro finds
    obtain ⟨complete, incomplete⟩ := finds outcome u performed
    constructor
    · exact fun marked => ⟨fun completes => complete completes marked, .inl marked⟩
    · rintro ⟨other, marked | changes⟩
      · exact marked
      · exact incomplete other changes

theorem Grown.inv (grown : Grown t u) (inv : Inv root t) : Inv root u :=
  ⟨grown.closed, grown.grows.acyclic inv.acyclic, Nat.lt_of_lt_of_le inv.inside grown.length⟩

theorem Inv.lt_of_reach (inv : Inv root t) (path : t.Reach root v) : v < t.length := by
  obtain rfl | ⟨c, -, step⟩ := path.cases_tail
  · exact inv.inside
  · exact inv.closed c v step

/-- An object that is in no hub yet. -/
theorem create_spec (inv : Inv root t) {object : Object} (leaf : object.children = []) :
    Inv root (t ++ [object]) ∧ (Marked (t ++ [object]) root ↔ t.Marked root) := by
  have same : Child (t ++ [object]) = t.Child := by
    funext h v
    rw [Child, Child, children_alloc t object leaf]
  have flag (h : Handle) (path : t.Reach root h) : flagged (t ++ [object]) h = t.flagged h := by
    rw [flagged, flagged, List.getElem?_append_left (inv.lt_of_reach path)]
  refine ⟨⟨?_, same ▸ inv.acyclic, ?_⟩, ?_⟩
  · intro h v step
    rw [same] at step
    rw [List.length_append]
    exact Nat.lt_add_right _ (inv.closed h v step)
  · rw [List.length_append]
    exact Nat.lt_add_right _ inv.inside
  · rw [Marked, Marked, Reach, same]
    constructor
    · rintro ⟨h, path, here⟩
      exact ⟨h, path, flag h path ▸ here⟩
    · rintro ⟨h, path, here⟩
      exact ⟨h, path, (flag h path).symm ▸ here⟩

theorem append_inv (inv : Inv root t) (noCycle : ¬t.Reach v hub)
    (appended : t.append hub v = some u) : Inv root u := by
  refine ⟨?_, ?_, append_length appended ▸ inv.inside⟩
  · intro x y step
    rw [append_child appended] at step
    rw [append_length appended]
    obtain old | ⟨-, rfl⟩ := step
    · exact inv.closed x y old
    · obtain ⟨-, -, -, -, -, -, -, inside, -⟩ := append_spec appended
      exact inside
  · rw [append_child appended]
    exact inv.acyclic.insertEdge noCycle

theorem append_marked_iff (appended : t.append hub v = some u) :
    u.Marked root ↔ t.Marked root ∨ t.Reach root hub ∧ t.Marked v := by
  simp only [Marked, Reach, append_child appended, reflTransGen_insertEdge,
    append_flagged appended]
  constructor
  · rintro ⟨h, path | ⟨first, last⟩, flag⟩
    · exact .inl ⟨h, path, flag⟩
    · exact .inr ⟨first, h, last, flag⟩
  · rintro (⟨h, path, flag⟩ | ⟨first, h, last, flag⟩)
    · exact ⟨h, .inl path, flag⟩
    · exact ⟨h, .inr ⟨first, last⟩, flag⟩

theorem append_right_iff (appended : t.append hub v = some u) :
    Right root t u (.append hub v, .done) ↔ Sound root t (.append hub v) := by
  rw [Right, append_marked_iff appended, append_changes_iff appended, Sound]
  simp only [Completes, not_false_eq_true, true_and]
  tauto

/-- `erase` finds no entry, or it takes one from the hub. -/
theorem erase_spec (erased : t.erase hub key = some u) : u = t ∨
    ∃ owner owner', t[hub]? = some owner ∧ u = t.set hub owner' ∧
      owner'.content ≠ owner.content ∧ owner'.flagged = owner.flagged ∧
      ∀ v ∈ owner'.children, v ∈ owner.children := by
  simp only [erase, Option.bind_eq_bind, Option.bind_eq_some_iff] at erased
  obtain ⟨owner, found, erased⟩ := erased
  cases body : owner.body with
  | var contents => simp [body] at erased
  | hub file entries olist =>
    simp only [body] at erased
    cases entry : entries.find? fun entry => entry.1 = key with
    | none =>
      simp only [entry, Option.some.injEq] at erased
      exact .inl erased.symm
    | some first =>
      simp only [entry, Option.some.injEq] at erased
      have shorter := List.length_eraseP_of_mem (List.mem_of_find?_eq_some entry)
        (List.find?_some entry)
      have positive := List.length_pos_of_mem (List.mem_of_find?_eq_some entry)
      refine .inr ⟨owner, _, found, erased.symm, ?_, ?_, ?_⟩
      · intro same
        have entries_same := congrArg Object.body same
        simp only [Object.content, body, Body.hub.injEq] at entries_same
        have lengths := congrArg List.length entries_same.2.1
        omega
      · simp only [Object.flagged, body]
      · simp only [Object.children, body]
        exact fun v member => ((List.eraseP_sublist).map _).subset member

theorem erase_inv (inv : Inv root t) (erased : t.erase hub key = some u) : Inv root u := by
  obtain rfl | ⟨owner, owner', found, rfl, -, -, fewer⟩ := erase_spec erased
  · exact inv
  · have old (x y : Handle) (step : Child (t.set hub owner') x y) : t.Child x y := by
      rw [Child, children_set found] at step
      split at step
      · next at_x =>
        rw [Child, ← at_x, children, found]
        exact fewer y step
      · exact step
    refine ⟨fun x y step => ?_, inv.acyclic.mono old, ?_⟩
    · rw [List.length_set]
      exact inv.closed x y (old x y step)
    · rw [List.length_set]
      exact inv.inside

/-- An object that is not in the hub can change. -/
theorem marked_set_iff {owner owner' : Object} (found : t[hub]? = some owner)
    (same : owner'.flagged = owner.flagged) (off : ¬t.Reach root hub) :
    Marked (t.set hub owner') root ↔ t.Marked root := by
  have children_same (x : Handle) (other : x ≠ hub) (y : Handle) :
      Child (t.set hub owner') x y ↔ t.Child x y := by
    rw [Child, Child, children_set found, if_neg (Ne.symm other)]
  rw [Marked, Marked]
  simp only [Reach, reflTransGen_congr_off children_same off, flagged_set found same]

theorem erase_right_iff (erased : t.erase hub key = some u) :
    Right root t u (.erase hub key, .done) ↔ Sound root t (.erase hub key) := by
  have sound_iff : Sound root t (.erase hub key) ↔ (t.Changes u root → u.Marked root) := by
    rw [Sound]
    constructor
    · exact fun sound => sound u erased
    · intro sound u' erased'
      obtain rfl := Option.some.inj (erased.symm.trans erased')
      exact sound
  have same (unchanged : ¬t.Changes u root) : u.Marked root ↔ t.Marked root := by
    obtain rfl | ⟨owner, owner', found, rfl, differs, same, -⟩ := erase_spec erased
    · exact Iff.rfl
    · rw [changes_set_iff found differs] at unchanged
      exact marked_set_iff found same unchanged
  rw [sound_iff, Right]
  simp only [Completes, not_false_eq_true, true_and]
  by_cases changes : t.Changes u root
  · simp [changes]
  · simp [changes, same changes]

theorem lt_of_modified {fuel : ℕ} {flag : Bool} (answer : modified fuel t hub = some (flag, u)) :
    hub < t.length := by
  cases fuel with
  | zero => cases answer
  | succ fuel =>
    obtain ⟨object, found, -⟩ := Option.bind_eq_some_iff.mp answer
    exact (List.getElem?_eq_some_iff.mp found).1

/-- Except for `append` and `erase`, the flags in the hub stay. -/
theorem perform_same (inv : Inv root t) (performed : t.perform op = some (outcome, u))
    (no_append : ∀ hub v, op ≠ .append hub v) (no_erase : ∀ hub key, op ≠ .erase hub key) :
    Inv root u ∧ (u.Marked root ↔ t.Marked root) := by
  have by_grown (grown : Grown t u) : Inv root u ∧ (u.Marked root ↔ t.Marked root) :=
    ⟨grown.inv inv, grown.marked_iff root⟩
  have by_similar (similar : Similar t u) := by_grown ((grown_refl inv.closed).similar similar)
  cases op with
  | append hub v => exact absurd rfl (no_append hub v)
  | erase hub key => exact absurd rfl (no_erase hub key)
  | createVar modified v =>
    cases performed
    exact create_spec inv rfl
  | createHub name kind =>
    cases performed
    exact create_spec inv (new_leaf name kind).1
  | get hub key kind =>
    obtain ⟨⟨v, heap⟩, got, same⟩ := Option.map_eq_some_iff.mp performed
    cases same
    exact by_grown (get_grown inv.closed got)
  | assign v str =>
    obtain ⟨heap, assigned, same⟩ := Option.map_eq_some_iff.mp performed
    cases same
    exact by_grown (assign_grown (grown_refl inv.closed) assigned)
  | writevar hub name str =>
    obtain ⟨heap, written, same⟩ := Option.map_eq_some_iff.mp performed
    cases same
    obtain ⟨⟨v, next⟩, got, assigned⟩ := Option.bind_eq_some_iff.mp written
    exact by_grown (assign_grown (get_grown inv.closed got) assigned)
  | read hub source =>
    obtain ⟨⟨heap, how⟩, read, same⟩ := Option.map_eq_some_iff.mp performed
    cases same
    exact by_grown (read_grown inv.closed read)
  | loadAll hub =>
    obtain ⟨heap, loaded, same⟩ := Option.map_eq_some_iff.mp performed
    cases same
    exact by_similar (similar_loadAll loaded)
  | modified hub =>
    obtain ⟨⟨flag, heap⟩, answer, same⟩ := Option.map_eq_some_iff.mp performed
    cases same
    obtain ⟨flag', u', answer', -, similar⟩ :=
      answers inv.closed inv.acyclic (lt_of_modified answer) t (similar_refl t)
    obtain ⟨rfl, rfl⟩ := Prod.mk.inj (Option.some.inj (answer.symm.trans answer'))
    exact by_similar similar

theorem perform_inv (inv : Inv root t) (noCycle : NoCycle t op)
    (performed : t.perform op = some (outcome, u)) : Inv root u := by
  cases op with
  | append hub v =>
    obtain ⟨heap, appended, same⟩ := Option.map_eq_some_iff.mp performed
    cases same
    exact append_inv inv noCycle appended
  | erase hub key =>
    obtain ⟨heap, erased, same⟩ := Option.map_eq_some_iff.mp performed
    cases same
    exact erase_inv inv erased
  | _ => exact (perform_same inv performed (by simp) (by simp)).1

/-- The condition is the exact one. -/
theorem right_iff_sound (inv : Inv root t) (performed : t.perform op = some (outcome, u)) :
    Right root t u (op, outcome) ↔ Sound root t op := by
  cases op with
  | append hub v =>
    obtain ⟨heap, appended, same⟩ := Option.map_eq_some_iff.mp performed
    cases same
    exact append_right_iff appended
  | erase hub key =>
    obtain ⟨heap, erased, same⟩ := Option.map_eq_some_iff.mp performed
    cases same
    exact erase_right_iff erased
  | _ => exact right_iff_finds (perform_same inv performed (by simp) (by simp)).2 performed

end Steps

end Objects

section Runs

variable {start t u : Objects} {root : Handle} {history : List (Op × Outcome)} {op : Op}
  {outcome : Outcome}

theorem changedSince_snoc (run : objectMachine.Run start history t)
    (performed : t.perform op = some (outcome, u)) :
    ChangedSince start root (history ++ [(op, outcome)]) ↔
      ¬Completes root (op, outcome) ∧ (ChangedSince start root history ∨ t.Changes u root) := by
  constructor
  · rintro ⟨earlier, op', outcome', later, t', u', same, reached, step, changes, incomplete⟩
    obtain rfl | ⟨later, last, rfl⟩ := List.eq_nil_or_concat' later
    · obtain ⟨rfl, event⟩ := List.append_inj' same rfl
      obtain ⟨rfl, rfl⟩ := Prod.mk.inj (List.head_eq_of_cons_eq event)
      obtain rfl := reached.deterministic run
      obtain ⟨-, rfl⟩ := Prod.mk.inj (Option.some.inj (step.symm.trans performed))
      exact ⟨incomplete _ List.mem_cons_self, .inr changes⟩
    · rw [← List.cons_append, ← List.append_assoc] at same
      obtain ⟨rfl, event⟩ := List.append_inj' same rfl
      obtain rfl := List.head_eq_of_cons_eq event
      refine ⟨incomplete _ (by simp), .inl ⟨earlier, op', outcome', later, t', u', rfl, reached,
        step, changes, fun event member => incomplete event ?_⟩⟩
      rw [← List.cons_append]
      exact List.mem_append_left _ member
  · rintro ⟨incomplete, before | changes⟩
    · obtain ⟨earlier, op', outcome', later, t', u', rfl, reached, step, changes, none⟩ := before
      refine ⟨earlier, op', outcome', later ++ [(op, outcome)], t', u', by simp, reached, step,
        changes, ?_⟩
      rw [← List.cons_append, List.forall_mem_append]
      exact ⟨none, by simpa using incomplete⟩
    · exact ⟨history, op, outcome, [], t, u, rfl, run, performed, changes,
        by simpa using incomplete⟩

/-- The answer of `modified` is whether a variable in the hub has its flag set. -/
theorem reports_iff (inv : Objects.Inv root t) :
    Reports start root history t ↔ (t.Marked root ↔ ChangedSince start root history) := by
  obtain ⟨flag, u, answer, exact_flag, -⟩ :=
    Objects.answers inv.closed inv.acyclic inv.inside t (Objects.similar_refl t)
  have performed : t.perform (.modified root) = some (.answer flag, u) := by
    simp [Objects.perform, answer]
  rw [← exact_flag]
  constructor
  · rintro ⟨flag', u', performed', right⟩
    rw [performed] at performed'
    cases performed'
    exact right
  · exact fun right => ⟨flag, u, performed, right⟩

theorem children_new (name : List Char) (kind : Kind) (h : Handle) :
    Objects.children [Object.new name kind] h = [] :=
  Objects.children_alloc [] (Object.new name kind) (Objects.new_leaf name kind).1 h

theorem inv_new (name : List Char) (kind : Kind) : Objects.Inv 0 [Object.new name kind] := by
  have none (h v : Handle) : ¬Objects.Child [Object.new name kind] h v := by
    rw [Objects.Child, children_new]
    exact List.not_mem_nil
  refine ⟨fun h v step => absurd step (none h v), fun h cycle => ?_, Nat.succ_pos _⟩
  obtain ⟨v, step, -⟩ := TransGen.head'_iff.mp cycle
  exact none h v step

theorem not_marked_new (name : List Char) (kind : Kind) (h : Handle) :
    ¬Objects.Marked [Object.new name kind] h := by
  have flag := Objects.flagged_alloc [] (Object.new name kind) (Objects.new_leaf name kind).2 h
  rw [Objects.marked_iff, children_new]
  rintro (here | ⟨v, member, -⟩)
  · exact Bool.noConfusion (here.symm.trans flag)
  · exact List.not_mem_nil member

end Runs

end Crs.ObjectIO
