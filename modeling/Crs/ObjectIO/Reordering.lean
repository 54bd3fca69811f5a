import Crs.Foundation.Loops
import Crs.Foundation.Partition
import Crs.ObjectIO.Objects
import Crs.ObjectIO.RoundTrip

/-!
# Variables in front of hubs

`_write_contents` first brings the variables of a list to its front: each variable behind a hub is
moved to the place `i` behind the variables that are in front already, and what stands between is
shifted by one. Iterators are positions, of which the one in front of the list is never accessed.

Then the entries are written in that order. A hub writes its header, and its own entries in the
same way; a file within a hub has no header. `Piece` notes how deep a line or a header stands.
-/

namespace Crs.ObjectIO

open Foundation

section Code

variable {α : Type} (entries : α → Option ℤ)

/-- The body of the first loop. -/
def skipVars (olist : List α) (i : ℤ) : Option (Pass ℤ ℤ) :=
  if i = olist.length then some (.leave i)
  else do
    if (← entries (← deref olist i)) = -1 then some (.again (i + 1)) else some (.leave i)

/-- The body of the inner loop, `*s-- = *q--`. -/
def shift (i : ℤ) : List α × ℤ × ℤ → Option (Pass (List α × ℤ × ℤ) (List α))
  | (olist, s, q) =>
      if s = i then some (.leave olist)
      else do
        let olist ← store olist s (← deref olist q)
        some (.again (olist, s - 1, q - 1))

/-- The body of the loop over `p`. -/
def bringVar (fuel : ℕ) : List α × ℤ × ℤ → Option (Pass (List α × ℤ × ℤ) (List α))
  | (olist, i, p) =>
      if p = olist.length then some (.leave olist)
      else do
        let var ← deref olist p
        if (← entries var) = -1 then do
          let olist ← Loop.run (shift i) fuel (olist, p, p - 1)
          let olist ← store olist i var
          some (.again (olist, i + 1, p + 1))
        else some (.again (olist, i, p + 1))

/-- The reordering at the begin of `_write_contents`; the fuel suffices. -/
def reorder (olist : List α) : Option (List α) := do
  let fuel := olist.length + 1
  let i ← Loop.run (skipVars entries olist) fuel 0
  Loop.run (bringVar entries fuel) fuel (olist, i, i)

end Code

section Reordering

variable {α : Type} {entries : α → Option ℤ} {count : α → ℤ}

/-- The inner loop shifts the elements from `i` on to the right, up to the one at `s`. -/
theorem run_shift {fuel : ℕ} (front between behind : List α) (c : α)
    (enough : between.length < fuel) :
    ∃ d, Loop.run (shift front.length) fuel
      (front ++ between ++ c :: behind, (front.length + between.length : ℤ),
        (front.length + between.length : ℤ) - 1) = some (front ++ d :: (between ++ behind)) := by
  induction between using List.reverseRecOn generalizing c behind fuel with
  | nil =>
    obtain ⟨fuel, rfl⟩ : ∃ k, fuel = k + 1 := ⟨fuel - 1, by omega⟩
    exact ⟨c, Loop.run_leave (by simp [shift])⟩
  | append_singleton between b ih =>
    obtain ⟨fuel, rfl⟩ : ∃ k, fuel = k + 1 := ⟨fuel - 1, by omega⟩
    rw [List.length_append, List.length_singleton] at enough ⊢
    have rest : between.length < fuel := by omega
    obtain ⟨d, shifted⟩ := ih (b :: behind) b rest
    set q : ℤ := (front.length + between.length : ℤ) with q_eq
    have position : (front.length + ((between.length + 1 : ℕ) : ℤ) : ℤ) = q + 1 := by omega
    have apart : q + 1 ≠ front.length := by omega
    have back : q + 1 - 1 = q := by omega
    have read : deref (front ++ (between ++ [b]) ++ c :: behind) q = some b := by
      have := deref_append (front ++ between) (c :: behind) b
      rw [List.length_append, Int.natCast_add] at this
      simpa using this
    have written : store (front ++ (between ++ [b]) ++ c :: behind) (q + 1) b =
        some (front ++ between ++ b :: b :: behind) := by
      have := store_append (front ++ between ++ [b]) behind c b
      have length : ((front ++ between ++ [b]).length : ℤ) = q + 1 := by
        simp only [List.length_append, List.length_singleton]
        omega
      rw [length] at this
      simpa using this
    have pass : shift front.length (front ++ (between ++ [b]) ++ c :: behind, q + 1, q) =
        some (.again (front ++ between ++ b :: b :: behind, q, q - 1)) := by
      simp only [shift, if_neg apart, read, written, back, Option.bind_eq_bind, Option.bind_some]
    refine ⟨d, ?_⟩
    rw [position, back, Loop.run_again pass, shifted]
    simp

/-- The loop over `p`, with `i` behind the variables that are in front and `p` behind the hubs that
were passed. -/
theorem run_bringVar {fuel more : ℕ} (vars hubs rest : List α)
    (known : ∀ e ∈ rest, entries e = some (count e)) (enough : rest.length < fuel)
    (room : hubs.length + rest.length < more) :
    Loop.run (bringVar entries more) fuel (vars ++ hubs ++ rest, (vars.length : ℤ),
      (vars.length + hubs.length : ℤ)) =
        some (vars ++ rest.filter (count · = -1) ++ (hubs ++ rest.filter (count · ≠ -1))) := by
  induction rest generalizing vars hubs fuel with
  | nil =>
    obtain ⟨fuel, rfl⟩ : ∃ k, fuel = k + 1 := ⟨fuel - 1, by omega⟩
    have pass : bringVar entries more (vars ++ hubs ++ [], (vars.length : ℤ),
        (vars.length + hubs.length : ℤ)) = some (.leave (vars ++ hubs)) := by
      simp [bringVar]
    rw [Loop.run_leave pass]
    simp
  | cons e rest ih =>
    obtain ⟨fuel, rfl⟩ : ∃ k, fuel = k + 1 := ⟨fuel - 1, by omega⟩
    obtain ⟨now, known⟩ := List.forall_mem_cons.mp known
    rw [List.length_cons] at enough room
    have apart : (vars.length + hubs.length : ℤ) ≠ (vars ++ hubs ++ e :: rest).length := by
      simp only [List.length_append, List.length_cons]
      omega
    have read : deref (vars ++ hubs ++ e :: rest) (vars.length + hubs.length : ℤ) = some e := by
      have := deref_append (vars ++ hubs) rest e
      rwa [List.length_append, Int.natCast_add] at this
    by_cases plain : count e = -1
    · obtain ⟨d, shifted⟩ := run_shift vars hubs rest e (by omega : hubs.length < more)
      have pass : bringVar entries more (vars ++ hubs ++ e :: rest, (vars.length : ℤ),
          (vars.length + hubs.length : ℤ)) = some (.again (vars ++ e :: (hubs ++ rest),
            (vars.length : ℤ) + 1, (vars.length + hubs.length : ℤ) + 1)) := by
        simp only [bringVar, if_neg apart, read, now, if_pos plain, shifted, store_append,
          Option.bind_eq_bind, Option.bind_some]
      have counted : (vars.length : ℤ) + 1 = (vars ++ [e]).length := by simp
      have behind : (vars.length + hubs.length : ℤ) + 1 = (vars ++ [e]).length + hubs.length := by
        omega
      have less : rest.length < fuel := by omega
      have moved := ih (vars ++ [e]) hubs known less (by omega)
      rw [Loop.run_again pass, counted, behind]
      simpa [plain] using moved
    · have pass : bringVar entries more (vars ++ hubs ++ e :: rest, (vars.length : ℤ),
          (vars.length + hubs.length : ℤ)) = some (.again (vars ++ hubs ++ e :: rest,
            (vars.length : ℤ), (vars.length + hubs.length : ℤ) + 1)) := by
        simp only [bringVar, if_neg apart, read, now, if_neg plain, Option.bind_eq_bind,
          Option.bind_some]
      have behind : (vars.length + hubs.length : ℤ) + 1 = vars.length + (hubs ++ [e]).length := by
        rw [List.length_append, List.length_singleton]
        omega
      have less : rest.length < fuel := by omega
      have passed := ih vars (hubs ++ [e]) known less (by simp; omega)
      rw [Loop.run_again pass, behind]
      simpa [plain] using passed

/-- The first loop stops behind the variables that are in front already. -/
theorem run_skipVars {fuel : ℕ} (vars rest : List α)
    (known : ∀ e ∈ rest, entries e = some (count e)) (enough : rest.length < fuel) :
    Loop.run (skipVars entries (vars ++ rest)) fuel vars.length =
      some ((vars ++ rest.takeWhile (count · = -1)).length : ℤ) := by
  induction rest generalizing vars fuel with
  | nil =>
    obtain ⟨fuel, rfl⟩ : ∃ k, fuel = k + 1 := ⟨fuel - 1, by omega⟩
    have pass : skipVars entries (vars ++ []) vars.length = some (.leave (vars.length : ℤ)) := by
      simp [skipVars]
    rw [Loop.run_leave pass]
    simp
  | cons e rest ih =>
    obtain ⟨fuel, rfl⟩ : ∃ k, fuel = k + 1 := ⟨fuel - 1, by omega⟩
    obtain ⟨now, known⟩ := List.forall_mem_cons.mp known
    rw [List.length_cons] at enough
    have apart : (vars.length : ℤ) ≠ (vars ++ e :: rest).length := by
      rw [List.length_append, List.length_cons]
      omega
    by_cases plain : count e = -1
    · have pass : skipVars entries (vars ++ e :: rest) vars.length =
          some (.again ((vars.length : ℤ) + 1)) := by
        simp only [skipVars, if_neg apart, deref_append, now, if_pos plain, Option.bind_eq_bind,
          Option.bind_some]
      have counted : (vars.length : ℤ) + 1 = (vars ++ [e]).length := by simp
      have less : rest.length < fuel := by omega
      have skipped := ih (vars ++ [e]) known less
      rw [List.append_assoc, List.singleton_append] at skipped
      rw [Loop.run_again pass, counted, skipped]
      simp [plain]
    · have pass : skipVars entries (vars ++ e :: rest) vars.length =
          some (.leave (vars.length : ℤ)) := by
        simp only [skipVars, if_neg apart, deref_append, now, if_neg plain, Option.bind_eq_bind,
          Option.bind_some]
      rw [Loop.run_leave pass]
      simp [plain]

/-- The reordering accesses nothing outside the list, and partitions it. -/
theorem reorder_eq {olist : List α} (known : ∀ e ∈ olist, entries e = some (count e)) :
    reorder entries olist =
      some (olist.filter (count · = -1) ++ olist.filter (count · ≠ -1)) := by
  set front := olist.takeWhile (count · = -1)
  set rest := olist.dropWhile (count · = -1)
  have whole : olist = front ++ rest := List.takeWhile_append_dropWhile.symm
  have plain : ∀ e ∈ front, count e = -1 := fun e member => by
    simpa using List.mem_takeWhile_imp member
  have known' : ∀ e ∈ rest, entries e = some (count e) := fun e member =>
    known e ((List.dropWhile_sublist _).mem member)
  have less : rest.length < olist.length + 1 :=
    Nat.lt_succ_of_le (List.dropWhile_sublist _).length_le
  have skipped : Loop.run (skipVars entries olist) (olist.length + 1) 0 =
      some (front.length : ℤ) := by
    simpa using run_skipVars [] olist known (Nat.lt_succ_self _)
  have brought : Loop.run (bringVar entries (olist.length + 1)) (olist.length + 1)
      (olist, (front.length : ℤ), (front.length : ℤ)) =
        some (front ++ rest.filter (count · = -1) ++ rest.filter (count · ≠ -1)) := by
    have room : ([] : List α).length + rest.length < olist.length + 1 := by
      rw [List.length_nil, Nat.zero_add]
      exact less
    have ran := run_bringVar front [] rest known' less room
    simpa [← whole] using ran
  have chosen : front.filter (count · = -1) = front :=
    List.filter_eq_self.mpr fun e member => by simpa using plain e member
  have none : front.filter (count · ≠ -1) = [] :=
    List.filter_eq_nil_iff.mpr fun e member => by simpa using plain e member
  simp only [reorder, skipped, brought, Option.bind_eq_bind, Option.bind_some]
  conv_rhs => rw [whole, List.filter_append, List.filter_append, chosen, none, List.nil_append]

end Reordering

/-- Without accesses outside it, the list becomes a stable partition of itself. -/
theorem exists_reorder {α : Type} {entries : α → Option ℤ} {count : α → ℤ} {olist : List α}
    (known : ∀ e ∈ olist, entries e = some (count e)) :
    ∃ olist', reorder entries olist = some olist' ∧
      StablePartition (count · = -1) olist olist' := by
  refine ⟨_, reorder_eq known, ?_⟩
  have parted := stablePartition_filter (count · = -1) olist
  simpa only [decide_not] using parted

/-- The number of entries of a hub. -/
def Entry.count : Entry → ℤ
  | .var _ => -1
  | .hub h => h.olist.length

@[simp] theorem Entry.count_var (v : Var) : (Entry.var v).count = -1 := rfl

@[simp] theorem Entry.count_hub_ne (h : Hub) : (Entry.hub h).count ≠ -1 := by
  have : (Entry.hub h).count = h.olist.length := rfl
  omega

/-- The round of `moveVar` is one with its iterators. -/
theorem reorder_eq_sortVars (olist : List Entry) :
    reorder (fun e => some e.count) olist = some (sortVars olist) := by
  have chosen : olist.filter (Entry.count · = -1) = (vars olist).map .var := by
    induction olist with
    | nil => rfl
    | cons e olist ih => cases e <;> simp [ih]
  have others : olist.filter (Entry.count · ≠ -1) = (hubs olist).map .hub := by
    clear chosen
    induction olist with
    | nil => rfl
    | cons e olist ih =>
      rw [List.filter_cons, ih]
      cases e <;> simp
  have known : ∀ e ∈ olist, some e.count = some (Entry.count e) := fun _ _ => rfl
  rw [reorder_eq known, sortVars_eq, chosen, others]
  rfl

/-- What is written: the end of a line, a variable, or the header of a hub. -/
inductive Piece where
  | eol
  | line (depth : ℕ) (text : List Char)
  | header (depth : ℕ) (text : List Char)
deriving DecidableEq

namespace Objects

/-- `entries()`: of a hub the number of its members, as far as it fits an `int`. -/
def entries (heap : Objects) (v : Handle) : Option ℤ :=
  heap[v]?.map fun object =>
    match object.body with
    | .var _ => -1
    | .hub _ entries _ => entries.length

/-- The second loop of `_write_contents`. -/
def writeEntries (write : Objects → Handle → Option (List Piece × Objects)) :
    List Handle → (newLine : Bool) → Objects → Option (List Piece × Objects)
  | [], _, heap => some ([], heap)
  | p :: olist, newLine, heap => do
      let (now, heap) ← write heap p
      let (later, heap) ← writeEntries write olist true heap
      some ((if newLine then [.eol] else []) ++ now ++ later, heap)

def writeContents (write : Objects → Handle → Option (List Piece × Objects)) (heap : Objects)
    (hub : Handle) (startFromNewLine : Bool) : Option (List Piece × Objects) := do
  let owner ← heap[hub]?
  match owner.body with
  | .var _ => none
  | .hub file entries olist => do
      let olist ← reorder heap.entries olist
      writeEntries write olist startFromNewLine
        (heap.set hub { owner with body := .hub file entries olist })

/-- The `write` of a variable, of a hub or of a file. -/
def write : ℕ → (depth : ℕ) → Objects → Handle → Option (List Piece × Objects)
  | 0, _, _, _ => none
  | fuel + 1, depth, heap, v => do
      let object ← heap[v]?
      match object.body with
      | .var contents =>
          some ([.line depth (Var.write ⟨object.name, contents, object.description⟩)], heap)
      | .hub true _ _ => writeContents (write fuel (depth + 1)) heap v false
      | .hub false _ _ => do
          let (pieces, heap) ← writeContents (write fuel (depth + 1)) heap v true
          some (.header depth (Hub.writeHeader ⟨object.name, object.description, []⟩) :: pieces,
            heap)

section Order

variable {heap u : Objects} {hub v : Handle} {owner : Object} {file : Bool} {fuel depth : ℕ}
variable {members : List (List Char × Handle)} {olist : List Handle} {pieces : List Piece}

/-- A variable, as far as `_write_contents` can tell. -/
def Plain (heap : Objects) (v : Handle) : Prop := heap.entries v = some (-1)

instance : Decidable (heap.Plain v) := inferInstanceAs (Decidable (_ = _))

theorem plain_iff {object : Object} (here : heap[v]? = some object) :
    heap.Plain v ↔ ∃ contents, object.body = .var contents := by
  rw [Plain, entries, here, Option.map_some, Option.some_inj]
  split
  · next contents body => simp [body]
  · next file members olist body =>
    simp only [body, reduceCtorEq, exists_false]

/-- Another order of the entries is no other number of them. -/
theorem entries_set (here : heap[hub]? = some owner) (body : owner.body = .hub file members olist)
    (olist' : List Handle) :
    Objects.entries (heap.set hub { owner with body := .hub file members olist' }) =
      heap.entries := by
  funext v
  obtain ⟨inside, -⟩ := List.getElem?_eq_some_iff.mp here
  obtain rfl | other := eq_or_ne v hub
  · rw [entries, entries, List.getElem?_set_self inside, here]
    simp [body]
  · simp [entries, List.getElem?_set_ne other.symm]

/-- No line of this depth behind a header. -/
def Sorted (depth : ℕ) (pieces : List Piece) : Prop :=
  pieces.Pairwise fun earlier later =>
    ∀ d text text', earlier = .header d text → later ≠ .line depth text'

/-- What the entries of a list have written, which begins at this depth. -/
structure Written (depth : ℕ) (heap : Objects) (olist : List Handle) (pieces : List Piece)
    (u : Objects) : Prop where
  entries : u.entries = heap.entries
  depth_le : ∀ d text, Piece.line d text ∈ pieces → depth ≤ d
  line : ∀ text, Piece.line depth text ∈ pieces → ∃ v ∈ olist, heap.Plain v
  header : ∀ d text, Piece.header d text ∈ pieces → ∃ v ∈ olist, ¬heap.Plain v

/-- Behind a hub there are no lines of its depth. -/
theorem Written.sorted (written : Written depth heap [v] pieces u) : Sorted depth pieces := by
  rw [Sorted, List.pairwise_iff_forall_sublist]
  rintro earlier later sublist d text text' rfl rfl
  obtain ⟨w, member, hub⟩ := written.header d text (sublist.mem (by simp))
  obtain ⟨w', member', plain⟩ := written.line text' (sublist.mem (by simp))
  rw [List.mem_singleton] at member member'
  exact hub (member.trans member'.symm ▸ plain)

/-- Each entry writes its part, and in a list with the variables in front no line is behind a
header. -/
theorem written_writeEntries {write : Objects → Handle → Option (List Piece × Objects)}
    {newLine : Bool}
    (each : ∀ heap v pieces u, write heap v = some (pieces, u) → Written depth heap [v] pieces u)
    (done : writeEntries write olist newLine heap = some (pieces, u)) :
    Written depth heap olist pieces u ∧
      (olist.Pairwise (fun a b => heap.Plain b → heap.Plain a) → Sorted depth pieces) := by
  induction olist generalizing heap newLine pieces with
  | nil =>
    cases done
    exact ⟨⟨rfl, by simp, by simp, by simp⟩, fun _ => List.Pairwise.nil⟩
  | cons v olist ih =>
    obtain ⟨⟨now, middle⟩, wrote, done⟩ := Option.bind_eq_some_iff.mp done
    obtain ⟨⟨later, last⟩, rest, result⟩ := Option.bind_eq_some_iff.mp done
    cases result
    have first := each _ _ _ _ wrote
    obtain ⟨others, sorted⟩ := ih rest
    have same (w : Handle) : middle.Plain w ↔ heap.Plain w := by
      rw [Plain, Plain, first.entries]
    have starts : ∀ piece ∈ if newLine then [Piece.eol] else [], piece = .eol := by
      cases newLine <;> simp
    have cases_mem {piece : Piece}
        (member : piece ∈ (if newLine then [Piece.eol] else []) ++ now ++ later)
        (other : piece ≠ .eol) : piece ∈ now ∨ piece ∈ later := by
      obtain member | member := List.mem_append.mp member
      · exact .inl ((List.mem_append.mp member).resolve_left fun start => other (starts _ start))
      · exact .inr member
    refine ⟨⟨others.entries.trans first.entries, ?_, ?_, ?_⟩, fun order => ?_⟩
    · intro d text member
      obtain member | member := cases_mem member nofun
      · exact first.depth_le d text member
      · exact others.depth_le d text member
    · intro text member
      obtain member | member := cases_mem member nofun
      · obtain ⟨w, here, plain⟩ := first.line text member
        exact ⟨w, List.mem_cons.mpr (.inl (List.mem_singleton.mp here)), plain⟩
      · obtain ⟨w, here, plain⟩ := others.line text member
        exact ⟨w, List.mem_cons_of_mem v here, (same w).mp plain⟩
    · intro d text member
      obtain member | member := cases_mem member nofun
      · obtain ⟨w, here, hub⟩ := first.header d text member
        exact ⟨w, List.mem_cons.mpr (.inl (List.mem_singleton.mp here)), hub⟩
      · obtain ⟨w, here, hub⟩ := others.header d text member
        exact ⟨w, List.mem_cons_of_mem v here, fun plain => hub ((same w).mpr plain)⟩
    · obtain ⟨ahead, order⟩ := List.pairwise_cons.mp order
      have tail := sorted (order.imp fun imp plain => (same _).mpr (imp ((same _).mp plain)))
      rw [Sorted, List.append_assoc]
      refine List.pairwise_append.mpr ⟨?_, List.pairwise_append.mpr ⟨first.sorted, tail, ?_⟩, ?_⟩
      · cases newLine <;> simp
      · rintro earlier member later member' d text text' rfl rfl
        obtain ⟨w, here, hub⟩ := first.header d text member
        obtain ⟨w', here', plain⟩ := others.line text' member'
        rw [List.mem_singleton] at here
        exact hub (here ▸ ahead w' here' ((same w').mp plain))
      · rintro earlier member later - d text text' rfl
        cases starts _ member

/-- The entries of a hub are known. -/
theorem exists_reorder_entries (valid : ∀ v ∈ olist, v < heap.length) :
    ∃ olist', reorder heap.entries olist = some olist' ∧
      StablePartition (heap.Plain ·) olist olist' := by
  have known : ∀ v ∈ olist, heap.entries v = some ((heap.entries v).getD 0) := fun v member => by
    rw [entries, List.getElem?_eq_getElem (valid v member)]
    rfl
  obtain ⟨olist', reordered, parted⟩ := exists_reorder known
  have same : (fun v => decide ((heap.entries v).getD 0 = -1)) = (heap.Plain ·) := by
    funext v
    rw [decide_eq_decide]
    show (heap.entries v).getD 0 = -1 ↔ heap.entries v = some (-1)
    cases heap.entries v <;> simp
  exact ⟨olist', reordered, same ▸ parted⟩

/-- The entries of a hub are written in the order of a stable partition. -/
theorem written_writeContents {write : Objects → Handle → Option (List Piece × Objects)}
    {newLine : Bool} (here : heap[hub]? = some owner)
    (body : owner.body = .hub file members olist)
    (each : ∀ heap v pieces u, write heap v = some (pieces, u) → Written depth heap [v] pieces u)
    (wrote : writeContents write heap hub newLine = some (pieces, u)) :
    ∃ olist', reorder heap.entries olist = some olist' ∧ Written depth heap olist' pieces u ∧
      (olist'.Pairwise (fun a b => heap.Plain b → heap.Plain a) → Sorted depth pieces) := by
  simp only [writeContents, here, body, Option.bind_eq_bind, Option.bind_some] at wrote
  obtain ⟨olist', reordered, wrote⟩ := Option.bind_eq_some_iff.mp wrote
  obtain ⟨written, sorted⟩ := written_writeEntries each wrote
  have same := entries_set here body olist'
  have plain (v : Handle) : Plain (heap.set hub
      { owner with body := .hub file members olist' }) v ↔ heap.Plain v := by
    rw [Plain, Plain, same]
  simp only [plain] at sorted
  refine ⟨olist', reordered, ⟨written.entries.trans same, written.depth_le, ?_, ?_⟩, sorted⟩
  · simpa only [plain] using written.line
  · simpa only [plain] using written.header

/-- An entry writes variables at its own depth only if it is one, and headers only if it is none. -/
theorem written_write (wrote : write fuel depth heap v = some (pieces, u)) :
    Written depth heap [v] pieces u := by
  induction fuel generalizing depth heap v pieces u with
  | zero => cases wrote
  | succ fuel ih =>
    obtain ⟨object, here, wrote⟩ := Option.bind_eq_some_iff.mp wrote
    have plain := plain_iff here
    cases body : object.body with
    | var text =>
      simp only [body, Option.some_inj, Prod.mk.injEq] at wrote
      obtain ⟨rfl, rfl⟩ := wrote
      refine ⟨rfl, ?_, fun _ _ => ⟨v, List.mem_singleton_self v, plain.mpr ⟨text, body⟩⟩, ?_⟩
      · simp
      · simp
    | hub file members olist =>
      have hub : ¬heap.Plain v := by simp [plain, body]
      have inner {newLine : Bool} {pieces : List Piece}
          (wrote : writeContents (write fuel (depth + 1)) heap v newLine = some (pieces, u)) :
          u.entries = heap.entries ∧ ∀ d text, Piece.line d text ∈ pieces → depth < d := by
        obtain ⟨_, -, written, -⟩ := written_writeContents here body (fun _ _ _ _ => ih) wrote
        exact ⟨written.entries, written.depth_le⟩
      cases file with
      | true =>
        simp only [body] at wrote
        obtain ⟨same, deeper⟩ := inner wrote
        refine ⟨same, fun d text member => (deeper d text member).le, fun text member => ?_,
          fun _ _ _ => ⟨v, List.mem_singleton_self v, hub⟩⟩
        exact absurd (deeper depth text member) (lt_irrefl depth)
      | false =>
        simp only [body] at wrote
        obtain ⟨⟨within, heap'⟩, contents, result⟩ := Option.bind_eq_some_iff.mp wrote
        cases result
        obtain ⟨same, deeper⟩ := inner contents
        have lines {d : ℕ} {text header : List Char}
            (member : Piece.line d text ∈ Piece.header depth header :: within) : depth < d :=
          deeper d text ((List.mem_cons.mp member).resolve_left nofun)
        refine ⟨same, fun d text member => (lines member).le, fun text member => ?_,
          fun _ _ _ => ⟨v, List.mem_singleton_self v, hub⟩⟩
        exact absurd (lines member) (lt_irrefl depth)

/-- `_write_contents` makes the list of a hub a stable partition, within its bounds, and writes no
variable of it behind a header. -/
theorem writeContents_order (here : heap[hub]? = some owner)
    (body : owner.body = .hub file members olist) (valid : ∀ v ∈ olist, v < heap.length) :
    (∃ olist', reorder heap.entries olist = some olist' ∧
      StablePartition (heap.Plain ·) olist olist') ∧
    ∀ fuel depth newLine pieces u,
      writeContents (write fuel depth) heap hub newLine = some (pieces, u) →
        Sorted depth pieces := by
  obtain ⟨olist', reordered, parted⟩ := exists_reorder_entries valid
  refine ⟨⟨olist', reordered, parted⟩, fun fuel depth newLine pieces u wrote => ?_⟩
  obtain ⟨list, same, -, sorted⟩ :=
    written_writeContents here body (fun _ _ _ _ => written_write) wrote
  obtain rfl := Option.some_inj.mp (same.symm.trans reordered)
  exact sorted (by simpa using parted.front)

/-- A file with a hub and a variable behind it. -/
theorem writeContents_two :
    let heap : Objects := [{ name := [], body := .hub true [(['h'], 1), (['x'], 2)] [1, 2] },
      { name := ['h'], body := .hub false [] [] }, { name := ['x'], body := .var ['1'] }]
    (∃ olist', reorder heap.entries [1, 2] = some olist' ∧
      StablePartition (heap.Plain ·) [1, 2] olist') ∧
    ∃ pieces u, writeContents (write 2 0) heap 0 false = some (pieces, u) ∧
      pieces = [.line 0 ['x', '=', '1'], .eol, .header 0 ['[', 'h', ']']] ∧ Sorted 0 pieces := by
  intro heap
  obtain ⟨reordered, sorted⟩ := writeContents_order (by rfl : heap[0]? = some _) rfl (by decide)
  refine ⟨reordered, _, _, rfl, by decide, ?_⟩
  exact sorted 2 0 false _ _ rfl

end Order

end Objects

end Crs.ObjectIO
