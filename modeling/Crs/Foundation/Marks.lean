import Mathlib.Data.List.Basic
import Mathlib.Order.Lattice

/-!
# Streams of marked items

Each call of a sequence contributes its items under its own mark. In the stream of all
items the marks say which call an item belongs to, so an order between calls can be read
off the stream.

`Ahead` is the order in which two items stand in a list that need not have both of them.
-/

namespace Foundation.Marks

variable {ι β : Type*}

/-- The items of a call under its mark. -/
def mark (call : ι × List β) : List (ι × β) := call.2.map fun item => (call.1, item)

/-- The items of all calls, one call after the other. -/
def stream (calls : List (ι × List β)) : List (ι × β) := calls.flatMap mark

theorem eq_of_mem_mark {call : ι × List β} {item : ι × β} (member : item ∈ mark call) :
    item.1 = call.1 := by
  obtain ⟨-, -, rfl⟩ := List.mem_map.mp member
  rfl

theorem stream_snoc (calls : List (ι × List β)) (call : ι × List β) :
    stream (calls ++ [call]) = stream calls ++ mark call := by
  simp [stream]

theorem exists_of_mem_stream {calls : List (ι × List β)} {item : ι × β}
    (member : item ∈ stream calls) : ∃ call ∈ calls, item.1 = call.1 := by
  obtain ⟨call, here, inside⟩ := List.mem_flatMap.mp member
  exact ⟨call, here, eq_of_mem_mark inside⟩

section Order

variable [LinearOrder ι] {calls : List (ι × List β)} {call : ι × List β}

/-- The marks of a stream ascend if those of the calls do. -/
theorem stream_pairwise (sorted : calls.Pairwise fun a b => a.1 < b.1) :
    (stream calls).Pairwise fun a b => a.1 ≤ b.1 := by
  apply List.pairwise_flatMap.mpr
  refine ⟨fun call _ => ?_, sorted.imp fun less a first b second => ?_⟩
  · apply List.pairwise_of_forall_mem_list
    intro a first b second
    rw [eq_of_mem_mark first, eq_of_mem_mark second]
  · rw [eq_of_mem_mark first, eq_of_mem_mark second]
    exact less.le

/-- The items of one call can be picked from the stream. -/
theorem filter_stream (sorted : calls.Pairwise fun a b => a.1 < b.1) (member : call ∈ calls) :
    (stream calls).filter (fun item => item.1 = call.1) = mark call := by
  have none : ∀ {others : List (ι × List β)}, (∀ other ∈ others, other.1 ≠ call.1) →
      (stream others).filter (fun item => item.1 = call.1) = [] := by
    intro others apart
    apply List.filter_eq_nil_iff.mpr
    intro item inside
    obtain ⟨other, here, same⟩ := exists_of_mem_stream inside
    simpa [same] using apart other here
  obtain ⟨front, rest, rfl⟩ := List.append_of_mem member
  obtain ⟨-, later, before⟩ := List.pairwise_append.mp sorted
  have own : (mark call).filter (fun item => item.1 = call.1) = mark call := by
    apply List.filter_eq_self.mpr
    intro item inside
    simpa using eq_of_mem_mark inside
  simp only [stream, List.flatMap_append, List.flatMap_cons, List.filter_append]
  rw [own]
  change (stream front).filter _ ++ (_ ++ (stream rest).filter _) = _
  rw [none fun other here => (before other here call (by simp)).ne,
    none fun other here => ((List.pairwise_cons.mp later).1 other here).ne', List.append_nil,
    List.nil_append]

/-- In front of an item of a later call stand all items of an earlier one. -/
theorem filter_front (sorted : calls.Pairwise fun a b => a.1 < b.1) (member : call ∈ calls)
    {front rest : List (ι × β)} {item : ι × β} (split : stream calls = front ++ item :: rest)
    (later : call.1 < item.1) :
    front.filter (fun item => item.1 = call.1) = mark call := by
  have marks := stream_pairwise sorted
  rw [split] at marks
  have behind : (item :: rest).filter (fun item => item.1 = call.1) = [] := by
    apply List.filter_eq_nil_iff.mpr
    intro other inside
    have bound : item.1 ≤ other.1 := by
      obtain rfl | inside := List.mem_cons.mp inside
      · exact le_rfl
      · exact (List.pairwise_cons.mp (List.pairwise_append.mp marks).2.1).1 other inside
    simpa using (later.trans_le bound).ne'
  have all := filter_stream sorted member
  rwa [split, List.filter_append, behind, List.append_nil] at all

end Order

section Ahead

variable {α : Type*} {p q x : α} {items : List α}

/-- Where `q` stands in the list, `p` stands in front of it. -/
def Ahead (p q : α) (items : List α) : Prop :=
  ∀ front rest, items = front ++ q :: rest → p ∈ front

theorem ahead_of_notMem (absent : q ∉ items) : Ahead p q items := by
  rintro front rest rfl
  exact absurd (by simp) absent

theorem Ahead.head (ahead : Ahead p x (x :: items)) : False :=
  List.not_mem_nil (ahead [] items rfl)

/-- A new last item keeps the order if `p` is there already. -/
theorem Ahead.snoc (ahead : Ahead p q items) (new : q = x → p ∈ items) :
    Ahead p q (items ++ [x]) := by
  intro front rest split
  obtain rfl | ⟨rest, last, rfl⟩ := List.eq_nil_or_concat rest
  · obtain ⟨rfl, same⟩ := List.append_inj' split rfl
    exact new (List.singleton_inj.mp same).symm
  · have same : items ++ [x] = (front ++ q :: rest) ++ [last] := by simpa using split
    exact ahead front rest (List.append_inj' same rfl).1

theorem Ahead.tail (ahead : Ahead p q (x :: items)) (other : p ≠ x) : Ahead p q items := by
  rintro front rest rfl
  exact (List.mem_cons.mp (ahead (x :: front) rest rfl)).resolve_left other

end Ahead

end Foundation.Marks
