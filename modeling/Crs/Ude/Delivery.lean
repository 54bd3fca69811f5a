import Crs.Ude.DeviceManager

/-!
# Which elements a visit reaches

`for_each` should offer every stored pointer to the action once, and keep those that
the action does not want removed; `deliver_response` should offer a packet to every
registered device. Both do so exactly if the action wants none but the last pointer of
each list removed. `remove` is right exactly if it never swaps in the pointer it removes.
-/

namespace Crs.Ude

open Foundation Compaction

namespace ElementList

variable {E σ : Type*} {l : ElementList E} {action : E → σ → Bool × σ} {s : σ}

/-- The action was called once on every stored pointer, those it refused are still
stored, and the others were given to the destroyer. -/
structure Exact (l : ElementList E) (v : Visit E σ) : Prop where
  offered : (v.calls.map Prod.fst : List E) = l.pointers
  kept : v.list.pointers = ((v.calls.filter fun c => !c.2).map Prod.fst : List E)
  handed : (v.handed : Multiset E) = ((v.calls.filter fun c => c.2).map Prod.fst : List E)

theorem exact_iff_quiet :
    Exact l (l.forEach action s) ↔ Quiet action l.container.toList.dropLast s := by
  rw [forEach, pass_eq_scan, ← asks_all_iff]
  constructor
  · intro exact
    exact Multiset.coe_eq_coe.mp exact.offered
  · intro all
    refine ⟨Multiset.coe_eq_coe.mpr all, Multiset.coe_eq_coe.mpr ?_, ?_⟩
    · exact kept_perm_of_asked all
    · exact congrArg _ (handed_eq l.container.toList s)

variable [DecidableEq E]

theorem equals_some (e : E) : equals (some e) = isElement e := by
  funext x u
  simp [equals, isElement]

/-- The pointers that `remove` should leave. -/
def others (l : ElementList E) (element : Option E) : Multiset E :=
  l.pointers.filter fun x => some x ≠ element

/-- `remove` leaves the other pointers exactly if the pointer, stored `n` times, is not
among the last `n - 1` ones. -/
theorem remove_some_iff (e : E) : (l.remove (some e)).list.pointers = l.others (some e) ↔
    e ∉ l.container.toList.drop (l.container.size - (l.container.toList.count e - 1)) := by
  rw [remove, equals_some, pass_eq_scan, ← Array.length_toList,
    ← kept_perm_iff (e := e) l.container.toList (), ← Multiset.coe_eq_coe]
  simp [others, pointers]

theorem remove_none : (l.remove none).list.pointers = l.others none := by
  have quiet : ∀ contents : List E, Quiet (equals none) contents () := by
    intro contents
    induction contents with
    | nil => trivial
    | cons x rest ih => exact ⟨by simp [equals], ih⟩
  rw [remove, pass_eq_scan, pointers, List.toList_toArray, kept_eq_of_quiet (quiet _)]
  simp [others, pointers]

end ElementList

namespace ElementMap

variable {K E γ σ : Type*} {action : E → γ × σ → Bool × γ × σ} {functor : γ} {s : σ}

/-- The action refuses all but the last pointer of each list, in turn. -/
def AllQuiet (action : E → γ × σ → Bool × γ × σ) (functor : γ) : List (ElementList E) → σ → Prop
  | [], _ => True
  | list :: rest, s =>
      Quiet action list.container.toList.dropLast (functor, s) ∧
        AllQuiet action functor rest (after action list.container.toList (functor, s)).2

/-- The pointers that the calls offer to the action. -/
def offered (calls : List (E × Bool)) : Multiset E := (calls.map Prod.fst : List E)

theorem offered_append (calls calls' : List (E × Bool)) :
    offered (calls ++ calls') = offered calls + offered calls' := by
  simp [offered]

theorem offered_forEach (list : ElementList E) (s : γ × σ) :
    offered (list.forEach action s).calls = (scan action list.container.toList s).asked := by
  rw [ElementList.forEach, ElementList.pass_eq_scan]
  rfl

theorem card_offered_forEach (action : E → γ × σ → Bool × γ × σ) (list : ElementList E)
    (s : γ × σ) : (offered (list.forEach action s).calls).card ≤ list.pointers.card := by
  rw [offered_forEach]
  exact length_asked_le list.container.toList s

theorem card_offered_le (action : E → γ × σ → Bool × γ × σ) (functor : γ)
    (entries : List (K × ElementList E)) (s : σ) :
    (offered (visitEntries action functor entries s).2.1).card ≤ (entryPointers entries).card := by
  induction entries generalizing s with
  | nil => simp [visitEntries, offered]
  | cons e rest ih =>
      simp only [visitEntries, offered_append, entryPointers_cons, Multiset.card_add]
      exact Nat.add_le_add (card_offered_forEach action e.2 (functor, s)) (ih _)

/-- Every pointer is offered once exactly if the action refuses all but the last one of
each list. -/
theorem offered_eq_iff (action : E → γ × σ → Bool × γ × σ) (functor : γ)
    (entries : List (K × ElementList E)) (s : σ) :
    offered (visitEntries action functor entries s).2.1 = entryPointers entries ↔
      AllQuiet action functor (entries.map Prod.snd) s := by
  induction entries generalizing s with
  | nil => simp [visitEntries, offered, AllQuiet]
  | cons e rest ih =>
      have first : Quiet action e.2.container.toList.dropLast (functor, s) →
          offered (e.2.forEach action (functor, s)).calls = e.2.pointers ∧
            (e.2.forEach action (functor, s)).state =
              after action e.2.container.toList (functor, s) := by
        intro quiet
        obtain ⟨asked, state⟩ := asked_eq_of_quiet quiet
        rw [offered_forEach, asked, ElementList.forEach, ElementList.pass_eq_scan]
        exact ⟨rfl, state⟩
      simp only [visitEntries, offered_append, entryPointers_cons, List.map_cons, AllQuiet]
      constructor
      · intro all
        -- neither part can make up for questions that the other one leaves out
        have most := card_offered_forEach action e.2 (functor, s)
        have others := card_offered_le action functor rest
          (e.2.forEach action (functor, s)).state.2
        have total := congrArg Multiset.card all
        simp only [Multiset.card_add] at total
        have every :
            (offered (e.2.forEach action (functor, s)).calls).card = e.2.pointers.card := by
          omega
        rw [offered_forEach] at every
        have quiet := length_asked_eq_iff.mp every
        obtain ⟨same, state⟩ := first quiet
        rw [same, state] at all
        exact ⟨quiet, (ih _).mp (add_left_cancel all)⟩
      · rintro ⟨quiet, others⟩
        obtain ⟨same, state⟩ := first quiet
        rw [same, state, (ih _).mpr others]

end ElementMap

namespace DeviceManager

open ElementMap

variable {D W : Type*} (m : DeviceManager D) (hdr : PacketHeader)

/-- The lists of devices that a packet is meant for. -/
def addressed : List (ElementList D) :=
  if hdr.domain = PacketHeader.domainCommon then m.container.container.entries.map Prod.snd
  else (m.container.container.get? hdr.domain.toFin).toList

/-- The devices that a packet is meant for, each as often as it is registered. -/
def addressees : Multiset D := ((addressed m hdr).map ElementList.pointers).sum

theorem delivered_iff {m : DeviceManager D} {hdr : PacketHeader} {packet : TalkPacket}
    (take : D → TalkPacket → W → Int × W) (readable : packet.header = some hdr) (w : W) :
    ∃ v, m.deliverResponse take packet w = some v ∧
      (offered v.calls = addressees m hdr ↔
        AllQuiet (packetDeliveryAction take packet) () (addressed m hdr) w) := by
  simp only [deliverResponse, readable, Option.map_some, Option.some.injEq, exists_eq_left',
    addressees, addressed]
  split
  · rw [← offered_eq_iff (packetDeliveryAction take packet) () m.container.container.entries w,
      List.map_map]
    rfl
  · rw [forEachIn]
    cases found : m.container.container.get? hdr.domain.toFin with
    | none => simp [offered, AllQuiet]
    | some list =>
        have single := offered_eq_iff (packetDeliveryAction take packet) ()
          [(hdr.domain.toFin, list)] w
        simpa [visitEntries] using single

/-- A visit offers every pointer once, and keeps the refused ones, exactly if the
action refuses all but the last pointer; `remove` leaves the other pointers exactly if
it does not find its own at the end too often; and a packet is offered once to every
device it is meant for exactly if no device but the last of a list asks to be removed. -/
theorem visits_exact_iff {E σ D W : Type*} [DecidableEq E] :
    (∀ (l : ElementList E) (action : E → σ → Bool × σ) (s : σ),
      ElementList.Exact l (l.forEach action s) ↔ Quiet action l.container.toList.dropLast s) ∧
    (∀ (l : ElementList E) (element : Option E),
      (l.remove element).list.pointers = l.others element ↔
        ∀ e ∈ element, e ∉ l.container.toList.drop
          (l.container.size - (l.container.toList.count e - 1))) ∧
    ∀ (m : DeviceManager D) (take : D → TalkPacket → W → Int × W) (packet : TalkPacket)
      (hdr : PacketHeader) (w : W), packet.header = some hdr →
      ∃ v, m.deliverResponse take packet w = some v ∧
        (offered v.calls = addressees m hdr ↔
          AllQuiet (packetDeliveryAction take packet) () (addressed m hdr) w) := by
  refine ⟨fun l action s => ElementList.exact_iff_quiet, fun l element => ?_, ?_⟩
  · cases element with
    | none => simpa using l.remove_none
    | some e => simpa using l.remove_some_iff e
  · intro m take packet hdr w readable
    exact delivered_iff take readable w

/-- A packet for two devices that both wait for another one. -/
theorem visits_exact_two_devices :
    let m : DeviceManager ℕ := ⟨(ElementMap.empty.add 5 (some 1)).add 5 (some 2), []⟩
    let packet : TalkPacket := ⟨10, [0, 0, 0, 0, 0, 0, 5, 0, 0, 0]⟩
    ∃ v, m.deliverResponse (fun _ _ u => (2, u)) packet () = some v ∧
      offered v.calls = addressees m ⟨0, 0, 5, 0⟩ := by
  intro m packet
  obtain ⟨v, delivered, exact⟩ := (@visits_exact_iff ℕ Unit ℕ Unit _).2.2 m
    (fun _ _ u => (2, u)) packet ⟨0, 0, 5, 0⟩ () (by decide)
  have lists : addressed m ⟨0, 0, 5, 0⟩ = [⟨#[1, 2]⟩] := by decide
  refine ⟨v, delivered, exact.mpr ?_⟩
  simp [lists, AllQuiet, Quiet, packetDeliveryAction]

/-- Of two pointers that are both to be removed the second one is not offered, and of
two occurrences around another pointer the second one is not removed. -/
theorem second_pointer_skipped :
    ¬ ElementList.Exact ⟨#[1, 2]⟩
      ((⟨#[1, 2]⟩ : ElementList ℕ).forEach (fun _ u => (true, u)) ()) ∧
    ((⟨#[1, 2, 1]⟩ : ElementList ℕ).remove (some 1)).list.pointers ≠
      (⟨#[1, 2, 1]⟩ : ElementList ℕ).others (some 1) := by
  rw [ElementList.exact_iff_quiet, ne_eq, ElementList.remove_some_iff]
  simp [Quiet]

end DeviceManager

end Crs.Ude
