import Crs.Foundation.Machine
import Crs.Ude.DeviceManager
import Mathlib.Algebra.Order.Group.Multiset
import Mathlib.Data.Multiset.OrderedMonoid
import Mathlib.Tactic.Abel

/-!
# The outbox of the device manager

`register_request` posts a packet from any thread, and `proceed_request` takes the
first one out, releases the lock, and hands the packet to the virtual `_send`. The
result of `_send` is looked at and forgotten: a packet that could not be sent is lost.

A packet is in transit while the `_send` call that it was handed to has not returned;
there may be as many as threads in `proceed_request`.
-/

namespace Crs.Ude

open Foundation

namespace DeviceManager

/-- The outbox, and the packets in transit. -/
structure Requests where
  outbox : List TalkPacket := []
  transit : List TalkPacket := []

/-- A request is registered; `proceed_request` begins; a `_send` call returns. -/
inductive RequestAction where
  | register (packet : TalkPacket)
  | begin
  | finish (packet : TalkPacket) (sent : Bool)

/-- A packet was posted, or delivered to other devices; `proceed_request` found the outbox
empty, handed a packet to `_send`, or returned if there is more, after `_send` returned. -/
inductive RequestSeen where
  | posted (packet : TalkPacket)
  | delivered
  | empty
  | handed (packet : TalkPacket)
  | returned (packet : TalkPacket) (sent more : Bool)

/-- `register_request` without the delivery to other devices. -/
def registerRequest (s : Requests) (packet : TalkPacket) : Option (RequestSeen × Requests) := do
  let hdr ← packet.header
  if isDeviceToDevice hdr then return (.delivered, s)
  else
    let outbox ← post s.outbox packet
    return (.posted packet, { s with outbox })

/-- The first locked section of `proceed_request`. -/
def proceedRequest (s : Requests) : RequestSeen × Requests :=
  match s.outbox with
  | [] => (.empty, s)
  | packet2send :: rest =>
      (.handed packet2send, { outbox := rest, transit := packet2send :: s.transit })

def requests : Machine Requests RequestAction RequestSeen where
  step s
    | .register packet => registerRequest s packet
    | .begin => some (proceedRequest s)
    | .finish packet sent =>
        if packet ∈ s.transit then
          some (.returned packet sent (!s.outbox.isEmpty),
            { s with transit := s.transit.erase packet })
        else none

section Histories

variable (history : List (RequestAction × RequestSeen))

/-- The packets accepted into the outbox. -/
def RequestSeen.accepted : RequestSeen → Multiset TalkPacket
  | .posted packet => {packet}
  | .delivered | .empty | .handed _ | .returned _ _ _ => 0

/-- The packets handed to a `_send` call that returned the given result. -/
def RequestSeen.returnedWith (result : Bool) : RequestSeen → Multiset TalkPacket
  | .returned packet sent _ => if sent = result then {packet} else 0
  | .posted _ | .delivered | .empty | .handed _ => 0

def accepted : Multiset TalkPacket := (history.map fun event => event.2.accepted).sum

def returnedWith (result : Bool) : Multiset TalkPacket :=
  (history.map fun event => event.2.returnedWith result).sum

variable {a : RequestAction} {o : RequestSeen}

@[simp] theorem accepted_snoc : accepted (history ++ [(a, o)]) = accepted history + o.accepted := by
  simp [accepted]

@[simp] theorem returnedWith_snoc (result : Bool) : returnedWith (history ++ [(a, o)]) result =
    returnedWith history result + o.returnedWith result := by
  simp [returnedWith]

end Histories

/-- Every accepted packet is in the outbox, in transit, or was sent. -/
def Kept (history : List (RequestAction × RequestSeen)) (s : Requests) : Prop :=
  accepted history ≤ s.outbox + s.transit + returnedWith history true

/-- A `_send` call returned `false`. -/
def refused (event : RequestAction × RequestSeen) : Bool :=
  match event.2 with
  | .returned _ sent _ => !sent
  | .posted _ | .delivered | .empty | .handed _ => false

variable {s s' : Requests} {a : RequestAction} {o : RequestSeen}

/-- Posting adds the packet, at one end or the other. -/
theorem coe_post {outbox outbox' : List TalkPacket} {packet : TalkPacket}
    (posted : post outbox packet = some outbox') :
    (outbox' : Multiset TalkPacket) = outbox + {packet} := by
  simp only [post, Option.bind_eq_bind, Option.bind_eq_some_iff] at posted
  obtain ⟨hdr, -, placed⟩ := posted
  split at placed
  · obtain rfl := Option.some.inj placed
    rw [← Multiset.cons_coe, ← Multiset.singleton_add, add_comm]
  · obtain rfl := Option.some.inj placed
    rfl

/-- A step accounts for each packet that it accepts, moves or takes away. -/
theorem requests_step (step : requests.step s a = some (o, s')) :
    (s'.outbox + s'.transit + o.returnedWith true + o.returnedWith false : Multiset TalkPacket) =
      s.outbox + s.transit + o.accepted := by
  cases a with
  | register packet =>
      simp only [requests, registerRequest, Option.bind_eq_bind, Option.bind_eq_some_iff] at step
      obtain ⟨hdr, -, placed⟩ := step
      split at placed
      · obtain ⟨rfl, rfl⟩ := by simpa using placed
        simp [RequestSeen.accepted, RequestSeen.returnedWith]
      · simp only [Option.bind_eq_some_iff] at placed
        obtain ⟨outbox, posted, result⟩ := placed
        obtain ⟨rfl, rfl⟩ := by simpa using result
        simp only [coe_post posted, RequestSeen.accepted, RequestSeen.returnedWith]
        abel
  | begin =>
      cases first : s.outbox with
      | nil =>
          obtain ⟨rfl, rfl⟩ := by simpa [requests, proceedRequest, first] using step
          simp [RequestSeen.accepted, RequestSeen.returnedWith, first]
      | cons packet rest =>
          obtain ⟨rfl, rfl⟩ := by simpa [requests, proceedRequest, first] using step
          simp only [← Multiset.cons_coe, ← Multiset.singleton_add, RequestSeen.accepted,
            RequestSeen.returnedWith]
          abel
  | finish packet sent =>
      simp only [requests] at step
      split at step
      · rename_i inside
        obtain ⟨rfl, rfl⟩ := by simpa using step
        have taken : ({packet} + s.transit.erase packet : Multiset TalkPacket) = s.transit := by
          rw [Multiset.singleton_add, Multiset.cons_coe]
          exact Multiset.coe_eq_coe.mpr (List.perm_cons_erase inside).symm
        rw [← taken]
        cases sent with
        | true =>
            simp only [RequestSeen.accepted, RequestSeen.returnedWith, if_true, reduceCtorEq,
              if_false]
            abel
        | false =>
            simp only [RequestSeen.accepted, RequestSeen.returnedWith, if_true, reduceCtorEq,
              if_false]
            abel
      · cases step

theorem returnedWith_false_eq_zero_iff {history : List (RequestAction × RequestSeen)} :
    returnedWith history false = 0 ↔ ∀ event ∈ history, refused event = false := by
  induction history with
  | nil => simp [returnedWith]
  | cons event rest ih =>
      have first : event.2.returnedWith false = 0 ↔ refused event = false := by
        obtain ⟨a, o⟩ := event
        cases o with
        | returned packet sent more => cases sent <;> simp [RequestSeen.returnedWith, refused]
        | posted | delivered | empty | handed => simp [RequestSeen.returnedWith, refused]
      rw [List.forall_mem_cons, ← ih, ← first]
      simp [returnedWith]

/-- In a run every accepted packet is accounted for. -/
theorem run_accountable {history : List (RequestAction × RequestSeen)}
    (run : requests.Run {} history s) :
    (s.outbox + s.transit + returnedWith history true + returnedWith history false :
      Multiset TalkPacket) = accepted history := by
  apply run.invariant (P := fun history s =>
    (s.outbox + s.transit + returnedWith history true + returnedWith history false :
      Multiset TalkPacket) = accepted history)
  · rfl
  · intro history t a o u _ held step
    have moved := requests_step step
    rw [returnedWith_snoc, returnedWith_snoc, accepted_snoc, ← held]
    calc
      _ = (u.outbox + u.transit + o.returnedWith true + o.returnedWith false :
          Multiset TalkPacket) +
          (returnedWith history true + returnedWith history false) := by abel
      _ = _ := by
        rw [moved]
        abel

/-- Nothing is lost in a run exactly if no `_send` call of the run returned `false`. -/
theorem run_keeps_iff {history : List (RequestAction × RequestSeen)}
    (run : requests.Run {} history s) :
    Kept history s ↔ ∀ event ∈ history, refused event = false := by
  have accounts := run_accountable run
  rw [Kept, ← accounts, ← returnedWith_false_eq_zero_iff]
  constructor
  · intro most
    exact Multiset.le_zero.mp ((add_le_iff_nonpos_right _).mp most)
  · intro none
    rw [none, add_zero]

/-- A packet without contents, for no device. -/
private def request : TalkPacket := ⟨10, [0, 0, 0, 0, 1, 0, 0, 0, 0, 0]⟩

/-- A packet is posted and sent. -/
theorem run_keeps_sent : ∃ history s, requests.Run {} history s ∧ Kept history s ∧
    s.outbox = [] := by
  have executed : ∃ history s, requests.exec {} [.register request, .begin, .finish request true] =
      some (history, s) ∧ (∀ event ∈ history, refused event = false) ∧ s.outbox = [] :=
    ⟨_, _, rfl, by decide, rfl⟩
  obtain ⟨history, s, computed, none, empty⟩ := executed
  have run := Machine.run_of_exec computed
  exact ⟨history, s, run, (run_keeps_iff run).mpr none, empty⟩

/-- A packet whose `_send` call returned `false` is neither in the outbox nor sent. -/
theorem refused_packet_lost : ∃ history s, requests.Run {} history s ∧ ¬ Kept history s := by
  have executed : ∃ history s, requests.exec {} [.register request, .begin, .finish request false] =
      some (history, s) ∧ ¬ accepted history ≤ s.outbox + s.transit + returnedWith history true :=
    ⟨_, _, rfl, by decide⟩
  obtain ⟨history, s, computed, lost⟩ := executed
  exact ⟨history, s, Machine.run_of_exec computed, lost⟩

end DeviceManager

end Crs.Ude
