import Crs.Ude.Transmission

/-!
# The queue of a client

`take` tries the slot of the peer first and appends the packet to the queue if the slot is
occupied. The event loop frees the slot and refills it from the queue, and holds the mutex of
the queue meanwhile; the slot has a mutex of its own. Each call of `send_packet` and of
`net_peer::handle_write` and each push is one step. The calls of `take` are numbered.
-/

namespace Crs.Ude

open Foundation
open Transmitter (plain)

/-- A thread outside of `take`, or between the refusal of its packet and the push. -/
inductive Taker where
  | idle
  | refused (call : Nat) (packet : TalkPacket)
  deriving DecidableEq

/-- `client_stub::handle_write` outside, in front of `net_peer::handle_write`, or in front of
`send_packet`. -/
inductive Refill where
  | idle
  | writing
  | sending
  deriving DecidableEq

structure ClientStub (T : Type*) where
  slot : OutSlot
  queue : List (Nat × TalkPacket) := []
  taker : T → Taker
  refill : Refill := .idle
  calls : Nat := 0

inductive StubAction (T : Type*) where
  | take (t : T) (packet : TalkPacket)
  | push (t : T)
  | lock
  | handleWrite (results : List SendResult)
  | sendFront

/-- `take` found the slot free or not, or has queued its packet; the front of the queue went
into the slot; bytes were given to the socket. -/
inductive StubSeen where
  | taken (call : Nat) (sent : Bool)
  | queued (call : Nat)
  | refilled (call : Nat)
  | wrote (bytes : List UInt8)
  | quiet
  deriving DecidableEq

namespace ClientStub

variable {T : Type*} [DecidableEq T]

def want2write (s : ClientStub T) : Bool := s.slot.outFlag

def machine (T : Type*) [DecidableEq T] : Machine (ClientStub T) (StubAction T) StubSeen where
  step s
    | .take t packet =>
        match s.taker t with
        | .idle => (s.slot.sendPacket packet).map fun (sent, slot) =>
            if sent then (.taken s.calls true, { s with slot, calls := s.calls + 1 })
            else (.taken s.calls false, { s with
              taker := Function.update s.taker t (.refused s.calls packet)
              calls := s.calls + 1 })
        | .refused _ _ => none
    | .push t =>
        match s.taker t, s.refill with
        | .refused call packet, .idle => some (.queued call, { s with
            queue := s.queue ++ [(call, packet)]
            taker := Function.update s.taker t .idle })
        | _, _ => none
    | .lock => if s.refill = .idle then some (.quiet, { s with refill := .writing }) else none
    | .handleWrite results =>
        if s.refill = .writing then
          (s.slot.handleWrite results).map fun (bytes, slot) =>
            let refill := if slot.outFlag || s.queue.isEmpty then .idle else .sending
            (.wrote bytes, { s with slot, refill })
        else none
    | .sendFront =>
        match s.refill, s.queue with
        | .sending, (call, packet) :: rest =>
            (s.slot.sendPacket packet).map fun (sent, slot) =>
              if sent then (.refilled call, { s with slot, queue := rest, refill := .writing })
              else (.quiet, { s with refill := .idle })
        | _, _ => none

/-- A client with an empty slot and an empty queue. -/
def new (T : Type*) (outBuf : TalkPacket) : ClientStub T :=
  { slot := { outBuf }, taker := fun _ => .idle }

/-- What a step can do, one constructor a case. -/
inductive Effect (s : ClientStub T) : StubAction T → StubSeen → ClientStub T → Prop where
  | accept {t : T} {packet : TalkPacket} {slot : OutSlot} (outside : s.taker t = .idle)
      (free : s.slot.outFlag = false) (full : slot.outFlag = true) :
      Effect s (.take t packet) (.taken s.calls true) { s with slot, calls := s.calls + 1 }
  | refuse {t : T} {packet : TalkPacket} (outside : s.taker t = .idle)
      (busy : s.slot.outFlag = true) :
      Effect s (.take t packet) (.taken s.calls false) { s with
        taker := Function.update s.taker t (.refused s.calls packet)
        calls := s.calls + 1 }
  | push {t : T} {call : Nat} {packet : TalkPacket} (inside : s.taker t = .refused call packet)
      (unlocked : s.refill = .idle) :
      Effect s (.push t) (.queued call) { s with
        queue := s.queue ++ [(call, packet)]
        taker := Function.update s.taker t .idle }
  | lock (unlocked : s.refill = .idle) : Effect s .lock .quiet { s with refill := .writing }
  | write {results : List SendResult} {bytes : List UInt8} {slot : OutSlot} {refill : Refill}
      (turn : s.refill = .writing)
      (ends : refill = .idle → slot.outFlag = true ∨ s.queue = []) :
      Effect s (.handleWrite results) (.wrote bytes) { s with slot, refill }
  | refill {call : Nat} {packet : TalkPacket} {rest : List (Nat × TalkPacket)} {slot : OutSlot}
      (turn : s.refill = .sending) (front : s.queue = (call, packet) :: rest)
      (full : slot.outFlag = true) :
      Effect s .sendFront (.refilled call) { s with slot, queue := rest, refill := .writing }
  | keep (turn : s.refill = .sending) (busy : s.slot.outFlag = true) :
      Effect s .sendFront .quiet { s with refill := .idle }

section Steps

variable {s s' : ClientStub T} {a : StubAction T} {o : StubSeen}

theorem effect_of_step (step : (machine T).step s a = some (o, s')) : Effect s a o s' := by
  cases a with
  | take t packet =>
    simp only [machine] at step
    split at step
    · rename_i outside
      obtain ⟨⟨sent, slot⟩, called, result⟩ := Option.map_eq_some_iff.mp step
      obtain ⟨rfl, busy, rfl⟩ | ⟨rfl, free, full, -⟩ := OutSlot.sendPacket_cases called
      · obtain ⟨rfl, rfl⟩ := by simpa using result
        exact .refuse outside busy
      · obtain ⟨rfl, rfl⟩ := by simpa using result
        exact .accept outside free full
    · cases step
  | push t =>
    simp only [machine] at step
    split at step
    · rename_i inside unlocked
      obtain ⟨rfl, rfl⟩ := by simpa using step
      exact .push inside unlocked
    · cases step
  | lock =>
    simp only [machine] at step
    split at step
    · rename_i unlocked
      obtain ⟨rfl, rfl⟩ := by simpa using step
      exact .lock unlocked
    · cases step
  | handleWrite results =>
    simp only [machine] at step
    split at step
    · rename_i turn
      obtain ⟨⟨bytes, slot⟩, -, result⟩ := Option.map_eq_some_iff.mp step
      obtain ⟨rfl, rfl⟩ := by simpa using result
      apply Effect.write turn
      intro ends
      split at ends
      · rename_i last
        simpa using last
      · cases ends
    · cases step
  | sendFront =>
    simp only [machine] at step
    split at step
    · rename_i turn front
      obtain ⟨⟨sent, slot⟩, called, result⟩ := Option.map_eq_some_iff.mp step
      obtain ⟨rfl, busy, rfl⟩ | ⟨rfl, free, full, -⟩ := OutSlot.sendPacket_cases called
      · obtain ⟨rfl, rfl⟩ := by simpa using result
        exact .keep turn busy
      · obtain ⟨rfl, rfl⟩ := by simpa using result
        exact .refill turn front full
    · cases step

end Steps

/-- While nobody is in `take` or in `handle_write`, the loop is asked to write as long as
packets are queued. -/
def Wakeful (s : ClientStub T) : Prop :=
  (∀ t, s.taker t = .idle) → s.refill = .idle → s.queue ≠ [] → s.want2write = true

/-- A refused packet is queued while the transmission that refused it is still going on. -/
def Timely (s : ClientStub T) : StubAction T → Bool
  | .push _ => s.slot.outFlag
  | .take _ _ | .lock | .handleWrite _ | .sendFront => true

section Wakeups

variable {history : List (StubAction T × StubSeen)} {s s' : ClientStub T} {a : StubAction T}
  {o : StubSeen}

/-- Every step that ends outside of `handle_write` with packets in the queue has found the slot
occupied or has filled it. -/
theorem step_occupied (timely : s.Timely a = true)
    (step : (machine T).step s a = some (o, s')) :
    s'.refill = .idle → s'.queue ≠ [] → s'.slot.outFlag = true := by
  cases effect_of_step step with
  | accept outside free full => exact fun _ _ => full
  | refuse outside busy => exact fun _ _ => busy
  | push inside unlocked => exact fun _ _ => timely
  | lock unlocked => nofun
  | write turn ends => exact fun idle queued => (ends idle).resolve_right queued
  | refill turn front full => nofun
  | keep turn busy => exact fun _ _ => busy

theorem run_occupied {outBuf : TalkPacket} (run : (machine T).Run (new T outBuf) history s)
    (timely : (machine T).BeforeEach (new T outBuf) (fun _ s a => s.Timely a = true) history) :
    s.refill = .idle → s.queue ≠ [] → s.slot.outFlag = true := by
  cases run with
  | nil => exact fun _ queued => absurd rfl queued
  | snoc earlier step => exact step_occupied ((Machine.beforeEach_snoc earlier).mp timely).2 step

/-- The refused packets can be queued one after the other. -/
theorem exists_queued (threads : Finset T) (unlocked : s.refill = .idle) :
    ∃ rest t, (machine T).Run s rest t ∧ (∀ u ∈ threads, t.taker u = .idle) ∧
      t.refill = .idle ∧ t.slot = s.slot ∧ (s.queue ≠ [] → t.queue ≠ []) := by
  induction threads using Finset.induction_on with
  | empty => exact ⟨[], s, .nil, by simp, unlocked, rfl, id⟩
  | insert u threads _ ih =>
    obtain ⟨rest, t, run, outside, idle, slot, queued⟩ := ih
    cases inside : t.taker u with
    | idle =>
      refine ⟨rest, t, run, fun v member => ?_, idle, slot, queued⟩
      obtain rfl | member := Finset.mem_insert.mp member
      · exact inside
      · exact outside v member
    | refused call packet =>
      have step : (machine T).step t (.push u) = some (.queued call, { t with
          queue := t.queue ++ [(call, packet)]
          taker := Function.update t.taker u .idle }) := by
        simp [machine, inside, idle]
      refine ⟨_, _, run.snoc step, fun v member => ?_, idle, slot, fun _ => by simp⟩
      obtain rfl | other := eq_or_ne v u
      · exact Function.update_self ..
      · have before := outside v ((Finset.mem_insert.mp member).resolve_left other)
        exact (Function.update_of_ne other ..).trans before

variable [Fintype T]

/-- After a late push the client can come to rest with a queue that nobody looks at. -/
theorem exists_stuck (late : s.Timely a = false) (step : (machine T).step s a = some (o, s')) :
    ∃ rest t, (machine T).Run s' rest t ∧ ¬ t.Wakeful := by
  have silent : s.slot.outFlag = false ∧ s'.refill = .idle ∧ s'.slot = s.slot ∧
      s'.queue ≠ [] := by
    cases effect_of_step step with
    | push inside unlocked => exact ⟨late, unlocked, rfl, by simp⟩
    | accept | refuse | lock | write | refill | keep => cases late
  obtain ⟨free, unlocked, same, queued⟩ := silent
  obtain ⟨rest, t, run, outside, idle, slot, still⟩ := exists_queued Finset.univ unlocked
  refine ⟨rest, t, run, fun wakeful => ?_⟩
  have wants := wakeful (fun u => outside u (Finset.mem_univ u)) idle (still queued)
  rw [want2write, slot, same, free] at wants
  cases wants

/-- In a run in which every push finds the transmission still going on, a queued packet makes
the loop ask for writability in every state at rest; the first push of the other kind can end
in a state at rest with a queued packet and an idle slot. -/
theorem run_wakeful {outBuf : TalkPacket} (run : (machine T).Run (new T outBuf) history s)
    (timely : (machine T).BeforeEach (new T outBuf) (fun _ s a => s.Timely a = true) history) :
    s.Wakeful ∧ ∀ a o s', (machine T).step s a = some (o, s') → s.Timely a = false →
      ∃ rest t, (machine T).Run s' rest t ∧ ¬ t.Wakeful := by
  refine ⟨fun _ idle queued => run_occupied run timely idle queued, ?_⟩
  exact fun a o s' step late => exists_stuck late step

/-- A refused packet is queued in time. -/
theorem run_wakeful_two : ∃ history s,
    (machine (Fin 2)).Run (new (Fin 2) (plain 0)) history s ∧
      s.queue = [(1, plain 2)] ∧ s.Wakeful := by
  have executed : ∃ history s, ((machine (Fin 2)).guard fun s a => s.Timely a = true).exec
      (new (Fin 2) (plain 0))
      [.take 0 (plain 1), .take 1 (plain 2), .push 1, .lock,
        .handleWrite [.sent 4, .again]] = some (history, s) ∧
      s.queue = [(1, plain 2)] := ⟨_, _, rfl, by decide⟩
  obtain ⟨history, s, computed, queue⟩ := executed
  obtain ⟨run, timely⟩ := Machine.run_of_guard (Machine.run_of_exec computed)
  exact ⟨history, s, run, queue, (run_wakeful run timely).1⟩

/-- The transmission ends between the refusal of a packet and its push. -/
theorem queue_forgotten : ∃ history s,
    (machine (Fin 2)).Run (new (Fin 2) (plain 0)) history s ∧ (∀ t, s.taker t = .idle) ∧
      s.refill = .idle ∧ s.queue = [(1, plain 2)] ∧ s.want2write = false := by
  have executed : ∃ history s, (machine (Fin 2)).exec (new (Fin 2) (plain 0))
      [.take 0 (plain 1), .take 1 (plain 2), .lock, .handleWrite [.sent 10],
        .push 1] = some (history, s) ∧ (∀ t, s.taker t = .idle) ∧ s.refill = .idle ∧
      s.queue = [(1, plain 2)] ∧ s.want2write = false := ⟨_, _, rfl, by decide⟩
  obtain ⟨history, s, computed, shown⟩ := executed
  exact ⟨history, s, Machine.run_of_exec computed, shown⟩

end Wakeups

end ClientStub

end Crs.Ude
