import Crs.Ude.Delivery
import Crs.Ude.Gateway
import Crs.Ude.StubConnection

/-!
# The server and its clients

The stub of a client registers what it takes from its peer. A packet between devices is delivered
in the same call: `deliver_response` offers it to the devices of its domain, and the stubs among
them hand it to their clients. Responses of the hardware are delivered in the same way. Whoever
delivers holds the mutex of the registry until the last device has taken the packet, so that at
most one delivery is running, and nobody attaches or detaches a device meanwhile.

All devices here are stubs of clients that stay connected. Clients, event loops, the threads that
proceed and those that deliver run concurrently.
-/

namespace Crs.Ude

open Foundation DeviceManager

/-- `deliver_response`: the stub that registered the packet, if one did; the stub whose `take`
has not returned; and those that come after it. -/
structure Round (K : Type) where
  source : Option K
  packet : TalkPacket
  current : Option K := none
  targets : List K

/-- The uplinks and the outbox; the registry; the connections of the stubs to their clients; and
the packet that a stub is about to deliver. -/
structure Server (K T : Type) where
  gateway : Gateway K T
  container : ElementMap Domain K
  downlink : K → Connection (ClientStub Unit)
  waiting : K → Option TalkPacket
  round : Option (Round K) := none

/-- A step on the way up; `deliver_response` gets the mutex; the next device's `take` begins, or
goes on with the push; the mutex is released; a step on the way down. -/
inductive ServerAction (K T : Type) where
  | up (a : GatewayAction K T)
  | deliver (source : Option K) (packet : TalkPacket)
  | enter
  | queue
  | leave
  | down (k : K) (a : StubAction Unit ⊕ Action)
  | attach (domain : UInt16) (k : K)
  | detach (domain : UInt16) (k : K)

inductive ServerSeen (K : Type) where
  | up (o : GatewaySeen K)
  | delivering (targets : List K)
  | down (k : K) (a : StubAction Unit ⊕ Action) (o : StubSeen ⊕ Seen)
  | quiet

/-- A new peer on a buffer that a header fits into. -/
def NetPeer.Created (peer : NetPeer) : Prop :=
  ∃ memory fresh, headerSize ≤ memory.length ∧ NetPeer.new memory fresh = some peer

namespace Server

variable {K T : Type}

/-- `client_stub::take` wants all packets, and another one. -/
def take (_ : K) (_ : TalkPacket) (u : Unit) : Int × Unit := (2, u)

/-- The packet that a stub registers and that is not for the hardware. -/
def directed (event : GatewayAction K T × GatewaySeen K) : Option (K × TalkPacket) :=
  match event with
  | (.client k (.inr _), .client (.inr (.taken (some packet)))) =>
      if Gateway.isRequest packet then none else some (k, packet)
  | _ => none

/-- A call of `take`, or the rest of one. -/
def isTaking : StubAction Unit ⊕ Action → Bool
  | .inl (.take _ _) | .inl (.push _) => true
  | _ => false

section Steps

variable [DecidableEq K]

/-- The stub's `handle_read` is in `register_request`. -/
def registering (s : Server K T) (k : K) : Bool :=
  (s.waiting k).isSome || s.round.any fun round => round.source = some k

def mayStep (s : Server K T) : GatewayAction K T → Bool
  | .client k (.inr _) => !s.registering k
  | _ => true

def await (waiting : K → Option TalkPacket) : Option (K × TalkPacket) → K → Option TalkPacket
  | some (k, packet) => Function.update waiting k (some packet)
  | none => waiting

/-- The stub has the mutex now. -/
def begun (waiting : K → Option TalkPacket) : Option K → K → Option TalkPacket
  | some k => Function.update waiting k none
  | none => waiting

def machine (K T : Type) [DecidableEq K] [Fintype T] [DecidableEq T] :
    Machine (Server K T) (ServerAction K T) (ServerSeen K) where
  step s
    | .up a =>
        if s.mayStep a then
          ((Gateway.machine K T).step s.gateway a).map fun (o, gateway) =>
            (.up o, { s with gateway, waiting := await s.waiting (directed (a, o)) })
        else none
    | .deliver source packet =>
        if s.round.isNone ∧ ∀ k ∈ source, s.waiting k = some packet then
          (deliverResponse ⟨s.container, []⟩ take packet ()).map fun v =>
            let targets := v.calls.map Prod.fst
            (.delivering targets, { s with
              container := v.map
              waiting := begun s.waiting source
              round := some { source, packet, targets } })
        else none
    | .enter =>
        match s.round with
        | some { source, packet, current := none, targets := k :: targets } =>
            let a := .inl (.take () packet)
            ((StubConnection.machine Unit).step (s.downlink k) a).map fun (o, downlink) =>
              let current := if downlink.producer.taker () = .idle then none else some k
              (.down k a o, { s with
                downlink := Function.update s.downlink k downlink
                round := some { source, packet, current, targets } })
        | _ => none
    | .queue =>
        match s.round with
        | some { source, packet, current := some k, targets } =>
            let a := .inl (.push ())
            ((StubConnection.machine Unit).step (s.downlink k) a).map fun (o, downlink) =>
              (.down k a o, { s with
                downlink := Function.update s.downlink k downlink
                round := some { source, packet, targets } })
        | _ => none
    | .leave =>
        match s.round with
        | some { current := none, targets := [], .. } => some (.quiet, { s with round := none })
        | _ => none
    | .down k a =>
        if isTaking a then none
        else ((StubConnection.machine Unit).step (s.downlink k) a).map fun (o, downlink) =>
          (.down k a o, { s with downlink := Function.update s.downlink k downlink })
    | .attach domain k =>
        if s.round.isNone then
          some (.quiet, { s with
            container := (registerDevice ⟨s.container, []⟩ domain (some k)).2.container })
        else none
    | .detach domain k =>
        if s.round.isNone then
          some (.quiet, { s with
            container := (unregisterDevice ⟨s.container, []⟩ domain (some k)).2.1.container })
        else none

end Steps

/-- All clients are connected, some are registered, and nothing was sent. -/
def new (T : Type) (outBuf : TalkPacket) (stub client : K → NetPeer)
    (container : ElementMap Domain K) : Server K T where
  gateway := Gateway.new T outBuf stub
  container := container
  downlink k := StubConnection.new Unit outBuf (client k)
  waiting _ := none

section Histories

variable (history : List (ServerAction K T × ServerSeen K))

def up : List (GatewayAction K T × GatewaySeen K) :=
  history.filterMap fun event =>
    match event with
    | (.up a, .up o) => some (a, o)
    | _ => none

/-- The deliveries, in this order, with their sources and the devices that they offer the packet
to. -/
def rounds : List (Option K × TalkPacket × List K) :=
  history.filterMap fun event =>
    match event with
    | (.deliver source packet, .delivering targets) => some (source, packet, targets)
    | _ => none

variable [DecidableEq K]

/-- What has happened between a stub and its client. -/
def down (k : K) : List ((StubAction Unit ⊕ Action) × (StubSeen ⊕ Seen)) :=
  history.filterMap fun event =>
    match event.2 with
    | .down j a o => if j = k then some (a, o) else none
    | _ => none

/-- The packets that were delivered from one stub, or from elsewhere. -/
def deliveredFrom (source : Option K) : List TalkPacket :=
  (rounds history).filterMap fun round => if round.1 = source then some round.2.1 else none

/-- The packets for one client, each as often as its delivery offers it to the stub. -/
def sent (k : K) : List TalkPacket :=
  (rounds history).flatMap fun round => List.replicate (round.2.2.count k) round.2.1

/-- The packets that left the parser of a client. -/
def received (k : K) (s : Server K T) : List TalkPacket :=
  Connection.delivered (down history k) ++ (s.downlink k).consumer.peer.inPacketQueue

end Histories

section Offers

variable {E γ σ : Type*} {action : E → γ × σ → Bool × γ × σ} {functor : γ}

/-- An action that never asks for a removal. -/
theorem quiet_of_refuses {f : E → σ → Bool × σ} (refuses : ∀ e s, (f e s).1 = false) (l : List E)
    (s : σ) : Compaction.Quiet f l s := by
  induction l generalizing s with
  | nil => trivial
  | cons e rest ih => exact ⟨refuses e s, ih _⟩

theorem forEach_of_refuses {f : E → σ → Bool × σ} (refuses : ∀ e s, (f e s).1 = false)
    (l : ElementList E) (s : σ) : (l.forEach f s).list = l := by
  rw [ElementList.forEach, ElementList.pass_eq_scan]
  simp [Compaction.kept_eq_of_quiet (quiet_of_refuses refuses _ s)]

theorem allQuiet_of_refuses (refuses : ∀ e s, (action e s).1 = false)
    (lists : List (ElementList E)) (s : σ) : ElementMap.AllQuiet action functor lists s := by
  induction lists generalizing s with
  | nil => trivial
  | cons list rest ih => exact ⟨quiet_of_refuses refuses _ _, ih _⟩

theorem visitEntries_of_refuses {J : Type*} (refuses : ∀ e s, (action e s).1 = false)
    (entries : List (J × ElementList E)) (s : σ) :
    (ElementMap.visitEntries action functor entries s).1 = entries := by
  induction entries generalizing s with
  | nil => rfl
  | cons entry rest ih =>
    simp only [ElementMap.visitEntries, forEach_of_refuses refuses, ih]

theorem map_forEach_of_refuses {J : Type*} [LinearOrder J] (refuses : ∀ e s, (action e s).1 = false)
    (m : ElementMap J E) (s : σ) : (m.forEach action functor s).map = m := by
  obtain ⟨container⟩ := m
  apply congrArg ElementMap.mk
  apply OrderedMap.ext_entries
  exact visitEntries_of_refuses refuses container.entries s

theorem map_forEachIn_of_refuses {J : Type*} [LinearOrder J]
    (refuses : ∀ e s, (action e s).1 = false) (m : ElementMap J E) (domain : J) (s : σ) :
    (m.forEachIn domain action functor s).map = m := by
  obtain ⟨container⟩ := m
  simp only [ElementMap.forEachIn]
  split
  · rename_i list found
    apply congrArg ElementMap.mk
    apply OrderedMap.ext_get?
    intro k
    rw [forEach_of_refuses refuses, OrderedMap.get?_setValue]
    split
    · rename_i same
      rw [same, found, Option.map_some]
    · rfl
  · rfl

/-- A packet is offered to the stubs that it is meant for, and these stay registered. -/
theorem deliverResponse_take {container : ElementMap Domain K} {packet : TalkPacket}
    {v : MapVisit Domain K Unit}
    (delivered : deliverResponse ⟨container, []⟩ take packet () = some v) :
    v.map = container ∧ ∃ hdr, packet.header = some hdr ∧
      ((v.calls.map Prod.fst : List K) : Multiset K) = addressees ⟨container, []⟩ hdr := by
  have refuses : ∀ k s, (packetDeliveryAction (take (K := K)) packet k s).1 = false := by
    intro k s
    rfl
  cases header : packet.header with
  | none => simp [deliverResponse, header] at delivered
  | some hdr =>
    obtain ⟨w, same, exact⟩ := delivered_iff (m := ⟨container, []⟩) take header ()
    obtain rfl := Option.some.inj (same.symm.trans delivered)
    refine ⟨?_, hdr, rfl, exact.mpr (allQuiet_of_refuses refuses _ _)⟩
    simp only [deliverResponse, header, Option.map_some, Option.some.injEq] at delivered
    rw [← delivered]
    split
    · exact map_forEach_of_refuses refuses container ()
    · exact map_forEachIn_of_refuses refuses container _ ()

end Offers

section Effects

variable [DecidableEq K]

/-- What a step can do, one constructor a case. -/
inductive Effect [Fintype T] [DecidableEq T] (s : Server K T) :
    ServerAction K T → ServerSeen K → Server K T → Prop where
  | up {a : GatewayAction K T} {o : GatewaySeen K} {gateway : Gateway K T}
      (may : s.mayStep a = true)
      (inner : (Gateway.machine K T).step s.gateway a = some (o, gateway)) :
      Effect s (.up a) (.up o) { s with
        gateway
        waiting := await s.waiting (directed (a, o)) }
  | deliver {source : Option K} {packet : TalkPacket} {v : MapVisit Domain K Unit}
      (free : s.round = none) (waits : ∀ k ∈ source, s.waiting k = some packet)
      (delivered : deliverResponse ⟨s.container, []⟩ take packet () = some v) :
      Effect s (.deliver source packet) (.delivering (v.calls.map Prod.fst)) { s with
        container := v.map
        waiting := begun s.waiting source
        round := some { source, packet, targets := v.calls.map Prod.fst } }
  | enter {source current : Option K} {packet : TalkPacket} {k : K} {targets : List K}
      {o : StubSeen ⊕ Seen} {downlink : Connection (ClientStub Unit)}
      (round : s.round = some { source, packet, targets := k :: targets })
      (inner : (StubConnection.machine Unit).step (s.downlink k) (.inl (.take () packet)) =
        some (o, downlink)) :
      Effect s .enter (.down k (.inl (.take () packet)) o) { s with
        downlink := Function.update s.downlink k downlink
        round := some { source, packet, current, targets } }
  | queue {source : Option K} {packet : TalkPacket} {k : K} {targets : List K}
      {o : StubSeen ⊕ Seen} {downlink : Connection (ClientStub Unit)}
      (round : s.round = some { source, packet, current := some k, targets })
      (inner : (StubConnection.machine Unit).step (s.downlink k) (.inl (.push ())) =
        some (o, downlink)) :
      Effect s .queue (.down k (.inl (.push ())) o) { s with
        downlink := Function.update s.downlink k downlink
        round := some { source, packet, targets } }
  | leave {source : Option K} {packet : TalkPacket}
      (round : s.round = some { source, packet, targets := [] }) :
      Effect s .leave .quiet { s with round := none }
  | down {k : K} {a : StubAction Unit ⊕ Action} {o : StubSeen ⊕ Seen}
      {downlink : Connection (ClientStub Unit)} (other : isTaking a = false)
      (inner : (StubConnection.machine Unit).step (s.downlink k) a = some (o, downlink)) :
      Effect s (.down k a) (.down k a o) { s with
        downlink := Function.update s.downlink k downlink }
  | attach {domain : UInt16} {k : K} {container : ElementMap Domain K} (free : s.round = none) :
      Effect s (.attach domain k) .quiet { s with container }
  | detach {domain : UInt16} {k : K} {container : ElementMap Domain K} (free : s.round = none) :
      Effect s (.detach domain k) .quiet { s with container }

variable [Fintype T] [DecidableEq T] {s s' : Server K T} {a : ServerAction K T} {o : ServerSeen K}

theorem effect_of_step (step : (machine K T).step s a = some (o, s')) : Effect s a o s' := by
  cases a with
  | up a =>
    simp only [machine] at step
    split at step
    · rename_i may
      obtain ⟨⟨p, gateway⟩, inner, result⟩ := Option.map_eq_some_iff.mp step
      obtain ⟨rfl, rfl⟩ := Prod.mk.inj result
      exact .up may inner
    · cases step
  | deliver source packet =>
    simp only [machine] at step
    split at step
    · rename_i begins
      obtain ⟨v, delivered, result⟩ := Option.map_eq_some_iff.mp step
      obtain ⟨rfl, rfl⟩ := Prod.mk.inj result
      exact .deliver (Option.isNone_iff_eq_none.mp begins.1) begins.2 delivered
    · cases step
  | enter =>
    simp only [machine] at step
    split at step
    · rename_i round
      obtain ⟨⟨p, downlink⟩, inner, result⟩ := Option.map_eq_some_iff.mp step
      obtain ⟨rfl, rfl⟩ := Prod.mk.inj result
      exact .enter round inner
    · cases step
  | queue =>
    simp only [machine] at step
    split at step
    · rename_i round
      obtain ⟨⟨p, downlink⟩, inner, result⟩ := Option.map_eq_some_iff.mp step
      obtain ⟨rfl, rfl⟩ := Prod.mk.inj result
      exact .queue round inner
    · cases step
  | leave =>
    simp only [machine] at step
    split at step
    · rename_i round
      obtain ⟨rfl, rfl⟩ := Prod.mk.inj (Option.some.inj step)
      exact .leave round
    · cases step
  | down k a =>
    simp only [machine] at step
    split at step
    · cases step
    · rename_i other
      obtain ⟨⟨p, downlink⟩, inner, result⟩ := Option.map_eq_some_iff.mp step
      obtain ⟨rfl, rfl⟩ := Prod.mk.inj result
      exact .down (Bool.not_eq_true _ ▸ other) inner
  | attach domain k =>
    simp only [machine] at step
    split at step
    · rename_i free
      obtain ⟨rfl, rfl⟩ := Prod.mk.inj (Option.some.inj step)
      exact .attach (Option.isNone_iff_eq_none.mp free)
    · cases step
  | detach domain k =>
    simp only [machine] at step
    split at step
    · rename_i free
      obtain ⟨rfl, rfl⟩ := Prod.mk.inj (Option.some.inj step)
      exact .detach (Option.isNone_iff_eq_none.mp free)
    · cases step

variable {start : Server K T} {history : List (ServerAction K T × ServerSeen K)}

/-- The clients and their stubs, and the outbox, run as if there were no deliveries. -/
theorem run_up (run : (machine K T).Run start history s) :
    (Gateway.machine K T).Run start.gateway (up history) s.gateway := by
  refine run.project (fun t : Server K T => t.gateway) _ (fun t a o u b p step here => ?_)
    (fun t a o u step here => ?_)
  · cases effect_of_step step with
    | up may inner =>
      obtain ⟨rfl, rfl⟩ := Prod.mk.inj (Option.some.inj here)
      exact inner
    | deliver | enter | queue | leave | down | attach | detach => cases here
  · cases effect_of_step step with
    | up => cases here
    | deliver | enter | queue | leave | down | attach | detach => rfl

/-- A stub and its client run as if there were no other ones. -/
theorem run_down (run : (machine K T).Run start history s) (k : K) :
    (StubConnection.machine Unit).Run (start.downlink k) (down history k) (s.downlink k) := by
  refine run.project (fun t : Server K T => t.downlink k) _ (fun t a o u b p step here => ?_)
    (fun t a o u step here => ?_)
  · cases effect_of_step step with
    | enter _ inner | queue _ inner | down _ inner =>
      simp only at here
      split at here
      · rename_i same
        subst same
        obtain ⟨rfl, rfl⟩ := Prod.mk.inj (Option.some.inj here)
        simpa using inner
      · cases here
    | up | deliver | leave | attach | detach => cases here
  · cases effect_of_step step with
    | enter | queue | down =>
      simp only at here
      split at here
      · cases here
      · rename_i other
        exact Function.update_of_ne (Ne.symm other) _ _
    | up | deliver | leave | attach | detach => rfl

end Effects

end Server

end Crs.Ude
