import Crs.Ude.Server
import Mathlib.Algebra.Order.BigOperators.Group.Finset
import Mathlib.Data.Fintype.BigOperators

/-!
# What the clients exchange

A packet between devices goes from a client to its stub, waits there for the mutex, is offered to
the stubs of its domain, and goes from these to their clients. A delivery is an event of the
history with its source, its packet and the stubs that it offers the packet to. `Accounted` says
where the packets are meanwhile; the accounts of both connections are those of `StubReader` and of
`StubConnection`.

Devices come and go between the deliveries. If none does, what a client receives can be told from
what all clients have sent.
-/

namespace Crs.Ude

open Foundation DeviceManager

namespace Server

variable {K T : Type}

section Accounts

variable [DecidableEq K] {history : List (ServerAction K T × ServerSeen K)}
  {a : ServerAction K T} {o : ServerSeen K}

omit [DecidableEq K] in
theorem up_snoc : up (history ++ [(a, o)]) = up history ++ up [(a, o)] := List.filterMap_append

theorem down_snoc (k : K) :
    down (history ++ [(a, o)]) k = down history k ++ down [(a, o)] k := List.filterMap_append

omit [DecidableEq K] in
theorem rounds_snoc : rounds (history ++ [(a, o)]) = rounds history ++ rounds [(a, o)] :=
  List.filterMap_append

theorem deliveredFrom_snoc (source : Option K) : deliveredFrom (history ++ [(a, o)]) source =
    deliveredFrom history source ++ deliveredFrom [(a, o)] source := by
  simp [deliveredFrom, rounds_snoc]

theorem sent_snoc (k : K) : sent (history ++ [(a, o)]) k = sent history k ++ sent [(a, o)] k := by
  simp [sent, rounds_snoc]

/-- The packets that the stub has taken, in this order. -/
def takenBy (history : List (ServerAction K T × ServerSeen K)) (k : K) : List TalkPacket :=
  ClientStub.taken (Machine.producing (down history k))

theorem takenBy_snoc (k : K) :
    takenBy (history ++ [(a, o)]) k = takenBy history k ++ takenBy [(a, o)] k := by
  simp [takenBy, down_snoc, Machine.producing, ClientStub.taken]

/-- The packets between devices that the stub has registered. -/
def directedBy (history : List (ServerAction K T × ServerSeen K)) (k : K) : List TalkPacket :=
  Gateway.of k ((up history).filterMap directed)

theorem directedBy_snoc (k : K) :
    directedBy (history ++ [(a, o)]) k = directedBy history k ++ directedBy [(a, o)] k := by
  simp [directedBy, up_snoc, Gateway.of]

/-- The packet between devices that the stub registers is one that it has taken from its peer. -/
theorem of_directed (k : K) (events : List (GatewayAction K T × GatewaySeen K)) :
    Gateway.of k (events.filterMap directed) =
      (Connection.delivered (Gateway.client k events)).filter fun packet =>
        !Gateway.isRequest packet := by
  have both (event : GatewayAction K T × GatewaySeen K) :
      Gateway.of k (directed event).toList =
        (Connection.delivered (Gateway.client k [event])).filter fun packet =>
          !Gateway.isRequest packet := by
    obtain ⟨a, o⟩ := event
    cases a with
    | proceed => rfl
    | client j b =>
      cases o with
      | handed | empty => cases b <;> rfl
      | client o =>
        have mine : Connection.delivered (Gateway.client k [(.client j b, .client o)]) =
            if j = k then Connection.delivered [(b, o)] else [] := by
          by_cases here : j = k <;> simp [Gateway.client, here, Connection.delivered,
            Session.delivered, Machine.consuming]
        rw [mine]
        cases b with
        | inl b => cases o <;> split <;> rfl
        | inr b =>
          obtain o | (_ | _ | packet) := o
          · split <;> rfl
          · split <;> rfl
          · split <;> rfl
          · cases packet with
            | none => split <;> rfl
            | some packet =>
              have one : Connection.delivered [((.inr b : OutAction T ⊕ Action),
                  (.inr (.taken (some packet)) : OutSeen ⊕ Seen))] = [packet] := rfl
              by_cases here : j = k <;> by_cases wanted : Gateway.isRequest packet = true <;>
                simp [directed, Gateway.of, here, wanted, one]
  induction events with
  | nil => rfl
  | cons event events ih =>
    have one : (event :: events).filterMap directed =
        (directed event).toList ++ events.filterMap directed := by
      cases here : directed event <;> simp [here]
    rw [one, Gateway.of_append, both, ih, ← List.filter_append,
      ← Gateway.delivered_client_append]
    rfl

/-- What the steps of a stub take. -/
theorem taken_take {d d' : Connection (ClientStub Unit)} {packet : TalkPacket} {o : StubSeen ⊕ Seen}
    (inner : (StubConnection.machine Unit).step d (.inl (.take () packet)) = some (o, d')) :
    ClientStub.taken (Machine.producing
      [((.inl (.take () packet) : StubAction Unit ⊕ Action), o)]) = [packet] := by
  obtain ⟨⟨seen, stub⟩, step, result⟩ := Option.map_eq_some_iff.mp inner
  obtain ⟨rfl, rfl⟩ := Prod.mk.inj result
  cases ClientStub.effect_of_step step with
  | accept | refuse => rfl

theorem taken_other {b : StubAction Unit ⊕ Action} {p : StubSeen ⊕ Seen}
    (other : ∀ packet, b ≠ .inl (.take () packet)) :
    ClientStub.taken (Machine.producing [(b, p)]) = [] := by
  cases b with
  | inr => cases p <;> rfl
  | inl b =>
    cases b with
    | take t packet => exact absurd rfl (other packet)
    | push | lock | handleWrite | sendFront => cases p <;> rfl

theorem takenBy_down (j k : K) (b : StubAction Unit ⊕ Action) (p : StubSeen ⊕ Seen)
    (a : ServerAction K T) : takenBy [(a, .down j b p)] k =
      if j = k then ClientStub.taken (Machine.producing [(b, p)]) else [] := by
  by_cases here : j = k <;> simp [takenBy, down, here, Machine.producing, ClientStub.taken]

end Accounts

/-- What the delivery that is running will still offer to the stub. -/
def owed [DecidableEq K] (s : Server K T) (k : K) : List TalkPacket :=
  match s.round with
  | some round => List.replicate (round.targets.count k) round.packet
  | none => []

/-- What a stub has registered for devices was delivered, or waits for the mutex; and what was
delivered was taken by the stubs that it was offered to, or will be. -/
structure Accounted [DecidableEq K] (history : List (ServerAction K T × ServerSeen K))
    (s : Server K T) : Prop where
  placed : ∀ k, deliveredFrom history (some k) ++ (s.waiting k).toList = directedBy history k
  offered : ∀ k, takenBy history k ++ s.owed k = sent history k

section Runs

variable [DecidableEq K] {s s' start : Server K T}
  {a : ServerAction K T} {o : ServerSeen K} {history : List (ServerAction K T × ServerSeen K)}

/-- A step that delivers nothing, registers nothing and takes nothing. -/
theorem Accounted.quiet (accounted : Accounted history s)
    (nothing : rounds [(a, o)] = [] ∧ up [(a, o)] = [] ∧ ∀ k, takenBy [(a, o)] k = [])
    (waiting : s'.waiting = s.waiting) (owed : ∀ k, s'.owed k = s.owed k) :
    Accounted (history ++ [(a, o)]) s' := by
  obtain ⟨noRound, noUp, noTake⟩ := nothing
  constructor
  · intro k
    rw [deliveredFrom_snoc, directedBy_snoc, waiting, ← accounted.placed]
    simp [deliveredFrom, directedBy, noRound, noUp, Gateway.of]
  · intro k
    rw [takenBy_snoc, sent_snoc, noTake, owed, List.append_nil, accounted.offered]
    simp [sent, noRound]

omit [DecidableEq K] in
theorem client_of_directed {b : GatewayAction K T} {p : GatewaySeen K} {j : K} {packet : TalkPacket}
    (registers : directed (b, p) = some (j, packet)) : ∃ c, b = .client j (.inr c) := by
  simp only [directed] at registers
  split at registers
  · rename_i same
    obtain ⟨rfl, -⟩ := Prod.mk.inj same
    split at registers
    · cases registers
    · obtain ⟨rfl, -⟩ := Prod.mk.inj (Option.some.inj registers)
      exact ⟨_, rfl⟩
  · cases registers

theorem Accounted.up {b : GatewayAction K T} {p : GatewaySeen K} {gateway : Gateway K T}
    (accounted : Accounted history s) (may : s.mayStep b = true) :
    Accounted (history ++ [(.up b, .up p)])
      { s with gateway, waiting := await s.waiting (directed (b, p)) } := by
  constructor
  · intro k
    have registered : directedBy [((.up b : ServerAction K T), .up p)] k =
        Gateway.of k (directed (b, p)).toList := by
      cases here : directed (b, p) <;> simp [directedBy, Server.up, here]
    have nothing : deliveredFrom [((.up b : ServerAction K T), .up p)] (some k) = [] := rfl
    rw [deliveredFrom_snoc, directedBy_snoc, nothing, registered, ← accounted.placed,
      List.append_nil, List.append_assoc]
    congr 1
    cases here : directed (b, p) with
    | none => simp [await, Gateway.of]
    | some request =>
      obtain ⟨j, packet⟩ := request
      obtain ⟨c, rfl⟩ := client_of_directed here
      by_cases same : j = k
      · subst same
        have free : s.waiting j = none := by
          simp only [mayStep, registering, Bool.not_or, Bool.and_eq_true] at may
          simpa using may.1
        simp [await, Gateway.of, free]
      · simp [await, Gateway.of, same, Function.update_of_ne (Ne.symm same)]
  · intro k
    rw [takenBy_snoc, sent_snoc]
    exact congrArg₂ (· ++ ·) (List.append_nil _) rfl |>.trans
      ((accounted.offered k).trans (List.append_nil _).symm)

theorem Accounted.deliver {source : Option K} {packet : TalkPacket} {targets : List K}
    {container : ElementMap Domain K} (accounted : Accounted history s) (free : s.round = none)
    (waits : ∀ k ∈ source, s.waiting k = some packet) :
    Accounted (history ++ [(.deliver source packet, .delivering targets)]) { s with
      container
      waiting := begun s.waiting source
      round := some { source, packet, targets } } := by
  constructor
  · intro k
    have nothing : directedBy [((.deliver source packet : ServerAction K T),
        (.delivering targets : ServerSeen K))] k = [] := rfl
    rw [deliveredFrom_snoc, directedBy_snoc, nothing, List.append_nil, ← accounted.placed,
      List.append_assoc]
    congr 1
    cases source with
    | none => simp [deliveredFrom, rounds, begun]
    | some j =>
      by_cases same : j = k
      · subst same
        simp [deliveredFrom, rounds, begun, waits j rfl]
      · simp [deliveredFrom, rounds, begun, same, Function.update_of_ne (Ne.symm same)]
  · intro k
    have before := accounted.offered k
    rw [owed, free, List.append_nil] at before
    have nothing : takenBy [((.deliver source packet : ServerAction K T),
        (.delivering targets : ServerSeen K))] k = [] := rfl
    rw [takenBy_snoc, sent_snoc, nothing, List.append_nil, before]
    simp [sent, rounds, owed]

theorem Accounted.enter {source current : Option K} {packet : TalkPacket} {j : K}
    {targets : List K} {p : StubSeen ⊕ Seen} {downlink : Connection (ClientStub Unit)}
    (accounted : Accounted history s)
    (round : s.round = some { source, packet, targets := j :: targets })
    (inner : (StubConnection.machine Unit).step (s.downlink j) (.inl (.take () packet)) =
      some (p, downlink)) :
    Accounted (history ++ [(.enter, .down j (.inl (.take () packet)) p)]) { s with
      downlink := Function.update s.downlink j downlink
      round := some { source, packet, current, targets } } := by
  constructor
  · intro k
    rw [deliveredFrom_snoc, directedBy_snoc]
    exact congrArg₂ (· ++ ·) (List.append_nil _) rfl |>.trans
      ((accounted.placed k).trans (List.append_nil _).symm)
  · intro k
    have before := accounted.offered k
    rw [owed, round] at before
    have nothing :
        sent [((.enter : ServerAction K T), .down j (.inl (.take () packet)) p)] k = [] := rfl
    rw [takenBy_snoc, sent_snoc, nothing, List.append_nil, ← before, takenBy_down, taken_take inner,
      List.append_assoc]
    congr 1
    by_cases same : j = k
    · simp [same, owed, List.replicate_succ]
    · simp [same, owed]

variable [Fintype T] [DecidableEq T]

theorem Accounted.step (accounted : Accounted history s)
    (step : (machine K T).step s a = some (o, s')) : Accounted (history ++ [(a, o)]) s' := by
  have silent {b : StubAction Unit ⊕ Action} {p : StubSeen ⊕ Seen} {j : K}
      (other : isTaking b = false ∨ b = .inl (.push ())) (k : K) :
      takenBy [(a, .down j b p)] k = [] := by
    rw [takenBy_down, taken_other, ite_self]
    rintro packet rfl
    simp [isTaking] at other
  cases effect_of_step step with
  | up may inner => exact accounted.up may
  | deliver free waits delivered => exact accounted.deliver free waits
  | enter round inner => exact accounted.enter round inner
  | queue round inner =>
    refine accounted.quiet ⟨rfl, rfl, silent (.inr rfl)⟩ rfl fun k => ?_
    simp [owed, round]
  | leave round =>
    refine accounted.quiet ⟨rfl, rfl, fun k => rfl⟩ rfl fun k => ?_
    simp [owed, round]
  | down other inner => exact accounted.quiet ⟨rfl, rfl, silent (.inl other)⟩ rfl fun k => rfl
  | attach | detach => exact accounted.quiet ⟨rfl, rfl, fun k => rfl⟩ rfl fun k => rfl

variable {outBuf : TalkPacket} {stub client : K → NetPeer} {container : ElementMap Domain K}

theorem run_accounted (run : (machine K T).Run (new T outBuf stub client container) history s) :
    Accounted history s := by
  apply run.invariant (P := Accounted)
  · exact ⟨fun k => rfl, fun k => rfl⟩
  · intro history t a o u _ accounted step
    exact accounted.step step

end Runs

/-- The registry after a history: only `attach` and `detach` change it. -/
def registry (container : ElementMap Domain K) (history : List (ServerAction K T × ServerSeen K))
    [DecidableEq K] : ElementMap Domain K :=
  history.foldl (fun container event =>
    match event.1 with
    | .attach domain k => (registerDevice ⟨container, []⟩ domain (some k)).2.container
    | .detach domain k => (unregisterDevice ⟨container, []⟩ domain (some k)).2.1.container
    | _ => container) container

/-- The packets that `send_packet` of a client has accepted. -/
def accepted [DecidableEq K] (history : List (ServerAction K T × ServerSeen K)) (k : K) :
    List TalkPacket :=
  Connection.accepted (Gateway.client k (up history))

/-- Those that are for devices. -/
def toDevices (packets : List TalkPacket) : List TalkPacket :=
  packets.filter fun packet => !Gateway.isRequest packet

def registers : ServerAction K T → Bool
  | .attach _ _ | .detach _ _ => true
  | _ => false

/-- Nobody attaches or detaches a device. -/
def Static (history : List (ServerAction K T × ServerSeen K)) : Prop :=
  ∀ event ∈ history, registers event.1 = false

/-- Every delivery offers its packet to the devices that it is meant for at the time. -/
def Addressed [DecidableEq K] (container : ElementMap Domain K)
    (history : List (ServerAction K T × ServerSeen K)) : Prop :=
  ∀ earlier source packet (targets : List K),
    earlier ++ [(.deliver source packet, .delivering targets)] <+: history →
    ∃ hdr, packet.header = some hdr ∧
      (targets : Multiset K) = addressees ⟨registry container earlier, []⟩ hdr

/-- Everything that the client has sent is through to the deliveries. -/
structure HandedOn (s : Server K T) (k : K) : Prop where
  written : (s.gateway.uplink k).producer.slot.pending = []
  read : (s.gateway.uplink k).stream = []
  outside : StubReader.Outside (s.gateway.uplink k).consumer
  waiting : s.waiting k = none

/-- No delivery is running, and everything that the stub has taken is through to the client. -/
structure AtRest (s : Server K T) (k : K) : Prop where
  round : s.round = none
  drained : StubConnection.Drained (s.downlink k)

/-- A packet between devices, for one domain. -/
def direct : TalkPacket := ⟨10, [0, 0, 0, 0, 0, 0x84, 5, 0, 0, 0]⟩

/-- There are two clients, and the stub of the second one is registered for this domain. -/
def second : ElementMap Domain Bool := ElementMap.empty.add (5 : UInt16).toFin (some true)

/-- What the first client has accepted, what came from elsewhere, what the second client has
received, and whether the registry was left alone, in a run. -/
def accounts (memory : List UInt8) (labels : List (ServerAction Bool (Fin 1))) :
    Option (List TalkPacket × List TalkPacket × List TalkPacket × Bool) := do
  let peer ← NetPeer.new memory fun _ => 0
  let (history, s) ← (machine Bool (Fin 1)).exec
    (new (Fin 1) (Session.bare 0) (fun _ => peer) (fun _ => peer) second) labels
  return (accepted history false, accepted history true ++ deliveredFrom history none,
    received history true s, history.all fun event => !registers event.1)

/-- A packet goes from the first client to the second one. -/
theorem exists_exchange : ∃ peer history s, NetPeer.Created peer ∧
    (machine Bool (Fin 1)).Run
      (new (Fin 1) (Session.bare 0) (fun _ => peer) (fun _ => peer) second) history s ∧
    (∀ k, ∀ p ∈ accepted history k, Framed p) ∧ deliveredFrom history none = [] ∧
    Static history ∧ received history true s = [direct] := by
  have computed : accounts (List.replicate 32 7)
      [.up (.client false (.inl (.sendPacket 0 direct))),
        .up (.client false (.inl (.handleWrite [.sent 10] none))),
        .up (.client false (.inr .handleRead)),
        .up (.client false (.inr (.recv (.data direct.contents) fun _ => 0))),
        .up (.client false (.inr .recvPacket)), .deliver (some false) direct, .enter, .leave,
        .down true (.inl .lock), .down true (.inl (.handleWrite [.sent 10])),
        .down true (.inr .handleRead), .down true (.inr (.recv (.data direct.contents) fun _ => 0)),
        .up (.client false (.inr .recvPacket))] = some ([direct], [], [direct], true) := by
    decide +kernel
  simp only [accounts, Option.bind_eq_bind, Option.bind_eq_some_iff] at computed
  obtain ⟨peer, created, ⟨history, s⟩, executed, result⟩ := computed
  obtain ⟨first, ⟨other, elsewhere⟩, got, static⟩ := by simpa using result
  have sent : Sent direct := ⟨fun _ => 0, 0x8400, 0, 5, 0, by decide, by decide⟩
  refine ⟨peer, history, s, ⟨_, _, by decide, created⟩, Machine.run_of_exec executed, ?_,
    elsewhere, fun event member => static _ _ member, got⟩
  intro k p member
  cases k with
  | false =>
    rw [first] at member
    rw [List.mem_singleton.mp member]
    exact sent.framed
  | true => simp [other] at member

section Results

variable [DecidableEq K] [Fintype T] [DecidableEq T] {s : Server K T}
  {history : List (ServerAction K T × ServerSeen K)} {outBuf : TalkPacket}
  {stub client : K → NetPeer} {container : ElementMap Domain K}

theorem run_addressed (run : (machine K T).Run (new T outBuf stub client container) history s) :
    s.container = registry container history ∧ Addressed container history := by
  apply run.invariant (P := fun history (s : Server K T) =>
    s.container = registry container history ∧ Addressed container history)
  · refine ⟨rfl, fun earlier source packet targets front => ?_⟩
    simp at front
  · rintro history t a o u - ⟨kept, addressed⟩ step
    have registered : registry container (history ++ [(a, o)]) =
        registry (registry container history) [(a, o)] := by
      simp [registry]
    rw [registered, ← kept]
    constructor
    · cases a with
      | attach domain k | detach domain k =>
        simp only [machine] at step
        split at step
        · obtain ⟨-, rfl⟩ := Prod.mk.inj (Option.some.inj step)
          rfl
        · cases step
      | up | enter | queue | leave | down =>
        cases effect_of_step step with
        | _ => rfl
      | deliver source packet =>
        cases effect_of_step step with
        | deliver free waits delivered => exact (deliverResponse_take delivered).1
    · intro earlier source packet targets front
      obtain last | before := List.prefix_concat_iff.mp front
      · obtain ⟨rfl, same⟩ := List.append_inj' last rfl
        obtain ⟨rfl, rfl⟩ := Prod.mk.inj (List.singleton_inj.mp same)
        cases effect_of_step step with
        | deliver free waits delivered =>
          rw [← kept]
          exact (deliverResponse_take delivered).2
      · exact addressed earlier source packet targets before

/-- The packets of a client that were delivered, with one that waits for the mutex, are the first
ones between devices that it has sent; all of them when everything is handed on. -/
theorem run_handed_on (stubs : ∀ k, (stub k).Created)
    (run : (machine K T).Run (new T outBuf stub client container) history s)
    (framed : ∀ k, ∀ p ∈ accepted history k, Framed p) (k : K) :
    deliveredFrom history (some k) <+: toDevices (accepted history k) ∧
      (HandedOn s k → deliveredFrom history (some k) = toDevices (accepted history k)) := by
  obtain ⟨memory, fresh, large, created⟩ := stubs k
  obtain ⟨linked, empty⟩ :=
    StubReader.run_uplink large created (Gateway.run_client (run_up run) k) (framed k)
  have placed : deliveredFrom history (some k) ++ (s.waiting k).toList =
      toDevices (Connection.delivered (Gateway.client k (up history))) :=
    ((run_accounted run).placed k).trans (of_directed k (up history))
  have front : toDevices (Connection.delivered (Gateway.client k (up history))) <+:
      toDevices (accepted history k) :=
    ((List.prefix_append _ _).trans linked.front).filter _
  rw [← placed] at front
  refine ⟨(List.prefix_append _ _).trans front, fun handed => ?_⟩
  have complete := StubReader.delivered_of_drained (framed k) linked (empty handed.outside)
    handed.written handed.read
  rw [handed.waiting, Option.toList_none, List.append_nil, complete] at placed
  exact placed

theorem run_taken_framed (stubs : ∀ k, (stub k).Created)
    (run : (machine K T).Run (new T outBuf stub client container) history s)
    (framed : ∀ k, ∀ p ∈ accepted history k, Framed p)
    (responses : ∀ p ∈ deliveredFrom history none, Framed p) (k : K) :
    ∀ p ∈ takenBy history k, Framed p := by
  intro p member
  have offered : p ∈ sent history k := by
    rw [← (run_accounted run).offered k]
    exact List.mem_append_left _ member
  obtain ⟨⟨source, packet, targets⟩, round, copy⟩ := List.mem_flatMap.mp offered
  obtain rfl := List.eq_of_mem_replicate copy
  have delivered : p ∈ deliveredFrom history source :=
    List.mem_filterMap.mpr ⟨_, round, if_pos rfl⟩
  cases source with
  | none => exact responses p delivered
  | some j =>
    have sent := (run_handed_on stubs run framed j).1.subset delivered
    exact framed j p (List.mem_of_mem_filter sent)

/-- What a client has received are packets that deliveries have offered to its stub, and none
more often than that; at rest all of them. -/
theorem run_offered (stubs : ∀ k, (stub k).Created) (clients : ∀ k, (client k).Created)
    (run : (machine K T).Run (new T outBuf stub client container) history s)
    (framed : ∀ k, ∀ p ∈ accepted history k, Framed p)
    (responses : ∀ p ∈ deliveredFrom history none, Framed p) (k : K) :
    (received history k s).Subperm (sent history k) ∧
      (AtRest s k → (received history k s).Perm (sent history k)) := by
  obtain ⟨memory, fresh, large, created⟩ := clients k
  obtain ⟨got, all⟩ := StubConnection.run_received large created (run_down run k)
    (run_taken_framed stubs run framed responses k)
  have offered := (run_accounted run).offered k
  constructor
  · rw [← offered]
    exact got.trans (List.sublist_append_left _ _).subperm
  · rintro ⟨round, drained⟩
    rw [owed, round, List.append_nil] at offered
    rw [← offered]
    exact all drained

end Results

section Static

/-- A packet, as often as it is meant for a device. -/
def copies [DecidableEq K] (container : ElementMap Domain K) (k : K) (packet : TalkPacket) :
    Multiset TalkPacket :=
  match packet.header with
  | some hdr => Multiset.replicate ((addressees ⟨container, []⟩ hdr).count k) packet
  | none => 0

/-- What all clients have sent to devices, and what came from elsewhere. -/
def everything [DecidableEq K] [Fintype K] (history : List (ServerAction K T × ServerSeen K)) :
    Multiset TalkPacket :=
  (deliveredFrom history none : Multiset TalkPacket) +
    ∑ j, (toDevices (accepted history j) : Multiset TalkPacket)

variable [DecidableEq K] {history earlier : List (ServerAction K T × ServerSeen K)}
  {container : ElementMap Domain K}

theorem registry_of_static (static : Static history) : registry container history = container := by
  induction history with
  | nil => rfl
  | cons event history ih =>
    obtain ⟨a, o⟩ := event
    have rest := ih fun event member => static event (List.mem_cons_of_mem _ member)
    cases a with
    | attach | detach => cases static _ List.mem_cons_self
    | up | deliver | enter | queue | leave | down => exact rest

/-- The deliveries, sorted by their sources. -/
theorem coe_map_eq_sum [Fintype K] (rounds : List (Option K × TalkPacket × List K)) :
    ((rounds.map fun round => round.2.1 : List TalkPacket) : Multiset TalkPacket) =
      ∑ source, ((rounds.filterMap fun round =>
        if round.1 = source then some round.2.1 else none : List TalkPacket) :
          Multiset TalkPacket) := by
  induction rounds with
  | nil => simp
  | cons round rounds ih =>
    have one (source : Option K) : (((round :: rounds).filterMap fun round =>
        if round.1 = source then some round.2.1 else none : List TalkPacket) :
          Multiset TalkPacket) =
        (if round.1 = source then {round.2.1} else 0) +
          ((rounds.filterMap fun round =>
            if round.1 = source then some round.2.1 else none : List TalkPacket) :
              Multiset TalkPacket) := by
      by_cases here : round.1 = source <;> simp [here]
    simp only [one, Finset.sum_add_distrib, ← ih, Finset.sum_ite_eq, Finset.mem_univ, if_true]
    rfl

theorem replicate_of_round (addressed : Addressed container history) (static : Static history)
    (k : K) {round : Option K × TalkPacket × List K} (member : round ∈ rounds history) :
    (List.replicate (round.2.2.count k) round.2.1 : Multiset TalkPacket) =
      copies container k round.2.1 := by
  obtain ⟨⟨a, o⟩, inside, here⟩ := List.mem_filterMap.mp member
  obtain ⟨earlier, later, rfl⟩ := List.append_of_mem inside
  cases a with
  | deliver source packet =>
    cases o with
    | delivering targets =>
      obtain rfl := Option.some.inj here
      obtain ⟨hdr, readable, meant⟩ := addressed earlier source packet targets ⟨later, by simp⟩
      have before : Static earlier := fun event front =>
        static event (List.mem_append_left _ front)
      rw [registry_of_static before] at meant
      simp only [copies, readable, ← meant, Multiset.coe_count, Multiset.coe_replicate]
    | up | down | quiet => cases here
  | up | enter | queue | leave | down | attach | detach => cases here

theorem coe_sent (addressed : Addressed container history) (static : Static history) (k : K) :
    (sent history k : Multiset TalkPacket) =
      Multiset.bind ((rounds history).map fun round => round.2.1 : List TalkPacket)
        (copies container k) := by
  rw [sent, ← Multiset.coe_bind, ← Multiset.map_coe, Multiset.bind_map]
  refine Multiset.bind_congr fun round member => ?_
  exact replicate_of_round addressed static k (Multiset.mem_coe.mp member)

variable [Fintype K] [Fintype T] [DecidableEq T] {s : Server K T} {outBuf : TalkPacket}
  {stub client : K → NetPeer}

theorem delivered_le_everything (stubs : ∀ k, (stub k).Created)
    (run : (machine K T).Run (new T outBuf stub client container) history s)
    (framed : ∀ k, ∀ p ∈ accepted history k, Framed p) :
    (((rounds history).map fun round => round.2.1 : List TalkPacket) : Multiset TalkPacket) ≤
        everything history ∧
      ((∀ k, HandedOn s k) →
        (((rounds history).map fun round => round.2.1 : List TalkPacket) : Multiset TalkPacket) =
          everything history) := by
  rw [coe_map_eq_sum, Fintype.sum_option]
  constructor
  · refine add_le_add_right (Finset.sum_le_sum fun j _ => ?_) _
    exact Multiset.coe_le.mpr (run_handed_on stubs run framed j).1.sublist.subperm
  · intro handed
    refine congrArg _ (Finset.sum_congr rfl fun j _ => ?_)
    exact congrArg _ ((run_handed_on stubs run framed j).2 (handed j))

end Static

end Server

end Crs.Ude
