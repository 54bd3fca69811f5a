import Crs.Ude.SendOrder
import Crs.Ude.StubReader

/-!
# From many clients to the hardware

Each client sends to its own stub. A stub registers what it takes from its peer with the
manager, in the same call: `register_request` delivers a packet between devices at once and
posts any other one into the outbox that all stubs share, and `proceed_request` takes packets
out and hands them to `_send`. All senders, the event loops and the threads that proceed run
concurrently.

In the outbox each packet stands with the client that it came from; nothing that is modelled
looks at this mark.
-/

namespace Crs.Ude

open Foundation DeviceManager

variable {K T : Type}

/-- The clients with their connections and stubs, and the outbox. -/
structure Gateway (K T : Type) where
  uplink : K → Piped (Transmitter T) StubReader UInt8
  outbox : List (K × TalkPacket) := []

/-- A step between a client and its stub, or the first section of `proceed_request`. -/
inductive GatewayAction (K T : Type) where
  | client (k : K) (a : OutAction T ⊕ Action)
  | proceed

inductive GatewaySeen (K : Type) where
  | client (o : OutSeen ⊕ Seen)
  | handed (k : K) (packet : TalkPacket)
  | empty

namespace Gateway

/-- `register_request`, as far as the outbox is concerned. -/
def register (outbox : List (K × TalkPacket)) (k : K) (packet : TalkPacket) :
    Option (List (K × TalkPacket)) := do
  let hdr ← packet.header
  if isDeviceToDevice hdr then return outbox
  else if hdr.idCheckBits PacketHeader.idFast then return (k, packet) :: outbox
  else return outbox ++ [(k, packet)]

/-- A packet that a stub has taken from its peer is registered. -/
def afterStep (outbox : List (K × TalkPacket)) (k : K) :
    OutSeen ⊕ Seen → Option (List (K × TalkPacket))
  | .inr (.taken (some packet)) => register outbox k packet
  | _ => some outbox

def machine (K T : Type) [DecidableEq K] [Fintype T] [DecidableEq T] :
    Machine (Gateway K T) (GatewayAction K T) (GatewaySeen K) where
  step s
    | .client k a => do
        let (o, uplink) ← (StubReader.uplink T).step (s.uplink k) a
        let outbox ← afterStep s.outbox k o
        return (.client o, { uplink := Function.update s.uplink k uplink, outbox })
    | .proceed =>
        match s.outbox with
        | [] => some (.empty, s)
        | (k, packet) :: outbox => some (.handed k packet, { s with outbox })

/-- All clients are connected and nothing was sent. -/
def new (T : Type) (outBuf : TalkPacket) (peer : K → NetPeer) : Gateway K T :=
  { uplink := fun k => StubReader.newUplink T outBuf (peer k) }

/-- The manager without the marks. -/
theorem register_eq (outbox : List (K × TalkPacket)) (k : K) (packet : TalkPacket) :
    (register outbox k packet).map (List.map Prod.snd) =
      (registerRequest { outbox := outbox.map Prod.snd } packet).map fun next => next.2.outbox := by
  cases here : packet.header with
  | none => simp [register, registerRequest, here]
  | some hdr =>
    by_cases device : isDeviceToDevice hdr = true
    · simp [register, registerRequest, here, device]
    · by_cases fast : hdr.idCheckBits PacketHeader.idFast = true
      · simp [register, registerRequest, post, here, device, fast]
      · simp [register, registerRequest, post, here, device, fast]

section Histories

variable [DecidableEq K]

/-- What has happened between a client and its stub. -/
def client (k : K) (history : List (GatewayAction K T × GatewaySeen K)) :
    List ((OutAction T ⊕ Action) × (OutSeen ⊕ Seen)) :=
  history.filterMap fun event =>
    match event with
    | (.client j a, .client o) => if j = k then some (a, o) else none
    | _ => none

/-- The packets that reached `_send`, in this order, with their clients. -/
def handed (history : List (GatewayAction K T × GatewaySeen K)) : List (K × TalkPacket) :=
  history.filterMap fun event =>
    match event.2 with
    | .handed k packet => some (k, packet)
    | .client _ | .empty => none

/-- The packets of one client. -/
def of (k : K) (packets : List (K × TalkPacket)) : List TalkPacket :=
  (packets.filter fun request => request.1 = k).map Prod.snd

end Histories

/-- The packet is for the hardware. -/
def isRequest (packet : TalkPacket) : Bool := packet.header.any fun hdr => !isDeviceToDevice hdr

/-- A fast packet goes to the front, whoever sent it. -/
def urgent (request : K × TalkPacket) : Bool := isFast request.2

/-- What a step between a client and its stub adds to the requests. -/
def request (event : GatewayAction K T × GatewaySeen K) : Option (K × TalkPacket) :=
  match event with
  | (.client k _, .client (.inr (.taken (some packet)))) =>
      if isRequest packet then some (k, packet) else none
  | _ => none

/-- The requests for the hardware, in the order in which they were registered. -/
def requested (history : List (GatewayAction K T × GatewaySeen K)) : List (K × TalkPacket) :=
  history.filterMap request

/-- What has reached `_send` and what is in the outbox are the requests, each once; the ordinary
ones among them are in the order in which they were registered. -/
structure Forwarded (history : List (GatewayAction K T × GatewaySeen K)) (s : Gateway K T) :
    Prop where
  all : (handed history ++ s.outbox).Perm (requested history)
  order : UrgentQueue.ofClass urgent false (handed history ++ s.outbox) =
    UrgentQueue.ofClass urgent false (requested history)

section Steps

variable {outbox outbox' : List (K × TalkPacket)} {k : K} {packet : TalkPacket}
  {history : List (GatewayAction K T × GatewaySeen K)} {s s' : Gateway K T}

theorem register_cases (registered : register outbox k packet = some outbox') :
    (isRequest packet = false ∧ outbox' = outbox) ∨
      (isRequest packet = true ∧ outbox' = UrgentQueue.insert urgent outbox (k, packet)) := by
  simp only [register, Option.bind_eq_bind, Option.bind_eq_some_iff] at registered
  obtain ⟨hdr, header, placed⟩ := registered
  simp only [isRequest, header, Option.any_some, UrgentQueue.insert, urgent, isFast]
  split at placed
  · rename_i device
    exact .inl ⟨by simp [device], (Option.some.inj placed).symm⟩
  · rename_i device
    refine .inr ⟨by simp [device], ?_⟩
    split at placed
    · rename_i fast
      rw [if_pos fast]
      exact (Option.some.inj placed).symm
    · rename_i slow
      rw [if_neg slow]
      exact (Option.some.inj placed).symm

/-- A step of a client adds its request to the outbox, if it makes one. -/
theorem afterStep_spec {a : OutAction T ⊕ Action} {o : OutSeen ⊕ Seen}
    (registered : afterStep outbox k o = some outbox') :
    outbox' = outbox ∧ request (.client (T := T) k a, .client o) = none ∨
      ∃ packet, outbox' = UrgentQueue.insert urgent outbox (k, packet) ∧
        request (.client (T := T) k a, .client o) = some (k, packet) := by
  obtain o | o := o
  · exact .inl ⟨(Option.some.inj registered).symm, rfl⟩
  · cases o with
    | called | received => exact .inl ⟨(Option.some.inj registered).symm, rfl⟩
    | taken packet =>
      cases packet with
      | none => exact .inl ⟨(Option.some.inj registered).symm, rfl⟩
      | some packet =>
        obtain ⟨no, rfl⟩ | ⟨yes, rfl⟩ := register_cases registered
        · exact .inl ⟨rfl, by simp [request, no]⟩
        · exact .inr ⟨packet, rfl, by simp [request, yes]⟩

/-- A request that is put into the outbox. -/
theorem forwarded_insert {gone outbox requests : List (K × TalkPacket)} (x : K × TalkPacket)
    (all : (gone ++ outbox).Perm requests)
    (order : UrgentQueue.ofClass urgent false (gone ++ outbox) =
      UrgentQueue.ofClass urgent false requests) :
    (gone ++ UrgentQueue.insert urgent outbox x).Perm (requests ++ [x]) ∧
      UrgentQueue.ofClass urgent false (gone ++ UrgentQueue.insert urgent outbox x) =
        UrgentQueue.ofClass urgent false (requests ++ [x]) := by
  constructor
  · have placed : (UrgentQueue.insert urgent outbox x).Perm (outbox ++ [x]) := by
      rw [UrgentQueue.insert]
      split
      · exact (List.perm_append_singleton x outbox).symm
      · exact .refl _
    refine (placed.append_left gone).trans ?_
    rw [← List.append_assoc]
    exact all.append_right [x]
  · rw [UrgentQueue.ofClass_append, UrgentQueue.ofClass_false_insert,
      ← UrgentQueue.ofClass_append, ← List.append_assoc, UrgentQueue.ofClass_append, order,
      ← UrgentQueue.ofClass_append]

variable [DecidableEq K] [Fintype T] [DecidableEq T] {a : GatewayAction K T} {o : GatewaySeen K}

/-- A step is one of a client, whose request is put into the outbox, or takes the first request
out. -/
theorem step_cases (step : (machine K T).step s a = some (o, s')) :
    (∃ k b p, a = .client k b ∧ o = .client p ∧
      (StubReader.uplink T).step (s.uplink k) b = some (p, s'.uplink k) ∧
      (∀ j, j ≠ k → s'.uplink j = s.uplink j) ∧ afterStep s.outbox k p = some s'.outbox) ∨
    (a = .proceed ∧ s'.uplink = s.uplink ∧ handed [(a, o)] ++ s'.outbox = s.outbox) := by
  cases a with
  | client k b =>
    simp only [machine, Option.bind_eq_bind, Option.bind_eq_some_iff] at step
    obtain ⟨⟨p, uplink⟩, here, outbox, registered, result⟩ := step
    obtain ⟨rfl, rfl⟩ := Prod.mk.inj (Option.some.inj result)
    refine .inl ⟨k, b, p, rfl, rfl, ?_, fun j other => ?_, registered⟩
    · simpa using here
    · exact Function.update_of_ne other uplink s.uplink
  | proceed =>
    refine .inr ⟨rfl, ?_⟩
    cases first : s.outbox with
    | nil =>
      obtain ⟨rfl, rfl⟩ := by simpa [machine, first] using step
      exact ⟨rfl, first⟩
    | cons next rest =>
      obtain ⟨k, packet⟩ := next
      obtain ⟨rfl, rfl⟩ := by simpa [machine, first] using step
      exact ⟨rfl, rfl⟩

theorem Forwarded.step (forwarded : Forwarded history s)
    (step : (machine K T).step s a = some (o, s')) : Forwarded (history ++ [(a, o)]) s' := by
  have split : handed (history ++ [(a, o)]) = handed history ++ handed [(a, o)] :=
    List.filterMap_append
  have grown : requested (history ++ [(a, o)]) =
      requested history ++ (request (a, o)).toList := Machine.filterMap_snoc _ _ _
  obtain ⟨k, b, p, rfl, rfl, -, -, registered⟩ | ⟨rfl, -, same⟩ := step_cases step
  · have nothing : handed [((.client k b : GatewayAction K T), (.client p : GatewaySeen K))] = [] :=
      rfl
    obtain ⟨kept, none⟩ | ⟨packet, inserted, some⟩ := afterStep_spec (a := b) registered
    · constructor
      · rw [split, nothing, List.append_nil, grown, none, kept, Option.toList_none, List.append_nil]
        exact forwarded.all
      · rw [split, nothing, List.append_nil, grown, none, kept, Option.toList_none, List.append_nil]
        exact forwarded.order
    · obtain ⟨all, order⟩ := forwarded_insert (k, packet) forwarded.all forwarded.order
      constructor
      · rw [split, nothing, List.append_nil, grown, some, inserted]
        exact all
      · rw [split, nothing, List.append_nil, grown, some, inserted]
        exact order
  · have none : request (.proceed (K := K) (T := T), o) = none := rfl
    constructor
    · rw [split, List.append_assoc, same, grown, none, Option.toList_none, List.append_nil]
      exact forwarded.all
    · rw [split, List.append_assoc, same, grown, none, Option.toList_none, List.append_nil]
      exact forwarded.order

end Steps

section Runs

variable [DecidableEq K] [Fintype T] [DecidableEq T] {s : Gateway K T} {outBuf : TalkPacket}
  {peer : K → NetPeer} {history : List (GatewayAction K T × GatewaySeen K)}
  {memory : K → List UInt8} {fresh : K → Nat → UInt8}

theorem run_forwarded (run : (machine K T).Run (new T outBuf peer) history s) :
    Forwarded history s := by
  apply run.invariant (P := fun history (s : Gateway K T) => Forwarded history s)
  · exact ⟨.refl _, rfl⟩
  · rintro history t a o u - forwarded step
    exact forwarded.step step

/-- Between a client and its stub everything is as if there were no other one. -/
theorem run_client (run : (machine K T).Run (new T outBuf peer) history s) (k : K) :
    (StubReader.uplink T).Run (StubReader.newUplink T outBuf (peer k)) (client k history)
      (s.uplink k) := by
  refine run.project (fun t : Gateway K T => t.uplink k) _ (fun t a o u b p step here => ?_)
    (fun t a o u step here => ?_)
  · obtain ⟨j, b', p', rfl, rfl, inner, -, -⟩ | ⟨rfl, -, -⟩ := step_cases step
    · simp only at here
      split at here
      · rename_i same
        subst same
        obtain ⟨rfl, rfl⟩ := Prod.mk.inj (Option.some.inj here)
        exact inner
      · cases here
    · cases here
  · obtain ⟨j, b', p', rfl, rfl, -, others, -⟩ | ⟨rfl, same, -⟩ := step_cases step
    · simp only at here
      split at here
      · cases here
      · rename_i other
        exact others k (Ne.symm other)
    · rw [same]

omit [Fintype T] [DecidableEq T] in
theorem of_append (k : K) (packets later : List (K × TalkPacket)) :
    of k (packets ++ later) = of k packets ++ of k later := by
  simp [of]

omit [Fintype T] [DecidableEq T] in
theorem of_requested_append (k : K) (history later : List (GatewayAction K T × GatewaySeen K)) :
    of k (requested (history ++ later)) = of k (requested history) ++ of k (requested later) := by
  simp [of, requested]

omit [Fintype T] [DecidableEq T] in
theorem delivered_client_append (k : K)
    (history later : List (GatewayAction K T × GatewaySeen K)) :
    Connection.delivered (client k (history ++ later)) =
      Connection.delivered (client k history) ++ Connection.delivered (client k later) := by
  simp [Connection.delivered, Session.delivered, Machine.consuming, client]

/-- The requests of a client are what its stub has taken, apart from what is for devices. -/
theorem run_of_requested (run : (machine K T).Run (new T outBuf peer) history s) (k : K) :
    of k (requested history) = (Connection.delivered (client k history)).filter isRequest := by
  apply run.invariant (P := fun history (_ : Gateway K T) =>
    of k (requested history) = (Connection.delivered (client k history)).filter isRequest)
  · rfl
  · rintro history t a o u - before step
    rw [of_requested_append, delivered_client_append, List.filter_append, before]
    congr 1
    obtain ⟨j, b, p, rfl, rfl, inner, -, -⟩ | ⟨rfl, -, -⟩ := step_cases step
    · obtain ⟨b, p, -, rfl, rfl, -, -⟩ | ⟨b, p, -, rfl, rfl, -, -, -⟩ := Machine.pipe_cases inner
      · by_cases here : j = k <;>
          simp [of, requested, request, client, here, Connection.delivered, Session.delivered,
            Machine.consuming]
      · cases p with
        | called | received =>
          by_cases here : j = k <;>
            simp [of, requested, request, client, here, Connection.delivered, Session.delivered,
              Machine.consuming]
        | taken packet =>
          cases packet with
          | none =>
            by_cases here : j = k <;>
              simp [of, requested, request, client, here, Connection.delivered, Session.delivered,
                Machine.consuming]
          | some packet =>
            by_cases here : j = k <;> by_cases wanted : isRequest packet = true <;>
              simp [of, requested, request, client, here, wanted, Connection.delivered,
                Session.delivered, Machine.consuming]
    · rfl

omit [Fintype T] [DecidableEq T] in
/-- The ordinary packets of one client, of those in a list. -/
theorem filter_of (k : K) (packets : List (K × TalkPacket)) :
    (of k packets).filter (fun packet => !isFast packet) =
      of k (UrgentQueue.ofClass urgent false packets) := by
  have same : (fun request : K × TalkPacket => !isFast request.2) =
      fun request => urgent request == false := by
    funext request
    simp [urgent]
  simp only [of, UrgentQueue.ofClass, List.filter_map, List.filter_filter, Function.comp_def, same,
    Bool.and_comm]

/-- Everything of a client has gone through. -/
structure Passed (s : Gateway K T) (k : K) : Prop where
  written : (s.uplink k).producer.slot.pending = []
  read : (s.uplink k).stream = []
  outside : StubReader.Outside (s.uplink k).consumer
  forwarded : of k s.outbox = []

/-- What two clients have accepted and what has reached `_send`, in a run. -/
def accounts (memory : List UInt8) (labels : List (GatewayAction (Fin 2) (Fin 1))) :
    Option (List TalkPacket × List TalkPacket × List (Fin 2 × TalkPacket)) := do
  let peer ← NetPeer.new memory fun _ => 0
  let (history, _) ← (machine (Fin 2) (Fin 1)).exec (new (Fin 1) (Session.bare 0) fun _ => peer)
    labels
  return (Connection.accepted (client 0 history), Connection.accepted (client 1 history),
    handed history)

end Runs

end Gateway

end Crs.Ude
