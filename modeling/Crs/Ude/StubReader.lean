import Crs.Ude.Connection

/-!
# From a client to the requests of the server

`client_stub::handle_read` calls that of the peer and, if this has got new packets, registers
every packet in the queue as a request. The stub is the only one that takes packets from the
queue. An exception leaves the packets of the call in the queue; the event loop drops the stub
then.
-/

namespace Crs.Ude

open Foundation

/-- `handle_read` of the stub is outside or in that of the peer, registers the packets, or has
thrown. -/
inductive StubMode where
  | reading
  | registering
  | thrown
  deriving DecidableEq

structure StubReader where
  session : Session
  mode : StubMode := .reading

namespace StubReader

/-- What the end of `net_peer::handle_read` means for the stub. -/
def after : Option ReadResult → StubMode
  | none | some (.returned false) => .reading
  | some (.returned true) => .registering
  | some .endOfFile | some .readError => .thrown

/-- The steps of the peer, each where the stub takes it. A packet is registered when it is
taken. -/
def machine : Machine StubReader Action Seen where
  step s a :=
    (Session.machine.step s.session a).bind fun next =>
      match s.mode, next.1 with
      | .reading, .called => some (next.1, { session := next.2 })
      | .reading, .received _ _ result =>
          some (next.1, { session := next.2, mode := after result })
      | .registering, .taken (some _) =>
          some (next.1, { session := next.2, mode := .registering })
      | .registering, .taken none => some (next.1, { session := next.2 })
      | _, _ => none

/-- A stub whose `recv` returns bytes only before its call has consumed some. -/
def orderly : Machine StubReader Action Seen :=
  machine.guard fun s a => Session.unconsumed s.session a = true

section Count

variable {p p' : NetPeer} {c c' : ReadCall} {fresh : Nat → UInt8}

/-- The packets that a call has put into the queue are counted. -/
def Counts (p : NetPeer) (c : ReadCall) (p' : NetPeer) (c' : ReadCall) : Prop :=
  p'.inPacketQueue.length + c.nNewPackets = p.inPacketQueue.length + c'.nNewPackets

theorem counts_fillIncomplete (filled : p.fillIncomplete c = some (p', c')) : Counts p c p' c' := by
  simp only [NetPeer.fillIncomplete] at filled
  split at filled
  · obtain ⟨rfl, rfl⟩ := by simpa using filled
    rfl
  · simp only [Option.bind_eq_bind, Option.bind_eq_some_iff] at filled
    obtain ⟨bytes, -, contents, -, result⟩ := filled
    split at result
    · obtain ⟨rfl, rfl⟩ := by simpa using result
      simp only [Counts, List.length_append, List.length_singleton]
      omega
    · obtain ⟨rfl, rfl⟩ := by simpa using result
      rfl

theorem counts_takePackets {fuel : Nat}
    (taken : NetPeer.takePackets fresh fuel p c = some (p', c')) : Counts p c p' c' := by
  induction fuel generalizing p c with
  | zero =>
    simp only [NetPeer.takePackets] at taken
    split at taken
    · obtain ⟨rfl, rfl⟩ := by simpa using taken
      rfl
    · cases taken
  | succ fuel ih =>
    simp only [NetPeer.takePackets] at taken
    split at taken
    · obtain ⟨rfl, rfl⟩ := by simpa using taken
      rfl
    · simp only [Option.bind_eq_bind, Option.bind_eq_some_iff] at taken
      obtain ⟨hdr, -, inPacket, -, bytes, -, contents, -, result⟩ := taken
      split at result
      · have more := ih result
        simp only [Counts, List.length_append, List.length_singleton] at more ⊢
        omega
      · obtain ⟨rfl, rfl⟩ := by simpa using result
        rfl

theorem counts_process (processed : p.process fresh c = some (p', c')) : Counts p c p' c' := by
  simp only [NetPeer.process, Option.bind_eq_bind, Option.bind_eq_some_iff] at processed
  obtain ⟨⟨p₁, c₁⟩, filled, ⟨p₂, c₂⟩, taken, p₃, moved, result⟩ := processed
  obtain ⟨rfl, rfl⟩ := by simpa using result
  simp only [NetPeer.moveUnprocessed, Option.bind_eq_bind, Option.bind_eq_some_iff] at moved
  obtain ⟨bytes, -, inBuf, -, moved⟩ := moved
  obtain rfl := Option.some.inj moved
  have first := counts_fillIncomplete filled
  have second := counts_takePackets taken
  simp only [Counts] at first second ⊢
  omega

end Count

/-- What a call leaves in the queue; nothing outside. -/
def expected : Option ReadCall → Nat
  | some c => c.nNewPackets
  | none => 0

/-- In a call of the peer the queue holds what the call has put there; outside it is empty. -/
structure Emptied (s : StubReader) : Prop where
  reading : s.mode = .reading → s.session.peer.inPacketQueue.length = expected s.session.call
  registering : s.mode = .registering → s.session.call = none

section Steps

variable {s s' : StubReader} {a : Action} {o : Seen} {history : List (Action × Seen)}

/-- A step of the stub is a step of its peer, in the mode that it belongs to. -/
theorem step_cases (step : machine.step s a = some (o, s')) :
    Session.machine.step s.session a = some (o, s'.session) ∧
      ((s.mode = .reading ∧ o = .called ∧ s'.mode = .reading) ∨
        (∃ requested notified result, s.mode = .reading ∧
          o = .received requested notified result ∧ s'.mode = after result) ∨
        (∃ packet, s.mode = .registering ∧ o = .taken (some packet) ∧ s'.mode = .registering) ∨
        (s.mode = .registering ∧ o = .taken none ∧ s'.mode = .reading)) := by
  obtain ⟨⟨seen, session⟩, here, result⟩ := Option.bind_eq_some_iff.mp step
  cases mode : s.mode with
  | thrown => simp [mode] at result
  | reading =>
    cases seen with
    | taken packet => simp [mode] at result
    | called =>
      obtain ⟨rfl, rfl⟩ := by simpa [mode] using result
      exact ⟨here, .inl ⟨rfl, rfl, rfl⟩⟩
    | received requested notified ended =>
      obtain ⟨rfl, rfl⟩ := by simpa [mode] using result
      exact ⟨here, .inr (.inl ⟨_, _, _, rfl, rfl, rfl⟩)⟩
  | registering =>
    cases seen with
    | called | received => simp [mode] at result
    | taken packet =>
      cases packet with
      | none =>
        obtain ⟨rfl, rfl⟩ := by simpa [mode] using result
        exact ⟨here, .inr (.inr (.inr ⟨rfl, rfl, rfl⟩))⟩
      | some packet =>
        obtain ⟨rfl, rfl⟩ := by simpa [mode] using result
        exact ⟨here, .inr (.inr (.inl ⟨packet, rfl, rfl, rfl⟩))⟩

theorem run_session {session : Session}
    (run : orderly.Run { session } history s) :
    (Session.machine.guard fun s a => Session.unconsumed s a = true).Run session history
      s.session := by
  apply run.invariant (P := fun history s =>
    (Session.machine.guard fun s a => Session.unconsumed s a = true).Run session history s.session)
  · exact .nil
  · intro history t a o u _ earlier step
    obtain ⟨allowed, step⟩ := Machine.guard_step_iff.mp step
    exact earlier.snoc (Machine.guard_step_iff.mpr ⟨allowed, (step_cases step).1⟩)

/-- What an iteration of the peer leaves in the queue if it is the last one. -/
theorem iterate_spec {fresh : Nat → UInt8} {outcome : Recv} {p : NetPeer} {c : ReadCall}
    {next : Session} (held : p.inPacketQueue.length = c.nNewPackets)
    (iterated : Session.iterate p c fresh outcome = some (o, next)) :
    ∃ requested notified result, o = .received requested notified result ∧
      (after result = .reading → next.peer.inPacketQueue.length = expected next.call) ∧
      (after result = .registering → next.call = none) := by
  have ended : ∀ n : Nat, after (some (.returned (n != 0))) = .reading → n = 0 := by
    intro n
    by_cases zero : n = 0
    · exact fun _ => zero
    · simp [after, bne_iff_ne.mpr zero]
  cases outcome with
  | again =>
    obtain ⟨rfl, rfl⟩ := by simpa [Session.iterate] using iterated
    exact ⟨_, _, _, rfl, fun reading => held.trans (ended _ reading), fun _ => rfl⟩
  | interrupted =>
    obtain ⟨rfl, rfl⟩ := by simpa [Session.iterate] using iterated
    exact ⟨_, _, _, rfl, fun _ => held, by simp [after]⟩
  | closed | failed =>
    obtain ⟨rfl, rfl⟩ := by simpa [Session.iterate] using iterated
    refine ⟨_, _, _, rfl, ?_, ?_⟩ <;> simp [after]
  | data bytes =>
    simp only [Session.iterate, Option.bind_eq_bind, Option.bind_eq_some_iff] at iterated
    obtain ⟨-, -, inBuf, -, ⟨p', c'⟩, processed, result⟩ := iterated
    have counts := counts_process processed
    simp only [Counts] at counts
    have whole : p'.inPacketQueue.length = c'.nNewPackets := by omega
    split at result
    · obtain ⟨rfl, rfl⟩ := by simpa using result
      exact ⟨_, _, _, rfl, fun _ => whole, by simp [after]⟩
    · obtain ⟨rfl, rfl⟩ := by simpa using result
      exact ⟨_, _, _, rfl, fun reading => whole.trans (ended _ reading), fun _ => rfl⟩

theorem Emptied.step (emptied : Emptied s) (step : machine.step s a = some (o, s')) :
    Emptied s' := by
  obtain ⟨here, cases⟩ := step_cases step
  cases a with
  | handleRead =>
    simp only [Session.machine] at here
    split at here
    · rename_i outside
      obtain ⟨rfl, session⟩ := by simpa using here
      obtain ⟨before, -, now⟩ : s.mode = .reading ∧ Seen.called = .called ∧ s'.mode = .reading := by
        simpa using cases
      have empty := emptied.reading before
      rw [outside] at empty
      refine ⟨fun _ => ?_, fun other => by simp [now] at other⟩
      rw [← session]
      exact empty
    · cases here
  | recv outcome fresh =>
    obtain ⟨c, running, iterated⟩ := Option.bind_eq_some_iff.mp here
    cases mode : s.mode with
    | reading =>
      have held := emptied.reading mode
      rw [running] at held
      obtain ⟨requested, notified, result, rfl, reading, registering⟩ := iterate_spec held iterated
      have now : s'.mode = after result := by simpa [mode] using cases
      exact ⟨fun still => reading (now ▸ still), fun next => registering (now ▸ next)⟩
    | registering => simp [emptied.registering mode] at running
    | thrown => simp [mode] at cases
  | recvPacket =>
    simp only [Session.machine] at here
    split at here
    · rename_i empty
      obtain ⟨rfl, session⟩ := by simpa using here
      obtain ⟨before, now⟩ : s.mode = .registering ∧ s'.mode = .reading := by simpa using cases
      refine ⟨fun _ => ?_, fun other => by simp [now] at other⟩
      rw [← session, empty, emptied.registering before]
      rfl
    · rename_i packet rest front
      obtain ⟨rfl, session⟩ := by simpa using here
      obtain ⟨before, now⟩ : s.mode = .registering ∧ s'.mode = .registering := by simpa using cases
      refine ⟨fun other => by simp [now] at other, fun _ => ?_⟩
      rw [← session]
      exact emptied.registering before

theorem run_emptied {peer : NetPeer} (fresh : peer.inPacketQueue = [])
    (run : orderly.Run { session := { peer } } history s) : Emptied s := by
  apply run.state_invariant
  · exact ⟨fun _ => by simp [fresh, expected], fun registering => by cases registering⟩
  · intro t a o u emptied step
    exact emptied.step (Machine.guard_step_iff.mp step).2

end Steps

section Uplink

open Connection (accepted delivered Linked)

variable {T : Type*}

/-- A client sends, and its stub on the server registers. -/
def uplink (T : Type*) [Fintype T] [DecidableEq T] :
    Machine (Piped (Transmitter T) StubReader UInt8) (OutAction T ⊕ Action) (OutSeen ⊕ Seen) :=
  ((Transmitter.machine T).guard fun s a => Transmitter.careful s a = true).pipe orderly
    (fun event => Transmitter.written [event]) fun event => Session.received [event]

def newUplink (T : Type*) (outBuf : TalkPacket) (peer : NetPeer) :
    Piped (Transmitter T) StubReader UInt8 :=
  { producer := Transmitter.new T outBuf, consumer := { session := { peer } } }

/-- Neither in `handle_read` nor between two packets. -/
structure Outside (s : StubReader) : Prop where
  mode : s.mode = .reading
  call : s.session.call = none

variable {s : Piped (Transmitter T) StubReader UInt8} {outBuf : TalkPacket} {peer : NetPeer}
  {history : List ((OutAction T ⊕ Action) × (OutSeen ⊕ Seen))} {memory : List UInt8}
  {fresh : Nat → UInt8}

/-- The stub is linked to the client, and whenever its `handle_read` is not running it has left
nothing in the queue of its peer. -/
theorem run_uplink [Fintype T] [DecidableEq T] (large : headerSize ≤ memory.length)
    (created : NetPeer.new memory fresh = some peer)
    (run : (uplink T).Run (newUplink T outBuf peer) history s)
    (framed : ∀ p ∈ accepted history, Framed p) :
    Linked (accepted history) s.producer.slot.pending history
        ⟨s.producer, s.stream, s.consumer.session⟩ ∧
      (Outside s.consumer → s.consumer.session.peer.inPacketQueue = []) := by
  obtain ⟨sending, reading, balance⟩ := Machine.Run.of_pipe run
  have order := Transmitter.run_inOrder sending
  have sent : Transmitter.written (Machine.producing history) ++ s.producer.slot.pending =
      (accepted history).flatMap (·.contents) := by
    simpa [Transmitter.accepted, accepted, List.flatMap_assoc] using order.balance
  have through : Session.received (Machine.consuming history) ++ s.stream ++
      s.producer.slot.pending = (accepted history).flatMap (·.contents) := by
    have between : Transmitter.written (Machine.producing history) =
        Session.received (Machine.consuming history) ++ s.stream := by
      simpa [Transmitter.written, Session.received] using balance
    rw [← between]
    exact sent
  have front : Session.received (Machine.consuming history) <+:
      (accepted history).flatMap (·.contents) := by
    rw [← through, List.append_assoc]
    exact List.prefix_append _ _
  have receiver := Session.run_reassembled large created framed (run_session reading) front
  have fresh : peer.inPacketQueue = [] := by
    obtain ⟨packet, -, rfl⟩ := by simpa [NetPeer.new, Option.bind_eq_some_iff] using created
    rfl
  have emptied := run_emptied fresh reading
  refine ⟨⟨receiver, through⟩, fun outside => ?_⟩
  have count := emptied.reading outside.mode
  rw [outside.call] at count
  exact List.length_eq_zero_iff.mp count

/-- When everything was written and read, everything is registered. -/
theorem delivered_of_drained (framed : ∀ p ∈ accepted history, Framed p)
    (linked : Linked (accepted history) s.producer.slot.pending history
      ⟨s.producer, s.stream, s.consumer.session⟩)
    (empty : s.consumer.session.peer.inPacketQueue = []) (written : s.producer.slot.pending = [])
    (read : s.stream = []) : delivered history = accepted history := by
  rw [written] at linked
  have complete := linked.complete framed read
  rwa [empty, List.append_nil] at complete

/-- On every schedule of orderly peers: the packets that the stub has registered are the first
ones that the client's `send_packet` accepted, each once and in this order; whenever
`handle_read` of the stub is not running, every packet that has arrived as a whole was
registered; and when all bytes were written and received, all packets were. -/
theorem run_registers [Fintype T] [DecidableEq T] (large : headerSize ≤ memory.length)
    (created : NetPeer.new memory fresh = some peer)
    (run : (uplink T).Run (newUplink T outBuf peer) history s)
    (framed : ∀ p ∈ accepted history, Framed p) :
    delivered history <+: accepted history ∧
      (Outside s.consumer → delivered history = Framing.contained (·.contents)
        (accepted history) (Session.received (Machine.consuming history)).length) ∧
      (Outside s.consumer → s.producer.slot.pending = [] → s.stream = [] →
        delivered history = accepted history) := by
  obtain ⟨linked, empty⟩ := run_uplink large created run framed
  refine ⟨(List.prefix_append _ _).trans linked.front, fun outside => ?_,
    fun outside written read => delivered_of_drained framed linked (empty outside) written read⟩
  have contained := linked.receiver.contained framed
  rwa [empty outside, List.append_nil] at contained

/-- The packets accepted and those registered, in a run with one sender. -/
def registered (memory : List UInt8) (labels : List (OutAction (Fin 1) ⊕ Action)) :
    Option (List TalkPacket × List TalkPacket) := do
  let peer ← NetPeer.new memory fun _ => 0
  let (history, _) ← (uplink (Fin 1)).exec (newUplink (Fin 1) (Session.bare 0) peer) labels
  return (accepted history, delivered history)

/-- Two packets arrive, the second one in parts. -/
theorem run_registers_two : ∃ history : List ((OutAction (Fin 1) ⊕ Action) × (OutSeen ⊕ Seen)),
    accepted history = [Session.bare 1, Session.bare 2] ∧
      delivered history = [Session.bare 1, Session.bare 2] ∧
      delivered history <+: accepted history := by
  have computed : registered (List.replicate 32 7)
      [.inl (.sendPacket 0 (Session.bare 1)), .inl (.handleWrite [.sent 10] none),
        .inl (.sendPacket 0 (Session.bare 2)), .inl (.handleWrite [.sent 4, .again] none),
        .inr .handleRead, .inr (.recv (.data ((Session.bare 1).contents ++ [0, 0])) fun _ => 0),
        .inr .recvPacket, .inr .recvPacket, .inl (.handleWrite [.sent 6] none), .inr .handleRead,
        .inr (.recv .interrupted fun _ => 0),
        .inr (.recv (.data ((Session.bare 2).contents.drop 2)) fun _ => 0),
        .inr .recvPacket, .inr .recvPacket] =
      some ([Session.bare 1, Session.bare 2], [Session.bare 1, Session.bare 2]) := by
    decide +kernel
  simp only [registered, Option.bind_eq_bind, Option.bind_eq_some_iff] at computed
  obtain ⟨peer, created, ⟨history, s⟩, executed, result⟩ := computed
  obtain ⟨sent, got⟩ := by simpa using result
  have framed : ∀ p ∈ accepted history, Framed p := by
    rw [sent]
    exact fun p member => (Session.bare_sent p member).framed
  have registers := run_registers (by decide) created (Machine.run_of_exec executed) framed
  exact ⟨history, sent, got, registers.1⟩

end Uplink

end StubReader

end Crs.Ude
