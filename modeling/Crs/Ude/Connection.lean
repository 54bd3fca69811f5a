import Crs.Foundation.Pipeline
import Crs.Ude.RawPackets

/-!
# A connection between two peers

The bytes that `handle_write` gives to the socket of one peer are those that `handle_read`
gets from the socket of the other one, in this order and cut in any way. The senders of the
one peer, its event loop, the event loop of the other peer and the thread that takes the
packets there run concurrently.

The first part is about any machine that sends packets to a peer. In the second part the
sender is a `net_peer`. The peers are orderly: no thread that waited without a predicate
returns over another packet in the slot, and no `recv` returns bytes after its call of
`handle_read` has consumed some.
-/

namespace Crs.Ude

open Foundation

/-- The sender, the bytes in the sockets, and the receiver. -/
abbrev Connection (σ : Type*) : Type _ := Piped σ Session UInt8

namespace Connection

section Receiving

variable {σ α ω : Type*} {m : Machine σ α ω} {output : α × ω → List UInt8}

/-- A peer that receives what a machine sends. -/
def receiving (m : Machine σ α ω) (output : α × ω → List UInt8) :
    Machine (Connection σ) (α ⊕ Action) (ω ⊕ Seen) :=
  m.pipe (Session.machine.guard fun s a => Session.unconsumed s a = true) output
    fun event => Session.received [event]

/-- The packets that `recv_packet` handed out, in this order. -/
def delivered (history : List ((α ⊕ Action) × (ω ⊕ Seen))) : List TalkPacket :=
  Session.delivered (Machine.consuming history)

/-- The bytes that the receiver holds back, and those in the sockets. -/
def inTransit (s : Connection σ) : List UInt8 :=
  s.consumer.peer.part ++ s.consumer.peer.unparsed {} ++ s.stream

variable {history : List ((α ⊕ Action) × (ω ⊕ Seen))} {s : Connection σ} {start : σ}
  {packets : List TalkPacket} {pending : List UInt8} {peer : NetPeer} {memory : List UInt8}
  {fresh : Nat → UInt8}

/-- The receiver is in the stream of the packets, and what it has not received is in the
sockets, or is still pending. -/
structure Linked (packets : List TalkPacket) (pending : List UInt8)
    (history : List ((α ⊕ Action) × (ω ⊕ Seen))) (s : Connection σ) : Prop where
  receiver : Session.Reassembled packets (Machine.consuming history) s.consumer
  balance : Session.received (Machine.consuming history) ++ s.stream ++ pending =
    packets.flatMap (·.contents)

/-- The packets that have left the parser are the first ones of the stream. -/
theorem Linked.front (linked : Linked packets pending history s) :
    delivered history ++ s.consumer.peer.inPacketQueue <+: packets := by
  obtain ⟨todo, split, -⟩ := linked.receiver
  exact ⟨todo, by rw [split, delivered, List.append_assoc]⟩

/-- Every byte of the stream is in a packet that has left the parser, or on its way. -/
theorem Linked.conserved (linked : Linked packets pending history s) :
    packets.flatMap (·.contents) =
      (delivered history ++ s.consumer.peer.inPacketQueue).flatMap (·.contents) ++
        inTransit s ++ pending := by
  obtain ⟨todo, -, settled⟩ := linked.receiver
  have decoded := settled.decoding.balance
  calc
    packets.flatMap (·.contents) =
        Session.received (Machine.consuming history) ++ s.stream ++ pending :=
      linked.balance.symm
    _ = _ := by
      rw [decoded]
      simp [inTransit, delivered]

/-- When everything was written and everything was received, no packet is missing. -/
theorem Linked.complete (framed : ∀ p ∈ packets, Framed p) (linked : Linked packets [] history s)
    (read : s.stream = []) :
    delivered history ++ s.consumer.peer.inPacketQueue = packets := by
  have all : Session.received (Machine.consuming history) = packets.flatMap (·.contents) := by
    have balance := linked.balance
    rwa [read, List.append_nil, List.append_nil] at balance
  show Session.delivered (Machine.consuming history) ++ _ = _
  rw [linked.receiver.contained framed, all, Framing.contained_all]

/-- Any bytes that have arrived and fit into the buffer can be received. -/
theorem Linked.readable (framed : ∀ p ∈ packets, Framed p)
    (linked : Linked packets pending history s) {c : ReadCall}
    (running : s.consumer.call = some c) (begin : c.inBufPtr = 0) {bytes : List UInt8}
    (some : 0 < bytes.length) (fits : bytes.length ≤ s.consumer.peer.room)
    (arrived : bytes <+: s.stream) (memory : Nat → UInt8) :
    ∃ o u, (receiving m output).step s (.inr (.recv (.data bytes) memory)) = .some (o, u) := by
  have stream : Session.received (Machine.consuming history) ++ bytes <+:
      packets.flatMap (·.contents) := by
    rw [← linked.balance]
    exact ((List.prefix_append_right_inj _).mpr arrived).trans (List.prefix_append _ _)
  obtain ⟨notified, result, next, iterated, -⟩ :=
    Session.iterate_data memory framed linked.receiver stream some fits begin
  have step : (Session.machine.guard fun s a => Session.unconsumed s a = true).step s.consumer
      (.recv (.data bytes) memory) =
        .some (.received s.consumer.peer.room notified result, next) := by
    refine Machine.guard_step_iff.mpr ⟨?_, ?_⟩
    · simp [Session.unconsumed, running, begin]
    · simpa [Session.machine, running] using iterated
  have front : Session.received [(.recv (.data bytes) memory,
      .received s.consumer.peer.room notified result)] <+: s.stream := by
    simpa [Session.received] using arrived
  obtain ⟨u, here, -⟩ := Machine.pipe_read m output
    (fun event => Session.received [event]) step front
  exact ⟨_, u, here⟩

/-- The sender's part of a run. -/
theorem run_sending (run : (receiving m output).Run ⟨start, [], { peer }⟩ history s) :
    m.Run start (Machine.producing history) s.producer :=
  (Machine.Run.of_pipe run).1

/-- A new peer is linked to a sender whose bytes, with those pending, are its packets. -/
theorem run_linked (large : headerSize ≤ memory.length)
    (created : NetPeer.new memory fresh = some peer)
    (run : (receiving m output).Run ⟨start, [], { peer }⟩ history s)
    (framed : ∀ p ∈ packets, Framed p)
    (sent : (Machine.producing history).flatMap output ++ pending =
      packets.flatMap (·.contents)) :
    Linked packets pending history s := by
  obtain ⟨-, receiving, balance⟩ := run.of_pipe
  have through : (Machine.producing history).flatMap output =
      Session.received (Machine.consuming history) ++ s.stream := by
    simpa [Session.received] using balance
  rw [through] at sent
  refine ⟨Session.run_reassembled large created framed receiving ?_, sent⟩
  rw [← sent, List.append_assoc]
  exact List.prefix_append _ _

end Receiving

section Peers

variable {T : Type*}

/-- A `net_peer` sends. -/
def machine (T : Type*) [Fintype T] [DecidableEq T] :
    Machine (Connection (Transmitter T)) (OutAction T ⊕ Action) (OutSeen ⊕ Seen) :=
  receiving ((Transmitter.machine T).guard fun s a => Transmitter.careful s a = true)
    fun event => Transmitter.written [event]

/-- Nothing was accepted and nothing was received. -/
def new (T : Type*) (outBuf : TalkPacket) (peer : NetPeer) : Connection (Transmitter T) :=
  { producer := Transmitter.new T outBuf, consumer := { peer } }

/-- The packets that the sender accepted, in this order. -/
def accepted (history : List ((OutAction T ⊕ Action) × (OutSeen ⊕ Seen))) : List TalkPacket :=
  (Machine.producing history).flatMap fun event => Transmitter.OutSeen.packet event.2

variable {s : Connection (Transmitter T)} {outBuf : TalkPacket} {peer : NetPeer}
  {history : List ((OutAction T ⊕ Action) × (OutSeen ⊕ Seen))} {memory : List UInt8}
  {fresh : Nat → UInt8}

/-- The packets accepted and those out of the parser, in a run with two senders. -/
def accounts (memory : List UInt8) (labels : List (OutAction (Fin 2) ⊕ Action)) :
    Option (List TalkPacket × List TalkPacket) := do
  let peer ← NetPeer.new memory fun _ => 0
  let (history, s) ← (machine (Fin 2)).exec (new (Fin 2) (Session.bare 0) peer) labels
  return (accepted history, delivered history ++ s.consumer.peer.inPacketQueue)

end Peers

end Connection

end Crs.Ude
