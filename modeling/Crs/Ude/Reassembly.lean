import Crs.Foundation.Framing
import Crs.Ude.NetPeer
import Crs.Ude.PacketSizes

/-!
# Reassembly of a stream of packets

The packets on the wire are what `construct` builds. Between two iterations of
`handle_read` the bytes received so far are the packets that left the parser,
followed by what the peer holds back: the start of an incomplete packet, or fewer
bytes than a header in the buffer. `Parsing` is this fact with a buffer pointer, and
each part of an iteration keeps it.

The buffer pointer is set to the front of the buffer when `handle_read` begins and
not when its loop goes round, so the fact holds again for the next read only if no
byte of the call was consumed before.
-/

namespace Crs.Ude

open Foundation

/-- A packet built by `construct` within the range of its length; the memory behind
the header holds any contents. -/
def Sent (p : TalkPacket) : Prop :=
  ∃ fresh pid csz dmn rcp, TalkPacket.construct fresh pid csz dmn rcp = .ok p ∧
    headerSize + csz.toNat + TalkPacket.padding csz.toNat < 2 ^ 32

theorem PacketHeader.ofBytes_toBytes (h : PacketHeader) : ofBytes h.toBytes = some h := by
  have sz : UInt32.ofNat (Memory.valueOf (Memory.bytesOf 4 h.sz.toNat)) = h.sz := by
    have range : h.sz.toNat < 256 ^ 4 := h.sz.toNat_lt
    rw [Memory.valueOf_bytesOf, Nat.mod_eq_of_lt range, UInt32.ofNat_toNat]
  have short : ∀ x : UInt16, UInt16.ofNat (Memory.valueOf (Memory.bytesOf 2 x.toNat)) = x := by
    intro x
    have range : x.toNat < 256 ^ 2 := x.toNat_lt
    rw [Memory.valueOf_bytesOf, Nat.mod_eq_of_lt range, UInt16.ofNat_toNat]
  have field : ∀ (front cells rest : List UInt8),
      Memory.read (front ++ cells ++ rest) front.length cells.length = some cells := by
    intro front cells rest
    rw [Memory.read_of_le (by simp), List.append_assoc, List.drop_left, List.take_left]
  have first := field [] (Memory.bytesOf 4 h.sz.toNat)
    (Memory.bytesOf 2 h.id.toNat ++ Memory.bytesOf 2 h.domain.toNat ++
      Memory.bytesOf 2 h.recepient.toNat)
  have second := field (Memory.bytesOf 4 h.sz.toNat) (Memory.bytesOf 2 h.id.toNat)
    (Memory.bytesOf 2 h.domain.toNat ++ Memory.bytesOf 2 h.recepient.toNat)
  have third := field (Memory.bytesOf 4 h.sz.toNat ++ Memory.bytesOf 2 h.id.toNat)
    (Memory.bytesOf 2 h.domain.toNat) (Memory.bytesOf 2 h.recepient.toNat)
  have fourth := field (Memory.bytesOf 4 h.sz.toNat ++ Memory.bytesOf 2 h.id.toNat ++
    Memory.bytesOf 2 h.domain.toNat) (Memory.bytesOf 2 h.recepient.toNat) []
  simp only [List.nil_append, List.append_nil, List.append_assoc, List.length_nil,
    List.length_append, Memory.length_bytesOf, Nat.reduceAdd] at first second third fourth
  simp only [ofBytes, toBytes, List.append_assoc, first, second, third, fourth,
    Option.bind_eq_bind, Option.bind_some, sz, short]
  rfl

/-- A packet starts with its header, and its length is what the receiver computes from it. -/
def Framed (p : TalkPacket) : Prop :=
  ∃ hdr : PacketHeader, p.contents.take headerSize = hdr.toBytes ∧
    p.size = TalkPacket.constructSize hdr.sz ∧ p.contents.length = p.size.toNat ∧
    headerSize ≤ p.size.toNat

/-- Every packet that `construct` builds is framed; where the length wraps around to less
than a header, it builds none. -/
theorem framed_of_construct {p : TalkPacket} {fresh : Nat → UInt8} {pid dmn rcp : UInt16}
    {csz : UInt32} (built : TalkPacket.construct fresh pid csz dmn rcp = .ok p) : Framed p := by
  by_cases enough : headerSize ≤ (TalkPacket.constructSize csz).toNat
  · rw [TalkPacket.construct_of_le enough] at built
    obtain rfl := Except.ok.inj built
    have front := PacketHeader.length_toBytes ⟨csz, pid, dmn, rcp⟩
    refine ⟨⟨csz, pid, dmn, rcp⟩, ?_, rfl, ?_, enough⟩
    · rw [← front, List.take_left]
    · simp only [List.length_append, front, List.length_drop, TalkPacket.allocate,
        List.length_map, List.length_range]
      omega
  · rw [TalkPacket.construct_of_lt (by omega)] at built
    cases built

theorem Sent.framed {p : TalkPacket} (sent : Sent p) : Framed p := by
  obtain ⟨fresh, pid, csz, dmn, rcp, built, -⟩ := sent
  exact framed_of_construct built

/-- A packet constructed from a received header has the length of the sent one. -/
theorem ofHeader_spec (fresh : Nat → UInt8) (hdr : PacketHeader)
    (enough : headerSize ≤ (TalkPacket.constructSize hdr.sz).toNat) :
    ∃ contents, TalkPacket.ofHeader fresh hdr = .ok ⟨TalkPacket.constructSize hdr.sz, contents⟩ ∧
      contents.length = (TalkPacket.constructSize hdr.sz).toNat := by
  refine ⟨_, TalkPacket.construct_of_le enough, ?_⟩
  simp only [List.length_append, PacketHeader.length_toBytes, List.length_drop,
    TalkPacket.allocate, List.length_map, List.length_range]
  omega

namespace NetPeer

variable {p : NetPeer} {c : ReadCall} {past todo : List TalkPacket} {received : List UInt8}

/-- The bytes of the incomplete packet that have arrived. -/
def part (p : NetPeer) : List UInt8 :=
  if p.inBytesRest = 0 then [] else p.inPacket.contents.take p.inNextPacketByte

/-- The bytes in the buffer that are still to be parsed. -/
def unparsed (p : NetPeer) (c : ReadCall) : List UInt8 :=
  (p.inBuf.drop c.inBufPtr).take p.inVirtualBytes

/-- The packets taken from the queue and the queued ones have left the parser; the
start of the incomplete packet and the unparsed bytes are held back, and an incomplete
packet has the length of the next one to come. -/
structure Parsing (past todo : List TalkPacket) (received : List UInt8) (p : NetPeer)
    (c : ReadCall) : Prop where
  large : headerSize ≤ p.inBufSize
  length : p.inBuf.length = p.inBufSize
  inside : c.inBufPtr + p.inVirtualBytes ≤ p.inBufSize
  decoding : Framing.Decoding (·.contents) (past ++ p.inPacketQueue) todo
    (p.part ++ p.unparsed c) received
  started : p.inBytesRest ≠ 0 → ∃ f rest, todo = f :: rest ∧ p.inPacket.size = f.size ∧
    p.inPacket.contents.length = f.contents.length ∧
    p.inNextPacketByte + p.inBytesRest = f.contents.length

/-- After an iteration less than the next packet is held back. -/
structure Settled (past todo : List TalkPacket) (received : List UInt8) (p : NetPeer) : Prop
    extends Parsing past todo received p {} where
  few : p.inVirtualBytes < headerSize
  separate : p.inBytesRest ≠ 0 → p.inVirtualBytes = 0

theorem Parsing.length_unparsed (parsing : Parsing past todo received p c) :
    (p.unparsed c).length = p.inVirtualBytes := by
  have length := parsing.length
  have inside := parsing.inside
  simp only [unparsed, List.length_take, List.length_drop]
  omega

/-- Some of the unparsed bytes can be read and leave the others. -/
theorem Parsing.read (parsing : Parsing past todo received p c) (count : Nat)
    (available : count ≤ p.inVirtualBytes) :
    Memory.read p.inBuf c.inBufPtr count = some ((p.unparsed c).take count) ∧
      p.unparsed c = (p.unparsed c).take count ++
        ((p.inBuf.drop (c.inBufPtr + count)).take (p.inVirtualBytes - count)) := by
  have length := parsing.length
  have inside := parsing.inside
  constructor
  · rw [Memory.read_of_le (by omega), unparsed, List.take_take, Nat.min_eq_left available]
  · conv_lhs => rw [← List.take_append_drop count (p.unparsed c)]
    rw [unparsed, List.drop_take, List.drop_drop]

/-- The incomplete packet is filled up or takes all bytes. -/
theorem fillIncomplete_spec (parsing : Parsing past todo received p c) :
    ∃ p' c' todo', p.fillIncomplete c = some (p', c') ∧
      p.inPacketQueue ++ todo = p'.inPacketQueue ++ todo' ∧
      Parsing past todo' received p' c' ∧ (p'.inBytesRest ≠ 0 → p'.inVirtualBytes = 0) := by
  obtain complete | incomplete := eq_or_ne p.inBytesRest 0
  · refine ⟨p, c, todo, ?_, rfl, parsing, fun rest => absurd complete rest⟩
    simp [fillIncomplete, complete]
  obtain ⟨f, rest, rfl, size, length, total⟩ := parsing.started incomplete
  obtain ⟨readBytes, split⟩ := parsing.read (min p.inVirtualBytes p.inBytesRest)
    (Nat.min_le_left _ _)
  have copied : ((p.unparsed c).take (min p.inVirtualBytes p.inBytesRest)).length =
      min p.inVirtualBytes p.inBytesRest := by
    rw [List.length_take, parsing.length_unparsed]
    omega
  obtain ⟨contents, written, length', front⟩ := Memory.write_spec
    p.inPacket.contents p.inNextPacketByte
    ((p.unparsed c).take (min p.inVirtualBytes p.inBytesRest)) (by omega)
  have part : p.part = p.inPacket.contents.take p.inNextPacketByte := if_neg incomplete
  have decoding := parsing.decoding
  have inside := parsing.inside
  rw [copied] at front
  rw [split, part, ← List.append_assoc, ← front] at decoding
  simp only [fillIncomplete, incomplete, readBytes, written, if_false, Option.bind_eq_bind,
    Option.bind_some, pure]
  by_cases filled : p.inBytesRest ≤ p.inVirtualBytes
  · -- The packet is incomplete, and all its bytes are those of the next packet.
    rw [Nat.min_eq_right filled] at *
    rw [List.take_of_length_le (by omega)] at decoding
    obtain ⟨whole, decoding⟩ := decoding.emit (by omega)
    have packet : (⟨p.inPacket.size, contents⟩ : TalkPacket) = f := by rw [size, whole]
    refine ⟨_, _, rest, if_pos (Nat.sub_self _), ?_,
      ⟨parsing.large, parsing.length, ?_, ?_, ?_⟩, ?_⟩
    · simp [packet]
    · show c.inBufPtr + p.inBytesRest + (p.inVirtualBytes - p.inBytesRest) ≤ p.inBufSize
      omega
    · simpa [NetPeer.part, unparsed, packet] using decoding
    · simp
    · simp
  · have less : p.inVirtualBytes < p.inBytesRest := by omega
    rw [Nat.min_eq_left less.le] at *
    refine ⟨_, _, f :: rest, if_neg (by omega), rfl,
      ⟨parsing.large, parsing.length, ?_, ?_, ?_⟩, ?_⟩
    · show c.inBufPtr + p.inVirtualBytes + (p.inVirtualBytes - p.inVirtualBytes) ≤ p.inBufSize
      omega
    · have more : ¬ p.inBytesRest - p.inVirtualBytes = 0 := by omega
      simpa [NetPeer.part, unparsed, more] using decoding
    · intro _
      exact ⟨f, rest, rfl, size, length'.trans length, by simp only; omega⟩
    · simp

/-- A header among the unparsed bytes is that of the next packet. -/
theorem Parsing.header (parsing : Parsing past todo received p c) (framed : ∀ f ∈ todo, Framed f)
    (complete : p.inBytesRest = 0) (enough : headerSize ≤ p.inVirtualBytes) :
    ∃ f rest hdr, todo = f :: rest ∧ f.size = TalkPacket.constructSize hdr.sz ∧
      f.contents.length = f.size.toNat ∧ headerSize ≤ f.size.toNat ∧
      (Memory.read p.inBuf c.inBufPtr headerSize).bind PacketHeader.ofBytes = some hdr := by
  have decoding := parsing.decoding
  rw [part, if_pos complete, List.nil_append] at decoding
  have length := parsing.length_unparsed
  have some : p.unparsed c ≠ [] := by
    apply List.ne_nil_of_length_pos
    simp only [headerSize] at enough
    omega
  obtain ⟨f, rest, rfl⟩ := decoding.todo_ne_nil some
  obtain ⟨hdr, front, size, whole, atLeast⟩ := framed f List.mem_cons_self
  refine ⟨f, rest, hdr, rfl, size, whole, atLeast, ?_⟩
  have same : (p.unparsed c).take headerSize = f.contents.take headerSize := by
    have ahead := decoding.ahead
    rw [List.flatMap_cons] at ahead
    rw [List.prefix_iff_eq_take.mp ahead, List.take_take,
      Nat.min_eq_left (by omega), List.take_append_of_le_length (by omega)]
  rw [(parsing.read headerSize enough).1, same, front, Option.bind_some,
    PacketHeader.ofBytes_toBytes]

/-- The inner loop takes packets until less than a header is left or one is incomplete. -/
theorem takePackets_spec (fresh : Nat → UInt8) (fuel : Nat)
    (parsing : Parsing past todo received p c) (framed : ∀ f ∈ todo, Framed f)
    (separate : p.inBytesRest ≠ 0 → p.inVirtualBytes = 0) (bound : p.inVirtualBytes ≤ fuel) :
    ∃ p' c' todo', takePackets fresh fuel p c = some (p', c') ∧
      p.inPacketQueue ++ todo = p'.inPacketQueue ++ todo' ∧
      Parsing past todo' received p' c' ∧ p'.inVirtualBytes < headerSize ∧
      (p'.inBytesRest ≠ 0 → p'.inVirtualBytes = 0) := by
  induction fuel generalizing p c todo with
  | zero =>
      have few : p.inVirtualBytes < headerSize := by
        simp only [headerSize]
        omega
      exact ⟨p, c, todo, by rw [takePackets, if_pos few], rfl, parsing, few, separate⟩
  | succ fuel ih =>
      by_cases few : p.inVirtualBytes < headerSize
      · exact ⟨p, c, todo, by rw [takePackets, if_pos few], rfl, parsing, few, separate⟩
      have complete : p.inBytesRest = 0 := by
        by_contra rest
        have none := separate rest
        simp only [headerSize] at few
        omega
      obtain ⟨f, rest, hdr, rfl, size, whole, atLeast, header⟩ :=
        parsing.header framed complete (by omega)
      obtain ⟨memory, built, length⟩ := ofHeader_spec fresh hdr (by rw [← size]; omega)
      rw [← size] at built length
      obtain ⟨readBytes, split⟩ := parsing.read (min p.inVirtualBytes f.size.toNat)
        (Nat.min_le_left _ _)
      have copied : ((p.unparsed c).take (min p.inVirtualBytes f.size.toNat)).length =
          min p.inVirtualBytes f.size.toNat := by
        rw [List.length_take, parsing.length_unparsed]
        omega
      obtain ⟨contents, written, length', front⟩ := Memory.write_spec memory 0
        ((p.unparsed c).take (min p.inVirtualBytes f.size.toNat)) (by omega)
      have decoding := parsing.decoding
      have inside := parsing.inside
      rw [copied, List.take_zero, List.nil_append, Nat.zero_add] at front
      rw [split, part, if_pos complete, List.nil_append, ← front] at decoding
      simp only [headerSize] at few atLeast
      rw [takePackets, if_neg (by simp only [headerSize]; omega)]
      simp only [header, built, Except.toOption, TalkPacket.rawSize, readBytes, written,
        Option.bind_eq_bind, Option.bind_some, pure]
      by_cases filled : f.size.toNat ≤ p.inVirtualBytes
      · rw [Nat.min_eq_right filled] at *
        rw [List.take_of_length_le (by omega)] at decoding
        obtain ⟨same, decoding⟩ := decoding.emit (by omega)
        have packet : (⟨f.size, contents⟩ : TalkPacket) = f := by rw [same]
        simp only [Nat.min_eq_right filled, if_true, packet]
        have next : Parsing past rest received
            { p with
              inPacket := f
              inNextPacketByte := 0
              inVirtualBytes := p.inVirtualBytes - f.size.toNat
              inPacketQueue := p.inPacketQueue ++ [f] }
            ⟨c.inBufPtr + f.size.toNat, c.nNewPackets + 1⟩ :=
          ⟨parsing.large, parsing.length, by simp only; omega,
            by simpa [NetPeer.part, unparsed, complete] using decoding,
            fun more => absurd complete more⟩
        obtain ⟨p', c', todo', taken, queues, parsing', few', separate'⟩ := ih next
          (fun g later => framed g (List.mem_cons_of_mem f later))
          (fun more => absurd complete more) (by simp only; omega)
        refine ⟨p', c', todo', taken, ?_, parsing', few', separate'⟩
        rw [← queues, List.append_assoc]
        rfl
      · have less : p.inVirtualBytes < f.size.toNat := by omega
        rw [Nat.min_eq_left less.le] at *
        simp only [Nat.min_eq_left less.le, if_neg less.ne]
        refine ⟨_, _, f :: rest, rfl, rfl, ⟨parsing.large, parsing.length, ?_, ?_, ?_⟩, ?_, ?_⟩
        · show c.inBufPtr + p.inVirtualBytes + (p.inVirtualBytes - p.inVirtualBytes) ≤ p.inBufSize
          omega
        · have more : ¬ f.size.toNat - p.inVirtualBytes = 0 := by omega
          simpa [NetPeer.part, unparsed, more] using decoding
        · intro _
          exact ⟨f, rest, rfl, rfl, by simp only; omega, by simp only; omega⟩
        · simp [headerSize]
        · simp

/-- The unparsed bytes are the front of the buffer afterwards. -/
theorem moveUnprocessed_spec (parsing : Parsing past todo received p c)
    (few : p.inVirtualBytes < headerSize) (separate : p.inBytesRest ≠ 0 → p.inVirtualBytes = 0) :
    ∃ p', p.moveUnprocessed c = some p' ∧ p'.inPacketQueue = p.inPacketQueue ∧
      Settled past todo received p' := by
  obtain ⟨readBytes, -⟩ := parsing.read p.inVirtualBytes le_rfl
  have length := parsing.length
  have inside := parsing.inside
  have all : (p.unparsed c).length ≤ p.inVirtualBytes := parsing.length_unparsed.le
  rw [List.take_of_length_le all] at readBytes
  obtain ⟨inBuf, written, length', front⟩ := Memory.write_spec p.inBuf 0 (p.unparsed c)
    (by rw [parsing.length_unparsed]; omega)
  rw [List.take_zero, List.nil_append, Nat.zero_add, parsing.length_unparsed] at front
  refine ⟨{ p with inBuf }, ?_, rfl,
    ⟨parsing.large, length'.trans length, ?_, ?_, parsing.started⟩, few, separate⟩
  · simp [moveUnprocessed, readBytes, written]
  · show 0 + p.inVirtualBytes ≤ p.inBufSize
    omega
  · have same : ({ p with inBuf } : NetPeer).unparsed {} = p.unparsed c := front
    rw [same]
    exact parsing.decoding

/-- One iteration leaves the parser settled again. -/
theorem process_spec (fresh : Nat → UInt8) (parsing : Parsing past todo received p c)
    (framed : ∀ f ∈ p.inPacketQueue ++ todo, Framed f) :
    ∃ p' c' todo', p.process fresh c = some (p', c') ∧
      p.inPacketQueue ++ todo = p'.inPacketQueue ++ todo' ∧ Settled past todo' received p' := by
  obtain ⟨p₁, c₁, todo₁, filled, queues₁, parsing₁, separate₁⟩ := fillIncomplete_spec parsing
  rw [queues₁] at framed
  obtain ⟨p₂, c₂, todo₂, taken, queues₂, parsing₂, few, separate₂⟩ := takePackets_spec fresh _
    parsing₁ (fun f later => framed f (List.mem_append_right _ later)) separate₁ le_rfl
  obtain ⟨p₃, moved, queue, settled⟩ := moveUnprocessed_spec parsing₂ few separate₂
  refine ⟨p₃, c₂, todo₂, ?_, ?_, settled⟩
  · simp [process, filled, taken, moved]
  · rw [queues₁, queues₂, queue]

/-- What `recv` wrote behind the bytes in the buffer is parsed next, if the call has
consumed nothing yet. -/
theorem Settled.receive (settled : Settled past todo received p) {bytes : List UInt8}
    (fits : bytes.length ≤ p.room)
    (delivery : received ++ bytes <+: (past ++ p.inPacketQueue ++ todo).flatMap (·.contents))
    (c : ReadCall) (unconsumed : c.inBufPtr = 0) :
    ∃ inBuf, Memory.write p.inBuf p.inVirtualBytes bytes = some inBuf ∧
      Parsing past todo (received ++ bytes)
        { p with inBuf, inVirtualBytes := p.inVirtualBytes + bytes.length } c := by
  have length := settled.length
  have inside : 0 + p.inVirtualBytes ≤ p.inBufSize := settled.inside
  simp only [room] at fits
  obtain ⟨inBuf, written, length', front⟩ := Memory.write_spec p.inBuf p.inVirtualBytes bytes
    (by omega)
  refine ⟨inBuf, written, ⟨settled.large, length'.trans length, ?_, ?_, settled.started⟩⟩
  · show c.inBufPtr + (p.inVirtualBytes + bytes.length) ≤ p.inBufSize
    omega
  · have more := settled.decoding.receive delivery
    rw [List.append_assoc] at more
    have same : ({ p with inBuf, inVirtualBytes := p.inVirtualBytes + bytes.length }
        : NetPeer).unparsed c = p.unparsed {} ++ bytes := by
      simpa [unparsed, unconsumed] using front
    rw [same]
    exact more

end NetPeer

namespace Session

variable {s s' : Session} {a : Action} {o : Seen}
  {history : List (Action × Seen)} {packets : List TalkPacket}

/-- The bytes that the calls of `recv` in a history returned. -/
def received (history : List (Action × Seen)) : List UInt8 :=
  history.flatMap fun event =>
    match event.1 with
    | .recv (.data bytes) _ => bytes
    | _ => []

/-- The packets taken from the queue. -/
def delivered (history : List (Action × Seen)) : List TalkPacket :=
  history.filterMap fun event =>
    match event.2 with
    | .taken packet => packet
    | _ => none

/-- A `recv` that returns bytes does so before the call consumed any. -/
def unconsumed (s : Session) : Action → Bool
  | .recv (.data _) _ => s.call.all fun c => c.inBufPtr == 0
  | _ => true

@[simp] theorem received_snoc :
    received (history ++ [(a, o)]) = received history ++ received [(a, o)] := by
  simp [received]

@[simp] theorem delivered_snoc :
    delivered (history ++ [(a, o)]) = delivered history ++ delivered [(a, o)] := by
  simp [delivered]

/-- The packets of the stream are the ones taken, the queued ones and those to come,
and the parser is settled on the bytes received. -/
def Reassembled (packets : List TalkPacket) (history : List (Action × Seen)) (s : Session) : Prop :=
  ∃ todo, packets = delivered history ++ (s.peer.inPacketQueue ++ todo) ∧
    NetPeer.Settled (delivered history) todo (received history) s.peer

/-- An iteration that receives bytes has a step, and it keeps the stream in order. -/
theorem iterate_data (fresh : Nat → UInt8) {c : ReadCall} {bytes : List UInt8}
    (framed : ∀ p ∈ packets, Framed p) (held : Reassembled packets history s)
    (delivery : received history ++ bytes <+: packets.flatMap (·.contents))
    (some : 0 < bytes.length) (fits : bytes.length ≤ s.peer.room) (start : c.inBufPtr = 0) :
    ∃ notified result s', iterate s.peer c fresh (.data bytes) =
      .some (.received s.peer.room notified result, s') ∧
      Reassembled packets (history ++ [(.recv (.data bytes) fresh,
        .received s.peer.room notified result)]) s' := by
  obtain ⟨todo, rfl, settled⟩ := held
  rw [← List.append_assoc] at delivery
  obtain ⟨inBuf, written, parsing⟩ := settled.receive fits delivery c start
  obtain ⟨p, c', todo', processed, queues, settled'⟩ := NetPeer.process_spec fresh parsing
    (fun f later => framed f (List.mem_append_right _ later))
  have kept : ∀ notified result (s' : Session), s'.peer = p →
      Reassembled (delivered history ++ (s.peer.inPacketQueue ++ todo))
        (history ++ [(.recv (.data bytes) fresh, .received s.peer.room notified result)]) s' := by
    intro notified result s' same
    refine ⟨todo', ?_, ?_⟩
    · simp only [delivered_snoc, same]
      rw [show s.peer.inPacketQueue ++ todo = p.inPacketQueue ++ todo' from queues]
      simp [delivered]
    · simpa [delivered, received, same] using settled'
  simp only [iterate, some, fits, and_self, guard_true, Option.bind_eq_bind, Option.bind_some,
    written, processed, pure]
  split
  · exact ⟨_, _, _, rfl, kept _ _ _ rfl⟩
  · exact ⟨_, _, _, rfl, kept _ _ _ rfl⟩

/-- Steps without new bytes and without a taken packet leave the parser alone. -/
private theorem Reassembled.quiet (held : Reassembled packets history s)
    (noBytes : received [(a, o)] = []) (noPacket : delivered [(a, o)] = [])
    (same : s'.peer = s.peer) : Reassembled packets (history ++ [(a, o)]) s' := by
  obtain ⟨todo, rfl, settled⟩ := held
  refine ⟨todo, ?_, ?_⟩
  · rw [delivered_snoc, noPacket, List.append_nil, same]
  · rwa [delivered_snoc, noPacket, received_snoc, noBytes, List.append_nil, List.append_nil, same]

/-- Every allowed step keeps the stream in order. -/
theorem step_reassembled (framed : ∀ p ∈ packets, Framed p) (held : Reassembled packets history s)
    (delivery : received (history ++ [(a, o)]) <+: packets.flatMap (·.contents))
    (allowed : unconsumed s a) (step : machine.step s a = some (o, s')) :
    Reassembled packets (history ++ [(a, o)]) s' := by
  cases a with
  | handleRead =>
      simp only [machine] at step
      split at step
      · obtain ⟨rfl, rfl⟩ := by simpa using step
        exact held.quiet rfl rfl rfl
      · cases step
  | recv outcome fresh =>
      obtain ⟨c, running, iterated⟩ := Option.bind_eq_some_iff.mp step
      cases outcome with
      | data bytes =>
          have start : c.inBufPtr = 0 := by simpa [unconsumed, running] using allowed
          by_cases legal : 0 < bytes.length ∧ bytes.length ≤ s.peer.room
          · have more : received history ++ bytes <+: packets.flatMap (·.contents) := by
              simpa [received] using delivery
            obtain ⟨notified, result, s'', again, next⟩ :=
              iterate_data fresh framed held more legal.1 legal.2 start
            rw [again] at iterated
            obtain ⟨rfl, rfl⟩ := by simpa using iterated
            exact next
          · simp [iterate, legal, guard] at iterated
      | closed | again | interrupted | failed =>
          obtain ⟨rfl, rfl⟩ := by simpa [iterate] using iterated
          exact held.quiet rfl rfl rfl
  | recvPacket =>
      obtain ⟨todo, rfl, settled⟩ := held
      simp only [machine] at step
      split at step
      · obtain ⟨rfl, rfl⟩ := by simpa using step
        exact Reassembled.quiet ⟨todo, rfl, settled⟩ rfl rfl rfl
      · rename_i packet rest queued
        obtain ⟨rfl, rfl⟩ := by simpa using step
        refine ⟨todo, by simp [delivered, queued], ?_⟩
        have parsing := settled.decoding
        rw [queued] at parsing
        refine ⟨⟨settled.large, settled.length, settled.inside, ?_, settled.started⟩,
          settled.few, settled.separate⟩
        have moved : delivered (history ++ [(.recvPacket, .taken (some packet))]) ++ rest =
            delivered history ++ packet :: rest := by simp [delivered]
        have unchanged : received (history ++ [(.recvPacket, .taken (some packet))]) =
            received history := by simp [received]
        show Framing.Decoding _ (_ ++ rest) _ (s.peer.part ++ s.peer.unparsed {}) _
        rw [moved, unchanged]
        exact parsing

/-- A new peer on a buffer that holds a header has received nothing. -/
theorem new_reassembled {memory : List UInt8} {fresh : Nat → UInt8} {peer : NetPeer}
    (large : headerSize ≤ memory.length) (created : NetPeer.new memory fresh = some peer)
    (packets : List TalkPacket) : Reassembled packets [] { peer } := by
  obtain ⟨packet, -, rfl⟩ := by simpa [NetPeer.new, Option.bind_eq_some_iff] using created
  refine ⟨packets, rfl, ⟨large, rfl, Nat.zero_le _, ⟨?_, ?_⟩, fun more => absurd rfl more⟩, ?_,
    fun _ => rfl⟩
  · simp [NetPeer.part, NetPeer.unparsed, received, delivered]
  · simp [NetPeer.part, NetPeer.unparsed]
  · simp [headerSize]

/-- What is held back is shorter than the next packet. -/
theorem Reassembled.contained (framed : ∀ p ∈ packets, Framed p)
    (held : Reassembled packets history s) :
    delivered history ++ s.peer.inPacketQueue =
      Framing.contained (·.contents) packets (received history).length := by
  obtain ⟨todo, rfl, settled⟩ := held
  rw [← List.append_assoc] at framed ⊢
  refine settled.decoding.past_eq ?_
  intro f rest next
  have length := settled.toParsing.length_unparsed
  rw [List.length_append, length]
  obtain complete | incomplete := eq_or_ne s.peer.inBytesRest 0
  · obtain ⟨hdr, -, -, whole, atLeast⟩ := framed f (by simp [next])
    have few := settled.few
    simp only [NetPeer.part, complete, if_true, List.length_nil]
    omega
  · obtain ⟨g, rest', next', -, -, total⟩ := settled.started incomplete
    obtain ⟨rfl, -⟩ := List.cons.inj (next.symm.trans next')
    have none := settled.separate incomplete
    simp only [NetPeer.part, incomplete, if_false, List.length_take]
    omega

theorem requested_eq_room {outcome : Recv} {fresh : Nat → UInt8} {requested : Nat} {notified : Bool}
    {result : Option ReadResult}
    (step : machine.step s (.recv outcome fresh) = some (.received requested notified result, s')) :
    requested = s.peer.room := by
  obtain ⟨c, -, iterated⟩ := Option.bind_eq_some_iff.mp step
  cases outcome with
  | closed | again | interrupted | failed =>
      obtain ⟨⟨rfl, -⟩, -⟩ := by simpa [iterate] using iterated
      rfl
  | data bytes =>
      simp only [iterate, Option.bind_eq_bind, Option.bind_eq_some_iff] at iterated
      obtain ⟨-, -, inBuf, -, ⟨p, c'⟩, -, shown⟩ := iterated
      split at shown
      · obtain ⟨⟨rfl, -⟩, -⟩ := by simpa using shown
        rfl
      · obtain ⟨⟨rfl, -⟩, -⟩ := by simpa using shown
        rfl

/-- The stream is in order after every run in which each `recv` that returns bytes comes
before its call of `handle_read` consumed any. -/
theorem run_reassembled {memory : List UInt8} {fresh : Nat → UInt8} {peer : NetPeer}
    (large : headerSize ≤ memory.length) (created : NetPeer.new memory fresh = some peer)
    (framed : ∀ p ∈ packets, Framed p)
    (run : (machine.guard fun s a => unconsumed s a = true).Run { peer } history s)
    (delivery : received history <+: packets.flatMap (·.contents)) :
    Reassembled packets history s := by
  apply run.invariant (P := fun history s =>
    received history <+: packets.flatMap (·.contents) → Reassembled packets history s)
  · exact fun _ => new_reassembled large created packets
  · intro history t a o u _ earlier step delivery
    obtain ⟨allowed, step⟩ := Machine.guard_step_iff.mp step
    have before : received history <+: packets.flatMap (·.contents) := by
      rw [received_snoc] at delivery
      exact (List.prefix_append _ _).trans delivery
    exact step_reassembled framed (earlier before) delivery allowed step
  · exact delivery

/-- In a run in which every `recv` that returns bytes comes before its call of
`handle_read` consumed any, on a stream of sent packets: the packets taken and queued
are those completely contained in the bytes received; each byte received belongs to
one of them, to the incomplete packet or to the unparsed bytes, in this order; `recv`
is called with room for at least one byte; and the next bytes can always be read. -/
theorem run_reassembles {memory : List UInt8} {fresh : Nat → UInt8} {peer : NetPeer}
    (large : headerSize ≤ memory.length) (created : NetPeer.new memory fresh = some peer)
    (sent : ∀ p ∈ packets, Sent p)
    (run : (machine.guard fun s a => unconsumed s a = true).Run { peer } history s)
    (delivery : received history <+: packets.flatMap (·.contents)) :
    delivered history ++ s.peer.inPacketQueue =
      Framing.contained (·.contents) packets (received history).length ∧
    received history = (delivered history ++ s.peer.inPacketQueue).flatMap (·.contents) ++
      (s.peer.part ++ s.peer.unparsed {}) ∧
    (∀ outcome fresh requested notified result s',
      machine.step s (.recv outcome fresh) = some (.received requested notified result, s') →
      0 < requested) ∧
    ∀ c bytes fresh, s.call = some c → c.inBufPtr = 0 →
      0 < bytes.length → bytes.length ≤ s.peer.room →
      received history ++ bytes <+: packets.flatMap (·.contents) →
      ∃ o s', machine.step s (.recv (.data bytes) fresh) = some (o, s') := by
  have framed : ∀ p ∈ packets, Framed p := fun p member => (sent p member).framed
  have held := run_reassembled large created framed run delivery
  refine ⟨held.contained framed, ?_, ?_, ?_⟩
  · obtain ⟨todo, -, settled⟩ := held
    exact settled.decoding.balance
  · intro outcome fresh requested notified result s' step
    obtain ⟨todo, -, settled⟩ := held
    have few := settled.few
    have enough := settled.large
    rw [requested_eq_room step, NetPeer.room]
    omega
  · intro c bytes fresh running start some fits more
    obtain ⟨notified, result, s', iterated, -⟩ :=
      iterate_data fresh framed held more some fits start
    exact ⟨_, s', by simpa [machine, running] using iterated⟩

/-- A packet without contents. -/
def bare (id : UInt8) : TalkPacket := ⟨10, [0, 0, 0, 0, id, 0, 0, 0, 0, 0]⟩

theorem bare_sent : ∀ p ∈ [bare 1, bare 2], Sent p := by
  have first : Sent (bare 1) := ⟨fun _ => 0, 1, 0, 0, 0, by decide, by decide⟩
  have second : Sent (bare 2) := ⟨fun _ => 0, 2, 0, 0, 0, by decide, by decide⟩
  simpa using ⟨first, second⟩

/-- The bytes received and the packets decoded in a run from a new peer. -/
def decoded (m : Machine Session Action Seen) (memory : List UInt8) (labels : List Action) :
    Option (List UInt8 × List TalkPacket) := do
  let peer ← NetPeer.new memory fun _ => 0
  let (history, s) ← m.exec { peer } labels
  return (received history, delivered history ++ s.peer.inPacketQueue)

theorem run_of_decoded {m : Machine Session Action Seen} {memory : List UInt8}
    {labels : List Action} {bytes : List UInt8} {queued : List TalkPacket}
    (computed : decoded m memory labels = some (bytes, queued)) : ∃ peer history s,
      NetPeer.new memory (fun _ => 0) = some peer ∧ m.Run { peer } history s ∧
      received history = bytes ∧ delivered history ++ s.peer.inPacketQueue = queued := by
  simp only [decoded, Option.bind_eq_bind, Option.bind_eq_some_iff] at computed
  obtain ⟨peer, created, ⟨history, s⟩, executed, result⟩ := computed
  obtain ⟨rfl, rfl⟩ := by simpa using result
  exact ⟨peer, history, s, created, Machine.run_of_exec executed, rfl, rfl⟩

/-- Two packets that are read one by one into a buffer for exactly two: the second
one is parsed from behind its bytes, where the buffer is still zero. -/
theorem second_read_misparsed : ∃ packets memory peer history s,
    (∀ p ∈ packets, Sent p) ∧ headerSize ≤ memory.length ∧
      NetPeer.new memory (fun _ => 0) = some peer ∧ machine.Run { peer } history s ∧
      received history = packets.flatMap (·.contents) ∧
      delivered history ++ s.peer.inPacketQueue ≠
        Framing.contained (·.contents) packets (received history).length := by
  have computed : decoded machine (List.replicate 20 0)
      [.handleRead, .recv (.data (bare 1).contents) fun _ => 0,
        .recv (.data (bare 2).contents) fun _ => 0] =
      some ([bare 1, bare 2].flatMap (·.contents), [bare 1, bare 0]) := by decide +kernel
  obtain ⟨peer, history, s, created, run, bytes, queued⟩ := run_of_decoded computed
  refine ⟨[bare 1, bare 2], _, peer, history, s, bare_sent, by decide, created, run, bytes, ?_⟩
  rw [queued, bytes]
  decide

/-- The same packets in two calls, the first read ending inside a header. -/
theorem run_reassembles_two : ∃ (history : List (Action × Seen)) (s : Session),
    received history = [bare 1, bare 2].flatMap (·.contents) ∧
      delivered history ++ s.peer.inPacketQueue =
        Framing.contained (·.contents) [bare 1, bare 2] (received history).length := by
  have computed : decoded (machine.guard fun s a => unconsumed s a = true) (List.replicate 16 7)
      [.handleRead, .recv .interrupted fun _ => 0,
        .recv (.data ((bare 1).contents ++ [0, 0])) fun _ => 0, .recvPacket, .handleRead,
        .recv (.data ((bare 2).contents.drop 2)) fun _ => 0] =
      some ([bare 1, bare 2].flatMap (·.contents), [bare 1, bare 2]) := by decide +kernel
  obtain ⟨peer, history, s, created, run, bytes, -⟩ := run_of_decoded computed
  have reassembled := run_reassembles (by decide) created bare_sent run (by rw [bytes])
  exact ⟨history, s, bytes, reassembled.1⟩

end Session

end Crs.Ude
