import Crs.Foundation.Machine
import Crs.Ude.Packet

/-!
# The receiving side of a peer

`handle_read` reads from the socket into one buffer, completes the packet that an
earlier read left incomplete, takes the whole packets out of the buffer and moves
what remains to the front. The loop continues while a read returned as many bytes as
the buffer has room for after it.

A label is one iteration of the loop with the result of its `recv`, so the packets
may be taken from the queue between two iterations. A `char *` into an allocation is
its offset there. A copy outside a buffer or a packet has no step.
-/

namespace Crs.Ude

open Foundation

structure NetPeer where
  inBuf : List UInt8
  inBufSize : Nat
  inVirtualBytes : Nat := 0
  inPacketQueue : List TalkPacket := []
  inPacket : TalkPacket
  inBytesRest : Nat := 0
  inNextPacketByte : Nat := 0

/-- The locals of `handle_read` that one iteration leaves to the next one. -/
structure ReadCall where
  inBufPtr : Nat := 0
  nNewPackets : Nat := 0
  deriving DecidableEq

/-- What `recv` returns: bytes, zero, or -1 with an error code. -/
inductive Recv where
  | data (bytes : List UInt8)
  | closed
  | again
  | interrupted
  | failed
  deriving DecidableEq

/-- How `handle_read` ends. -/
inductive ReadResult where
  | returned (newPackets : Bool)
  | endOfFile
  | readError
  deriving DecidableEq

namespace NetPeer

/-- A new peer on a buffer of uninitialized memory, with a default packet. -/
def new (memory : List UInt8) (fresh : Nat → UInt8) : Option NetPeer := do
  let inPacket ← (TalkPacket.construct fresh 0x0000 0x0F0 0xFFFF 0x0000).toOption
  return { inBuf := memory, inBufSize := memory.length, inPacket }

/-- Fill in the incomplete packet. -/
def fillIncomplete (p : NetPeer) (c : ReadCall) : Option (NetPeer × ReadCall) := do
  if p.inBytesRest = 0 then return (p, c)
  let nBytes2Copy := min p.inVirtualBytes p.inBytesRest
  let bytes ← Memory.read p.inBuf c.inBufPtr nBytes2Copy
  let contents ← Memory.write p.inPacket.contents p.inNextPacketByte bytes
  let p := { p with
    inPacket := { p.inPacket with contents }
    inVirtualBytes := p.inVirtualBytes - nBytes2Copy
    inBytesRest := p.inBytesRest - nBytes2Copy }
  let c := { c with inBufPtr := c.inBufPtr + nBytes2Copy }
  if p.inBytesRest = 0 then
    return ({ p with inPacketQueue := p.inPacketQueue ++ [p.inPacket] },
      { c with nNewPackets := c.nNewPackets + 1 })
  else
    return ({ p with inNextPacketByte := p.inNextPacketByte + nBytes2Copy }, c)

/-- Take all the packets from the incoming buffer; the last one may be incomplete. -/
def takePackets (fresh : Nat → UInt8) : Nat → NetPeer → ReadCall → Option (NetPeer × ReadCall)
  | fuel, p, c =>
    if p.inVirtualBytes < headerSize then some (p, c)
    else match fuel with
      | 0 => none
      | fuel + 1 => do
        let hdr ← (Memory.read p.inBuf c.inBufPtr headerSize).bind PacketHeader.ofBytes
        let inPacket ← (TalkPacket.ofHeader fresh hdr).toOption
        let nBytes2Copy := min p.inVirtualBytes inPacket.rawSize.toNat
        let bytes ← Memory.read p.inBuf c.inBufPtr nBytes2Copy
        let contents ← Memory.write inPacket.contents 0 bytes
        let p := { p with
          inPacket := { inPacket with contents }
          inNextPacketByte := 0
          inVirtualBytes := p.inVirtualBytes - nBytes2Copy }
        let c := { c with inBufPtr := c.inBufPtr + nBytes2Copy }
        if nBytes2Copy = p.inPacket.rawSize.toNat then
          takePackets fresh fuel { p with inPacketQueue := p.inPacketQueue ++ [p.inPacket] }
            { c with nNewPackets := c.nNewPackets + 1 }
        else
          return ({ p with
            inNextPacketByte := p.inNextPacketByte + nBytes2Copy
            inBytesRest := p.inPacket.rawSize.toNat - nBytes2Copy }, c)

/-- Move unprocessed bytes to the front of the incoming buffer. -/
def moveUnprocessed (p : NetPeer) (c : ReadCall) : Option NetPeer := do
  let bytes ← Memory.read p.inBuf c.inBufPtr p.inVirtualBytes
  let inBuf ← Memory.write p.inBuf 0 bytes
  return { p with inBuf }

/-- What an iteration does with the bytes in the buffer. Each packet takes at least
one byte, so the bytes bound the iterations of the inner loop. -/
def process (fresh : Nat → UInt8) (p : NetPeer) (c : ReadCall) : Option (NetPeer × ReadCall) := do
  let (p, c) ← p.fillIncomplete c
  let (p, c) ← takePackets fresh p.inVirtualBytes p c
  let p ← p.moveUnprocessed c
  return (p, c)

/-- The room that `recv` is called with. -/
def room (p : NetPeer) : Nat := p.inBufSize - p.inVirtualBytes

end NetPeer

/-- A peer, and the call of `handle_read` that is running on it. -/
structure Session where
  peer : NetPeer
  call : Option ReadCall := none

inductive Action where
  | handleRead
  | recv (outcome : Recv) (fresh : Nat → UInt8)
  | recvPacket

/-- What a step shows: a call began, `recv` was called for so many bytes and the call
went on or ended, or a packet was taken. `notified` tells if the callback was due. -/
inductive Seen where
  | called
  | received (requested : Nat) (notified : Bool) (result : Option ReadResult)
  | taken (packet : Option TalkPacket)
  deriving DecidableEq

namespace Session

/-- One iteration of the loop of `handle_read`. -/
def iterate (p : NetPeer) (c : ReadCall) (fresh : Nat → UInt8) :
    Recv → Option (Seen × Session)
  | .again =>
      some (.received p.room false (some (.returned (c.nNewPackets != 0))), { peer := p })
  | .interrupted => some (.received p.room false none, { peer := p, call := some c })
  | .closed => some (.received p.room false (some .endOfFile), { peer := p })
  | .failed => some (.received p.room false (some .readError), { peer := p })
  | .data bytes => do
      guard (0 < bytes.length ∧ bytes.length ≤ p.room)
      let requested := p.room
      let inBuf ← Memory.write p.inBuf p.inVirtualBytes bytes
      let p := { p with inBuf, inVirtualBytes := p.inVirtualBytes + bytes.length }
      let exhausted : Bool := bytes.length = p.inBufSize - p.inVirtualBytes
      let (p, c) ← p.process fresh c
      if exhausted then
        return (.received requested (c.nNewPackets != 0) none, { peer := p, call := some c })
      else
        return (.received requested (c.nNewPackets != 0) (some (.returned (c.nNewPackets != 0))),
          { peer := p })

def machine : Machine Session Action Seen where
  step s
    | .handleRead =>
        match s.call with
        | none => some (.called, { s with call := some {} })
        | some _ => none
    | .recv outcome fresh => s.call.bind fun c => iterate s.peer c fresh outcome
    | .recvPacket =>
        match s.peer.inPacketQueue with
        | [] => some (.taken none, s)
        | packet :: rest =>
            some (.taken (some packet), { s with peer := { s.peer with inPacketQueue := rest } })

end Session

end Crs.Ude
