import Crs.Ude.ElementMap
import Crs.Ude.Packet

/-!
# The device manager

Devices are registered under domains, and a packet is delivered to the devices of its
domain, or of all domains. Requests that are not local to the devices are posted into
the outbox, from which `proceed_request` takes them. `take` and the state of the world
that it works on stand for the virtual functions of the devices.
-/

namespace Crs.Ude

open Foundation

namespace PacketHeader

def idLocal : UInt16 := 0x8000
def idDTD : UInt16 := 0x0400
def idFast : UInt16 := 0x0100

def domainCommon : UInt16 := 0xFFFF

def idCheckBits (h : PacketHeader) (bitMask : UInt16) : Bool := h.id &&& bitMask = bitMask

end PacketHeader

/-- `none` for a packet that does not hold a whole header. -/
def TalkPacket.header (p : TalkPacket) : Option PacketHeader := PacketHeader.ofBytes p.contents

/-- A domain as a key of the map. -/
abbrev Domain : Type := Fin UInt16.size

structure DeviceManager (D : Type*) where
  container : ElementMap Domain D := .empty
  outbox : List TalkPacket := []

namespace DeviceManager

variable {D W : Type*}

def registerDevice (m : DeviceManager D) (domain : UInt16) : Option D → Bool × DeviceManager D
  | some dev => (true, { m with container := m.container.add domain.toFin (some dev) })
  | none => (false, m)

/-- The pointers that the destroyer is given come last. -/
def unregisterDevice [DecidableEq D] (m : DeviceManager D) (domain : UInt16) :
    Option D → Bool × DeviceManager D × List D
  | some dev =>
      let (container, handed) := m.container.remove domain.toFin (some dev)
      (true, { m with container }, handed)
  | none => (false, m, [])

/-- A device that returns 1 asks to be removed. -/
def packetDeliveryAction (take : D → TalkPacket → W → Int × W) (packet : TalkPacket) (d : D)
    (s : Unit × W) : Bool × Unit × W :=
  let (answer, w) := take d packet s.2
  (answer = 1, (), w)

/-- Domain level delivery. -/
def deliverResponse (m : DeviceManager D) (take : D → TalkPacket → W → Int × W)
    (packet : TalkPacket) (w : W) : Option (MapVisit Domain D W) :=
  packet.header.map fun hdr =>
    let action := packetDeliveryAction take packet
    if hdr.domain = PacketHeader.domainCommon then m.container.forEach action () w
    else m.container.forEachIn hdr.domain.toFin action () w

/-- Place a packet into the outbox, a fast one in front of the others. -/
def post (outbox : List TalkPacket) (packet : TalkPacket) : Option (List TalkPacket) := do
  let hdr ← packet.header
  if hdr.idCheckBits PacketHeader.idFast then return packet :: outbox
  else return outbox ++ [packet]

/-- A request between devices is not posted. -/
def isDeviceToDevice (hdr : PacketHeader) : Bool :=
  hdr.idCheckBits (PacketHeader.idLocal ||| PacketHeader.idDTD)

end DeviceManager

end Crs.Ude
