import Crs.Foundation.Memory

/-!
# Packets

A packet is a block of raw memory that starts with a packed header; `size` is its
length in 32 bits. The constructors compute the length in 64 bits and store it in 32,
write the header fields into fresh memory or copy memory of the caller. The reference
counter that copies share is left out: copies have equal contents.
-/

namespace Crs.Ude

open Foundation

/-- The packed fields in front of the contents. -/
structure PacketHeader where
  sz : UInt32
  id : UInt16
  domain : UInt16
  recepient : UInt16
  deriving DecidableEq, Repr

/-- `sizeof (cPacketHeader)`. -/
def headerSize : Nat := 10

namespace PacketHeader

def toBytes (h : PacketHeader) : List UInt8 :=
  Memory.bytesOf 4 h.sz.toNat ++ Memory.bytesOf 2 h.id.toNat ++
    Memory.bytesOf 2 h.domain.toNat ++ Memory.bytesOf 2 h.recepient.toNat

/-- The header that memory starts with. -/
def ofBytes (memory : List UInt8) : Option PacketHeader := do
  let sz ← Memory.read memory 0 4
  let id ← Memory.read memory 4 2
  let domain ← Memory.read memory 6 2
  let recepient ← Memory.read memory 8 2
  return {
    sz := .ofNat (Memory.valueOf sz)
    id := .ofNat (Memory.valueOf id)
    domain := .ofNat (Memory.valueOf domain)
    recepient := .ofNat (Memory.valueOf recepient) }

@[simp] theorem length_toBytes (h : PacketHeader) : h.toBytes.length = headerSize := by
  simp [toBytes, headerSize]

end PacketHeader

/-- An exception of the code, or an access outside an allocation. -/
inductive Failure where
  | rangeError (what : String)
  | outOfBounds
  deriving DecidableEq, Repr

def inBounds {α : Type} : Option α → Except Failure α
  | some a => .ok a
  | none => .error .outOfBounds

structure TalkPacket where
  size : UInt32
  contents : List UInt8
  deriving DecidableEq, Repr

namespace TalkPacket

/-- `new char [size]`, with whatever was in that memory before. -/
def allocate (fresh : Nat → UInt8) (size : UInt32) : List UInt8 := (List.range size.toNat).map fresh

/-- The length that `construct` computes: each sum is formed in 64 bits and stored in 32. -/
def constructSize (csz : UInt32) : UInt32 :=
  let size : UInt32 := (csz.toUInt64 + 10).toUInt32
  let slack : UInt32 := (csz.toUInt64 % 8).toUInt32
  if slack ≠ 0 then (size.toUInt64 + (8 - slack.toUInt64)).toUInt32 else size

def construct (fresh : Nat → UInt8) (pid : UInt16) (csz : UInt32) (dmn rcp : UInt16) :
    Except Failure TalkPacket := do
  let size := constructSize csz
  let contents := allocate fresh size
  let contents ← inBounds (Memory.write contents 0 (Memory.bytesOf 4 csz.toNat))
  let contents ← inBounds (Memory.write contents 4 (Memory.bytesOf 2 pid.toNat))
  let contents ← inBounds (Memory.write contents 6 (Memory.bytesOf 2 dmn.toNat))
  let contents ← inBounds (Memory.write contents 8 (Memory.bytesOf 2 rcp.toNat))
  return { size, contents }

/-- `cTalkPacket (hdr)`. -/
def ofHeader (fresh : Nat → UInt8) (hdr : PacketHeader) : Except Failure TalkPacket :=
  construct fresh hdr.id hdr.sz hdr.domain hdr.recepient

/-- `cTalkPacket (rawSize, rawContents)`; the caller's memory is read from its address on. -/
def ofRaw (rawSize : UInt64) (rawContents : Nat → UInt8) : Except Failure TalkPacket :=
  if rawSize.toNat < Memory.valueOf ((List.range 4).map rawContents) + headerSize then
    .error (.rangeError "insufficient raw size")
  else
    let size : UInt32 := rawSize.toUInt32
    .ok { size, contents := allocate rawContents size }

/-- `cTalkPacket (o)`: the contents are shared. -/
def copy (o : TalkPacket) : TalkPacket := { size := o.size, contents := o.contents }

def rawSize (p : TalkPacket) : UInt32 := p.size

def byteSize (p : TalkPacket) : Except Failure UInt32 :=
  inBounds ((Memory.read p.contents 0 4).map fun sz => .ofNat (Memory.valueOf sz))

def wordSize (p : TalkPacket) : Except Failure UInt32 := p.byteSize.map (· / 2)
def valueSize (p : TalkPacket) : Except Failure UInt32 := p.byteSize.map (· / 8)
def int64Size (p : TalkPacket) : Except Failure UInt32 := p.byteSize.map (· / 8)

/-- The check that the four accessors share. -/
def checkRange (what : String) (limit : Except Failure UInt32) (idx : UInt32) :
    Except Failure UInt32 := do
  let limit ← limit
  if limit ≤ idx then .error (.rangeError what) else .ok idx

def byteRange (p : TalkPacket) (idx : UInt32) : Except Failure UInt32 :=
  checkRange "cTalkPacket::_byte_range" p.byteSize idx

def wordRange (p : TalkPacket) (idx : UInt32) : Except Failure UInt32 :=
  checkRange "cTalkPacket::_word_range" p.wordSize idx

def valueRange (p : TalkPacket) (idx : UInt32) : Except Failure UInt32 :=
  checkRange "cTalkPacket::_value_range" p.valueSize idx

def int64Range (p : TalkPacket) (idx : UInt32) : Except Failure UInt32 :=
  checkRange "cTalkPacket::_int64_range" p.int64Size idx

/-- The bytes that round the contents up to whole doubles. -/
def padding (csz : Nat) : Nat := (8 - csz % 8) % 8

/-- The two roundings together, and the 32 bits that remain. -/
theorem toNat_constructSize (csz : UInt32) :
    (constructSize csz).toNat = (headerSize + csz.toNat + padding csz.toNat) % 2 ^ 32 := by
  have range := csz.toNat_lt
  have slack : (csz.toUInt64 % 8).toUInt32.toNat = csz.toNat % 8 := by
    simp only [UInt64.toNat_toUInt32, UInt64.toNat_mod, UInt32.toNat_toUInt64]
    show csz.toNat % 8 % 2 ^ 32 = _
    omega
  have sum : (csz.toUInt64 + 10).toUInt32.toNat = (csz.toNat + 10) % 2 ^ 32 := by
    simp only [UInt64.toNat_toUInt32, UInt64.toNat_add, UInt32.toNat_toUInt64]
    show (csz.toNat + 10) % 2 ^ 64 % 2 ^ 32 = _
    omega
  have whole : (csz.toUInt64 % 8).toUInt32 = 0 ↔ csz.toNat % 8 = 0 := by
    rw [← slack, ← UInt32.toNat_inj]
    rfl
  simp only [constructSize, headerSize, padding]
  obtain rounded | uneven := eq_or_ne (csz.toNat % 8) 0
  · rw [if_neg (by simpa using whole.mpr rounded), sum, rounded]
    omega
  · have gap : (8 - (csz.toUInt64 % 8).toUInt32.toUInt64).toNat = 8 - csz.toNat % 8 := by
      rw [UInt64.toNat_sub_of_le]
      · rw [UInt32.toNat_toUInt64, slack]
        rfl
      · rw [UInt64.le_iff_toNat_le, UInt32.toNat_toUInt64, slack]
        show csz.toNat % 8 ≤ 8
        omega
    rw [if_pos (by simpa using mt whole.mp uneven)]
    simp only [UInt64.toNat_toUInt32, UInt64.toNat_add, gap]
    rw [UInt32.toNat_toUInt64, sum]
    omega

end TalkPacket

end Crs.Ude
