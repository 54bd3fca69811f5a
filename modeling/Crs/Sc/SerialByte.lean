import Crs.Foundation.Memory

/-!
# A serial port with packets

`serialByte` cuts the incoming bytes into packets of one size. A packet goes to the
synchronization that is pending, to the communication section that waits for it, or to the
inbox. The reply is found out by `tracePacket`, which a derived class may replace.
-/

namespace Crs.Sc

open Foundation

/-- The bytes of a packet. -/
abbrev ComPacket : Type := List UInt8

namespace ComPacket

/-- A packet consists of its code, its command and more bytes. -/
def byteAt (packet : ComPacket) (i : Nat) : UInt8 := packet.getD i 0

/-- Only characters `U`. -/
def syncPacket (packet : ComPacket) : Bool := packet.all (· = 0x55)

end ComPacket

/-- What a port knows of its packets. -/
structure SerialByte where
  inbox : List ComPacket := []
  incomingPacket : ComPacket := []
  outgoingPacket : ComPacket := []
  waitComSection : Bool := false
  waitSyncPacket : Bool := false

/-- Whom a packet was given to. -/
inductive Route where
  | sync
  | comSection
  | inbox
  deriving DecidableEq

namespace SerialByte

/-- `tracePacket`: whether a packet is the reply to the last outgoing one, or an error code. -/
def tracePacket (outgoing incoming : ComPacket) : Bool :=
  let tmpByte := incoming.byteAt 0 <<< 4 ||| incoming.byteAt 0 >>> 4
  if outgoing.byteAt 0 ≠ tmpByte then false
  else if incoming.byteAt 1 ≠ outgoing.byteAt 1 then 0xAC < incoming.byteAt 1
  else true

variable (trace : ComPacket → ComPacket → Bool)

def isSyncPacket (s : SerialByte) (packet : ComPacket) : Bool × SerialByte :=
  if s.waitSyncPacket && packet.syncPacket then (true, { s with waitSyncPacket := false })
  else (false, s)

def isComSectionPacket (s : SerialByte) (packet : ComPacket) : Bool × SerialByte :=
  if s.waitComSection && trace s.outgoingPacket packet then
    (true, { s with waitComSection := false, incomingPacket := packet })
  else (false, s)

/-- The loop of `compileResponse`, for one packet. -/
def dispatch (s : SerialByte) (packet : ComPacket) : Route × SerialByte :=
  match s.isSyncPacket packet with
  | (true, s) => (.sync, s)
  | (false, s) =>
      match s.isComSectionPacket trace packet with
      | (true, s) => (.comSection, s)
      | (false, s) => (.inbox, { s with inbox := s.inbox ++ [packet] })

/-- `comSection` up to the wait, after the packet was written. -/
def request (s : SerialByte) (outPacket : ComPacket) : SerialByte :=
  { s with outgoingPacket := outPacket, waitComSection := true }

/-- `send`, after the packet was written. -/
def send (s : SerialByte) (outPacket : ComPacket) : SerialByte :=
  { s with outgoingPacket := outPacket, waitComSection := true }

def resetWaitComSection (s : SerialByte) : SerialByte := { s with waitComSection := false }

/-- What `synchronize` raises under its own mutex. -/
def awaitSyncPacket (s : SerialByte) : SerialByte := { s with waitSyncPacket := true }

variable {trace} {s : SerialByte} {packet : ComPacket}

/-- A packet that is not for a synchronization goes to the section that waits for it or to the
inbox. -/
theorem dispatch_of_not_sync (other : (s.waitSyncPacket && packet.syncPacket) = false) :
    s.dispatch trace packet =
      if s.waitComSection && trace s.outgoingPacket packet then
        (.comSection, { s with waitComSection := false, incomingPacket := packet })
      else (.inbox, { s with inbox := s.inbox ++ [packet] }) := by
  have passes : s.isSyncPacket packet = (false, s) := by simp [isSyncPacket, other]
  rw [dispatch, passes]
  by_cases waits : (s.waitComSection && trace s.outgoingPacket packet) = true
  · simp [isComSectionPacket, waits]
  · simp [isComSectionPacket, waits]

theorem dispatch_eq (unsynced : s.waitSyncPacket = false) : s.dispatch trace packet =
    if s.waitComSection && trace s.outgoingPacket packet then
      (.comSection, { s with waitComSection := false, incomingPacket := packet })
    else (.inbox, { s with inbox := s.inbox ++ [packet] }) :=
  dispatch_of_not_sync (by simp [unsynced])

variable (trace) in
theorem exists_dispatch (other : (s.waitSyncPacket && packet.syncPacket) = false) :
    ∃ route s', s.dispatch trace packet = (route, s') ∧ route ≠ .sync ∧
      s'.waitSyncPacket = s.waitSyncPacket := by
  rw [dispatch_of_not_sync other]
  split
  all_goals exact ⟨_, _, rfl, by decide, rfl⟩

variable (trace) in
theorem dispatch_sync (sync : (s.waitSyncPacket && packet.syncPacket) = true) :
    s.dispatch trace packet = (.sync, { s with waitSyncPacket := false }) := by
  simp [dispatch, isSyncPacket, sync]

end SerialByte

end Crs.Sc
