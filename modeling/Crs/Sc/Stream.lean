import Crs.Foundation.Blocks
import Crs.Foundation.Machine
import Crs.Sc.SerialByte

/-!
# Packets in the incoming stream

The port appends what it reads to a buffer, gives away the packets that are complete, and
moves the rest to the front. While `compileResponse` goes through the buffer, other threads
work with the inbox and the communication section; each packet is one step.
-/

namespace Crs.Sc

open Foundation

/-- The incoming buffer with its end, `dwAvailable` and `nBytesProcessed` while the loop of
`compileResponse` runs, and the rest of the device. -/
structure Port where
  inBuf : List UInt8
  inBufPtr : Nat := 0
  compiling : Option (Nat × Nat) := none
  device : SerialByte := {}

/-- Bytes were read; one round of the loop; or other threads have changed the device. -/
inductive PortAction where
  | handleRead (bytes : List UInt8)
  | compile
  | others (device : SerialByte)

inductive PortSeen where
  | received (bytes : List UInt8)
  | routed (packet : ComPacket) (route : Route)
  | compiled
  | quiet

namespace Port

variable (size : Nat) (trace : ComPacket → ComPacket → Bool)

/-- `handle_read` and the begin of `processIncomingBytes`. At most the free part of the
buffer is asked for. -/
def handleRead (s : Port) (bytes : List UInt8) : Option Port :=
  if s.compiling = none ∧ bytes ≠ [] ∧ bytes.length ≤ s.inBuf.length - s.inBufPtr then
    (Memory.write s.inBuf s.inBufPtr bytes).map fun inBuf => { s with
      inBuf
      inBufPtr := s.inBufPtr + bytes.length
      compiling := some (s.inBufPtr + bytes.length, 0) }
  else none

/-- The end of `processIncomingBytes`. -/
def compact (s : Port) (nBytesAvailable nBytesProcessed : Nat) : Option Port :=
  if nBytesProcessed = 0 then some { s with compiling := none }
  else
    let nBytesRest := nBytesAvailable - nBytesProcessed
    if nBytesRest = 0 then some { s with inBufPtr := 0, compiling := none }
    else
      (Memory.read s.inBuf nBytesProcessed nBytesRest).bind fun rest =>
        (Memory.write s.inBuf 0 rest).map fun inBuf =>
          { s with inBuf, inBufPtr := nBytesRest, compiling := none }

/-- One round of the loop of `compileResponse`, or its end. -/
def compile (s : Port) : Option (PortSeen × Port) :=
  s.compiling.bind fun (dwAvailable, nBytesProcessed) =>
    if size ≤ dwAvailable - nBytesProcessed then
      (Memory.read s.inBuf nBytesProcessed size).bind fun packet =>
        match s.device.dispatch trace packet with
        | (.sync, device) => ({ s with device }.compact dwAvailable dwAvailable).map fun s =>
            (.routed packet .sync, s)
        | (route, device) => some (.routed packet route,
            { s with device, compiling := some (dwAvailable, nBytesProcessed + size) })
    else (s.compact dwAvailable nBytesProcessed).map fun s => (.compiled, s)

def machine : Machine Port PortAction PortSeen where
  step s
    | .handleRead bytes => (s.handleRead bytes).map fun s => (.received bytes, s)
    | .compile => s.compile size trace
    | .others device => some (.quiet, { s with device })

/-- A port with a buffer. -/
def new (inBuf : List UInt8) : Port := { inBuf }

def PortSeen.bytes : PortSeen → List UInt8
  | .received bytes => bytes
  | .routed _ _ | .compiled | .quiet => []

def PortSeen.packet? : PortSeen → Option ComPacket
  | .routed packet _ => some packet
  | .received _ | .compiled | .quiet => none

/-- The stream read so far. -/
def received (history : List (PortAction × PortSeen)) : List UInt8 :=
  history.flatMap fun event => PortSeen.bytes event.2

/-- The packets given away so far. -/
def routed (history : List (PortAction × PortSeen)) : List ComPacket :=
  history.filterMap fun event => PortSeen.packet? event.2

/-- The part of the buffer in front of the next packet. -/
def processed (s : Port) : Nat := s.compiling.elim 0 Prod.snd

/-- What was read is what was given away and what is in the buffer. -/
structure Streaming (history : List (PortAction × PortSeen)) (s : Port) : Prop where
  sized : ∀ packet ∈ routed history, packet.length = size
  unsynced : ∀ event ∈ history, ∀ packet, event.2 ≠ .routed packet .sync
  balance : received history =
    (routed history).flatten ++ (s.inBuf.take s.inBufPtr).drop s.processed
  inside : s.processed ≤ s.inBufPtr ∧ s.inBufPtr ≤ s.inBuf.length
  available : ∀ range, s.compiling = some range → range.1 = s.inBufPtr
  short : s.compiling = none → s.inBufPtr < size

/-- The next packet is the one that a synchronization waits for. -/
def syncNext (s : Port) : Bool :=
  s.device.waitSyncPacket && s.compiling.any fun range =>
    size ≤ range.1 - range.2 && ComPacket.syncPacket ((s.inBuf.drop range.2).take size)

section Steps

variable {size : Nat} {trace : ComPacket → ComPacket → Bool}
  {history : List (PortAction × PortSeen)} {s s' : Port} {a : PortAction} {o : PortSeen}

@[simp] theorem received_snoc :
    received (history ++ [(a, o)]) = received history ++ PortSeen.bytes o := by
  simp [received]

@[simp] theorem routed_snoc :
    routed (history ++ [(a, o)]) = routed history ++ (PortSeen.packet? o).toList :=
  Machine.filterMap_snoc _ history (a, o)

theorem snoc_unsynced (before : ∀ event ∈ history, ∀ packet, event.2 ≠ .routed packet .sync)
    (now : ∀ packet, o ≠ .routed packet .sync) :
    ∀ event ∈ history ++ [(a, o)], ∀ packet, event.2 ≠ .routed packet .sync := by
  intro event member packet
  obtain member | here := List.mem_append.mp member
  · exact before event member packet
  · obtain rfl := List.mem_singleton.mp here
    exact now packet

/-- The rest of the buffer is moved to its front. -/
theorem compact_spec {ptr n : Nat} (filled : ptr ≤ s.inBuf.length) (inside : n ≤ ptr)
    (here : s.inBufPtr = ptr) :
    ∃ inBuf, s.compact ptr n = some { s with inBuf, inBufPtr := ptr - n, compiling := none } ∧
      inBuf.length = s.inBuf.length ∧ inBuf.take (ptr - n) = (s.inBuf.take ptr).drop n := by
  by_cases none : n = 0
  · subst none here
    exact ⟨s.inBuf, if_pos rfl, rfl, rfl⟩
  · by_cases rest : ptr - n = 0
    · refine ⟨s.inBuf, ?_, rfl, ?_⟩
      · rw [compact, if_neg none, if_pos rest, rest]
      · rw [rest, List.take_zero, List.drop_take, rest, List.take_zero]
    · obtain ⟨moved, inBuf, readsThem, writes, same, front⟩ :=
        Memory.exists_move s.inBuf inside filled
      refine ⟨inBuf, ?_, same, front⟩
      rw [compact, if_neg none, if_neg rest, readsThem, Option.bind_some, writes]
      rfl

theorem read_streaming (streaming : Streaming size history s) {bytes : List UInt8}
    (reads : s.handleRead bytes = some s') :
    Streaming size (history ++ [(.handleRead bytes, .received bytes)]) s' ∧
      s'.inBuf.length = s.inBuf.length ∧ s'.device = s.device := by
  rw [handleRead] at reads
  split at reads
  · rename_i legal
    obtain ⟨calm, -, room⟩ := legal
    obtain ⟨-, filled⟩ := streaming.inside
    obtain ⟨inBuf, writes, length, front⟩ := Memory.write_spec s.inBuf s.inBufPtr bytes (by omega)
    rw [writes] at reads
    obtain rfl := Option.some.inj reads
    refine ⟨⟨?_, ?_, ?_, ⟨Nat.zero_le _, ?_⟩, ?_, nofun⟩, length, rfl⟩
    · simpa [PortSeen.packet?] using streaming.sized
    · exact snoc_unsynced streaming.unsynced (by simp)
    · have balance := streaming.balance
      simp only [processed, calm, Option.elim_none, List.drop_zero] at balance
      simp [PortSeen.packet?, PortSeen.bytes, balance, processed, front]
    · change s.inBufPtr + bytes.length ≤ inBuf.length
      omega
    · rintro range same
      exact Option.some.inj same ▸ rfl
  · cases reads

theorem syncNext_of_unsynced (unsynced : s.device.waitSyncPacket = false) :
    s.syncNext size = false := by
  simp [syncNext, unsynced]

variable (trace) in
/-- A round of the loop gives the next packet away, or what is left is moved to the front. -/
theorem compile_spec (streaming : Streaming size history s) (other : s.syncNext size = false)
    {range : Nat × Nat} (compiling : s.compiling = some range) :
    range.1 = s.inBufPtr ∧ range.2 ≤ s.inBufPtr ∧
    ((size ≤ s.inBufPtr - range.2 ∧ ∃ route device,
        s.compile size trace = some (.routed ((s.inBuf.drop range.2).take size) route,
          { s with device, compiling := some (s.inBufPtr, range.2 + size) }) ∧
        route ≠ .sync ∧ device.waitSyncPacket = s.device.waitSyncPacket) ∨
      (s.inBufPtr - range.2 < size ∧ ∃ inBuf,
        s.compile size trace = some (.compiled,
          { s with inBuf, inBufPtr := s.inBufPtr - range.2, compiling := none }) ∧
        inBuf.length = s.inBuf.length ∧
        inBuf.take (s.inBufPtr - range.2) = (s.inBuf.take s.inBufPtr).drop range.2)) := by
  obtain ⟨avail, n⟩ := range
  obtain rfl : avail = s.inBufPtr := streaming.available _ compiling
  obtain ⟨inside, filled⟩ := streaming.inside
  simp only [processed, compiling, Option.elim_some] at inside
  refine ⟨rfl, inside, ?_⟩
  simp only [compile, compiling, Option.bind_some]
  obtain enough | less := le_or_gt size (s.inBufPtr - n)
  · have next : (s.device.waitSyncPacket &&
        ComPacket.syncPacket ((s.inBuf.drop n).take size)) = false := by
      simpa [syncNext, compiling, enough] using other
    obtain ⟨route, device, gives, other, still⟩ := SerialByte.exists_dispatch trace next
    refine .inl ⟨enough, route, device, ?_, other, still⟩
    rw [if_pos enough, Memory.read_of_le (by omega), Option.bind_some, gives]
    cases route with
    | sync => exact absurd rfl other
    | comSection | inbox => rfl
  · obtain ⟨inBuf, compacts, length, front⟩ := compact_spec filled inside rfl
    refine .inr ⟨less, inBuf, ?_, length, front⟩
    rw [if_neg (Nat.not_le.mpr less), compacts, Option.map_some]

variable (trace) in
/-- The packet for the synchronization takes with it all that was read. -/
theorem compile_sync (positive : 0 < size) (streaming : Streaming size history s)
    (sync : s.syncNext size = true) : ∃ packet dropped,
      s.compile size trace = some (.routed packet .sync,
        { s with
          device := { s.device with waitSyncPacket := false }
          inBufPtr := 0
          compiling := none }) ∧
      packet.length = size ∧ ComPacket.syncPacket packet = true ∧ size ≤ s.inBuf.length ∧
      received history = (routed history).flatten ++ packet ++ dropped := by
  cases compiling : s.compiling with
  | none => simp [syncNext, compiling] at sync
  | some range =>
    obtain ⟨avail, n⟩ := range
    obtain rfl : avail = s.inBufPtr := streaming.available _ compiling
    obtain ⟨pending, enough, marks⟩ : s.device.waitSyncPacket = true ∧ size ≤ s.inBufPtr - n ∧
        ComPacket.syncPacket ((s.inBuf.drop n).take size) = true := by
      simpa [syncNext, compiling] using sync
    obtain ⟨-, filled⟩ := streaming.inside
    have balance := streaming.balance
    simp only [processed, compiling, Option.elim_some] at balance
    have gives := SerialByte.dispatch_sync trace (Bool.and_eq_true_iff.mpr ⟨pending, marks⟩)
    refine ⟨(s.inBuf.drop n).take size, (s.inBuf.take s.inBufPtr).drop (n + size), ?_, ?_, marks,
      by omega, ?_⟩
    · simp only [compile, compiling, Option.bind_some]
      rw [if_pos enough, Memory.read_of_le (by omega), Option.bind_some, gives]
      have whole : s.inBufPtr ≠ 0 := by omega
      simp [compact, whole]
    · rw [List.length_take, List.length_drop]
      omega
    · rw [balance, Memory.drop_take_split s.inBuf enough, List.append_assoc]

theorem compile_streaming (streaming : Streaming size history s)
    (other : s.syncNext size = false) (step : s.compile size trace = some (o, s')) :
    Streaming size (history ++ [(.compile, o)]) s' ∧ s'.inBuf.length = s.inBuf.length ∧
      s'.device.waitSyncPacket = s.device.waitSyncPacket := by
  obtain ⟨⟨avail, n⟩, compiling, -⟩ := Option.bind_eq_some_iff.mp step
  obtain ⟨-, filled⟩ := streaming.inside
  have balance := streaming.balance
  simp only [processed, compiling, Option.elim_some] at balance
  obtain ⟨-, inside, ⟨enough, route, device, gives, other, still⟩ |
      ⟨less, inBuf, ends, length, front⟩⟩ := compile_spec trace streaming other compiling
  · obtain ⟨rfl, rfl⟩ := by simpa using gives.symm.trans step
    refine ⟨⟨fun packet member => ?_, snoc_unsynced streaming.unsynced (by simp [other]), ?_,
      ⟨?_, filled⟩, ?_, nofun⟩, rfl, still⟩
    · rw [routed_snoc] at member
      obtain member | here := List.mem_append.mp member
      · exact streaming.sized packet member
      · obtain rfl : packet = (s.inBuf.drop n).take size := by
          simpa [PortSeen.packet?] using here
        rw [List.length_take, List.length_drop]
        simp only at enough
        omega
    · rw [received_snoc, routed_snoc, balance, Memory.drop_take_split s.inBuf enough]
      simp [PortSeen.packet?, PortSeen.bytes, processed]
    · change n + size ≤ s.inBufPtr
      simp only at enough inside
      omega
    · rintro range same
      exact Option.some.inj same ▸ rfl
  · obtain ⟨rfl, rfl⟩ := by simpa using ends.symm.trans step
    refine ⟨⟨?_, ?_, ?_, ⟨Nat.zero_le _, ?_⟩, nofun, fun _ => less⟩, length, rfl⟩
    · simpa [PortSeen.packet?] using streaming.sized
    · exact snoc_unsynced streaming.unsynced (by simp)
    · simp [PortSeen.packet?, PortSeen.bytes, balance, processed, front]
    · change s.inBufPtr - n ≤ inBuf.length
      omega

theorem others_streaming (streaming : Streaming size history s) {device : SerialByte} :
    Streaming size (history ++ [(.others device, .quiet)]) { s with device } := by
  refine ⟨?_, ?_, ?_, streaming.inside, streaming.available, streaming.short⟩
  · simpa [PortSeen.packet?] using streaming.sized
  · exact snoc_unsynced streaming.unsynced (by simp)
  · simpa [PortSeen.packet?, PortSeen.bytes, processed] using streaming.balance

theorem step_streaming (streaming : Streaming size history s)
    (unsynced : s.device.waitSyncPacket = false)
    (step : (machine size trace).step s a = some (o, s')) :
    Streaming size (history ++ [(a, o)]) s' ∧ s'.inBuf.length = s.inBuf.length := by
  cases a with
  | handleRead bytes =>
    obtain ⟨t, reads, result⟩ := Option.map_eq_some_iff.mp step
    obtain ⟨rfl, rfl⟩ := by simpa using result
    obtain ⟨next, length, -⟩ := read_streaming streaming reads
    exact ⟨next, length⟩
  | compile =>
    obtain ⟨next, length, -⟩ :=
      compile_streaming streaming (syncNext_of_unsynced unsynced) step
    exact ⟨next, length⟩
  | others device =>
    obtain ⟨rfl, rfl⟩ := by simpa [machine] using step
    exact ⟨others_streaming streaming, rfl⟩

theorem run_streaming {inBuf : List UInt8} (positive : 0 < size)
    (run : (machine size trace).Run (new inBuf) history s)
    (unsynced : (machine size trace).Throughout (new inBuf)
      (fun _ s => s.device.waitSyncPacket = false) history) :
    Streaming size history s ∧ s.inBuf.length = inBuf.length := by
  induction run with
  | nil =>
    refine ⟨⟨?_, ?_, rfl, ⟨le_rfl, Nat.zero_le _⟩, nofun, fun _ => positive⟩, rfl⟩
    · simp [routed]
    · simp
  | snoc earlier step ih =>
    obtain ⟨before, -⟩ := (Machine.throughout_snoc earlier step).mp unsynced
    obtain ⟨streaming, length⟩ := ih before
    have now := before _ _ List.prefix_rfl earlier
    obtain ⟨next, same⟩ := step_streaming streaming now step
    exact ⟨next, same.trans length⟩

/-- Only other threads begin a synchronization. -/
theorem run_unsynced {inBuf : List UInt8} (positive : 0 < size)
    (run : (machine size trace).Run (new inBuf) history s)
    (quiet : ∀ device o, (.others device, o) ∈ history → device.waitSyncPacket = false) :
    (machine size trace).Throughout (new inBuf) (fun _ s => s.device.waitSyncPacket = false)
      history := by
  induction run with
  | nil =>
    intro earlier t before reached
    obtain rfl := List.prefix_nil.mp before
    obtain rfl := reached.deterministic .nil
    rfl
  | @snoc history t u a o earlier step ih =>
    have before := ih fun device o member => quiet device o (List.mem_append_left _ member)
    have now := before _ _ List.prefix_rfl earlier
    apply (Machine.throughout_snoc earlier step).mpr ⟨before, ?_⟩
    obtain ⟨streaming, -⟩ := run_streaming positive earlier before
    cases a with
    | handleRead bytes =>
      obtain ⟨t, reads, result⟩ := Option.map_eq_some_iff.mp step
      obtain ⟨rfl, rfl⟩ := by simpa using result
      obtain ⟨-, -, same⟩ := read_streaming streaming reads
      rw [same]
      exact now
    | compile =>
      obtain ⟨-, -, same⟩ := compile_streaming streaming (syncNext_of_unsynced now) step
      exact same.trans now
    | others device =>
      obtain ⟨rfl, rfl⟩ := by simpa [machine] using step
      exact quiet device .quiet (by simp)

/-- The loop of `compileResponse` comes to its end. -/
theorem exists_compiled (positive : 0 < size) (streaming : Streaming size history s)
    (unsynced : s.device.waitSyncPacket = false) :
    ∃ rest t, (machine size trace).Run s rest t ∧ (∀ event ∈ rest, event.1 = .compile) ∧
      t.compiling = none := by
  generalize left : s.inBufPtr - s.processed = n
  induction n using Nat.strong_induction_on generalizing s history with
  | _ n ih =>
    cases compiling : s.compiling with
    | none => exact ⟨[], s, .nil, by simp, compiling⟩
    | some range =>
      obtain ⟨-, inside, ⟨enough, route, device, gives, -, still⟩ | ⟨-, inBuf, ends, -⟩⟩ :=
        compile_spec trace streaming (syncNext_of_unsynced unsynced) compiling
      · obtain ⟨next, -, same⟩ :=
          compile_streaming streaming (syncNext_of_unsynced unsynced) gives
        have nearer : s.inBufPtr - (range.2 + size) < n := by
          simp only [processed, compiling, Option.elim_some] at left
          omega
        obtain ⟨rest, t, run, only, calm⟩ := ih _ nearer next (same.trans unsynced) rfl
        have first : (machine size trace).step s .compile = some _ := gives
        exact ⟨_, t, .cons first run, by simpa using only, calm⟩
      · have last : (machine size trace).step s .compile = some _ := ends
        exact ⟨_, _, .single last, by simp, rfl⟩

/-- Between two reads, all blocks were given away. -/
theorem Streaming.blocks_eq (streaming : Streaming size history s) (positive : 0 < size)
    (calm : s.compiling = none) : routed history = blocks size (received history) ∧
      s.inBuf.take s.inBufPtr = blocksTail size (received history) := by
  have tail : (s.inBuf.take s.inBufPtr).length < size := by
    have short := streaming.short calm
    rw [List.length_take]
    omega
  have balance := streaming.balance
  simp only [processed, calm, Option.elim_none, List.drop_zero] at balance
  constructor
  · rw [balance, blocks_flatten positive streaming.sized, blocks_of_short tail, List.append_nil]
  · rw [balance, blocksTail_flatten positive streaming.sized, blocksTail_of_short tail]

end Steps

end Port

end Crs.Sc
