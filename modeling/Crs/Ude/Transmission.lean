import Crs.Foundation.Machine
import Crs.Ude.Packet
import Mathlib.Data.Fintype.Basic
import Mathlib.Logic.Function.Basic

/-!
# The transmitting side of a peer

A packet that `send_packet` accepts occupies the only slot until `handle_write` has
given all its bytes to the socket. The timed `send_packet` posts the packet in one
locked section and waits in another one. With the timeout -1 it waits without a
predicate and clears the flag of the slot after it woke up, whatever is in the slot by
then; any other timeout awaits the flag itself.

Every section under the mutex is one step. A thread leaves the wait set when it is
notified, or, with a deadline, when that passes.
-/

namespace Crs.Ude

open Foundation

/-- The slot for the packet that is being transmitted. -/
structure OutSlot where
  outBuf : TalkPacket
  outNextByte : Nat := 0
  outVirtualBytes : Nat := 0
  outBytesTotal : Nat := 0
  outFlag : Bool := false
  deriving DecidableEq

/-- What `send` returns: a number of bytes, or -1 with an error code. -/
inductive SendResult where
  | sent (count : Nat)
  | again
  | interrupted
  | failed
  deriving DecidableEq

namespace OutSlot

/-- The non-blocking `send_packet`. A packet has as many bytes as its size says. -/
def sendPacket (o : OutSlot) (packet : TalkPacket) : Option (Bool × OutSlot) :=
  if packet.contents.length = packet.rawSize.toNat then
    if o.outFlag then some (false, o)
    else some (true, {
      outBuf := packet
      outNextByte := 0
      outVirtualBytes := 0
      outBytesTotal := packet.rawSize.toNat
      outFlag := true })
  else none

/-- The loop of `handle_write`, with the results of its calls of `send`: the bytes given
to the socket and the slot. A call with nothing to send accepts nothing. -/
def handleWrite : List SendResult → OutSlot → Option (List UInt8 × OutSlot)
  | [], o => if o.outFlag then none else some ([], o)
  | result :: rest, o =>
      if o.outFlag then
        match result with
        | .again | .failed => if rest.isEmpty then some ([], o) else none
        | .interrupted => handleWrite rest o
        | .sent count =>
            let left := o.outBytesTotal - o.outVirtualBytes
            if count ≤ left ∧ (0 < count ∨ left = 0) then do
              let bytes ← Memory.read o.outBuf.contents o.outNextByte count
              let o := { o with
                outVirtualBytes := o.outVirtualBytes + count
                outNextByte := o.outNextByte + count }
              let o := { o with outFlag := o.outVirtualBytes != o.outBytesTotal }
              let (more, o) ← handleWrite rest o
              return (bytes ++ more, o)
            else none
      else none

end OutSlot

/-- The timeout -1, or another one. -/
inductive Timeout where
  | forever
  | timed
  deriving DecidableEq

/-- A thread outside, between the two sections of the timed `send_packet`, in the wait
set, or on its way from there to the mutex. -/
inductive Sender where
  | idle
  | posted (timeout : Timeout)
  | asleep (timeout : Timeout)
  | awake (timeout : Timeout) (notified : Bool)
  deriving DecidableEq

def Sender.isAsleep : Sender → Bool
  | .asleep _ => true
  | .idle | .posted _ | .awake _ _ => false

structure Transmitter (T : Type*) where
  slot : OutSlot
  sender : T → Sender

/-- The sections. `handleWrite` says whom its notification wakes. -/
inductive OutAction (T : Type*) where
  | sendPacket (t : T) (packet : TalkPacket)
  | sendTimed (t : T) (packet : TalkPacket) (timeout : Timeout)
  | await (t : T)
  | expire (t : T)
  | recheck (t : T)
  | handleWrite (results : List SendResult) (woken : Option T)

/-- A packet was accepted or refused, bytes were given to the socket, or the timed
`send_packet` went to sleep or returned. -/
inductive OutSeen where
  | accepted (packet : TalkPacket)
  | refused
  | wrote (bytes : List UInt8)
  | waiting
  | returned (sent : Bool)

namespace Transmitter

variable {T : Type*} [Fintype T] [DecidableEq T]

/-- `notify_one`, for a legal choice of the woken thread. -/
def notifyOne (sender : T → Sender) : Option T → Option (T → Sender)
  | none => if ∀ u, (sender u).isAsleep = false then some sender else none
  | some u =>
      match sender u with
      | .asleep timeout => some (Function.update sender u (.awake timeout true))
      | .idle | .posted _ | .awake _ _ => none

/-- The end of the timed `send_packet`: the flag is cleared. -/
def finish (s : Transmitter T) (t : T) : OutSeen × Transmitter T :=
  (.returned true, { slot := { s.slot with outFlag := false }
                     sender := Function.update s.sender t .idle })

def machine (T : Type*) [Fintype T] [DecidableEq T] :
    Machine (Transmitter T) (OutAction T) OutSeen where
  step s
    | .sendPacket t packet =>
        match s.sender t with
        | .idle => (s.slot.sendPacket packet).map fun (sent, slot) =>
            (if sent then .accepted packet else .refused, { s with slot })
        | .posted _ | .asleep _ | .awake _ _ => none
    | .sendTimed t packet timeout =>
        match s.sender t with
        | .idle => (s.slot.sendPacket packet).map fun (sent, slot) =>
            if sent then
              (.accepted packet, { slot, sender := Function.update s.sender t (.posted timeout) })
            else (.refused, { s with slot })
        | .posted _ | .asleep _ | .awake _ _ => none
    | .await t =>
        match s.sender t with
        | .posted timeout =>
            if timeout = .timed ∧ !s.slot.outFlag then some (s.finish t)
            else some (.waiting,
              { s with sender := Function.update s.sender t (.asleep timeout) })
        | .idle | .asleep _ | .awake _ _ => none
    | .expire t =>
        match s.sender t with
        | .asleep .timed =>
            some (.waiting, { s with sender := Function.update s.sender t (.awake .timed false) })
        | .asleep .forever | .idle | .posted _ | .awake _ _ => none
    | .recheck t =>
        match s.sender t with
        | .awake .forever _ => some (s.finish t)
        | .awake .timed notified =>
            if !s.slot.outFlag then some (s.finish t)
            else if notified then
              some (.waiting, { s with sender := Function.update s.sender t (.asleep .timed) })
            else some (.returned false, { s with sender := Function.update s.sender t .idle })
        | .idle | .posted _ | .asleep _ => none
    | .handleWrite results woken =>
        (s.slot.handleWrite results).bind fun (bytes, slot) =>
          if s.slot.outFlag ∧ !slot.outFlag then
            (notifyOne s.sender woken).map fun sender => (.wrote bytes, { slot, sender })
          else if woken.isNone then some (.wrote bytes, { s with slot })
          else none

/-- A peer with an empty slot and all threads outside. -/
def new (T : Type*) (outBuf : TalkPacket) : Transmitter T :=
  { slot := { outBuf }, sender := fun _ => .idle }

end Transmitter

section Slot

namespace OutSlot

/-- The bytes of the packet in the slot that are still to be written. -/
def pending (o : OutSlot) : List UInt8 :=
  if o.outFlag then o.outBuf.contents.drop o.outVirtualBytes else []

/-- The cursors of an occupied slot agree. -/
def Ready (o : OutSlot) : Prop :=
  o.outFlag = true → o.outBytesTotal = o.outBuf.contents.length ∧
    o.outNextByte = o.outVirtualBytes ∧ o.outVirtualBytes ≤ o.outBytesTotal

variable {o o' : OutSlot} {packet : TalkPacket} {sent : Bool} {bytes : List UInt8}

theorem pending_of_clear (clear : o.outFlag = false) : o.pending = [] := by
  simp [pending, clear]

/-- A packet is refused by an occupied slot, or it occupies the slot. -/
theorem sendPacket_cases (called : o.sendPacket packet = some (sent, o')) :
    (sent = false ∧ o.outFlag = true ∧ o' = o) ∨
      (sent = true ∧ o.outFlag = false ∧ o'.outFlag = true ∧ o'.outBuf = packet) := by
  rw [sendPacket] at called
  split at called
  · split at called
    · rename_i busy
      obtain ⟨rfl, rfl⟩ := by simpa using called
      exact .inl ⟨rfl, busy, rfl⟩
    · rename_i free
      obtain ⟨rfl, rfl⟩ := by simpa using called
      exact .inr ⟨rfl, Bool.eq_false_of_not_eq_true free, rfl, rfl⟩
  · cases called

/-- An accepted packet is pending as a whole; a refused one changes nothing. -/
theorem sendPacket_spec (called : o.sendPacket packet = some (sent, o')) :
    (sent = false ∧ o' = o) ∨
      (sent = true ∧ o.pending = [] ∧ o'.pending = packet.contents ∧ o'.Ready) := by
  simp only [sendPacket] at called
  split at called
  · rename_i length
    split at called
    · obtain ⟨rfl, rfl⟩ := by simpa using called
      exact .inl ⟨rfl, rfl⟩
    · rename_i empty
      obtain ⟨rfl, rfl⟩ := by simpa using called
      refine .inr ⟨rfl, by simp [pending, empty], by simp [pending], fun _ => ?_⟩
      exact ⟨length.symm, rfl, Nat.zero_le _⟩
  · cases called

/-- The loop writes the pending bytes from the front. -/
theorem handleWrite_spec {results : List SendResult} (ready : o.Ready)
    (written : handleWrite results o = some (bytes, o')) :
    bytes ++ o'.pending = o.pending ∧ o'.Ready := by
  induction results generalizing o bytes with
  | nil =>
      simp only [handleWrite] at written
      split at written
      · cases written
      · obtain ⟨rfl, rfl⟩ := by simpa using written
        exact ⟨rfl, ready⟩
  | cons result rest ih =>
      simp only [handleWrite] at written
      split at written
      · rename_i flag
        cases result with
        | again | failed =>
            simp only at written
            split at written
            · obtain ⟨rfl, rfl⟩ := by simpa using written
              exact ⟨rfl, ready⟩
            · cases written
        | interrupted => exact ih ready written
        | sent count =>
            obtain ⟨total, next, inside⟩ := ready flag
            simp only at written
            split at written
            · rename_i legal
              simp only [Option.bind_eq_bind, Option.bind_eq_some_iff] at written
              obtain ⟨front, readFront, ⟨more, last⟩, further, result⟩ := written
              obtain ⟨rfl, rfl⟩ := by simpa using result
              have fits := legal.1
              rw [Memory.read_of_le (by omega)] at readFront
              obtain rfl := Option.some.inj readFront
              have ready' : Ready { o with
                  outNextByte := o.outNextByte + count
                  outVirtualBytes := o.outVirtualBytes + count
                  outFlag := o.outVirtualBytes + count != o.outBytesTotal } :=
                fun _ => ⟨total, by simp [next],
                  by show o.outVirtualBytes + count ≤ o.outBytesTotal; omega⟩
              obtain ⟨rest, still⟩ := ih ready' further
              refine ⟨?_, still⟩
              rw [List.append_assoc, rest, pending, pending, if_pos flag, next]
              -- the flag goes down when nothing is left behind the bytes sent
              obtain whole | part := eq_or_ne (o.outVirtualBytes + count) o.outBytesTotal
              · have all : o.outBuf.contents.drop o.outVirtualBytes =
                    (o.outBuf.contents.drop o.outVirtualBytes).take count := by
                  rw [List.take_of_length_le (by rw [List.length_drop]; omega)]
                simp [whole, ← all]
              · simp only [bne_iff_ne.mpr part, if_true]
                rw [← List.drop_drop, List.take_append_drop]
            · cases written
      · cases written

end OutSlot

end Slot

namespace Transmitter

variable {T : Type*}

/-- The packet that a step accepts. -/
def OutSeen.packet : OutSeen → List TalkPacket
  | .accepted packet => [packet]
  | .refused | .wrote _ | .waiting | .returned _ => []

/-- The bytes that a step gives to the socket. -/
def OutSeen.bytes : OutSeen → List UInt8
  | .wrote bytes => bytes
  | .accepted _ | .refused | .waiting | .returned _ => []

/-- The bytes of the accepted packets, in acceptance order. -/
def accepted (history : List (OutAction T × OutSeen)) : List UInt8 :=
  history.flatMap fun event => (OutSeen.packet event.2).flatMap (·.contents)

/-- The bytes given to the socket. -/
def written (history : List (OutAction T × OutSeen)) : List UInt8 :=
  history.flatMap fun event => OutSeen.bytes event.2

/-- A thread that waited without a predicate returns while nothing of a packet is left in
the slot. -/
def careful (s : Transmitter T) : OutAction T → Bool
  | .recheck t =>
      match s.sender t with
      | .awake .forever _ => !s.slot.outFlag || s.slot.outVirtualBytes == s.slot.outBytesTotal
      | .awake .timed _ | .idle | .posted _ | .asleep _ => true
  | .sendPacket _ _ | .sendTimed _ _ _ | .await _ | .expire _ | .handleWrite _ _ => true

variable {history : List (OutAction T × OutSeen)} {s s' : Transmitter T} {a : OutAction T}
  {o : OutSeen}

@[simp] theorem accepted_snoc : accepted (history ++ [(a, o)]) =
    accepted history ++ (OutSeen.packet o).flatMap (·.contents) := by
  simp [accepted]

@[simp] theorem written_snoc :
    written (history ++ [(a, o)]) = written history ++ OutSeen.bytes o := by
  simp [written]

/-- What was written and what is pending are the accepted packets. -/
structure InOrder (history : List (OutAction T × OutSeen)) (s : Transmitter T) : Prop where
  ready : s.slot.Ready
  balance : written history ++ s.slot.pending = accepted history

variable [Fintype T] [DecidableEq T]

/-- A step accepts a packet into an empty slot, writes from the front of the pending
bytes, clears the flag, or leaves the slot alone. -/
theorem step_cases (ready : s.slot.Ready) (step : (machine T).step s a = some (o, s')) :
    (∃ packet, o = .accepted packet ∧ s.slot.pending = [] ∧ s'.slot.pending = packet.contents ∧
      s'.slot.Ready) ∨
    (∃ bytes, o = .wrote bytes ∧ bytes ++ s'.slot.pending = s.slot.pending ∧ s'.slot.Ready) ∨
    (o = .returned true ∧ s'.slot = { s.slot with outFlag := false } ∧
      (careful s a = true → s.slot.pending = [])) ∨
    (OutSeen.packet o = [] ∧ OutSeen.bytes o = [] ∧ s'.slot = s.slot) := by
  cases a with
  | sendPacket t packet =>
      simp only [machine] at step
      split at step
      · obtain ⟨⟨sent, slot⟩, called, result⟩ := Option.map_eq_some_iff.mp step
        obtain ⟨rfl, rfl⟩ := by simpa using result
        obtain ⟨rfl, rfl⟩ | ⟨rfl, empty, whole, ready'⟩ := OutSlot.sendPacket_spec called
        · exact .inr (.inr (.inr ⟨rfl, rfl, rfl⟩))
        · exact .inl ⟨packet, rfl, empty, whole, ready'⟩
      all_goals cases step
  | sendTimed t packet timeout =>
      simp only [machine] at step
      split at step
      · obtain ⟨⟨sent, slot⟩, called, result⟩ := Option.map_eq_some_iff.mp step
        obtain ⟨rfl, rfl⟩ | ⟨rfl, empty, whole, ready'⟩ := OutSlot.sendPacket_spec called
        · obtain ⟨rfl, rfl⟩ := by simpa using result
          exact .inr (.inr (.inr ⟨rfl, rfl, rfl⟩))
        · obtain ⟨rfl, rfl⟩ := by simpa using result
          exact .inl ⟨packet, rfl, empty, whole, ready'⟩
      all_goals cases step
  | await t =>
      simp only [machine] at step
      split at step
      · split at step
        · rename_i clear
          obtain ⟨rfl, rfl⟩ := by simpa [finish] using step
          refine .inr (.inr (.inl ⟨rfl, rfl, fun _ => ?_⟩))
          exact OutSlot.pending_of_clear (by simpa using clear.2)
        · obtain ⟨rfl, rfl⟩ := by simpa using step
          exact .inr (.inr (.inr ⟨rfl, rfl, rfl⟩))
      all_goals cases step
  | expire t =>
      simp only [machine] at step
      split at step
      · obtain ⟨rfl, rfl⟩ := by simpa using step
        exact .inr (.inr (.inr ⟨rfl, rfl, rfl⟩))
      all_goals cases step
  | recheck t =>
      simp only [machine] at step
      split at step
      · rename_i waking
        obtain ⟨rfl, rfl⟩ := by simpa [finish] using step
        refine .inr (.inr (.inl ⟨rfl, rfl, fun caution => ?_⟩))
        simp only [careful, waking, Bool.or_eq_true, Bool.not_eq_true', beq_iff_eq] at caution
        obtain clear | whole := caution
        · exact OutSlot.pending_of_clear clear
        · cases flag : s.slot.outFlag with
          | false => exact OutSlot.pending_of_clear flag
          | true =>
              obtain ⟨total, -, -⟩ := ready flag
              rw [OutSlot.pending, if_pos flag, whole, total, List.drop_length]
      · split at step
        · rename_i clear
          obtain ⟨rfl, rfl⟩ := by simpa [finish] using step
          refine .inr (.inr (.inl ⟨rfl, rfl, fun _ => ?_⟩))
          exact OutSlot.pending_of_clear (by simpa using clear)
        · split at step
          all_goals
            obtain ⟨rfl, rfl⟩ := by simpa using step
            exact .inr (.inr (.inr ⟨rfl, rfl, rfl⟩))
      all_goals cases step
  | handleWrite results woken =>
      obtain ⟨⟨bytes, slot⟩, called, result⟩ := Option.bind_eq_some_iff.mp step
      obtain ⟨rest, ready'⟩ := OutSlot.handleWrite_spec ready called
      simp only at result
      split at result
      · obtain ⟨sender, -, shown⟩ := Option.map_eq_some_iff.mp result
        obtain ⟨rfl, rfl⟩ := by simpa using shown
        exact .inr (.inl ⟨bytes, rfl, rest, ready'⟩)
      · split at result
        · obtain ⟨rfl, rfl⟩ := by simpa using result
          exact .inr (.inl ⟨bytes, rfl, rest, ready'⟩)
        · cases result

/-- A careful step keeps the order. -/
theorem step_inOrder (held : InOrder history s) (caution : careful s a = true)
    (step : (machine T).step s a = some (o, s')) : InOrder (history ++ [(a, o)]) s' := by
  have balance := held.balance
  obtain ⟨packet, rfl, empty, whole, ready⟩ | ⟨bytes, rfl, rest, ready⟩ | ⟨rfl, slot, cleared⟩ |
    ⟨noPacket, noBytes, slot⟩ := step_cases held.ready step
  · refine ⟨ready, ?_⟩
    rw [empty, List.append_nil] at balance
    simp [OutSeen.packet, OutSeen.bytes, whole, balance]
  · refine ⟨ready, ?_⟩
    rw [← rest] at balance
    simpa [OutSeen.packet, OutSeen.bytes] using balance
  · refine ⟨by simp [OutSlot.Ready, slot], ?_⟩
    rw [cleared caution] at balance
    simpa [OutSeen.packet, OutSeen.bytes, slot, OutSlot.pending] using balance
  · refine ⟨slot ▸ held.ready, ?_⟩
    simpa [noPacket, noBytes, slot] using balance

theorem run_inOrder {outBuf : TalkPacket}
    (run : ((machine T).guard fun s a => careful s a = true).Run (new T outBuf) history s) :
    InOrder history s := by
  apply run.invariant (P := InOrder)
  · exact ⟨by simp [OutSlot.Ready, new], rfl⟩
  · intro history t a o u _ held step
    obtain ⟨caution, step⟩ := Machine.guard_step_iff.mp step
    exact step_inOrder held caution step

/-- A careless return leaves its thread outside and the slot empty, and the bytes that
were pending are never written. -/
theorem careless_step (held : InOrder history s) (careless : careful s a = false)
    (step : (machine T).step s a = some (o, s')) :
    ∃ t first rest, s'.sender t = .idle ∧ s'.slot.outFlag = false ∧
      accepted (history ++ [(a, o)]) = written (history ++ [(a, o)]) ++ first :: rest := by
  cases a with
  | recheck t =>
      simp only [careful] at careless
      split at careless
      · rename_i waking
        simp only [Bool.or_eq_false_iff, Bool.not_eq_false', beq_eq_false_iff_ne] at careless
        obtain ⟨flag, part⟩ := careless
        obtain ⟨total, -, inside⟩ := held.ready flag
        obtain ⟨rfl, rfl⟩ := by simpa [machine, waking, finish] using step
        have balance := held.balance
        have some : s.slot.pending ≠ [] := by
          rw [OutSlot.pending, if_pos flag]
          intro none
          have := List.drop_eq_nil_iff.mp none
          omega
        obtain ⟨first, rest, pending⟩ := List.exists_cons_of_ne_nil some
        refine ⟨t, first, rest, by simp, rfl, ?_⟩
        rw [pending] at balance
        simpa [OutSeen.packet, OutSeen.bytes] using balance.symm
      all_goals cases careless
  | sendPacket | sendTimed | await | expire | handleWrite => cases careless

/-- Into an empty slot a packet can be accepted whose first byte is not the given one,
and that byte can be written. -/
theorem exists_other_packet {slot : OutSlot} (clear : slot.outFlag = false) (first : UInt8) :
    ∃ packet other more slot' slot'', packet.contents = other :: more ∧ other ≠ first ∧
      slot.sendPacket packet = some (true, slot') ∧ slot'.outFlag = true ∧
      slot'.handleWrite [.sent 1, .again] = some ([other], slot'') ∧ slot''.outFlag = true := by
  obtain zero | nonzero := eq_or_ne first 0
  · let packet : TalkPacket := ⟨18, 1 :: List.replicate 17 0⟩
    refine ⟨packet, 1, _, ⟨packet, 0, 0, 18, true⟩, ⟨packet, 1, 1, 18, true⟩, rfl, ?_, ?_, rfl,
      by decide, rfl⟩
    · rw [zero]
      decide
    · rw [OutSlot.sendPacket, clear]
      rfl
  · let packet : TalkPacket := ⟨10, List.replicate 10 0⟩
    refine ⟨packet, 0, _, ⟨packet, 0, 0, 10, true⟩, ⟨packet, 1, 1, 10, true⟩, rfl,
      nonzero.symm, ?_, rfl, by decide, rfl⟩
    rw [OutSlot.sendPacket, clear]
    rfl

/-- After a careless return the bytes of the next packet follow the bytes that were
written, in place of the bytes that were not. -/
theorem disorder_of_careless (held : InOrder history s) (careless : careful s a = false)
    (step : (machine T).step s a = some (o, s')) :
    ∃ rest s'', (machine T).Run s' rest s'' ∧
      ¬ written (history ++ (a, o) :: rest) <+: accepted (history ++ (a, o) :: rest) := by
  obtain ⟨t, first, lost, outside, clear, order⟩ := careless_step held careless step
  obtain ⟨packet, other, more, slot', slot'', contents, differs, accepts, flag, writes, flag'⟩ :=
    exists_other_packet clear first
  have accept : (machine T).step s' (.sendPacket t packet) =
      some (.accepted packet, { s' with slot := slot' }) := by
    simp [machine, outside, accepts]
  have write : (machine T).step { s' with slot := slot' } (.handleWrite [.sent 1, .again] none) =
      some (.wrote [other], { s' with slot := slot'' }) := by
    simp [machine, writes, flag, flag']
  refine ⟨_, _, .cons accept (.single write), fun inOrder => ?_⟩
  have later : history ++ [(a, o), (.sendPacket t packet, .accepted packet),
      (.handleWrite [.sent 1, .again] none, .wrote [other])] =
      history ++ [(a, o)] ++ [(.sendPacket t packet, .accepted packet)] ++
        [(.handleWrite [.sent 1, .again] none, .wrote [other])] := by simp
  rw [later, written_snoc, written_snoc, accepted_snoc, accepted_snoc, order] at inOrder
  simp [OutSeen.packet, OutSeen.bytes] at inOrder
  exact differs inOrder

/-- In a run in which no thread that waited without a predicate returns while another
packet is in the slot, the socket gets the accepted packets in order, and what it has not
got yet is in the slot; after the first return of the other kind the order can break. -/
theorem run_keeps_order {outBuf : TalkPacket}
    (run : ((machine T).guard fun s a => careful s a = true).Run (new T outBuf) history s) :
    written history <+: accepted history ∧
      written history ++ s.slot.pending = accepted history ∧
      ∀ a o s', (machine T).step s a = some (o, s') → careful s a = false →
        ∃ rest s'', (machine T).Run s' rest s'' ∧
          ¬ written (history ++ (a, o) :: rest) <+: accepted (history ++ (a, o) :: rest) := by
  have held := run_inOrder run
  refine ⟨⟨_, held.balance⟩, held.balance, fun a o s' step careless => ?_⟩
  exact disorder_of_careless held careless step

/-- A packet without contents. -/
def plain (id : UInt8) : TalkPacket := ⟨10, [0, 0, 0, 0, id, 0, 0, 0, 0, 0]⟩

/-- A timed packet in two parts, with a refused one between them. -/
theorem run_keeps_order_parts : ∃ history s,
    ((machine (Fin 2)).guard fun s a => careful s a = true).Run (new (Fin 2) (plain 0)) history s ∧
      written history = (plain 1).contents ∧ written history <+: accepted history := by
  have executed : ∃ history s,
      ((machine (Fin 2)).guard fun s a => careful s a = true).exec (new (Fin 2) (plain 0))
        [.sendTimed 0 (plain 1) .forever, .await 0,
          .handleWrite [.sent 4, .interrupted, .again] none,
          .sendPacket 1 (plain 2), .handleWrite [.sent 6] (some 0), .recheck 0,
          .sendPacket 1 (plain 3)] = some (history, s) ∧ written history = (plain 1).contents :=
    ⟨_, _, rfl, by decide⟩
  obtain ⟨history, s, computed, bytes⟩ := executed
  have run := Machine.run_of_exec computed
  exact ⟨history, s, run, bytes, (run_keeps_order run).1⟩

/-- A thread that waits with the timeout -1 is notified when its packet was written, but
another thread posts a packet before it returns: that packet is dropped. -/
theorem posted_packet_dropped : ∃ history s,
    (machine (Fin 2)).Run (new (Fin 2) (plain 0)) history s ∧
      ¬ written history <+: accepted history := by
  have executed : ∃ history s, (machine (Fin 2)).exec (new (Fin 2) (plain 0))
      [.sendTimed 0 (plain 1) .forever, .await 0, .handleWrite [.sent 10] (some 0),
        .sendPacket 1 (plain 2), .recheck 0, .sendPacket 1 (plain 3),
        .handleWrite [.sent 10] none] = some (history, s) ∧
      ¬ written history <+: accepted history := ⟨_, _, rfl, by decide⟩
  obtain ⟨history, s, computed, disorder⟩ := executed
  exact ⟨history, s, Machine.run_of_exec computed, disorder⟩

end Transmitter

end Crs.Ude
