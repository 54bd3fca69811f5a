import Crs.Ude.Connection
import Crs.Ude.TakeOrder

/-!
# The connection between the server and a client

The server hands its packets to `client_stub::take`, from any thread; what does not fit into
the slot waits in the queue of the stub. The client reads the bytes on the other side of the
socket. Packets may overtake each other on the way into the slot, but none is lost and none
comes twice.

A call of `take` is known by its number, and its packet by its place among the packets taken.
-/

namespace Crs.Ude

open Foundation

namespace ClientStub

variable {T : Type*}

/-- The packets given to `take`, in the order of the calls. -/
def taken (history : List (StubAction T × StubSeen)) : List TalkPacket :=
  history.filterMap fun event =>
    match event with
    | (.take _ packet, .taken _ _) => some packet
    | _ => none

/-- The packets that went into the slot, in this order. -/
def enteredPackets (history : List (StubAction T × StubSeen)) : List TalkPacket :=
  (entered history).filterMap fun call => (taken history)[call]?

/-- The bytes given to the socket. -/
def written (history : List (StubAction T × StubSeen)) : List UInt8 :=
  history.flatMap fun event =>
    match event.2 with
    | .wrote bytes => bytes
    | .taken _ _ | .queued _ | .refilled _ | .quiet => []

/-- Every number stands for its packet, wherever that is; every call has returned or is about
to queue its packet; and the bytes written, with those of the slot, are the packets that went
into the slot. -/
structure Carried (history : List (StubAction T × StubSeen)) (s : ClientStub T) : Prop where
  filed : Filed history s
  count : (taken history).length = s.calls
  queued : ∀ entry ∈ s.queue, (taken history)[entry.1]? = some entry.2
  refused : ∀ t call packet, s.taker t = .refused call packet →
    (taken history)[call]? = some packet
  placed : ∀ call < s.calls, call ∈ returned history ∨
    ∃ t packet, s.taker t = .refused call packet
  ready : s.slot.Ready
  balance : written history ++ s.slot.pending = (enteredPackets history).flatMap (·.contents)

section Steps

variable {history : List (StubAction T × StubSeen)} {s s' : ClientStub T} {a : StubAction T}
  {o : StubSeen}

@[simp] theorem taken_snoc :
    taken (history ++ [(a, o)]) = taken history ++ taken [(a, o)] := by
  simp [taken]

@[simp] theorem written_snoc :
    written (history ++ [(a, o)]) = written history ++ written [(a, o)] := by
  simp [written]

/-- A packet keeps its number. -/
theorem known_snoc {call : Nat} {packet : TalkPacket}
    (known : (taken history)[call]? = some packet) :
    (taken (history ++ [(a, o)]))[call]? = some packet := by
  obtain ⟨within, -⟩ := List.getElem?_eq_some_iff.mp known
  rw [taken_snoc, List.getElem?_append_left within, known]

/-- The packets that went into the slot do not change, and at most one comes behind them. -/
theorem Carried.enteredPackets_snoc (carried : Carried history s) :
    enteredPackets (history ++ [(a, o)]) = enteredPackets history ++
      (StubSeen.entered? o).toList.filterMap fun call => (taken (history ++ [(a, o)]))[call]? := by
  rw [enteredPackets, entered_snoc, List.filterMap_append, enteredPackets]
  congr 1
  apply List.filterMap_congr
  intro call member
  have within : call < (taken history).length := by
    rw [carried.count]
    exact carried.filed.numbered call (carried.filed.called_of_entered member)
  rw [taken_snoc, List.getElem?_append_left within]

/-- A step that puts no packet into the slot: the bytes of the slot are written, or stay. -/
theorem Carried.balance_quiet (carried : Carried history s) (noEntry : StubSeen.entered? o = none)
    (rest : written [(a, o)] ++ s'.slot.pending = s.slot.pending) :
    written (history ++ [(a, o)]) ++ s'.slot.pending =
      (enteredPackets (history ++ [(a, o)])).flatMap (·.contents) := by
  rw [carried.enteredPackets_snoc, noEntry, written_snoc, List.append_assoc, rest,
    carried.balance]
  simp

/-- A step that puts a packet into the empty slot. -/
theorem Carried.balance_entry (carried : Carried history s) {call : Nat} {packet : TalkPacket}
    (entry : StubSeen.entered? o = some call) (silent : written [(a, o)] = [])
    (known : (taken (history ++ [(a, o)]))[call]? = some packet)
    (empty : s.slot.pending = []) (full : s'.slot.pending = packet.contents) :
    written (history ++ [(a, o)]) ++ s'.slot.pending =
      (enteredPackets (history ++ [(a, o)])).flatMap (·.contents) := by
  have balance := carried.balance
  rw [empty, List.append_nil] at balance
  rw [carried.enteredPackets_snoc, entry, written_snoc, silent, full, balance,
    Option.toList_some, List.filterMap_cons_some known, List.flatMap_append]
  simp

/-- A new call takes the next number. -/
theorem Carried.fresh_known (carried : Carried history s) {t : T} {packet : TalkPacket}
    {sent : Bool} : (taken (history ++ [(.take t packet, .taken s.calls sent)]))[s.calls]? =
      some packet := by
  rw [taken_snoc, ← carried.count, List.getElem?_append_right le_rfl]
  simp [taken]

variable [DecidableEq T]

theorem carried_take (carried : Carried history s) {t : T} {packet : TalkPacket}
    (step : (machine T).step s (.take t packet) = some (o, s')) :
    Carried (history ++ [(.take t packet, o)]) s' := by
  have filed := filed_step carried.filed (effect_of_step step)
  simp only [machine] at step
  split at step
  · rename_i outside
    obtain ⟨⟨sent, slot⟩, called, result⟩ := Option.map_eq_some_iff.mp step
    obtain ⟨rfl, rfl⟩ | ⟨rfl, empty, whole, ready⟩ := OutSlot.sendPacket_spec called
    · obtain ⟨rfl, rfl⟩ := by simpa using result
      refine ⟨filed, ?_, fun entry member => known_snoc (carried.queued entry member),
        fun u call other now => ?_, fun call within => ?_, carried.ready, ?_⟩
      · simp [taken, ← carried.count]
      · obtain rfl | apart := eq_or_ne u t
        · obtain ⟨rfl, rfl⟩ := by simpa using now
          exact carried.fresh_known
        · simp only [Function.update_of_ne apart] at now
          exact known_snoc (carried.refused u call other now)
      · obtain last | before := Nat.lt_succ_iff_lt_or_eq.mp within |>.symm
        · exact .inr ⟨t, packet, by simp [last]⟩
        · obtain back | ⟨u, other, inside⟩ := carried.placed call before
          · exact .inl (by simp [back])
          · have apart : u ≠ t := fun same => by simp [same, outside] at inside
            exact .inr ⟨u, other, by simpa [apart] using inside⟩
      · exact carried.balance_quiet rfl rfl
    · obtain ⟨rfl, rfl⟩ := by simpa using result
      refine ⟨filed, ?_, fun entry member => known_snoc (carried.queued entry member),
        fun u call other now => known_snoc (carried.refused u call other now),
        fun call within => ?_, ready, carried.balance_entry rfl rfl carried.fresh_known empty whole⟩
      · simp [taken, ← carried.count]
      · obtain last | before := Nat.lt_succ_iff_lt_or_eq.mp within |>.symm
        · exact .inl (by simp [last, StubSeen.returned?])
        · obtain back | inside := carried.placed call before
          · exact .inl (by simp [back])
          · exact .inr inside
  · cases step

theorem carried_push (carried : Carried history s) {t : T}
    (step : (machine T).step s (.push t) = some (o, s')) :
    Carried (history ++ [(.push t, o)]) s' := by
  have filed := filed_step carried.filed (effect_of_step step)
  simp only [machine] at step
  split at step
  · rename_i call packet inside unlocked
    obtain ⟨rfl, rfl⟩ := by simpa using step
    have known := carried.refused t call packet inside
    refine ⟨filed, by simpa [taken] using carried.count, fun entry member => ?_,
      fun u other packet' now => ?_, fun other within => ?_, carried.ready,
      carried.balance_quiet rfl rfl⟩
    · obtain before | last := List.mem_append.mp member
      · exact known_snoc (carried.queued entry before)
      · obtain rfl := List.mem_singleton.mp last
        exact known_snoc known
    · obtain rfl | apart := eq_or_ne u t
      · simp at now
      · simp only [Function.update_of_ne apart] at now
        exact known_snoc (carried.refused u other packet' now)
    · obtain back | ⟨u, packet', waits⟩ := carried.placed other within
      · exact .inl (by simp [back])
      · obtain rfl | apart := eq_or_ne u t
        · obtain ⟨rfl, -⟩ := by simpa [inside] using waits
          exact .inl (by simp [StubSeen.returned?])
        · exact .inr ⟨u, packet', by simpa [apart] using waits⟩
  · cases step

theorem carried_sendFront (carried : Carried history s)
    (step : (machine T).step s .sendFront = some (o, s')) :
    Carried (history ++ [(.sendFront, o)]) s' := by
  have filed := filed_step carried.filed (effect_of_step step)
  simp only [machine] at step
  split at step
  · rename_i call packet rest turn front
    obtain ⟨⟨sent, slot⟩, called, result⟩ := Option.map_eq_some_iff.mp step
    have known := carried.queued (call, packet) (by simp [front])
    have same : ∀ seen, taken (history ++ [((.sendFront : StubAction T), seen)]) =
        taken history := by simp [taken]
    have back : ∀ seen, StubSeen.returned? seen = none →
        returned (history ++ [((.sendFront : StubAction T), seen)]) = returned history := by
      intro seen none
      simp [none]
    obtain ⟨rfl, rfl⟩ | ⟨rfl, empty, whole, ready⟩ := OutSlot.sendPacket_spec called
    · obtain ⟨rfl, rfl⟩ := by simpa using result
      refine ⟨filed, ?_, ?_, ?_, ?_, carried.ready, carried.balance_quiet rfl rfl⟩
      · rw [same]
        exact carried.count
      · rw [same]
        exact carried.queued
      · rw [same]
        exact carried.refused
      · rw [back _ rfl]
        exact carried.placed
    · obtain ⟨rfl, rfl⟩ := by simpa using result
      refine ⟨filed, ?_, ?_, ?_, ?_, ready,
        carried.balance_entry rfl rfl (known_snoc known) empty whole⟩
      · rw [same]
        exact carried.count
      · rw [same]
        exact fun entry member => carried.queued entry (by simp [front, member])
      · rw [same]
        exact carried.refused
      · rw [back _ rfl]
        exact carried.placed
  · cases step

theorem carried_write (carried : Carried history s) {results : List SendResult}
    (step : (machine T).step s (.handleWrite results) = some (o, s')) :
    Carried (history ++ [(.handleWrite results, o)]) s' := by
  have filed := filed_step carried.filed (effect_of_step step)
  simp only [machine] at step
  split at step
  · obtain ⟨⟨bytes, slot⟩, called, result⟩ := Option.map_eq_some_iff.mp step
    obtain ⟨rfl, rfl⟩ := by simpa using result
    obtain ⟨rest, ready⟩ := OutSlot.handleWrite_spec carried.ready called
    refine ⟨filed, by simpa [taken] using carried.count,
      fun entry member => known_snoc (carried.queued entry member),
      fun u call packet now => known_snoc (carried.refused u call packet now),
      fun call within => ?_, ready, carried.balance_quiet rfl (by simpa [written] using rest)⟩
    simpa [StubSeen.returned?] using carried.placed call within
  · cases step

theorem carried_step (carried : Carried history s) (step : (machine T).step s a = some (o, s')) :
    Carried (history ++ [(a, o)]) s' := by
  cases a with
  | take t packet => exact carried_take carried step
  | push t => exact carried_push carried step
  | lock =>
    have filed := filed_step carried.filed (effect_of_step step)
    simp only [machine] at step
    split at step
    · obtain ⟨rfl, rfl⟩ := by simpa using step
      refine ⟨filed, by simpa [taken] using carried.count,
        fun entry member => known_snoc (carried.queued entry member),
        fun u call packet now => known_snoc (carried.refused u call packet now),
        fun call within => ?_, carried.ready, carried.balance_quiet rfl rfl⟩
      simpa [StubSeen.returned?] using carried.placed call within
    · cases step
  | handleWrite results => exact carried_write carried step
  | sendFront => exact carried_sendFront carried step

theorem run_carried {outBuf : TalkPacket} (run : (machine T).Run (new T outBuf) history s) :
    Carried history s := by
  apply run.invariant (P := Carried)
  · refine ⟨⟨nofun, nofun, .nil, .refl _, nofun, nofun,
      fun p q _ _ => Marks.ahead_of_notMem (by simp [waiting, new])⟩, rfl, nofun, nofun,
      fun call within => absurd within (Nat.not_lt_zero call), ?_, rfl⟩
    simp [OutSlot.Ready, new]
  · intro history t a o u _ carried step
    exact carried_step carried step

end Steps

section Places

variable {history : List (StubAction T × StubSeen)} {s : ClientStub T}

/-- All places of a list, in order, name the items of the list. -/
theorem filterMap_range (packets : List TalkPacket) :
    ((List.range packets.length).filterMap fun place => packets[place]?) = packets := by
  induction packets using List.reverseRecOn with
  | nil => rfl
  | append_singleton packets last ih =>
    have front : ((List.range packets.length).filterMap fun place =>
        (packets ++ [last])[place]?) = packets := by
      refine Eq.trans (List.filterMap_congr fun place member => ?_) ih
      exact List.getElem?_append_left (List.mem_range.mp member)
    rw [List.length_append, List.length_singleton, List.range_succ, List.filterMap_append, front]
    simp

/-- Only packets that were taken went into the slot, and each once. -/
theorem Carried.entered_subperm (carried : Carried history s) :
    (enteredPackets history).Subperm (taken history) := by
  have distinct := (carried.filed.places.nodup_iff.mpr carried.filed.distinct).of_append_left
  have within : entered history ⊆ List.range (taken history).length := by
    intro call member
    rw [List.mem_range, carried.count]
    exact carried.filed.numbered call (carried.filed.called_of_entered member)
  obtain ⟨calls, same, inside⟩ := List.subperm_of_subset distinct within
  have packets := inside.filterMap fun call => (taken history)[call]?
  rw [filterMap_range] at packets
  exact ⟨_, same.filterMap _, packets⟩

/-- With all calls returned and nothing in the queue, all packets went into the slot. -/
theorem Carried.all_entered (carried : Carried history s) (outside : ∀ t, s.taker t = .idle)
    (empty : s.queue = []) : (enteredPackets history).Perm (taken history) := by
  have places := carried.filed.places
  rw [waiting, empty, List.map_nil, List.append_nil] at places
  have numbers : (entered history).Perm (List.range (taken history).length) := by
    apply places.trans
    apply (List.perm_ext_iff_of_nodup carried.filed.distinct List.nodup_range).mpr
    intro call
    rw [List.mem_range, carried.count]
    constructor
    · exact fun back => carried.filed.numbered call (carried.filed.known call back)
    · intro within
      obtain back | ⟨t, packet, inside⟩ := carried.placed call within
      · exact back
      · rw [outside t] at inside
        cases inside
  have packets := numbers.filterMap fun call => (taken history)[call]?
  rwa [filterMap_range] at packets

end Places

end ClientStub

namespace StubConnection

open ClientStub (Carried taken entered enteredPackets)
open Connection (delivered inTransit)

variable {T : Type*}

/-- The stub of a client sends, and the client receives. -/
def machine (T : Type*) [DecidableEq T] :
    Machine (Connection (ClientStub T)) (StubAction T ⊕ Action) (StubSeen ⊕ Seen) :=
  Connection.receiving (ClientStub.machine T) fun event => ClientStub.written [event]

/-- Nothing was taken and nothing was received. -/
def new (T : Type*) (outBuf : TalkPacket) (peer : NetPeer) : Connection (ClientStub T) :=
  { producer := ClientStub.new T outBuf, consumer := { peer } }

/-- All calls of `take` have returned, and nothing is queued, to be written or in the sockets. -/
structure Drained (s : Connection (ClientStub T)) : Prop where
  outside : ∀ t, s.producer.taker t = .idle
  queue : s.producer.queue = []
  written : s.producer.slot.pending = []
  read : s.stream = []

variable {s : Connection (ClientStub T)} {outBuf : TalkPacket} {peer : NetPeer}
  {history : List ((StubAction T ⊕ Action) × (StubSeen ⊕ Seen))} {memory : List UInt8}
  {fresh : Nat → UInt8}

/-- The stub has carried the packets into the slot, and the client is linked to these. -/
theorem run_joined [DecidableEq T] (large : headerSize ≤ memory.length)
    (created : NetPeer.new memory fresh = some peer)
    (run : (machine T).Run (new T outBuf peer) history s)
    (framed : ∀ p ∈ taken (Machine.producing history), Framed p) :
    Carried (Machine.producing history) s.producer ∧
      (∀ p ∈ enteredPackets (Machine.producing history), Framed p) ∧
      Connection.Linked (enteredPackets (Machine.producing history)) s.producer.slot.pending
        history s := by
  have carried := ClientStub.run_carried (Connection.run_sending run)
  have sent : (Machine.producing history).flatMap (fun event => ClientStub.written [event]) ++
      s.producer.slot.pending =
        (enteredPackets (Machine.producing history)).flatMap (·.contents) := by
    simpa [ClientStub.written] using carried.balance
  have inside : ∀ p ∈ enteredPackets (Machine.producing history), Framed p := by
    intro p member
    exact framed p (carried.entered_subperm.subset member)
  exact ⟨carried, inside, Connection.run_linked large created run inside sent⟩

/-- What left the parser of the client was taken by the stub, and when everything has come to
rest nothing else was. -/
theorem run_received [DecidableEq T] (large : headerSize ≤ memory.length)
    (created : NetPeer.new memory fresh = some peer)
    (run : (machine T).Run (new T outBuf peer) history s)
    (framed : ∀ p ∈ taken (Machine.producing history), Framed p) :
    (delivered history ++ s.consumer.peer.inPacketQueue).Subperm
        (taken (Machine.producing history)) ∧
      (Drained s → (delivered history ++ s.consumer.peer.inPacketQueue).Perm
        (taken (Machine.producing history))) := by
  obtain ⟨carried, inside, linked⟩ := run_joined large created run framed
  refine ⟨linked.front.sublist.subperm.trans carried.entered_subperm, fun drained => ?_⟩
  rw [drained.written] at linked
  rw [linked.complete inside drained.read]
  exact carried.all_entered drained.outside drained.queue

/-- The packets taken and those out of the client's parser, in a run with two threads. -/
def accounts (memory : List UInt8) (labels : List (StubAction (Fin 2) ⊕ Action)) :
    Option (List TalkPacket × List TalkPacket) := do
  let peer ← NetPeer.new memory fun _ => 0
  let (history, s) ← (machine (Fin 2)).exec (new (Fin 2) (Session.bare 0) peer) labels
  return (taken (Machine.producing history), delivered history ++ s.consumer.peer.inPacketQueue)

end StubConnection

end Crs.Ude
