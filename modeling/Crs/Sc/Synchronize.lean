import Crs.Sc.Stream

/-!
# The synchronization of a serial port

`synchronize` writes a character `U` and waits, up to fifteen times, until a packet has come
that consists of `U` only. The packets are cut off from the begin of the incoming buffer, and
`synchronize` leaves that buffer alone, unlike the one of the base class. The packet that ends
the wait takes with it all that was read up to then.
-/

namespace Crs.Sc

open Foundation

/-- `synchronize` in one of its waits, or with its result. -/
inductive Progress where
  | waiting (i : Nat)
  | returned (synced : Bool)
  deriving DecidableEq

structure Synchronizing where
  port : Port
  progress : Progress := .waiting 0

/-- A step of the port, or `synchronize` looks at its flag: at a wakeup, or too late. -/
inductive SyncAction where
  | port (a : PortAction)
  | look (late : Bool)

inductive SyncSeen where
  | port (seen : PortSeen)
  | wrote
  | returned (synced : Bool)
  | quiet

namespace Synchronizing

variable (size : Nat) (trace : ComPacket → ComPacket → Bool)

/-- `wait_for` and the rest of the loop. -/
def look (s : Synchronizing) (late : Bool) : Option (SyncSeen × Synchronizing) :=
  match s.progress with
  | .waiting i =>
      if !s.port.device.waitSyncPacket then
        some (.returned true, { s with progress := .returned true })
      else if late then
        if i + 1 < 15 then some (.wrote, { s with progress := .waiting (i + 1) })
        else some (.returned false, { s with progress := .returned false })
      else some (.quiet, s)
  | .returned _ => none

/-- Other threads leave the flag alone that only `synchronize` raises. -/
def Foreign (s : Port) : PortAction → Prop
  | .others device => device.waitSyncPacket = s.device.waitSyncPacket
  | .handleRead _ | .compile => True

instance (s : Port) : DecidablePred (Foreign s)
  | .others device => inferInstanceAs (Decidable (device.waitSyncPacket = s.device.waitSyncPacket))
  | .handleRead _ | .compile => inferInstanceAs (Decidable True)

def machine : Machine Synchronizing SyncAction SyncSeen where
  step s
    | .port a =>
        (((Port.machine size trace).guard Foreign).step s.port a).map fun (seen, port) =>
          (.port seen, { s with port })
    | .look late => s.look late

/-- `synchronize` up to its first wait. -/
def start (port : Port) : Synchronizing where
  port := { port with device := port.device.resetWaitComSection.awaitSyncPacket }

def portEvent? : SyncAction × SyncSeen → Option (PortAction × PortSeen)
  | (.port a, .port seen) => some (a, seen)
  | (.port _, .wrote) | (.port _, .returned _) | (.port _, .quiet) | (.look _, _) => none

/-- The steps of the port. -/
def portEvents (history : List (SyncAction × SyncSeen)) : List (PortAction × PortSeen) :=
  history.filterMap portEvent?

/-- The packet that the synchronization waits for was seen. -/
def isSync : PortSeen → Bool
  | .routed _ .sync => true
  | .routed _ .comSection | .routed _ .inbox | .received _ | .compiled | .quiet => false

/-- The steps of the port behind that packet. -/
def afterSync (events : List (PortAction × PortSeen)) : List (PortAction × PortSeen) :=
  (events.dropWhile fun event => !isSync event.2).tail

def read? : PortSeen → Option (List UInt8)
  | .received bytes => some bytes
  | .routed _ _ | .compiled | .quiet => none

/-- The bytes of each read. -/
def reads (events : List (PortAction × PortSeen)) : List (List UInt8) :=
  events.filterMap fun event => read? event.2

/-- `synchronize` has returned true, or it does so when it looks the next time. -/
def Succeeds (s : Synchronizing) : Prop :=
  s.progress = .returned true ∨
    ∃ i, s.progress = .waiting i ∧ s.port.device.waitSyncPacket = false

/-- After the answer `U…U`: `synchronize` succeeds, and the packets behind the answer are the
blocks of what follows it, as far as the port has worked off what it has read. -/
def Recovered (history : List (SyncAction × SyncSeen)) (s : Synchronizing) : Prop :=
  ∀ rest, Port.received (portEvents history) = List.replicate size 0x55 ++ rest →
    s.port.compiling = none →
      s.Succeeds ∧ (portEvents history).any (fun event => isSync event.2) = true ∧
        Port.routed (afterSync (portEvents history)) = blocks size rest

/-- Until the packet has come: everything, with the stray bytes in front, was cut into packets
that are not it. -/
structure Before (stray : List UInt8) (events : List (PortAction × PortSeen)) (s : Port) :
    Prop where
  pending : s.device.waitSyncPacket = true
  streaming : Port.Streaming size ((.handleRead stray, .received stray) :: events) s
  passed : ∀ packet ∈ Port.routed events, ComPacket.syncPacket packet = false

/-- The packet was cut off behind the ones in front of it, and the port has begun anew. -/
structure After (stray : List UInt8) (before : List (PortAction × PortSeen))
    (packet dropped : List UInt8) (later : List (PortAction × PortSeen)) (s : Port) : Prop where
  lowered : s.device.waitSyncPacket = false
  room : size ≤ s.inBuf.length
  sized : ∀ p ∈ Port.routed before, p.length = size
  unsynced : ∀ event ∈ before, isSync event.2 = false
  length : packet.length = size
  marks : ComPacket.syncPacket packet = true
  cut : stray ++ Port.received before = (Port.routed before).flatten ++ packet ++ dropped
  streaming : Port.Streaming size later s

/-- The events are those in front of the packet, the packet, and those behind it. -/
def Found (stray : List UInt8) (events : List (PortAction × PortSeen)) (s : Port) : Prop :=
  ∃ before packet dropped later, events = before ++ (.compile, .routed packet .sync) :: later ∧
    After size stray before packet dropped later s

section Steps

variable {size : Nat} {trace : ComPacket → ComPacket → Bool} {stray : List UInt8}
  {events : List (PortAction × PortSeen)} {p p' : Port} {a : PortAction} {o : PortSeen}

theorem isSync_of_streaming {history : List (PortAction × PortSeen)}
    (streaming : Port.Streaming size history p) : ∀ event ∈ history, isSync event.2 = false := by
  rintro ⟨a, o⟩ member
  cases o with
  | routed packet route =>
    cases route with
    | sync => exact absurd rfl (streaming.unsynced _ member packet)
    | comSection | inbox => rfl
  | received | compiled | quiet => rfl

theorem before_step (positive : 0 < size) (before : Before size stray events p)
    (step : ((Port.machine size trace).guard Foreign).step p a = some (o, p')) :
    Before size stray (events ++ [(a, o)]) p' ∨ Found size stray (events ++ [(a, o)]) p' := by
  obtain ⟨foreign, step⟩ := Machine.guard_step_iff.mp step
  obtain ⟨pending, streaming, passed⟩ := before
  cases a with
  | handleRead bytes =>
    obtain ⟨t, readsThem, result⟩ := Option.map_eq_some_iff.mp step
    obtain ⟨rfl, rfl⟩ := by simpa using result
    obtain ⟨next, -, same⟩ := Port.read_streaming streaming readsThem
    refine .inl ⟨by rw [same]; exact pending, next, ?_⟩
    simpa [Port.PortSeen.packet?] using passed
  | compile =>
    cases sync : p.syncNext size with
    | true =>
      obtain ⟨packet, dropped, gives, length, marks, room, cut⟩ :=
        Port.compile_sync trace positive streaming sync
      obtain ⟨rfl, rfl⟩ := by simpa using gives.symm.trans step
      refine .inr ⟨events, packet, dropped, [], rfl, rfl, room, streaming.sized, ?_, length, marks,
        cut, ?_⟩
      · exact fun event member => isSync_of_streaming streaming event (.tail _ member)
      · exact ⟨by simp [Port.routed], by simp, rfl, ⟨le_rfl, Nat.zero_le _⟩, by simp,
          fun _ => positive⟩
    | false =>
      obtain ⟨next, -, same⟩ := Port.compile_streaming streaming sync step
      refine .inl ⟨same.trans pending, next, ?_⟩
      rw [Port.routed_snoc]
      intro packet member
      obtain old | new := List.mem_append.mp member
      · exact passed packet old
      · -- the packet is the one that `syncNext` has looked at
        obtain ⟨⟨avail, n⟩, compiling, -⟩ := Option.bind_eq_some_iff.mp step
        obtain ⟨same, -, ⟨enough, route, device, gives, -⟩ | ⟨-, inBuf, ends, -⟩⟩ :=
          Port.compile_spec trace streaming sync compiling
        · obtain ⟨rfl, -⟩ := by simpa using gives.symm.trans step
          obtain rfl : packet = (p.inBuf.drop n).take size := by
            simpa [Port.PortSeen.packet?] using new
          simp only at same enough
          simpa [Port.syncNext, pending, compiling, same, enough] using sync
        · obtain ⟨rfl, -⟩ := by simpa using ends.symm.trans step
          simp [Port.PortSeen.packet?] at new
  | others device =>
    obtain ⟨rfl, rfl⟩ := by simpa [Port.machine] using step
    refine .inl ⟨foreign.trans pending, Port.others_streaming streaming, ?_⟩
    simpa [Port.PortSeen.packet?] using passed

theorem after_step {before later : List (PortAction × PortSeen)} {packet dropped : List UInt8}
    (after : After size stray before packet dropped later p)
    (step : ((Port.machine size trace).guard Foreign).step p a = some (o, p')) :
    After size stray before packet dropped (later ++ [(a, o)]) p' := by
  obtain ⟨foreign, step⟩ := Machine.guard_step_iff.mp step
  obtain ⟨next, length⟩ := Port.step_streaming after.streaming after.lowered step
  refine { after with lowered := ?_, room := length ▸ after.room, streaming := next }
  cases a with
  | handleRead bytes =>
    obtain ⟨t, readsThem, result⟩ := Option.map_eq_some_iff.mp step
    obtain ⟨rfl, rfl⟩ := by simpa using result
    obtain ⟨-, -, same⟩ := Port.read_streaming after.streaming readsThem
    rw [same]
    exact after.lowered
  | compile =>
    have other : p.syncNext size = false := Port.syncNext_of_unsynced after.lowered
    obtain ⟨-, -, same⟩ := Port.compile_streaming after.streaming other step
    exact same.trans after.lowered
  | others device =>
    obtain ⟨rfl, rfl⟩ := by simpa [Port.machine] using step
    exact foreign.trans after.lowered

@[simp] theorem portEvents_append (history more : List (SyncAction × SyncSeen)) :
    portEvents (history ++ more) = portEvents history ++ portEvents more :=
  List.filterMap_append

@[simp] theorem portEvents_port (a : PortAction) (o : PortSeen) :
    portEvents [(.port a, .port o)] = [(a, o)] := rfl

@[simp] theorem portEvents_look (late : Bool) (seen : SyncSeen) :
    portEvents [(.look late, seen)] = [] := rfl

theorem received_append (events more : List (PortAction × PortSeen)) :
    Port.received (events ++ more) = Port.received events ++ Port.received more :=
  List.flatMap_append

/-- The packet that was taken for the answer is not a read. -/
theorem received_split (before later : List (PortAction × PortSeen)) (packet : ComPacket) :
    Port.received (before ++ (.compile, .routed packet .sync) :: later) =
      Port.received before ++ Port.received later :=
  received_append before _

theorem routed_append (events more : List (PortAction × PortSeen)) :
    Port.routed (events ++ more) = Port.routed events ++ Port.routed more :=
  List.filterMap_append

/-- A step of the port, or `synchronize` looks at the flag. -/
theorem step_cases {s s' : Synchronizing} {b : SyncAction} {seen : SyncSeen}
    (step : (machine size trace).step s b = some (seen, s')) :
    (∃ a o, b = .port a ∧ seen = .port o ∧ s'.progress = s.progress ∧
        ((Port.machine size trace).guard Foreign).step s.port a = some (o, s'.port)) ∨
      ∃ late, b = .look late ∧ s.look late = some (seen, s') ∧ s'.port = s.port ∧
        ∀ o, seen ≠ .port o := by
  cases b with
  | port a =>
    obtain ⟨⟨o, p⟩, gives, result⟩ := Option.map_eq_some_iff.mp step
    obtain ⟨rfl, rfl⟩ := by simpa using result
    exact .inl ⟨a, o, rfl, rfl, rfl, gives⟩
  | look late =>
    have looks : s.look late = some (seen, s') := step
    refine .inr ⟨late, rfl, looks, ?_⟩
    unfold look at looks
    split at looks
    · split_ifs at looks
      all_goals
        obtain ⟨rfl, rfl⟩ := by simpa using looks
        exact ⟨rfl, nofun⟩
    · cases looks

section Runs

variable {port : Port} {history more : List (SyncAction × SyncSeen)} {s t : Synchronizing}

/-- A port between two reads, with less than a packet of bytes that are not `U`. -/
structure Stray (size : Nat) (port : Port) : Prop where
  idle : port.compiling = none
  few : port.inBufPtr < size
  filled : port.inBufPtr ≤ port.inBuf.length
  other : ∀ byte ∈ port.inBuf.take port.inBufPtr, byte ≠ 0x55

theorem Stray.positive (stray : Stray size port) : 0 < size :=
  (Nat.zero_le _).trans_lt stray.few

theorem Stray.length_lt (stray : Stray size port) :
    (port.inBuf.take port.inBufPtr).length < size := by
  rw [List.length_take]
  exact (Nat.min_le_left _ _).trans_lt stray.few

theorem run_before_or_found (stray : Stray size port)
    (run : (machine size trace).Run (start port) history s) :
    Before size (port.inBuf.take port.inBufPtr) (portEvents history) s.port ∨
      Found size (port.inBuf.take port.inBufPtr) (portEvents history) s.port := by
  induction run with
  | nil =>
    refine .inl ⟨rfl, ⟨by simp [portEvents, Port.routed, Port.PortSeen.packet?], ?_, ?_, ?_, ?_,
      fun _ => stray.few⟩, by simp [portEvents, Port.routed]⟩
    · simp [portEvents]
    · simp [portEvents, Port.received, Port.routed, Port.PortSeen.packet?, Port.PortSeen.bytes,
        Port.processed, start, stray.idle]
    · simp [Port.processed, start, stray.idle, stray.filled]
    · simp [start, stray.idle]
  | snoc earlier step ih =>
    rw [portEvents_append]
    obtain ⟨a, o, rfl, rfl, -, gives⟩ | ⟨late, rfl, -, same, quiet⟩ := step_cases step
    · obtain before | ⟨before, packet, dropped, later, split, after⟩ := ih
      · exact before_step stray.positive before gives
      · refine .inr ⟨before, packet, dropped, _, ?_, after_step after gives⟩
        rw [split, List.append_assoc]
        rfl
    · rw [same]
      simpa using ih

/-- Behind the packet everything goes on as without a synchronization. -/
theorem run_after {before later : List (PortAction × PortSeen)} {packet dropped stray : List UInt8}
    (after : After size stray before packet dropped later s.port)
    (run : (machine size trace).Run s more t) :
    After size stray before packet dropped (later ++ portEvents more) t.port := by
  induction run with
  | nil => simpa [portEvents] using after
  | snoc earlier step ih =>
    rw [portEvents_append, ← List.append_assoc]
    obtain ⟨a, o, rfl, rfl, -, gives⟩ | ⟨late, rfl, -, same, quiet⟩ := step_cases step
    · exact after_step ih gives
    · rw [same]
      simpa using ih

/-- Once the flag is down, `synchronize` returns true when it looks. -/
theorem look_of_lowered {late : Bool} {seen : SyncSeen} (succeeds : s.Succeeds)
    (looks : s.look late = some (seen, t)) : t.progress = .returned true := by
  obtain ended | ⟨i, waiting, lowered⟩ := succeeds
  · simp [look, ended] at looks
  · obtain ⟨-, rfl⟩ := by simpa [look, waiting, lowered] using looks
    rfl

theorem run_succeeds {before later : List (PortAction × PortSeen)}
    {packet dropped stray : List UInt8}
    (after : After size stray before packet dropped later s.port)
    (inTime : s.progress ≠ .returned false)
    (run : (machine size trace).Run s more t) : t.Succeeds := by
  induction run with
  | nil =>
    cases progress : s.progress with
    | waiting i => exact .inr ⟨i, progress, after.lowered⟩
    | returned synced =>
      cases synced with
      | true => exact .inl progress
      | false => exact absurd progress inTime
  | snoc earlier step ih =>
    have next := run_after after (earlier.snoc step)
    obtain ⟨a, o, rfl, rfl, same, -⟩ | ⟨late, rfl, looks, -⟩ := step_cases step
    · obtain ended | ⟨i, waiting, -⟩ := ih
      · exact .inl (same.trans ended)
      · exact .inr ⟨i, same.trans waiting, next.lowered⟩
    · exact .inl (look_of_lowered ih looks)

theorem received_eq_flatten (events : List (PortAction × PortSeen)) :
    Port.received events = (reads events).flatten := by
  induction events with
  | nil => rfl
  | cons event events ih =>
    obtain ⟨a, o⟩ := event
    have split := received_append [(a, o)] events
    rw [List.singleton_append, ih] at split
    cases o with
    | received bytes =>
      simpa [reads, read?, Port.received, Port.PortSeen.bytes] using split
    | routed | compiled | quiet =>
      simpa [reads, read?, Port.received, Port.PortSeen.bytes] using split

theorem afterSync_append {before later : List (PortAction × PortSeen)} {packet : ComPacket}
    (unsynced : ∀ event ∈ before, isSync event.2 = false) :
    afterSync (before ++ (.compile, .routed packet .sync) :: later) = later := by
  have passes : ∀ event ∈ before, (fun event : PortAction × PortSeen =>
      !isSync event.2) event = true := by
    intro event member
    simp [unsynced event member]
  rw [afterSync, List.dropWhile_append_of_pos passes]
  rfl

/-- A packet of `U` alone cannot begin with other bytes. -/
theorem After.front_eq_nil {before later : List (PortAction × PortSeen)}
    {packet dropped front : List UInt8} {p : Port}
    (after : After size front before packet dropped later p) (few : front.length < size)
    (other : ∀ byte ∈ front, byte ≠ 0x55) (first : Port.routed before = []) : front = [] := by
  have cut := after.cut
  rw [first, List.flatten_nil, List.nil_append] at cut
  have inside : front <+: packet := by
    apply List.prefix_of_prefix_length_le (List.prefix_append front (Port.received before))
    · rw [cut]
      exact List.prefix_append _ _
    · rw [after.length]
      exact few.le
  rw [List.eq_nil_iff_forall_not_mem]
  intro byte member
  have marks := List.all_eq_true.mp after.marks byte (inside.subset member)
  exact other byte member (by simpa using marks)

theorem After.length_cut {before later : List (PortAction × PortSeen)}
    {packet dropped front : List UInt8} {p : Port}
    (after : After size front before packet dropped later p) :
    front.length + (Port.received before).length =
      (Port.routed before).length * size + size + dropped.length := by
  have lengths := congrArg List.length after.cut
  have flat : (Port.routed before).flatten.length = (Port.routed before).length * size := by
    rw [List.length_flatten, List.map_congr_left after.sized]
    simp
  simpa only [List.length_append, flat, after.length] using lengths

/-- The packet in front of which nothing was cut off is the only one that fits. -/
theorem After.routed_eq_nil {before later : List (PortAction × PortSeen)}
    {packet dropped front : List UInt8} {p : Port}
    (after : After size front before packet dropped later p)
    (less : front.length + (Port.received before).length < size + size) :
    Port.routed before = [] := by
  have cut := after.length_cut
  cases count : Port.routed before with
  | nil => rfl
  | cons first others =>
    rw [count, List.length_cons, Nat.succ_mul] at cut
    omega

/-- Without a read behind the packet, nothing is decoded, and the buffer is empty. -/
theorem After.nothing_left {before later : List (PortAction × PortSeen)}
    {packet dropped front : List UInt8} {p : Port} (positive : 0 < size)
    (after : After size front before packet dropped later p) (calm : p.compiling = none)
    (empty : Port.received later = []) : Port.routed later = [] ∧ p.inBufPtr = 0 := by
  obtain ⟨routed, -⟩ := after.streaming.blocks_eq positive calm
  rw [empty, blocks_nil] at routed
  have balance := after.streaming.balance
  have filled := after.streaming.inside.2
  rw [empty, routed, Port.processed, calm] at balance
  have nothing : p.inBuf.take p.inBufPtr = [] := by simpa using balance.symm
  have length := congrArg List.length nothing
  rw [List.length_take, List.length_nil] at length
  exact ⟨routed, by omega⟩

/-- If all of the answer comes in front of the packet, nothing is left of it behind the packet. -/
theorem found_of_answer (stray : Stray size port) (clean : port.inBufPtr = 0)
    (run : (machine size trace).Run (start port) history s) (calm : s.port.compiling = none)
    (answer : Port.received (portEvents history) = List.replicate size 0x55) :
    ∃ before packet dropped later,
      portEvents history = before ++ (.compile, .routed packet .sync) :: later ∧
      After size (port.inBuf.take port.inBufPtr) before packet dropped later s.port ∧
      Port.received later = [] := by
  obtain before | ⟨before, packet, dropped, later, split, after⟩ := run_before_or_found stray run
  · -- the answer would have gone by as a packet
    obtain ⟨routed, -⟩ := before.streaming.blocks_eq stray.positive calm
    have whole : Port.received ((.handleRead (port.inBuf.take port.inBufPtr),
        .received (port.inBuf.take port.inBufPtr)) :: portEvents history) =
          List.replicate size 0x55 := by
      rw [← answer, clean]
      rfl
    have single : blocks size (List.replicate size (0x55 : UInt8)) =
        [List.replicate size 0x55] := blocks_of_length stray.positive List.length_replicate
    have member : List.replicate size (0x55 : UInt8) ∈ Port.routed (portEvents history) := by
      have gone : Port.routed (portEvents history) = [List.replicate size 0x55] := by
        rw [← single, ← whole, ← routed]
        rfl
      simp [gone]
    have passed := before.passed _ member
    simp [ComPacket.syncPacket] at passed
  · refine ⟨before, packet, dropped, later, split, after, ?_⟩
    have parts := received_split before later packet
    rw [← split, answer] at parts
    have lengths := congrArg List.length parts
    have cut := after.length_cut
    rw [clean] at cut
    simp only [List.take_zero, List.length_nil, List.length_replicate, List.length_append]
      at cut lengths
    exact List.eq_nil_of_length_eq_zero (by omega)

theorem recovered_of_answer (stray : Stray size port) (clean : port.inBufPtr = 0)
    (run : (machine size trace).Run (start port) history s) (calm : s.port.compiling = none)
    (inTime : s.progress ≠ .returned false)
    (answer : Port.received (portEvents history) = List.replicate size 0x55)
    (further : (machine size trace).Run s more t) : Recovered size (history ++ more) t := by
  obtain ⟨before, packet, dropped, later, split, after, empty⟩ :=
    found_of_answer stray clean run calm answer
  have next := run_after after further
  intro rest follows idle
  rw [portEvents_append, received_append, answer, List.append_cancel_left_eq] at follows
  refine ⟨run_succeeds after inTime further, ?_, ?_⟩
  · simp [portEvents_append, split, isSync]
  · rw [portEvents_append, split, List.append_assoc, List.cons_append,
      afterSync_append after.unsynced, (next.streaming.blocks_eq stray.positive idle).1,
      received_append, empty, List.nil_append, follows]

/-- All reads of the answer come before the packet that was taken for it. -/
theorem received_later_eq_nil {before later : List (PortAction × PortSeen)}
    {packet dropped : List UInt8} (stray : Stray size port)
    (after : After size (port.inBuf.take port.inBufPtr) before packet dropped later s.port)
    {first : List (List UInt8)} {last : List UInt8}
    (ends : reads (before ++ (.compile, .routed packet .sync) :: later) = first ++ [last])
    (short : first.flatten.length < size) : Port.received later = [] := by
  have split : reads before ++ reads later = first ++ [last] := by
    rw [← ends, reads, reads, reads, List.filterMap_append]
    rfl
  have few := stray.length_lt
  rw [received_eq_flatten later]
  by_contra some
  have nonempty : reads later ≠ [] := by
    intro none
    simp [none] at some
  -- the reads before the packet would be too short for it
  have inside : reads before <+: first := by
    have whole : reads before <+: first ++ [last] := ⟨reads later, split⟩
    have lengths := congrArg List.length split
    have positive := List.length_pos_of_ne_nil nonempty
    simp only [List.length_append, List.length_singleton] at lengths
    exact List.prefix_of_prefix_length_le whole (List.prefix_append _ _) (by omega)
  have less : (Port.received before).length < size := by
    rw [received_eq_flatten]
    exact ((List.IsPrefix.flatten inside).length_le).trans_lt short
  have alone := after.routed_eq_nil (by omega)
  have none := after.front_eq_nil few stray.other alone
  have cut := after.length_cut
  rw [none, alone] at cut
  simp only [List.length_nil] at cut
  omega

variable (trace) in
/-- A read that completes no packet. -/
theorem exists_short_read (bytes : List UInt8) {before later : List (PortAction × PortSeen)}
    {packet dropped front : List UInt8}
    (after : After size front before packet dropped later s.port) (calm : s.port.compiling = none)
    (start : s.port.inBufPtr = 0) (nonempty : 0 < bytes.length) (short : bytes.length < size) :
    ∃ t u, (machine size trace).step s (.port (.handleRead bytes)) =
        some (.port (.received bytes), t) ∧
      (machine size trace).step t (.port .compile) = some (.port .compiled, u) ∧
      u.port.compiling = none := by
  have room := after.room
  obtain ⟨inBuf, writes, -, -⟩ :=
    Memory.write_spec s.port.inBuf s.port.inBufPtr bytes (by omega)
  have legal : s.port.compiling = none ∧ bytes ≠ [] ∧
      bytes.length ≤ s.port.inBuf.length - s.port.inBufPtr :=
    ⟨calm, List.ne_nil_of_length_pos nonempty, by omega⟩
  let p : Port := { s.port with
    inBuf
    inBufPtr := s.port.inBufPtr + bytes.length
    compiling := some (s.port.inBufPtr + bytes.length, 0) }
  have readsThem : s.port.handleRead bytes = some p := by
    rw [Port.handleRead, if_pos legal, writes, Option.map_some]
  have reading : (machine size trace).step s (.port (.handleRead bytes)) =
      some (.port (.received bytes), { s with port := p }) := by
    simp [machine, Machine.guard, Foreign, Port.machine, readsThem]
  have next := run_after after (Machine.Run.single reading)
  have other : p.syncNext size = false := Port.syncNext_of_unsynced next.lowered
  have begins : p.compiling = some (s.port.inBufPtr + bytes.length, 0) := rfl
  obtain ⟨-, -, ⟨enough, -⟩ | ⟨-, inBuf', ends, -⟩⟩ :=
    Port.compile_spec trace next.streaming other begins
  · have less : p.inBufPtr - 0 < size := by
      change s.port.inBufPtr + bytes.length - 0 < size
      omega
    exact absurd enough (Nat.not_le.mpr less)
  · let q : Port := { p with inBuf := inBuf', inBufPtr := p.inBufPtr - 0, compiling := none }
    refine ⟨_, { s with port := q }, reading, ?_, rfl⟩
    simp only [machine, Machine.guard, Foreign, Port.machine]
    rw [ends]
    rfl

/-- Whatever is read together with the end of the answer is missing from the packets. -/
theorem extra_eq_nil {before later : List (PortAction × PortSeen)}
    {packet dropped front : List UInt8} (positive : 0 < size)
    (split : portEvents history = before ++ (.compile, .routed packet .sync) :: later)
    (after : After size front before packet dropped later s.port) (calm : s.port.compiling = none)
    (empty : Port.received later = []) {extra : List UInt8}
    (answer : Port.received (portEvents history) = List.replicate size 0x55 ++ extra)
    (recovered : ∀ more t, (machine size trace).Run s more t → Recovered size (history ++ more) t) :
    extra = [] := by
  obtain ⟨routed, start⟩ := after.nothing_left positive calm empty
  have short : extra.length < size := by
    obtain ⟨-, -, now⟩ := recovered [] s .nil extra (by simpa using answer) calm
    rw [List.append_nil, split, afterSync_append after.unsynced, routed] at now
    by_contra enough
    have sized : (extra.take size).length = size := by
      rw [List.length_take]
      omega
    have full := blocks_append (extra.drop size) positive sized
    rw [List.take_append_drop, ← now] at full
    cases full
  by_contra some
  have few : 0 < extra.length := List.length_pos_of_ne_nil some
  -- one more read completes a packet of what has followed the answer
  let bytes : List UInt8 := List.replicate (size - extra.length) 0
  have count : bytes.length = size - extra.length := List.length_replicate
  obtain ⟨t, u, reading, compiling, idle⟩ := exists_short_read trace bytes after calm start
    (by omega) (by omega)
  have further := (Machine.Run.single reading).snoc compiling
  have follows : Port.received (portEvents (history ++
      [(.port (.handleRead bytes), .port (.received bytes)), (.port .compile, .port .compiled)])) =
        List.replicate size 0x55 ++ (extra ++ bytes) := by
    rw [portEvents_append, received_append, answer, List.append_assoc]
    simp [portEvents, portEvent?, Port.received, Port.PortSeen.bytes]
  obtain ⟨-, -, behind⟩ := recovered _ u further _ follows idle
  rw [portEvents_append, split, List.append_assoc, List.cons_append,
    afterSync_append after.unsynced, routed_append, routed] at behind
  have sized : (extra ++ bytes).length = size := by
    rw [List.length_append]
    omega
  rw [blocks_of_length positive sized] at behind
  cases behind

/-- `synchronize` recovers the stream, whatever follows, exactly if no stray byte was in the
buffer, and nothing was read together with the end of the answer. -/
theorem recovers_iff (stray : Stray size port)
    (run : (machine size trace).Run (start port) history s) (calm : s.port.compiling = none)
    (inTime : s.progress ≠ .returned false) {extra : List UInt8}
    (answer : Port.received (portEvents history) = List.replicate size 0x55 ++ extra)
    {first : List (List UInt8)} {last : List UInt8}
    (ends : reads (portEvents history) = first ++ [last]) (short : first.flatten.length < size) :
    (∀ more t, (machine size trace).Run s more t → Recovered size (history ++ more) t) ↔
      port.inBufPtr = 0 ∧ extra = [] := by
  constructor
  · intro recovered
    obtain ⟨-, found, -⟩ := recovered [] s .nil extra (by simpa using answer) calm
    rw [List.append_nil] at found
    obtain before | ⟨before, packet, dropped, later, split, after⟩ := run_before_or_found stray run
    · obtain ⟨event, member, sync⟩ := List.any_eq_true.mp found
      rw [isSync_of_streaming before.streaming event (.tail _ member)] at sync
      cases sync
    · have empty := received_later_eq_nil stray after (split ▸ ends) short
      obtain rfl := extra_eq_nil stray.positive split after calm empty answer recovered
      refine ⟨?_, rfl⟩
      have parts := received_split before later packet
      rw [← split, answer, empty, List.append_nil, List.append_nil] at parts
      have few := stray.length_lt
      have alone := after.routed_eq_nil (by rw [← parts, List.length_replicate]; omega)
      have none := congrArg List.length (after.front_eq_nil few stray.other alone)
      have filled := stray.filled
      rw [List.length_take, List.length_nil] at none
      omega
  · rintro ⟨clean, rfl⟩ more t further
    rw [List.append_nil] at answer
    exact recovered_of_answer stray clean run calm inTime answer further

end Runs

end Steps

/-- Packets of two bytes, an empty buffer, and the answer in two reads. -/
theorem recovers_clean : ∃ history s, (machine 2 SerialByte.tracePacket).Run
    (start (Port.new [0, 0, 0])) history s ∧ s.progress = .returned true ∧
      ∀ more t, (machine 2 SerialByte.tracePacket).Run s more t →
        Recovered 2 (history ++ more) t := by
  have executed : ∃ history s, (machine 2 SerialByte.tracePacket).exec (start (Port.new [0, 0, 0]))
      [.port (.handleRead [0x55]), .port .compile, .look true, .port (.handleRead [0x55]),
        .port .compile, .look false] = some (history, s) ∧ s.progress = .returned true ∧
      s.port.compiling = none ∧ s.progress ≠ .returned false ∧
      Port.received (portEvents history) = List.replicate 2 0x55 ++ [] ∧
      reads (portEvents history) = [[0x55]] ++ [[0x55]] :=
    ⟨_, _, rfl, by decide, by decide, by decide, by decide, by decide⟩
  obtain ⟨history, s, computed, synced, calm, inTime, answer, ends⟩ := executed
  have run := Machine.run_of_exec computed
  have stray : Stray 2 (Port.new [0, 0, 0]) := ⟨rfl, by decide, by decide, by simp [Port.new]⟩
  exact ⟨history, s, run, synced,
    (recovers_iff stray run calm inTime answer ends (by decide)).mpr ⟨rfl, rfl⟩⟩

/-- One stray byte `A` in the buffer: the answer is not recognized, `synchronize` gives up, and
the next packet is decoded with a byte of the answer in front of it. -/
theorem stray_not_recovered : ∃ history s, (machine 2 SerialByte.tracePacket).Run
    (start { inBuf := [0x41, 0, 0], inBufPtr := 1 }) history s ∧
      Stray 2 { inBuf := [0x41, 0, 0], inBufPtr := 1 } ∧
      Port.received (portEvents history) = List.replicate 2 0x55 ++ [1, 2] ∧
      Port.routed (portEvents history) = [[0x41, 0x55], [0x55, 1]] ∧
      s.progress = .returned false ∧ ¬Recovered 2 history s := by
  have executed : ∃ history s, (machine 2 SerialByte.tracePacket).exec
      (start { inBuf := [0x41, 0, 0], inBufPtr := 1 })
      ([.port (.handleRead [0x55, 0x55]), .port .compile, .port .compile] ++
        List.replicate 15 (.look true) ++
        [.port (.handleRead [1, 2]), .port .compile, .port .compile]) = some (history, s) ∧
      Port.received (portEvents history) = List.replicate 2 0x55 ++ [1, 2] ∧
      Port.routed (portEvents history) = [[0x41, 0x55], [0x55, 1]] ∧
      s.progress = .returned false ∧ s.port.compiling = none :=
    ⟨_, _, rfl, by decide, by decide, by decide, by decide⟩
  obtain ⟨history, s, computed, answer, packets, gaveUp, calm⟩ := executed
  refine ⟨history, s, Machine.run_of_exec computed, ⟨rfl, by decide, by decide, by simp⟩, answer,
    packets, gaveUp, fun recovered => ?_⟩
  obtain ⟨ended | ⟨i, waiting, -⟩, -⟩ := recovered _ answer calm
  · simp [gaveUp] at ended
  · simp [gaveUp] at waiting

end Synchronizing

end Crs.Sc
