import Crs.Ude.Elements
import Crs.Ude.Reassembly
import Crs.Ude.SendOrder

/-!
# The request thread and the end of the device manager

`proceed_request_job` marks its start, takes packets out of the outbox and hands them to `_send`
until `_send` throws `terminate_request_thread`, and waits while the outbox is empty. The
destructor of the manager posts a fast packet that makes `_send` throw, and waits for the flag
that the thread raises at its end.

A locked section is one step. A thread leaves a wait set when it is notified or spuriously, and
looks again. What the devices do with an echo is left out: what they post is posted by some
thread.
-/

namespace Crs.Ude

open Foundation

namespace PacketHeader

def domainStat : UInt16 := 0x8004
def domainSDevMan : UInt16 := 0x8008
def rcpThread : UInt16 := 0xFEAD

end PacketHeader

namespace DeviceManager

/-- `_send` delivered a packet of the ping tool, did nothing, or threw
`terminate_request_thread`. -/
inductive SendOutcome where
  | echoed
  | ignored
  | terminated
  deriving DecidableEq

/-- `_send` of the manager itself. -/
def send (packet : TalkPacket) : Except Failure SendOutcome := do
  let hdr ← inBounds packet.header
  if hdr.domain = PacketHeader.domainStat then
    if hdr.recepient = 0x0001 then return .echoed else return .ignored
  else if hdr.domain = PacketHeader.domainSDevMan then
    if hdr.recepient = PacketHeader.rcpThread then
      if hdr.idCheckBits PacketHeader.idLocal then
        let command ← packet.word 0
        if command = 0x0001 then return .terminated else return .ignored
      else return .ignored
    else return .ignored
  else return .ignored

/-- The packet that the destructor posts. -/
def terminatePacket (fresh : Nat → UInt8) : Except Failure TalkPacket := do
  let packet ← TalkPacket.construct fresh (PacketHeader.idLocal ||| PacketHeader.idFast) 8
    PacketHeader.domainSDevMan PacketHeader.rcpThread
  packet.setWord 0 0x0001

end DeviceManager

/-- Where the request thread is: in front of `mark_request_thread_start`, of the first section
of `proceed_request`, in `_send`, in front of its last section, of the test in
`wait_request_thread_activation`, in the wait set, in front of
`notify_request_thread_termination`, or behind it. An exception of another kind leaves the
thread. -/
inductive Phase where
  | created
  | requesting
  | sending (packet : TalkPacket)
  | rechecking
  | waiting
  | asleep
  | terminating
  | finished
  | failed
  deriving DecidableEq

/-- The destructor of the manager has not begun, is in front of its test, in the wait set, or has
returned. -/
inductive Owner where
  | alive
  | testing
  | asleep
  | returned
  deriving DecidableEq

structure RequestThread where
  outbox : List TalkPacket := []
  requestThreadFlag : Bool := true
  thread : Phase := .created
  owner : Owner := .alive

/-- Some thread posts a packet, the request thread runs or wakes up, the destructor posts its
packet, tests the flag or wakes up. -/
inductive ThreadAction where
  | post (packet : TalkPacket)
  | thread
  | wake
  | destroy (fresh : Nat → UInt8)
  | test
  | wakeOwner

/-- The packet that a step posts, or hands to `_send`. -/
inductive ThreadSeen where
  | posted (packet : TalkPacket)
  | handed (packet : TalkPacket)
  | quiet
  deriving DecidableEq

namespace RequestThread

/-- `notify_one` on the condition variable of the outbox. -/
def Phase.notified : Phase → Phase
  | .asleep => .waiting
  | other => other

@[simp] theorem Phase.notified_ne_asleep (phase : Phase) : Phase.notified phase ≠ .asleep := by
  cases phase <;> simp [Phase.notified]

@[simp] theorem Phase.notified_eq_created (phase : Phase) :
    Phase.notified phase = .created ↔ phase = .created := by
  cases phase <;> simp [Phase.notified]

@[simp] theorem Phase.notified_eq_finished (phase : Phase) :
    Phase.notified phase = .finished ↔ phase = .finished := by
  cases phase <;> simp [Phase.notified]

/-- `notify_one` on that of the destructor. -/
def Owner.notified : Owner → Owner
  | .asleep => .testing
  | other => other

/-- `_post`. -/
def posting (s : RequestThread) (packet : TalkPacket) : Option RequestThread :=
  (DeviceManager.post s.outbox packet).map fun outbox =>
    { s with outbox, thread := Phase.notified s.thread }

/-- The next step of the request thread. -/
def advance (s : RequestThread) : Option (ThreadSeen × RequestThread) :=
  match s.thread with
  | .created => some (.quiet, { s with requestThreadFlag := false, thread := .requesting })
  | .requesting =>
      match s.outbox with
      | [] => some (.quiet, { s with thread := .waiting })
      | packet :: rest =>
          some (.handed packet, { s with outbox := rest, thread := .sending packet })
  | .sending packet =>
      match DeviceManager.send packet with
      | .ok .terminated => some (.quiet, { s with thread := .terminating })
      | .ok _ => some (.quiet, { s with thread := .rechecking })
      | .error (.rangeError _) => some (.quiet, { s with thread := .failed })
      | .error .outOfBounds => none
  | .rechecking =>
      some (.quiet, { s with thread := if s.outbox.isEmpty then .waiting else .requesting })
  | .waiting =>
      some (.quiet, { s with thread := if s.outbox.isEmpty then .asleep else .requesting })
  | .terminating => some (.quiet, { s with
      requestThreadFlag := true, thread := .finished, owner := Owner.notified s.owner })
  | .asleep | .finished | .failed => none

def machine : Machine RequestThread ThreadAction ThreadSeen where
  step s
    | .post packet =>
        if s.owner = .returned then none
        else (s.posting packet).map fun s' => (.posted packet, s')
    | .thread => s.advance
    | .wake =>
        if s.thread = .asleep then some (.quiet, { s with thread := .waiting }) else none
    | .destroy fresh =>
        if s.owner = .alive then do
          let packet ← (DeviceManager.terminatePacket fresh).toOption
          let s ← s.posting packet
          return (.posted packet, { s with owner := .testing })
        else none
    | .test =>
        if s.owner = .testing then
          some (.quiet, { s with owner := if s.requestThreadFlag then .returned else .asleep })
        else none
    | .wakeOwner =>
        if s.owner = .asleep then some (.quiet, { s with owner := .testing }) else none

/-- The destructor begins when the thread has marked its start. -/
def Marked (s : RequestThread) : ThreadAction → Bool
  | .destroy _ => s.thread ≠ .created
  | .post _ | .thread | .wake | .test | .wakeOwner => true

end RequestThread

section Packets

open TalkPacket

/-- The header is in the first bytes. -/
theorem PacketHeader.ofBytes_take (memory : List UInt8) :
    ofBytes (memory.take headerSize) = ofBytes memory := by
  have reads : ∀ offset count, offset + count ≤ headerSize →
      Memory.read (memory.take headerSize) offset count = Memory.read memory offset count :=
    fun offset count => Memory.read_take
  rw [ofBytes, ofBytes, reads 0 4 (by decide), reads 4 2 (by decide), reads 6 2 (by decide),
    reads 8 2 (by decide)]

theorem TalkPacket.header_congr {p q : TalkPacket}
    (same : q.contents.take headerSize = p.contents.take headerSize) : q.header = p.header := by
  rw [header, header, ← PacketHeader.ofBytes_take, same, PacketHeader.ofBytes_take]

/-- The destructor's packet is fast, and `_send` throws on it. -/
theorem DeviceManager.terminatePacket_spec (fresh : Nat → UInt8) : ∃ packet,
    terminatePacket fresh = .ok packet ∧ isFast packet = true ∧
      send packet = .ok .terminated := by
  have enough : headerSize ≤ (constructSize 8).toNat := by decide
  have sound := @construct_sound_iff fresh (PacketHeader.idLocal ||| PacketHeader.idFast)
    PacketHeader.domainSDevMan PacketHeader.rcpThread 8 |>.mpr (by decide)
  have built := @construct_of_le fresh (PacketHeader.idLocal ||| PacketHeader.idFast)
    PacketHeader.domainSDevMan PacketHeader.rcpThread 8 enough
  rw [built] at sound
  generalize content : (PacketHeader.toBytes _ ++ _ : List UInt8) = contents at built sound
  have told := byteSize_header (constructSize 8)
    ⟨8, PacketHeader.idLocal ||| PacketHeader.idFast, PacketHeader.domainSDevMan,
      PacketHeader.rcpThread⟩ ((allocate fresh (constructSize 8)).drop headerSize)
  rw [content] at told
  have length := sound.length_payload told
  have writes := setElement_eq sound .word 0 (Memory.length_bytesOf 2 1)
  rw [if_neg (by rw [length]; decide)] at writes
  obtain ⟨packet, written, sound', -, front, payload⟩ := writes
  have header : packet.header = some ⟨8, PacketHeader.idLocal ||| PacketHeader.idFast,
      PacketHeader.domainSDevMan, PacketHeader.rcpThread⟩ := by
    rw [header_congr front, TalkPacket.header, ← content, ← PacketHeader.ofBytes_take,
      List.take_left' (PacketHeader.length_toBytes _), PacketHeader.ofBytes_toBytes]
  have command : packet.word 0 = .ok 0x0001 := by
    rw [word, element_eq sound', payload, if_neg (by simp [View.width, Memory.length_bytesOf])]
    rfl
  refine ⟨packet, ?_, ?_, ?_⟩
  · rw [terminatePacket, built]
    exact written
  · rw [isFast, header]
    decide
  · rw [send, header]
    simp only [inBounds, bind, Except.bind, command]
    decide

end Packets

namespace RequestThread

open DeviceManager (isFast send terminatePacket)

/-- What a step can do, one constructor a case. -/
inductive Effect (s : RequestThread) : ThreadAction → ThreadSeen → RequestThread → Prop where
  | post {packet : TalkPacket} (present : s.owner ≠ .returned) :
      Effect s (.post packet) (.posted packet) { s with
        outbox := UrgentQueue.insert isFast s.outbox packet
        thread := Phase.notified s.thread }
  | start (here : s.thread = .created) :
      Effect s .thread .quiet { s with requestThreadFlag := false, thread := .requesting }
  | idle (here : s.thread = .requesting ∨ s.thread = .rechecking) (empty : s.outbox = []) :
      Effect s .thread .quiet { s with thread := .waiting }
  | take {packet : TalkPacket} {rest : List TalkPacket} (here : s.thread = .requesting)
      (front : s.outbox = packet :: rest) :
      Effect s .thread (.handed packet) { s with outbox := rest, thread := .sending packet }
  | sent {packet : TalkPacket} {outcome : DeviceManager.SendOutcome}
      (here : s.thread = .sending packet) (result : send packet = .ok outcome)
      (other : outcome ≠ .terminated) : Effect s .thread .quiet { s with thread := .rechecking }
  | stop {packet : TalkPacket} (here : s.thread = .sending packet)
      (result : send packet = .ok .terminated) :
      Effect s .thread .quiet { s with thread := .terminating }
  | fail {packet : TalkPacket} {what : String} (here : s.thread = .sending packet)
      (result : send packet = .error (.rangeError what)) :
      Effect s .thread .quiet { s with thread := .failed }
  | sleep (here : s.thread = .waiting) (empty : s.outbox = []) :
      Effect s .thread .quiet { s with thread := .asleep }
  | resume (here : s.thread = .rechecking ∨ s.thread = .waiting) (some : s.outbox ≠ []) :
      Effect s .thread .quiet { s with thread := .requesting }
  | finish (here : s.thread = .terminating) :
      Effect s .thread .quiet { s with
        requestThreadFlag := true, thread := .finished, owner := Owner.notified s.owner }
  | wake (here : s.thread = .asleep) : Effect s .wake .quiet { s with thread := .waiting }
  | destroy {fresh : Nat → UInt8} {packet : TalkPacket} (alive : s.owner = .alive)
      (built : terminatePacket fresh = .ok packet) :
      Effect s (.destroy fresh) (.posted packet) { s with
        outbox := UrgentQueue.insert isFast s.outbox packet
        thread := Phase.notified s.thread
        owner := .testing }
  | test (here : s.owner = .testing) :
      Effect s .test .quiet { s with
        owner := if s.requestThreadFlag then .returned else .asleep }
  | wakeOwner (here : s.owner = .asleep) :
      Effect s .wakeOwner .quiet { s with owner := .testing }

section Steps

variable {s s' : RequestThread} {a : ThreadAction} {o : ThreadSeen}

theorem posting_eq {packet : TalkPacket} (posted : s.posting packet = some s') :
    s' = { s with
      outbox := UrgentQueue.insert isFast s.outbox packet
      thread := Phase.notified s.thread } := by
  obtain ⟨outbox, placed, rfl⟩ := Option.map_eq_some_iff.mp posted
  rw [DeviceManager.post_eq_insert placed]

theorem effect_of_advance (step : s.advance = some (o, s')) : Effect s .thread o s' := by
  unfold advance at step
  split at step
  · rename_i here
    obtain ⟨rfl, rfl⟩ := Prod.mk.inj (Option.some.inj step)
    exact .start here
  · rename_i here
    split at step
    · rename_i empty
      obtain ⟨rfl, rfl⟩ := Prod.mk.inj (Option.some.inj step)
      exact .idle (.inl here) empty
    · rename_i front
      obtain ⟨rfl, rfl⟩ := Prod.mk.inj (Option.some.inj step)
      exact .take here front
  · rename_i packet here
    split at step
    · rename_i result
      obtain ⟨rfl, rfl⟩ := Prod.mk.inj (Option.some.inj step)
      exact .stop here result
    · rename_i outcome other result
      obtain ⟨rfl, rfl⟩ := Prod.mk.inj (Option.some.inj step)
      exact .sent here result other
    · rename_i result
      obtain ⟨rfl, rfl⟩ := Prod.mk.inj (Option.some.inj step)
      exact .fail here result
    · cases step
  · rename_i here
    obtain ⟨rfl, rfl⟩ := Prod.mk.inj (Option.some.inj step)
    split
    · rename_i empty
      exact .idle (.inr here) (List.isEmpty_iff.mp empty)
    · rename_i some
      exact .resume (.inl here) fun empty => some (List.isEmpty_iff.mpr empty)
  · rename_i here
    obtain ⟨rfl, rfl⟩ := Prod.mk.inj (Option.some.inj step)
    split
    · rename_i empty
      exact .sleep here (List.isEmpty_iff.mp empty)
    · rename_i some
      exact .resume (.inr here) fun empty => some (List.isEmpty_iff.mpr empty)
  · rename_i here
    obtain ⟨rfl, rfl⟩ := Prod.mk.inj (Option.some.inj step)
    exact .finish here
  all_goals cases step

theorem effect_of_step (step : machine.step s a = some (o, s')) : Effect s a o s' := by
  cases a with
  | post packet =>
    simp only [machine] at step
    split at step
    · cases step
    · rename_i present
      obtain ⟨t, posted, result⟩ := Option.map_eq_some_iff.mp step
      obtain ⟨rfl, rfl⟩ := Prod.mk.inj result
      rw [posting_eq posted]
      exact .post present
  | thread => exact effect_of_advance step
  | wake =>
    obtain ⟨here, step⟩ := Option.ite_none_right_eq_some.mp step
    obtain ⟨rfl, rfl⟩ := Prod.mk.inj (Option.some.inj step)
    exact .wake here
  | destroy fresh =>
    obtain ⟨alive, step⟩ := Option.ite_none_right_eq_some.mp step
    simp only [Option.bind_eq_bind, Option.bind_eq_some_iff] at step
    obtain ⟨packet, built, t, posted, result⟩ := step
    obtain ⟨rfl, rfl⟩ := Prod.mk.inj (Option.some.inj result)
    rw [posting_eq posted]
    apply Effect.destroy alive
    cases outcome : terminatePacket fresh with
    | ok other =>
      rw [outcome] at built
      rw [Option.some.inj built]
    | error e =>
      rw [outcome] at built
      cases built
  | test =>
    obtain ⟨here, step⟩ := Option.ite_none_right_eq_some.mp step
    obtain ⟨rfl, rfl⟩ := Prod.mk.inj (Option.some.inj step)
    exact .test here
  | wakeOwner =>
    obtain ⟨here, step⟩ := Option.ite_none_right_eq_some.mp step
    obtain ⟨rfl, rfl⟩ := Prod.mk.inj (Option.some.inj step)
    exact .wakeOwner here

end Steps

/-- Nothing but fast packets is in front of a packet that stops the thread, or the thread has
taken it, or has ended. -/
def Ending (s : RequestThread) : Prop :=
  (∃ packet, send packet = .ok .terminated ∧ isFast packet = true ∧
    UrgentQueue.Leads isFast packet s.outbox) ∨
  (∃ packet, send packet = .ok .terminated ∧ s.thread = .sending packet) ∨
  s.thread = .terminating ∨ s.thread = .finished ∨ s.thread = .failed

/-- The thread sleeps on an empty outbox only, the flag is down while it runs, and once the
destructor has begun the thread is on the way to its end. -/
structure Sound (s : RequestThread) : Prop where
  sleeps : s.thread = .asleep → s.outbox = []
  flag : s.requestThreadFlag = true ↔ s.thread = .created ∨ s.thread = .finished
  waits : s.owner = .asleep → s.requestThreadFlag = false
  marked : s.owner ≠ .alive → s.thread ≠ .created
  ending : s.owner ≠ .alive → Ending s
  ended : s.owner = .returned → s.thread = .finished

section Invariant

variable {s s' : RequestThread} {a : ThreadAction} {o : ThreadSeen}

/-- An insertion does not put off the end. -/
theorem Ending.insert (ending : Ending s) (packet : TalkPacket) {owner : Owner} :
    Ending { s with
      outbox := UrgentQueue.insert isFast s.outbox packet
      thread := Phase.notified s.thread
      owner } := by
  have fixed : ∀ phase, s.thread = phase → phase ≠ .asleep → Phase.notified s.thread = phase := by
    intro phase here other
    rw [here]
    cases phase <;> first | rfl | exact absurd rfl other
  obtain ⟨last, stops, fast, leads⟩ | ⟨last, stops, here⟩ | here | here | here := ending
  · have front : UrgentQueue.Leads isFast last ([] ++ s.outbox) := leads
    exact .inl ⟨last, stops, fast, front.insert packet⟩
  · exact .inr (.inl ⟨last, stops, fixed _ here nofun⟩)
  · exact .inr (.inr (.inl (fixed _ here nofun)))
  · exact .inr (.inr (.inr (.inl (fixed _ here nofun))))
  · exact .inr (.inr (.inr (.inr (fixed _ here nofun))))

/-- The packet that the thread takes when its end has been ordered is fast. -/
theorem Ending.take (ending : Ending s) (here : s.thread = .requesting) {packet : TalkPacket}
    {rest : List TalkPacket} (front : s.outbox = packet :: rest) :
    isFast packet = true ∧ Ending { s with outbox := rest, thread := .sending packet } := by
  obtain ⟨last, stops, fast, before, after, split, all⟩ | ⟨last, -, other⟩ | other | other |
    other := ending
  · rw [front] at split
    cases before with
    | nil =>
      obtain ⟨rfl, rfl⟩ := List.cons.inj split
      exact ⟨fast, .inr (.inl ⟨packet, stops, rfl⟩)⟩
    | cons first before =>
      obtain ⟨rfl, rfl⟩ := List.cons.inj split
      exact ⟨all packet List.mem_cons_self, .inl ⟨last, stops, fast, before, after, rfl,
        fun other member => all other (List.mem_cons_of_mem packet member)⟩⟩
  all_goals
    rw [here] at other
    cases other

/-- The thread is in its loop. -/
def Phase.isRunning : Phase → Bool
  | .created | .finished => false
  | .requesting | .sending _ | .rechecking | .waiting | .asleep | .terminating | .failed => true

/-- The thread is in its loop, and neither stopping nor dead. -/
def Phase.isLooping : Phase → Bool
  | .requesting | .rechecking | .waiting | .asleep => true
  | .created | .sending _ | .terminating | .finished | .failed => false

/-- While the thread is between two packets, its end is in the outbox. -/
theorem Ending.leads (ending : Ending s) (looping : Phase.isLooping s.thread = true) :
    ∃ packet, send packet = .ok .terminated ∧ isFast packet = true ∧
      UrgentQueue.Leads isFast packet s.outbox := by
  obtain last | ⟨last, stops, here⟩ | here | here | here := ending
  · exact last
  all_goals
    rw [here] at looping
    cases looping

/-- A step of the thread from one place in its loop to another one. -/
theorem Sound.move (sound : Sound s) (before : Phase.isRunning s.thread = true) (phase : Phase)
    (after : Phase.isRunning phase = true) (outbox : List TalkPacket)
    (sleeps : phase = .asleep → outbox = [])
    (ending : Ending s → Ending { s with outbox, thread := phase }) :
    Sound { s with outbox, thread := phase } := by
  have inside : ∀ place, Phase.isRunning place = true → place ≠ .created ∧ place ≠ .finished := by
    intro place running
    constructor <;> rintro rfl <;> cases running
  obtain ⟨begun, unfinished⟩ := inside _ before
  obtain ⟨begun', unfinished'⟩ := inside _ after
  have down : s.requestThreadFlag = false := by
    simpa [begun, unfinished] using sound.flag
  refine ⟨sleeps, ?_, sound.waits, fun _ => begun', fun late => ending (sound.ending late),
    fun returned => absurd (sound.ended returned) unfinished⟩
  simp [down, begun', unfinished']

theorem Sound.step (sound : Sound s) (marked : Marked s a = true) (effect : Effect s a o s') :
    Sound s' := by
  cases effect with
  | post present =>
    exact ⟨fun here => absurd here (Phase.notified_ne_asleep _), by simpa using sound.flag,
      sound.waits, by simpa using sound.marked, fun late => (sound.ending late).insert _,
      by simpa using sound.ended⟩
  | start here =>
    have early : s.owner = .alive := by
      by_contra late
      exact sound.marked late here
    exact ⟨nofun, by simp, fun _ => rfl, fun late => absurd early late,
      fun late => absurd early late, fun returned => by simp [early] at returned⟩
  | idle here empty =>
    have looping : Phase.isLooping s.thread = true ∧ Phase.isRunning s.thread = true := by
      obtain here | here := here <;> rw [here] <;> exact ⟨rfl, rfl⟩
    exact sound.move looping.2 .waiting rfl _ nofun fun ending => .inl (ending.leads looping.1)
  | take here front =>
    exact sound.move (by rw [here]; rfl) _ rfl _ nofun fun ending => (ending.take here front).2
  | @sent packet outcome here result other =>
    refine sound.move (by rw [here]; rfl) .rechecking rfl _ nofun fun ending => .inl ?_
    obtain last | ⟨last, stops, same⟩ | same | same | same := ending
    · exact last
    · rw [here] at same
      obtain rfl : packet = last := by simpa using same
      rw [result] at stops
      exact absurd (Except.ok.inj stops) other
    all_goals
      rw [here] at same
      cases same
  | stop here result =>
    exact sound.move (by rw [here]; rfl) .terminating rfl _ nofun fun _ => .inr (.inr (.inl rfl))
  | fail here result =>
    exact sound.move (by rw [here]; rfl) .failed rfl _ nofun
      fun _ => .inr (.inr (.inr (.inr rfl)))
  | sleep here empty =>
    refine sound.move (by rw [here]; rfl) .asleep rfl _ (fun _ => empty) fun ending => .inl ?_
    exact ending.leads (by rw [here]; rfl)
  | resume here some =>
    have looping : Phase.isLooping s.thread = true ∧ Phase.isRunning s.thread = true := by
      obtain here | here := here <;> rw [here] <;> exact ⟨rfl, rfl⟩
    exact sound.move looping.2 .requesting rfl _ nofun fun ending => .inl (ending.leads looping.1)
  | finish here =>
    refine ⟨nofun, by simp, ?_, fun _ => nofun, fun _ => .inr (.inr (.inr (.inl rfl))),
      fun _ => rfl⟩
    cases owner : s.owner <;> simp [Owner.notified]
  | wake here =>
    refine sound.move (by rw [here]; rfl) .waiting rfl _ nofun fun ending => .inl ?_
    exact ending.leads (by rw [here]; rfl)
  | @destroy fresh packet alive built =>
    obtain ⟨last, again, fast, stops⟩ := DeviceManager.terminatePacket_spec fresh
    obtain rfl := Except.ok.inj (built.symm.trans again)
    refine ⟨fun here => absurd here (Phase.notified_ne_asleep _), by simpa using sound.flag,
      nofun, fun _ => ?_, fun _ => .inl ⟨packet, stops, fast,
        UrgentQueue.leads_insert_self fast⟩, nofun⟩
    simpa [Marked] using marked
  | test here =>
    have late : s.owner ≠ .alive := by
      rw [here]
      nofun
    refine ⟨sound.sleeps, sound.flag, fun asleep => ?_, fun _ => sound.marked late,
      fun _ => sound.ending late, fun returned => ?_⟩
    · cases flag : s.requestThreadFlag with
      | false => rfl
      | true => simp [flag] at asleep
    · cases flag : s.requestThreadFlag with
      | false => simp [flag] at returned
      | true => exact (sound.flag.mp flag).resolve_left (sound.marked late)
  | wakeOwner here =>
    have late : s.owner ≠ .alive := by
      rw [here]
      nofun
    exact ⟨sound.sleeps, sound.flag, nofun, fun _ => sound.marked late,
      fun _ => sound.ending late, nofun⟩

end Invariant

/-- `_send` can take every packet that waits for it, and the thread has not died of another one. -/
structure Harmless (s : RequestThread) : Prop where
  queued : ∀ packet ∈ s.outbox, ∃ outcome, send packet = .ok outcome
  taken : ∀ packet, s.thread = .sending packet → ∃ outcome, send packet = .ok outcome
  living : s.thread ≠ .failed

/-- A bound of the steps that the thread takes while packets only leave the outbox. -/
def remaining (s : RequestThread) : Nat :=
  4 * s.outbox.length + match s.thread with
    | .sending _ => 3
    | .rechecking => 2
    | .waiting | .terminating => 1
    | .created | .requesting | .asleep | .finished | .failed => 0

/-- The packets handed to `_send`. -/
def handed (history : List (ThreadAction × ThreadSeen)) : List TalkPacket :=
  history.filterMap fun event => match event.2 with
    | .handed packet => some packet
    | .posted _ | .quiet => none

section Runs

variable {s s' : RequestThread} {a : ThreadAction} {o : ThreadSeen}
  {history : List (ThreadAction × ThreadSeen)}

theorem run_sound (run : (machine.guard fun s a => Marked s a = true).Run {} history s) :
    Sound s := by
  apply run.state_invariant
  · exact ⟨nofun, by simp, nofun, fun late => absurd rfl late, fun late => absurd rfl late, nofun⟩
  · intro t a o u sound step
    obtain ⟨marked, step⟩ := Machine.guard_step_iff.mp step
    exact sound.step marked (effect_of_step step)

/-- Once the destructor has begun, the thread takes fast packets only. -/
theorem Sound.late_step (sound : Sound s) (late : s.owner ≠ .alive)
    (step : machine.step s a = some (o, s')) :
    Sound s' ∧ s'.owner ≠ .alive ∧ ∀ packet, o = .handed packet → isFast packet = true := by
  have effect := effect_of_step step
  have marked : Marked s a = true := by
    cases a with
    | destroy fresh =>
      cases effect with
      | destroy alive built => exact absurd alive late
    | post | thread | wake | test | wakeOwner => rfl
  refine ⟨sound.step marked effect, ?_, ?_⟩
  · cases effect with
    | finish here => cases owner : s.owner <;> simp_all [Owner.notified]
    | test here => simp only; split <;> nofun
    | destroy | wakeOwner => nofun
    | post | start | idle | take | sent | stop | fail | sleep | resume | wake => exact late
  · rintro packet rfl
    cases effect with
    | take here front => exact ((sound.ending late).take here front).1

theorem Sound.late_run (sound : Sound s) (late : s.owner ≠ .alive)
    (run : machine.Run s history s') : ∀ packet ∈ handed history, isFast packet = true := by
  suffices all : Sound s' ∧ s'.owner ≠ .alive ∧ ∀ packet ∈ handed history, isFast packet = true
    from all.2.2
  apply run.invariant (P := fun history t =>
    Sound t ∧ t.owner ≠ .alive ∧ ∀ packet ∈ handed history, isFast packet = true)
  · exact ⟨sound, late, nofun⟩
  · rintro history t a o u - ⟨sound, late, fast⟩ step
    obtain ⟨sound', late', now⟩ := sound.late_step late step
    refine ⟨sound', late', fun packet member => ?_⟩
    rw [handed, Machine.filterMap_snoc, List.mem_append] at member
    obtain before | last := member
    · exact fast packet before
    · cases o with
      | handed other =>
        obtain rfl : packet = other := by simpa using last
        exact now packet rfl
      | posted | quiet => cases last

/-- The thread has a step towards its end. -/
theorem Sound.exists_advance (sound : Sound s) (late : s.owner ≠ .alive) (harmless : Harmless s)
    (unfinished : s.thread ≠ .finished) : ∃ o t, machine.step s .thread = some (o, t) ∧
      Harmless t ∧ remaining t < remaining s := by
  have queued := harmless.queued
  have ending := sound.ending late
  -- while packets wait, the thread goes on to the next one
  have resume : (s.thread = .rechecking ∨ s.thread = .waiting) → s.outbox ≠ [] →
      machine.step s .thread = some (.quiet, { s with thread := .requesting }) := by
    intro here some
    obtain here | here := here <;> simp [machine, advance, here, some]
  have waits : Phase.isLooping s.thread = true → s.outbox ≠ [] := by
    intro looping
    obtain ⟨last, -, -, before, after, split, -⟩ := ending.leads looping
    simp [split]
  cases here : s.thread with
  | created => exact absurd here (sound.marked late)
  | finished => exact absurd here unfinished
  | failed => exact absurd here harmless.living
  | asleep => exact absurd (sound.sleeps here) (waits (by rw [here]; rfl))
  | requesting =>
    obtain ⟨packet, rest, front⟩ := List.exists_cons_of_ne_nil (waits (by rw [here]; rfl))
    refine ⟨.handed packet, { s with outbox := rest, thread := .sending packet },
      by simp [machine, advance, here, front],
      ⟨fun other member => ?_, fun other same => ?_, nofun⟩, ?_⟩
    · exact queued other (by simp [front, member])
    · obtain rfl := Phase.sending.inj same
      exact queued packet (by simp [front])
    · simp only [remaining, here, front, List.length_cons]
      omega
  | sending packet =>
    obtain ⟨outcome, result⟩ := harmless.taken packet here
    obtain rfl | other := eq_or_ne outcome .terminated
    · refine ⟨.quiet, { s with thread := .terminating }, by simp [machine, advance, here, result],
        ⟨queued, nofun, nofun⟩, ?_⟩
      simp only [remaining, here]
      omega
    · refine ⟨.quiet, { s with thread := .rechecking }, ?_, ⟨queued, nofun, nofun⟩, ?_⟩
      · cases outcome with
        | terminated => exact absurd rfl other
        | echoed | ignored => simp [machine, advance, here, result]
      · simp only [remaining, here]
        omega
  | rechecking =>
    exact ⟨_, _, resume (.inl here) (waits (by rw [here]; rfl)), ⟨queued, nofun, nofun⟩,
      by simp [remaining, here]⟩
  | waiting =>
    exact ⟨_, _, resume (.inr here) (waits (by rw [here]; rfl)), ⟨queued, nofun, nofun⟩,
      by simp [remaining, here]⟩
  | terminating =>
    exact ⟨.quiet, { s with
        requestThreadFlag := true, thread := .finished, owner := Owner.notified s.owner },
      by simp [machine, advance, here], ⟨queued, nofun, nofun⟩, by simp [remaining, here]⟩

/-- The thread reaches its end by itself. -/
theorem Sound.exists_finished (sound : Sound s) (late : s.owner ≠ .alive) (harmless : Harmless s) :
    ∃ later t, machine.Run s later t ∧ (∀ event ∈ later, event.1 = .thread) ∧ Sound t ∧
      t.owner ≠ .alive ∧ t.thread = .finished := by
  induction steps : remaining s using Nat.strong_induction_on generalizing s with
  | _ n ih =>
    by_cases finished : s.thread = .finished
    · exact ⟨[], s, .nil, nofun, sound, late, finished⟩
    obtain ⟨o, t, step, harmless', less⟩ := sound.exists_advance late harmless finished
    obtain ⟨sound', late', -⟩ := sound.late_step late step
    obtain ⟨later, u, run, own, ended⟩ := ih _ (steps ▸ less) sound' late' harmless' rfl
    exact ⟨_, u, .cons step run, by simpa using own, ended⟩

/-- In every run in which the destructor begins when the request thread has marked its start: the
thread sleeps on an empty outbox only; when the destructor has returned, the thread has ended;
once it has begun, no packet that is not fast reaches `_send` any more; and if `_send` can take
the waiting packets, the thread and the destructor come to their ends by themselves. -/
theorem run_ends (run : (machine.guard fun s a => Marked s a = true).Run {} history s) :
    (s.thread = .asleep → s.outbox = []) ∧
    (s.owner = .returned → s.thread = .finished) ∧
    (s.owner ≠ .alive → ∀ later t, machine.Run s later t →
      ∀ packet ∈ handed later, isFast packet = true) ∧
    (s.owner ≠ .alive → Harmless s → ∃ later t, machine.Run s later t ∧
      (∀ event ∈ later, event.1 = .thread ∨ event.1 = .test) ∧ t.owner = .returned) := by
  have sound := run_sound run
  refine ⟨sound.sleeps, sound.ended, fun late later t => sound.late_run late,
    fun late harmless => ?_⟩
  obtain ⟨later, t, ending, own, sound', late', finished⟩ := sound.exists_finished late harmless
  have up := sound'.flag.mpr (.inr finished)
  cases owner : t.owner with
  | alive => exact absurd owner late'
  | returned => exact ⟨later, t, ending, fun event member => .inl (own event member), owner⟩
  | asleep =>
    rw [sound'.waits owner] at up
    cases up
  | testing =>
    have step : machine.step t .test = some (.quiet, { t with owner := .returned }) := by
      simp [machine, owner, up]
    refine ⟨_, _, ending.snoc step, fun event member => ?_, rfl⟩
    obtain before | last := List.mem_append.mp member
    · exact .inl (own event before)
    · obtain rfl := List.mem_singleton.mp last
      exact .inr rfl

/-- A packet without contents, for no device. -/
def request : TalkPacket := ⟨10, [0, 0, 0, 0, 1, 0, 0, 0, 0, 0]⟩

/-- The destructor begins while the first of two packets is in `_send`; the second one stays. -/
theorem run_ends_two : ∃ history s,
    (machine.guard fun s a => Marked s a = true).Run {} history s ∧
      s.thread = .sending request ∧ s.outbox.getLast? = some request ∧
      ∃ later t, machine.Run s later t ∧ t.owner = .returned := by
  have executed : ∃ history s, (machine.guard fun s a => Marked s a = true).exec {}
      [.thread, .post request, .post request, .thread, .destroy fun _ => 7] = some (history, s) ∧
      s.thread = .sending request ∧ s.outbox.getLast? = some request ∧ s.owner = .testing ∧
      (∀ packet ∈ request :: s.outbox,
        send packet = .ok .ignored ∨ send packet = .ok .terminated) :=
    ⟨_, _, rfl, by decide, by decide, rfl, by decide⟩
  obtain ⟨history, s, computed, taken, last, begun, sendable⟩ := executed
  have run := Machine.run_of_exec computed
  have able : ∀ packet ∈ request :: s.outbox, ∃ outcome, send packet = .ok outcome := by
    intro packet member
    obtain ignored | stops := sendable packet member
    · exact ⟨_, ignored⟩
    · exact ⟨_, stops⟩
  have harmless : Harmless s := by
    refine ⟨fun packet member => able packet (List.mem_cons_of_mem _ member),
      fun packet same => able packet ?_, by rw [taken]; nofun⟩
    rw [taken] at same
    obtain rfl := Phase.sending.inj same
    exact List.mem_cons_self
  obtain ⟨later, t, ending, -, returned⟩ :=
    (run_ends run).2.2.2 (by rw [begun]; nofun) harmless
  exact ⟨history, s, run, taken, last, later, t, ending, returned⟩

end Runs

end RequestThread

end Crs.Ude
