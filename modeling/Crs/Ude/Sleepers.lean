import Crs.Ude.Transmission

/-!
# Threads that wait for their packet

With the timeout -1 a thread posts its packet in one section and goes to sleep in the next one,
whatever has become of the packet in between. A thread that is notified clears the flag of the
slot, whoever posts or sleeps by then. Whose packet is in the slot follows from the history.
-/

namespace Crs.Ude

open Foundation

/-- A thread that has passed a deadline or will. -/
def Sender.isTimed : Sender → Bool
  | .posted .timed | .asleep .timed | .awake .timed _ => true
  | .idle | .posted .forever | .asleep .forever | .awake .forever _ => false

def OutAction.isTimed {T : Type*} : OutAction T → Bool
  | .sendTimed _ _ .timed | .expire _ => true
  | .sendTimed _ _ .forever | .sendPacket _ _ | .await _ | .recheck _ | .handleWrite _ _ => false

/-- The thread and the packet of a call of `send_packet`. -/
def OutAction.post? {T : Type*} : OutAction T → Option (T × TalkPacket)
  | .sendPacket t packet | .sendTimed t packet _ => some (t, packet)
  | .await _ | .expire _ | .recheck _ | .handleWrite _ _ => none

namespace Transmitter

variable {T : Type*}

/-- The packets that were posted, with their threads. -/
def posts (history : List (OutAction T × OutSeen)) : List (T × TalkPacket) :=
  history.filterMap fun
    | (a, .accepted _) => a.post?
    | _ => none

/-- The thread that posted last. -/
def poster (history : List (OutAction T × OutSeen)) : Option T :=
  (posts history).getLast?.map Prod.fst

/-- The packet of a thread that sleeps is still being transmitted. -/
def Attended (history : List (OutAction T × OutSeen)) (s : Transmitter T) : Prop :=
  ∀ t, s.sender t = .asleep .forever →
    s.slot.outFlag = true ∧ (posts history).getLast? = some (t, s.slot.outBuf)

variable [Fintype T] [DecidableEq T]

/-- The threads only use the timeout -1, or do not wait. -/
def untimed (T : Type*) [Fintype T] [DecidableEq T] :
    Machine (Transmitter T) (OutAction T) OutSeen :=
  (machine T).guard fun _ a => a.isTimed = false

/-- A thread goes to sleep while its own packet is being transmitted, and none sleeps when a
thread that was notified clears the flag. -/
def Watchful (history : List (OutAction T × OutSeen)) (s : Transmitter T) : OutAction T → Bool
  | .await t => s.slot.outFlag && poster history == some t
  | .recheck _ => ∀ u, (s.sender u).isAsleep = false
  | .sendPacket _ _ | .sendTimed _ _ _ | .expire _ | .handleWrite _ _ => true

/-- The slot has the packet that was posted last. -/
structure Posted (history : List (OutAction T × OutSeen)) (s : Transmitter T) : Prop where
  outBuf : ∀ t packet, (posts history).getLast? = some (t, packet) → s.slot.outBuf = packet
  untimed : ∀ t, (s.sender t).isTimed = false

section Steps

variable {history : List (OutAction T × OutSeen)} {s s' : Transmitter T} {a : OutAction T}
  {o : OutSeen}

omit [Fintype T] [DecidableEq T] in
theorem posts_snoc (event : OutAction T × OutSeen) :
    posts (history ++ [event]) = posts history ++ posts [event] :=
  List.filterMap_append

/-- `handle_write` does not touch the packet. -/
theorem outBuf_handleWrite {results : List SendResult} {slot slot' : OutSlot}
    {bytes : List UInt8} (written : slot.handleWrite results = some (bytes, slot')) :
    slot'.outBuf = slot.outBuf := by
  induction results generalizing slot bytes with
  | nil =>
    simp only [OutSlot.handleWrite] at written
    split at written
    · cases written
    · obtain ⟨-, rfl⟩ := by simpa using written
      rfl
  | cons result rest ih =>
    simp only [OutSlot.handleWrite] at written
    split at written
    · cases result with
      | again | failed =>
        simp only at written
        split at written
        · obtain ⟨-, rfl⟩ := by simpa using written
          rfl
        · cases written
      | interrupted => exact ih written
      | sent count =>
        simp only at written
        split at written
        · simp only [Option.bind_eq_bind, Option.bind_eq_some_iff] at written
          obtain ⟨front, readFront, ⟨more, last⟩, further, result⟩ := written
          obtain ⟨-, rfl⟩ := by simpa using result
          have same := ih further
          exact same
        · cases written
    · cases written

/-- What a step without deadlines can do, one constructor a case. -/
inductive Effect (s : Transmitter T) : OutAction T → OutSeen → Transmitter T → Prop where
  | post {a : OutAction T} {t : T} {packet : TalkPacket} {slot : OutSlot} {sender : T → Sender}
      (posting : a.post? = some (t, packet)) (free : s.slot.outFlag = false)
      (outBuf : slot.outBuf = packet)
      (calm : ∀ u, sender u = s.sender u ∨ sender u = .posted .forever) :
      Effect s a (.accepted packet) ⟨slot, sender⟩
  | refuse {a : OutAction T} {post : T × TalkPacket} (posting : a.post? = some post) :
      Effect s a .refused s
  | await {t : T} (inside : s.sender t = .posted .forever) :
      Effect s (.await t) .waiting
        { s with sender := Function.update s.sender t (.asleep .forever) }
  | recheck {t : T} {notified : Bool} (waking : s.sender t = .awake .forever notified) :
      Effect s (.recheck t) (.returned true) (s.finish t).2
  | write {results : List SendResult} {bytes : List UInt8} {slot : OutSlot}
      (outBuf : slot.outBuf = s.slot.outBuf) (still : s.slot.outFlag = true → slot.outFlag = true) :
      Effect s (.handleWrite results none) (.wrote bytes) { s with slot }
  | sent {results : List SendResult} {woken : Option T} {bytes : List UInt8} {slot : OutSlot}
      {sender : T → Sender} (outBuf : slot.outBuf = s.slot.outBuf)
      (signalled : notifyOne s.sender woken = some sender) :
      Effect s (.handleWrite results woken) (.wrote bytes) ⟨slot, sender⟩

theorem effect_of_step (posted : Posted history s)
    (step : (untimed T).step s a = some (o, s')) : Effect s a o s' := by
  obtain ⟨legal, step⟩ := Machine.guard_step_iff.mp step
  cases a with
  | sendPacket t packet =>
    simp only [machine] at step
    split at step
    · obtain ⟨⟨sent, slot⟩, called, result⟩ := Option.map_eq_some_iff.mp step
      obtain ⟨rfl, -, rfl⟩ | ⟨rfl, free, -, outBuf⟩ := OutSlot.sendPacket_cases called
      · obtain ⟨rfl, rfl⟩ := by simpa using result
        exact .refuse rfl
      · obtain ⟨rfl, rfl⟩ := by simpa using result
        exact .post rfl free outBuf fun _ => .inl rfl
    all_goals cases step
  | sendTimed t packet timeout =>
    cases timeout with
    | timed => cases legal
    | forever =>
      simp only [machine] at step
      split at step
      · obtain ⟨⟨sent, slot⟩, called, result⟩ := Option.map_eq_some_iff.mp step
        obtain ⟨rfl, -, rfl⟩ | ⟨rfl, free, -, outBuf⟩ := OutSlot.sendPacket_cases called
        · obtain ⟨rfl, rfl⟩ := by simpa using result
          exact .refuse rfl
        · obtain ⟨rfl, rfl⟩ := by simpa using result
          refine .post rfl free outBuf fun u => ?_
          obtain rfl | other := eq_or_ne u t
          · exact .inr (Function.update_self ..)
          · exact .inl (Function.update_of_ne other ..)
      all_goals cases step
  | await t =>
    have kind := posted.untimed t
    simp only [machine] at step
    split at step
    · rename_i timeout inside
      rw [inside] at kind
      cases timeout with
      | timed => cases kind
      | forever =>
        obtain ⟨rfl, rfl⟩ := by simpa using step
        exact .await inside
    all_goals cases step
  | expire t => cases legal
  | recheck t =>
    have kind := posted.untimed t
    simp only [machine] at step
    split at step
    · rename_i waking
      obtain ⟨rfl, rfl⟩ := by simpa [finish] using step
      exact .recheck waking
    · rename_i waking
      rw [waking] at kind
      cases kind
    all_goals cases step
  | handleWrite results woken =>
    obtain ⟨⟨bytes, slot⟩, called, result⟩ := Option.bind_eq_some_iff.mp step
    have outBuf := outBuf_handleWrite called
    simp only at result
    split at result
    · obtain ⟨sender, signalled, shown⟩ := Option.map_eq_some_iff.mp result
      obtain ⟨rfl, rfl⟩ := by simpa using shown
      exact .sent outBuf signalled
    · rename_i still
      split at result
      · rename_i nobody
        obtain rfl := Option.isNone_iff_eq_none.mp nobody
        obtain ⟨rfl, rfl⟩ := by simpa using result
        exact .write outBuf fun busy => by simpa [busy] using still
      · cases result

omit [Fintype T] [DecidableEq T] in
theorem posts_of_accepted {packet : TalkPacket} {post : T × TalkPacket}
    (posting : a.post? = some post) : posts [(a, .accepted packet)] = [post] := by
  simp [posts, posting]

omit [Fintype T] [DecidableEq T] in
@[simp] theorem getLast?_posts_snoc {post : T × TalkPacket} (posting : posts [(a, o)] = [post]) :
    (posts (history ++ [(a, o)])).getLast? = some post := by
  rw [posts_snoc, posting, List.getLast?_concat]

omit [Fintype T] [DecidableEq T] in
theorem Posted.asleep_forever (posted : Posted history s) {t : T}
    (asleep : (s.sender t).isAsleep = true) : s.sender t = .asleep .forever := by
  have kind := posted.untimed t
  cases sender : s.sender t with
  | asleep timeout =>
    rw [sender] at kind
    cases timeout with
    | forever => rfl
    | timed => cases kind
  | idle | posted | awake =>
    rw [sender] at asleep
    cases asleep

theorem notifyOne_cases {sender sender' : T → Sender} {woken : Option T}
    (signalled : notifyOne sender woken = some sender') :
    (sender' = sender ∧ ∀ u, (sender u).isAsleep = false) ∨
      ∃ u timeout, sender u = .asleep timeout ∧
        sender' = Function.update sender u (.awake timeout true) := by
  cases woken with
  | none =>
    obtain ⟨nobody, rfl⟩ := by simpa [notifyOne] using signalled
    exact .inl ⟨rfl, nobody⟩
  | some u =>
    simp only [notifyOne] at signalled
    split at signalled
    · rename_i timeout sleeping
      exact .inr ⟨u, timeout, sleeping, (Option.some.inj signalled).symm⟩
    all_goals cases signalled

theorem posted_step (posted : Posted history s) (effect : Effect s a o s') :
    Posted (history ++ [(a, o)]) s' := by
  have untimed := posted.untimed
  have moved : ∀ {t : T} {kind : Sender}, kind.isTimed = false →
      ∀ u, (Function.update s.sender t kind u).isTimed = false := by
    intro t kind here u
    obtain rfl | other := eq_or_ne u t
    · rwa [Function.update_self]
    · rw [Function.update_of_ne other]
      exact untimed u
  have same : ∀ {s'' : Transmitter T}, posts [(a, o)] = [] → s''.slot.outBuf = s.slot.outBuf →
      ∀ t packet, (posts (history ++ [(a, o)])).getLast? = some (t, packet) →
        s''.slot.outBuf = packet := by
    intro s'' none outBuf t packet last
    rw [posts_snoc, none, List.append_nil] at last
    exact outBuf.trans (posted.outBuf t packet last)
  cases effect with
  | post posting free outBuf calm =>
    refine ⟨fun t packet last => ?_, fun u => ?_⟩
    · rw [getLast?_posts_snoc (posts_of_accepted posting)] at last
      obtain ⟨-, rfl⟩ := by simpa using last
      exact outBuf
    · obtain same | new := calm u
      · exact (congrArg Sender.isTimed same).trans (untimed u)
      · exact congrArg Sender.isTimed new
  | refuse posting => exact ⟨same rfl rfl, untimed⟩
  | await inside => exact ⟨same rfl rfl, moved rfl⟩
  | recheck waking => exact ⟨same rfl rfl, moved rfl⟩
  | write outBuf still => exact ⟨same rfl outBuf, untimed⟩
  | @sent results woken bytes slot sender outBuf signalled =>
    refine ⟨same rfl outBuf, ?_⟩
    obtain ⟨rfl, -⟩ | ⟨u, timeout, sleeping, rfl⟩ := notifyOne_cases signalled
    · exact untimed
    · apply moved
      have forever := posted.asleep_forever (t := u) (by rw [sleeping]; rfl)
      cases sleeping.symm.trans forever
      rfl

theorem watchful_of_post {post : T × TalkPacket} (posting : a.post? = some post) :
    Watchful history s a = true := by
  cases a with
  | sendPacket | sendTimed => rfl
  | await | expire | recheck | handleWrite => cases posting

omit [Fintype T] [DecidableEq T] in
/-- The threads that sleep have slept before, and their packets are where they were. -/
theorem Attended.quiet (attended : Attended history s) (none : posts [(a, o)] = [])
    (still : ∀ u, s'.sender u = .asleep .forever → s.sender u = .asleep .forever ∧
      s'.slot.outBuf = s.slot.outBuf ∧ s'.slot.outFlag = true) :
    Attended (history ++ [(a, o)]) s' := by
  intro u sleeping
  obtain ⟨before, outBuf, busy⟩ := still u sleeping
  rw [posts_snoc, none, List.append_nil, outBuf]
  exact ⟨busy, (attended u before).2⟩

/-- A thread that goes to sleep has its packet in the slot exactly if it looks there first. -/
theorem attended_await_iff (attended : Attended history s) (posted : Posted history s) {t : T} :
    Attended (history ++ [(.await t, .waiting)])
        { s with sender := Function.update s.sender t (.asleep .forever) } ↔
      Watchful history s (.await t) = true := by
  have postsEq : posts (history ++ [(.await t, .waiting)]) = posts history := by simp [posts]
  constructor
  · intro next
    obtain ⟨busy, last⟩ := next t (Function.update_self ..)
    rw [postsEq] at last
    have own : poster history = some t := by rw [poster, last, Option.map_some]
    simpa [Watchful, own] using busy
  · intro watchful
    obtain ⟨busy, own⟩ : s.slot.outFlag = true ∧ poster history = some t := by
      simpa [Watchful] using watchful
    intro u sleeping
    rw [postsEq]
    obtain rfl | other := eq_or_ne u t
    · obtain ⟨⟨u, packet⟩, last, rfl⟩ := Option.map_eq_some_iff.mp own
      refine ⟨busy, ?_⟩
      rw [last, posted.outBuf u packet last]
    · exact attended u ((Function.update_of_ne other ..).symm.trans sleeping)

/-- A thread that sleeps while the flag is cleared has lost its packet. -/
theorem attended_recheck_iff (posted : Posted history s) {t : T} {notified : Bool}
    (waking : s.sender t = .awake .forever notified) :
    Attended (history ++ [(.recheck t, o)]) (s.finish t).2 ↔
      Watchful history s (.recheck t) = true := by
  constructor
  · intro next
    apply decide_eq_true
    intro u
    by_contra asleep
    have sleeping := posted.asleep_forever (Bool.eq_true_of_not_eq_false asleep)
    have other : u ≠ t := by
      rintro rfl
      rw [waking] at sleeping
      cases sleeping
    have busy := (next u ((Function.update_of_ne other ..).trans sleeping)).1
    cases busy
  · intro watchful u sleeping
    have calm := of_decide_eq_true watchful
    obtain rfl | other := eq_or_ne u t
    · cases (Function.update_self ..).symm.trans sleeping
    · have before := (Function.update_of_ne other ..).symm.trans sleeping
      have awake := calm u
      rw [before] at awake
      cases awake

/-- At the end of a transmission its thread is the only one that sleeps, and it is notified. -/
theorem attended_sent (attended : Attended history s) (posted : Posted history s)
    {woken : Option T} {slot : OutSlot} {sender : T → Sender}
    (signalled : notifyOne s.sender woken = some sender) :
    Attended (history ++ [(a, o)]) ⟨slot, sender⟩ := by
  intro u sleeping
  obtain ⟨rfl, calm⟩ | ⟨v, timeout, asleep, rfl⟩ := notifyOne_cases signalled
  · have awake := calm u
    rw [show s.sender u = .asleep .forever from sleeping] at awake
    cases awake
  · obtain rfl | other := eq_or_ne u v
    · cases (Function.update_self ..).symm.trans sleeping
    · have before := (Function.update_of_ne other ..).symm.trans sleeping
      have woken := posted.asleep_forever (t := v) (by rw [asleep]; rfl)
      have same := (attended u before).2.symm.trans (attended v woken).2
      exact absurd (Prod.mk.inj (Option.some.inj same)).1 other

/-- A step keeps every sleeping thread at its packet exactly if it is watchful. -/
theorem attended_step_iff (attended : Attended history s) (posted : Posted history s)
    (effect : Effect s a o s') :
    Attended (history ++ [(a, o)]) s' ↔ Watchful history s a = true := by
  cases effect with
  | post posting free outBuf calm =>
    apply iff_of_true
    · intro u sleeping
      obtain same | new := calm u
      · -- nobody sleeps while the slot is free
        have busy := (attended u (same.symm.trans sleeping)).1
        rw [free] at busy
        cases busy
      · cases new.symm.trans sleeping
    · exact watchful_of_post posting
  | refuse posting =>
    refine iff_of_true (attended.quiet rfl ?_) (watchful_of_post posting)
    exact fun u sleeping => ⟨sleeping, rfl, (attended u sleeping).1⟩
  | await inside => exact attended_await_iff attended posted
  | recheck waking => exact attended_recheck_iff posted waking
  | write outBuf still =>
    refine iff_of_true (attended.quiet rfl ?_) rfl
    exact fun u sleeping => ⟨sleeping, outBuf, still (attended u sleeping).1⟩
  | sent outBuf signalled => exact iff_of_true (attended_sent attended posted signalled) rfl

/-- In a run of threads with the timeout -1, every sleeping thread has its packet in the slot
in every state reached exactly if all steps are watchful. -/
theorem run_attended_iff {outBuf : TalkPacket}
    (run : (untimed T).Run (new T outBuf) history s) :
    (untimed T).Throughout (new T outBuf) Attended history ↔
      (untimed T).BeforeEach (new T outBuf)
        (fun history s a => Watchful history s a = true) history := by
  apply run.throughout_iff (I := Posted)
  · exact fun _ sleeping => by cases sleeping
  · exact ⟨fun _ _ last => (by cases last), fun _ => rfl⟩
  · intro history t a o u _ posted step
    exact posted_step posted (effect_of_step posted step)
  · intro history t a o u attended posted step
    exact attended_step_iff attended posted (effect_of_step posted step)

/-- A thread sleeps while its packet is sent in two parts. -/
theorem run_attended_iff_one : ∃ history s,
    (untimed (Fin 2)).Run (new (Fin 2) (plain 0)) history s ∧
      written history = (plain 1).contents ∧
      ((untimed (Fin 2)).Throughout (new (Fin 2) (plain 0)) Attended history ↔
        (untimed (Fin 2)).BeforeEach (new (Fin 2) (plain 0))
          (fun history s a => Watchful history s a = true) history) := by
  have executed : ∃ history s, (untimed (Fin 2)).exec (new (Fin 2) (plain 0))
      [.sendTimed 0 (plain 1) .forever, .await 0, .handleWrite [.sent 4, .again] none,
        .handleWrite [.sent 6] (some 0), .recheck 0] = some (history, s) ∧
      written history = (plain 1).contents := ⟨_, _, rfl, by decide⟩
  obtain ⟨history, s, computed, bytes⟩ := executed
  have run := Machine.run_of_exec computed
  exact ⟨history, s, run, bytes, run_attended_iff run⟩

/-- The packet is sent before its thread goes to sleep. -/
theorem sleeps_after_transmission : ∃ history s,
    (untimed (Fin 2)).Run (new (Fin 2) (plain 0)) history s ∧
      s.sender 0 = .asleep .forever ∧ s.slot.outFlag = false ∧
      written history = (plain 1).contents := by
  have executed : ∃ history s, (untimed (Fin 2)).exec (new (Fin 2) (plain 0))
      [.sendTimed 0 (plain 1) .forever, .handleWrite [.sent 10] none, .await 0] =
        some (history, s) ∧ s.sender 0 = .asleep .forever ∧ s.slot.outFlag = false ∧
      written history = (plain 1).contents := ⟨_, _, rfl, by decide⟩
  obtain ⟨history, s, computed, shown⟩ := executed
  exact ⟨history, s, Machine.run_of_exec computed, shown⟩

end Steps

end Transmitter

end Crs.Ude
