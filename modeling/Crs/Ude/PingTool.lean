import Crs.Foundation.Machine
import Crs.Peak.Basic
import Mathlib.Data.List.Perm.Basic

/-!
# The ping tool

The tool posts a packet with two values: a stamp that tells its own packets from those of others,
and the time at which the ping began. An answer with the same stamp ends the ping, and what is
then left in the second value is the time it took; the next call of `ping` returns this and
writes zero over it. Times are exact rationals.

A posted packet shares its contents with the tool until it is transmitted. The network may keep,
lose and reorder packets. One thread calls `ping`, with or without a timeout; answers are taken
by another one.
-/

namespace Crs.Ude

open Foundation Crs.Peak

/-- `value (0)` and `value (1)` of the packet. -/
structure PingPacket where
  stamp : ℚ
  time : ℚ
  deriving DecidableEq

/-- What a call of `ping` with a timeout waits with: the predicate is looked at only if the
timeout is finite. -/
inductive PingWait where
  | forever
  | timed
  deriving DecidableEq

/-- The tool, how many posted packets share its contents, and what was transmitted. -/
structure PingTool where
  flag : Bool := false
  packet : PingPacket
  outbox : ℕ := 0
  network : List PingPacket := []
  waiting : Option PingWait := none
  deriving DecidableEq

/-- The calls of the tool, at the given time; the waiting thread gets the lock, notified or
spuriously, or its time is up; the network moves or loses a packet, or answers it. -/
inductive PingAction where
  | ping (now : ℚ)
  | pingFor (wait : PingWait) (now : ℚ)
  | wake
  | expire
  | transmit
  | lose (i : ℕ)
  | answer (i : ℕ) (now : ℚ)
  | reset (now : ℚ)
  deriving DecidableEq

/-- `-1` while an answer is waited for; a packet was posted; a time; infinity; `take` returned 2
or 0; a reset while an answer was waited for. -/
inductive PingSeen where
  | busy
  | posted
  | returned (delta : ℚ)
  | infinity
  | taken
  | refused
  | abandoned
  | quiet
  deriving DecidableEq

namespace PingTool

/-- The time is stored and the packet posted. -/
def post (s : PingTool) (now : ℚ) : PingTool :=
  { s with flag := true, packet := { s.packet with time := now }, outbox := s.outbox + 1 }

/-- `ping ()`. -/
def ping (s : PingTool) (now : ℚ) : PingSeen × PingTool :=
  if s.flag then (.busy, s)
  else if isZero s.packet.time then (.posted, s.post now)
  else (.returned s.packet.time, { s with packet := { s.packet with time := 0 } })

/-- `ping (msTimeOut)`, up to the wait. -/
def pingFor (s : PingTool) (wait : PingWait) (now : ℚ) : PingSeen × PingTool :=
  if s.flag then (.busy, s)
  else (.posted, { s.post now with waiting := some wait })

/-- The end of `ping (msTimeOut)` after a wait that succeeded. -/
def finish (s : PingTool) : PingSeen × PingTool :=
  (.returned s.packet.time,
    { s with packet := { s.packet with time := 0 }, flag := false, waiting := none })

/-- `take`, for an answer to a packet of this kind. -/
def take (s : PingTool) (inPacket : PingPacket) (now : ℚ) : PingSeen × PingTool :=
  if s.flag ∧ isZero (inPacket.stamp - s.packet.stamp) then
    (.taken, { s with flag := false, packet := { s.packet with time := now - inPacket.time } })
  else (.refused, s)

def reset (s : PingTool) (now : ℚ) : PingSeen × PingTool :=
  (if s.flag then .abandoned else .quiet,
    { s with packet := { s.packet with stamp := now }, flag := false })

def machine : Machine PingTool PingAction PingSeen where
  step s
    | .ping now => if s.waiting = none then some (s.ping now) else none
    | .pingFor wait now => if s.waiting = none then some (s.pingFor wait now) else none
    | .wake =>
        match s.waiting with
        | none => none
        | some .forever => some s.finish
        | some .timed => some (if s.flag then (.quiet, s) else s.finish)
    | .expire =>
        match s.waiting with
        | some .timed => some (if s.flag then (.infinity, { s with waiting := none }) else s.finish)
        | none | some .forever => none
    | .transmit =>
        if 0 < s.outbox then
          some (.quiet, { s with outbox := s.outbox - 1, network := s.network ++ [s.packet] })
        else none
    | .lose i =>
        if i < s.network.length then some (.quiet, { s with network := s.network.eraseIdx i })
        else none
    | .answer i now => s.network[i]?.map fun inPacket =>
        { s with network := s.network.eraseIdx i }.take inPacket now
    | .reset now => some (s.reset now)

/-- A thread that waits without a predicate wakes up when its answer is there; a reset comes
when no thread waits and no packet shares the contents any more, and its stamp is a new one. -/
def Orderly (s : PingTool) : PingAction → Prop
  | .wake => s.waiting = some .forever → s.flag = false
  | .reset now => s.waiting = none ∧ s.outbox = 0 ∧ ∀ m ∈ s.network, m.stamp ≠ now
  | .ping _ | .pingFor _ _ | .expire | .transmit | .lose _ | .answer _ _ => True

instance (s : PingTool) (a : PingAction) : Decidable (Orderly s a) :=
  match a with
  | .wake => inferInstanceAs (Decidable (_ → _))
  | .reset _ => inferInstanceAs (Decidable (_ ∧ _))
  | .ping _ | .pingFor _ _ | .expire | .transmit | .lose _ | .answer _ _ =>
      inferInstanceAs (Decidable True)

/-- The times that `ping` returned, in this order. -/
def returned (history : List (PingAction × PingSeen)) : List ℚ :=
  history.filterMap fun event =>
    match event.2 with
    | .returned delta => some delta
    | _ => none

/-- When the last ping began, and what there was to measure: from the begin of a ping to its
answer, or the bare time of its begin if it was abandoned. -/
def note (noted : ℚ × List ℚ) : PingAction × PingSeen → ℚ × List ℚ
  | (.ping now, .posted) | (.pingFor _ now, .posted) => (now, noted.2)
  | (.answer _ now, .taken) => (noted.1, noted.2 ++ [now - noted.1])
  | (_, .abandoned) => (noted.1, noted.2 ++ [noted.1])
  | _ => noted

def notes (history : List (PingAction × PingSeen)) : ℚ × List ℚ := history.foldl note (0, [])

theorem notes_snoc (history : List (PingAction × PingSeen)) (event : PingAction × PingSeen) :
    notes (history ++ [event]) = note (notes history) event := List.foldl_concat ..

theorem returned_snoc (history : List (PingAction × PingSeen)) (event : PingAction × PingSeen) :
    returned (history ++ [event]) = returned history ++ returned [event] :=
  List.filterMap_append

/-- The packets on their way that would be taken for an answer. -/
def outstanding (s : PingTool) : ℕ :=
  s.outbox + (s.network.filter fun m => m.stamp = s.packet.stamp).length

/-- While an answer is waited for, the only one that can come tells when the ping began, and
so does the tool; otherwise none can come, and the time in the tool is the next one to be
returned, unless it is zero. -/
structure Measuring (memory : ℚ) (gone : List ℚ) (noted : ℚ × List ℚ) (s : PingTool) : Prop where
  one : s.outstanding ≤ s.flag.toNat
  told : ∀ m ∈ s.network, m.stamp = s.packet.stamp → m.time = noted.1
  begun : s.flag = true → s.packet.time = noted.1
  genuine : gone.Sublist (memory :: noted.2)
  next : s.flag = false → (gone ++ [s.packet.time]).Sublist (memory :: noted.2) ∨
    s.packet.time = 0 ∧ s.waiting = none

section Steps

variable {s s' : PingTool} {a : PingAction} {o : PingSeen} {memory now : ℚ} {gone : List ℚ}
  {noted : ℚ × List ℚ}

theorem outstanding_eq_zero :
    s.outstanding = 0 ↔ s.outbox = 0 ∧ ∀ m ∈ s.network, m.stamp ≠ s.packet.stamp := by
  simp [outstanding, List.filter_eq_nil_iff]

theorem outstanding_post : (s.post now).outstanding = s.outstanding + 1 := Nat.add_right_comm ..

/-- While no answer is waited for, none can come. -/
theorem Measuring.none_outstanding (measuring : Measuring memory gone noted s)
    (free : s.flag = false) : s.outstanding = 0 := by
  have one := measuring.one
  rw [free] at one
  exact Nat.le_zero.mp one

/-- A packet is posted when no answer is waited for. -/
theorem Measuring.post (measuring : Measuring memory gone noted s) (free : s.flag = false)
    (waiting : Option PingWait) :
    Measuring memory gone (now, noted.2) { s.post now with waiting } where
  one := by
    show (s.post now).outstanding ≤ 1
    rw [outstanding_post, measuring.none_outstanding free]
  told m member same :=
    absurd same ((outstanding_eq_zero.mp (measuring.none_outstanding free)).2 m member)
  begun _ := rfl
  genuine := measuring.genuine
  next := nofun

/-- The time in the tool is returned. -/
theorem Measuring.finish (measuring : Measuring memory gone noted s) (free : s.flag = false)
    (some : s.waiting ≠ none ∨ s.packet.time ≠ 0) :
    Measuring memory (gone ++ [s.packet.time]) noted
      { s with packet := { s.packet with time := 0 }, flag := false, waiting := none } where
  one := (measuring.none_outstanding free).le
  told := measuring.told
  begun := nofun
  genuine := by
    obtain here | ⟨zero, idle⟩ := measuring.next free
    · exact here
    · exact absurd idle (some.resolve_right (not_not.mpr zero))
  next _ := .inr ⟨rfl, rfl⟩

/-- A packet leaves the network. -/
theorem Measuring.erase (measuring : Measuring memory gone noted s) (i : ℕ) :
    Measuring memory gone noted { s with network := s.network.eraseIdx i } where
  one := by
    have fewer := ((List.eraseIdx_sublist s.network i).filter
      fun m => m.stamp = s.packet.stamp).length_le
    exact (Nat.add_le_add_left fewer s.outbox).trans measuring.one
  told m member := measuring.told m (List.mem_of_mem_eraseIdx member)
  begun := measuring.begun
  genuine := measuring.genuine
  next := measuring.next

theorem Measuring.transmit (measuring : Measuring memory gone noted s) (posted : 0 < s.outbox) :
    Measuring memory gone noted
      { s with outbox := s.outbox - 1, network := s.network ++ [s.packet] } := by
  have wanted : s.flag = true := by
    by_contra free
    have none := measuring.none_outstanding (Bool.eq_false_of_not_eq_true free)
    exact posted.ne' (outstanding_eq_zero.mp none).1
  refine ⟨?_, fun m member same => ?_, measuring.begun, measuring.genuine, measuring.next⟩
  · have one := measuring.one
    simp only [outstanding, List.filter_append, List.length_append] at one ⊢
    simp only [decide_true, List.filter_cons_of_pos, List.filter_nil, List.length_singleton]
    omega
  · obtain before | here := List.mem_append.mp member
    · exact measuring.told m before same
    · rw [List.mem_singleton.mp here]
      exact measuring.begun wanted

/-- The answer is taken. -/
theorem Measuring.take {m : PingPacket} {i : ℕ} (measuring : Measuring memory gone noted s)
    (here : s.network[i]? = some m) (wanted : s.flag = true) (same : m.stamp = s.packet.stamp) :
    Measuring memory gone (noted.1, noted.2 ++ [now - noted.1])
      { s with
        flag := false
        network := s.network.eraseIdx i
        packet := { s.packet with time := now - m.time } } := by
  have member : m ∈ s.network := List.mem_of_getElem? here
  have none : s.outbox + ((s.network.eraseIdx i).filter
      fun m => m.stamp = s.packet.stamp).length = 0 := by
    obtain ⟨within, there⟩ := List.getElem?_eq_some_iff.mp here
    have count := ((List.getElem_cons_eraseIdx_perm within).filter
      fun m => m.stamp = s.packet.stamp).length_eq
    rw [there, List.filter_cons_of_pos (by simpa using same), List.length_cons] at count
    have one := measuring.one
    rw [wanted, outstanding, ← count, Bool.toNat_true] at one
    omega
  have time : m.time = noted.1 := measuring.told m member same
  refine ⟨none.le, fun n left => measuring.told n (List.mem_of_mem_eraseIdx left), nofun,
    measuring.genuine.trans ?_, fun _ => .inl ?_⟩
  · exact List.sublist_append_left (memory :: noted.2) _
  · rw [time, ← List.cons_append]
    exact measuring.genuine.append (List.Sublist.refl _)

theorem Measuring.step (measuring : Measuring memory gone noted s) (careful : Orderly s a)
    (step : machine.step s a = some (o, s')) :
    Measuring memory (gone ++ returned [(a, o)]) (note noted (a, o)) s' := by
  have quiet (measuring : Measuring memory gone noted s') (silent : returned [(a, o)] = [])
      (same : note noted (a, o) = noted) :
      Measuring memory (gone ++ returned [(a, o)]) (note noted (a, o)) s' := by
    rwa [silent, List.append_nil, same]
  cases a with
  | ping now =>
    obtain ⟨idle, result⟩ := Option.ite_none_right_eq_some.mp step
    rw [PingTool.ping] at result
    cases wanted : s.flag with
    | true =>
      obtain ⟨rfl, rfl⟩ := by simpa [wanted] using result
      exact quiet measuring rfl rfl
    | false =>
      by_cases zero : isZero s.packet.time
      · obtain ⟨rfl, rfl⟩ := by simpa [wanted, zero] using result
        have same : s.post now = { s.post now with waiting := none } := by
          simp [PingTool.post, idle]
        rw [same]
        have posted : Measuring memory gone (now, noted.2) { s.post now with waiting := none } :=
          measuring.post wanted none
        simpa [returned, note] using posted
      · obtain ⟨rfl, rfl⟩ := by simpa [wanted, zero] using result
        rw [idle]
        exact measuring.finish wanted (.inr (mt isZero_iff.mpr zero))
  | pingFor wait now =>
    obtain ⟨idle, result⟩ := Option.ite_none_right_eq_some.mp step
    rw [PingTool.pingFor] at result
    cases wanted : s.flag with
    | true =>
      obtain ⟨rfl, rfl⟩ := by simpa [wanted] using result
      exact quiet measuring rfl rfl
    | false =>
      obtain ⟨rfl, rfl⟩ := by simpa [wanted] using result
      have posted : Measuring memory gone (now, noted.2) { s.post now with waiting := some wait } :=
        measuring.post wanted (some wait)
      simpa [returned, note] using posted
  | wake =>
    cases waits : s.waiting with
    | none => simp [machine, waits] at step
    | some wait =>
      have finish (free : s.flag = false) (done : (o, s') = s.finish) :
          Measuring memory (gone ++ returned [(.wake, o)]) (note noted (.wake, o)) s' := by
        obtain ⟨rfl, rfl⟩ := Prod.mk.inj done
        exact measuring.finish free (.inl (by simp [waits]))
      cases wait with
      | forever =>
        have done : some s.finish = some (o, s') := by simpa [machine, waits] using step
        exact finish (careful waits) (Option.some.inj done).symm
      | timed =>
        cases wanted : s.flag with
        | true =>
          obtain ⟨rfl, rfl⟩ := by simpa [machine, waits, wanted] using step
          exact quiet measuring rfl rfl
        | false =>
          have done : some s.finish = some (o, s') := by simpa [machine, waits, wanted] using step
          exact finish wanted (Option.some.inj done).symm
  | expire =>
    cases waits : s.waiting with
    | none => simp [machine, waits] at step
    | some wait =>
      cases wait with
      | forever => simp [machine, waits] at step
      | timed =>
        cases wanted : s.flag with
        | true =>
          obtain ⟨rfl, rfl⟩ := by simpa [machine, waits, wanted] using step
          refine quiet ⟨?_, measuring.told, fun _ => measuring.begun wanted, measuring.genuine,
            nofun⟩ rfl rfl
          simpa [wanted, outstanding] using measuring.one
        | false =>
          have done : some s.finish = some (o, s') := by simpa [machine, waits, wanted] using step
          obtain ⟨rfl, rfl⟩ := Prod.mk.inj (Option.some.inj done)
          exact measuring.finish wanted (.inl (by simp [waits]))
  | transmit =>
    obtain ⟨posted, result⟩ := Option.ite_none_right_eq_some.mp step
    obtain ⟨rfl, rfl⟩ := Prod.mk.inj (Option.some.inj result)
    exact quiet (measuring.transmit posted) rfl rfl
  | lose i =>
    obtain ⟨within, result⟩ := Option.ite_none_right_eq_some.mp step
    obtain ⟨rfl, rfl⟩ := Prod.mk.inj (Option.some.inj result)
    exact quiet (measuring.erase i) rfl rfl
  | answer i now =>
    obtain ⟨m, here, result⟩ := Option.map_eq_some_iff.mp step
    rw [PingTool.take] at result
    split at result
    · rename_i accepted
      obtain ⟨rfl, rfl⟩ := Prod.mk.inj result
      have same := sub_eq_zero.mp (isZero_iff.mp accepted.2)
      show Measuring memory (gone ++ []) (noted.1, noted.2 ++ [now - noted.1]) _
      rw [List.append_nil]
      exact measuring.take here accepted.1 same
    · obtain ⟨rfl, rfl⟩ := Prod.mk.inj result
      exact quiet (measuring.erase i) rfl rfl
  | reset now =>
    obtain ⟨idle, empty, unlike⟩ := careful
    obtain ⟨rfl, rfl⟩ := Prod.mk.inj (Option.some.inj step)
    have none : ({ s with packet := { s.packet with stamp := now }, flag := false } :
        PingTool).outstanding = 0 := outstanding_eq_zero.mpr ⟨empty, unlike⟩
    by_cases wanted : s.flag = true
    · have time := measuring.begun wanted
      refine ⟨none.le, fun m member same => absurd same (unlike m member), nofun, ?_,
        fun _ => .inl ?_⟩
      · simpa [returned, note, wanted] using
          measuring.genuine.trans (List.sublist_append_left (memory :: noted.2) [noted.1])
      · simpa [returned, note, wanted, time] using
          measuring.genuine.append (List.Sublist.refl [noted.1])
    · refine quiet ⟨none.le, fun m member same => absurd same (unlike m member), nofun,
        measuring.genuine, fun _ => measuring.next (Bool.eq_false_of_not_eq_true wanted)⟩
        (by simp [wanted, returned]) (by simp [wanted, note])

/-- An answer is waited for, and none can come any more. -/
def Lost (s : PingTool) : Prop := s.flag = true ∧ s.outstanding = 0

/-- Only a reset helps. -/
theorem Lost.step (lost : Lost s) (careful : Orderly s a) (other : ∀ now, a ≠ .reset now)
    (step : machine.step s a = some (o, s')) :
    Lost s' ∧ returned [(a, o)] = [] ∧ o ≠ .posted := by
  obtain ⟨wanted, none⟩ := lost
  obtain ⟨empty, unlike⟩ := outstanding_eq_zero.mp none
  have erased (i : ℕ) : Lost { s with network := s.network.eraseIdx i } :=
    ⟨wanted, outstanding_eq_zero.mpr
      ⟨empty, fun m member => unlike m (List.mem_of_mem_eraseIdx member)⟩⟩
  cases a with
  | ping now =>
    obtain ⟨-, result⟩ := Option.ite_none_right_eq_some.mp step
    obtain ⟨rfl, rfl⟩ := by simpa [PingTool.ping, wanted] using result
    exact ⟨⟨wanted, none⟩, rfl, nofun⟩
  | pingFor wait now =>
    obtain ⟨-, result⟩ := Option.ite_none_right_eq_some.mp step
    obtain ⟨rfl, rfl⟩ := by simpa [PingTool.pingFor, wanted] using result
    exact ⟨⟨wanted, none⟩, rfl, nofun⟩
  | wake =>
    cases waits : s.waiting with
    | none => simp [machine, waits] at step
    | some wait =>
      cases wait with
      | forever => exact absurd (careful waits) (by simp [wanted])
      | timed =>
        obtain ⟨rfl, rfl⟩ := by simpa [machine, waits, wanted] using step
        exact ⟨⟨wanted, none⟩, rfl, nofun⟩
  | expire =>
    cases waits : s.waiting with
    | none => simp [machine, waits] at step
    | some wait =>
      cases wait with
      | forever => simp [machine, waits] at step
      | timed =>
        obtain ⟨rfl, rfl⟩ := by simpa [machine, waits, wanted] using step
        exact ⟨⟨rfl, none⟩, rfl, nofun⟩
  | transmit =>
    obtain ⟨posted, -⟩ := Option.ite_none_right_eq_some.mp step
    exact absurd empty posted.ne'
  | lose i =>
    obtain ⟨-, result⟩ := Option.ite_none_right_eq_some.mp step
    obtain ⟨rfl, rfl⟩ := Prod.mk.inj (Option.some.inj result)
    exact ⟨erased i, rfl, nofun⟩
  | answer i now =>
    obtain ⟨m, here, result⟩ := Option.map_eq_some_iff.mp step
    have stale : ¬ isZero (m.stamp - s.packet.stamp) := fun zero =>
      unlike m (List.mem_of_getElem? here) (sub_eq_zero.mp (isZero_iff.mp zero))
    rw [PingTool.take, if_neg (fun accepted => stale accepted.2)] at result
    obtain ⟨rfl, rfl⟩ := Prod.mk.inj result
    exact ⟨erased i, rfl, nofun⟩
  | reset now => exact absurd rfl (other now)

end Steps

section Runs

variable {s : PingTool} {stamp memory : ℚ} {history : List (PingAction × PingSeen)}

theorem run_measuring
    (run : (machine.guard fun s a => Orderly s a).Run { packet := ⟨stamp, memory⟩ } history s) :
    Measuring memory (returned history) (notes history) s := by
  apply run.invariant (P := fun history s => Measuring memory (returned history) (notes history) s)
  · exact ⟨Nat.le_refl 0, nofun, nofun, List.nil_sublist _, fun _ => .inl (List.Sublist.refl _)⟩
  · rintro history t a o u - measuring step
    obtain ⟨careful, step⟩ := Machine.guard_step_iff.mp step
    rw [returned_snoc, notes_snoc]
    exact measuring.step careful step

/-- On every schedule, whatever the network loses or reorders: the times returned are, in order
and each at most once, those from the begin of a ping to its own answer, but for what the memory
of the packet held at first and for the bare begin of a ping that was abandoned by a reset; at
most one answer is on its way; and when an answer is lost, no call returns a time or posts a
packet any more before a reset. -/
theorem run_measures
    (run : (machine.guard fun s a => Orderly s a).Run { packet := ⟨stamp, memory⟩ } history s) :
    (returned history).Sublist (memory :: (notes history).2) ∧ s.outstanding ≤ 1 ∧
      (Lost s → ∀ later t, (machine.guard fun s a => Orderly s a).Run s later t →
        (∀ event ∈ later, ∀ now, event.1 ≠ .reset now) →
          Lost t ∧ returned later = [] ∧ ∀ event ∈ later, event.2 ≠ .posted) := by
  have measuring := run_measuring run
  refine ⟨measuring.genuine, measuring.one.trans (Bool.toNat_le _), fun lost later t after => ?_⟩
  induction after with
  | nil => exact fun _ => ⟨lost, rfl, nofun⟩
  | @snoc later t u a o _ step ih =>
    intro others
    obtain ⟨still, nothing, silent⟩ :=
      ih fun event member => others event (List.mem_append_left _ member)
    obtain ⟨careful, step⟩ := Machine.guard_step_iff.mp step
    obtain ⟨next, none, quiet⟩ := still.step careful
      (others (a, o) (List.mem_append_right _ (List.mem_singleton.mpr rfl))) step
    refine ⟨next, by rw [returned_snoc, nothing, none, List.append_nil], fun event member => ?_⟩
    obtain before | here := List.mem_append.mp member
    · exact silent event before
    · rw [List.mem_singleton.mp here]
      exact quiet

/-- A first ping takes two units of time; the answer to a second one is lost. -/
theorem run_measures_two : ∃ history s,
    (machine.guard fun s a => Orderly s a).Run { packet := ⟨1, 0⟩ } history s ∧
      returned history = [2] ∧ Lost s ∧ (returned history).Sublist (0 :: (notes history).2) := by
  have executed : ((machine.guard fun s a => Orderly s a).exec { packet := ⟨1, 0⟩ }
      [.ping 5, .transmit, .answer 0 7, .ping 8, .pingFor .timed 9, .transmit, .lose 0, .expire,
        .ping 12]).map (fun r => (returned r.1, r.2.flag, r.2.outstanding)) =
          some ([2], true, 0) := by decide +kernel
  obtain ⟨⟨history, s⟩, computed, shown⟩ := Option.map_eq_some_iff.mp executed
  obtain ⟨times, wanted, none⟩ : returned history = [2] ∧ s.flag = true ∧ s.outstanding = 0 := by
    simpa using shown
  have run := Machine.run_of_exec computed
  exact ⟨history, s, run, times, ⟨wanted, none⟩, (run_measures run).1⟩

end Runs

end PingTool

end Crs.Ude
