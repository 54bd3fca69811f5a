import Crs.Foundation.Monitor
import Crs.Sc.SerialByte

/-!
# Requests and their replies

A thread in `comSection` sends a packet, puts it into the slot for the request, raises
`_waitComSection` and sleeps until the flag is down or its deadline passes. A packet that is
traced back to the slot is stored as the reply, and the flag goes down. The slot and the flag
stay as they are when a call times out.

The ledger keeps, from the history alone, for whom each stored reply was.
-/

namespace Crs.Sc.ComSection

open Foundation Monitor

/-- A request, or a packet from the port. -/
inductive Call where
  | comSection (outPacket : ComPacket)
  | incoming (packet : ComPacket)
  deriving DecidableEq

/-- A section returns with the reply that it goes on to check, or without one. -/
inductive Result where
  | reply (inPacket : ComPacket)
  | timedOut
  | routed (route : Route)
  deriving DecidableEq

/-- The sections under `_mutexComSection`. A packet is given away in one of them. -/
def monitor (trace : ComPacket → ComPacket → Bool) : Monitor SerialByte Call Result where
  enter
    | .comSection outPacket, s => (s.request outPacket, .nobody, none)
    | .incoming packet, s =>
        let (route, s) := s.dispatch trace packet
        (s, if route = .comSection then .one else .nobody, some (.routed route))
  resume
    | .comSection _, s => if s.waitComSection then none else some (s, .reply s.incomingPacket)
    | .incoming _, _ => none
  expire
    | .comSection _ => some .timedOut
    | .incoming _ => none

/-- A port without a packet, with all threads outside. -/
def new (T : Type*) : State SerialByte T Call := initial T Call {}

section History

variable {T : Type*}

/-- The packets from the port. -/
def received (history : List (Label T Call × Option (Call × Result))) : List ComPacket :=
  history.filterMap fun
    | (.call _ (.incoming packet) _, _) => some packet
    | _ => none

/-- The replies that calls have returned with. -/
def examined (history : List (Label T Call × Option (Call × Result))) :
    List (Option T × ComPacket) :=
  history.filterMap fun
    | (.recheck t _, some (_, .reply packet)) => some (some t, packet)
    | _ => none

/-- The thread whose request is in the slot, and the stored replies with the threads for whose
requests they came. -/
structure Ledger (T : Type*) where
  caller : Option T := none
  caught : List (Option T × ComPacket) := []

def Ledger.record (ledger : Ledger T) : Label T Call × Option (Call × Result) → Ledger T
  | (.call t (.comSection _) _, _) => { ledger with caller := some t }
  | (.call _ (.incoming packet) _, some (_, .routed .comSection)) =>
      { ledger with caught := ledger.caught ++ [(ledger.caller, packet)] }
  | _ => ledger

def ledger (history : List (Label T Call × Option (Call × Result))) : Ledger T :=
  history.foldl Ledger.record {}

/-- The call whose request is in the slot has not returned. -/
def inside (history : List (Label T Call × Option (Call × Result)))
    (s : State SerialByte T Call) : Bool :=
  (ledger history).caller.any fun t => (s.phase t).call?.isSome

/-- The reply that the call whose request is in the slot will return with. -/
def awaited (history : List (Label T Call × Option (Call × Result)))
    (s : State SerialByte T Call) : List (Option T × ComPacket) :=
  if !s.data.waitComSection && inside history s then
    [((ledger history).caller, s.data.incomingPacket)]
  else []

/-- Each packet is in the inbox, or it is the reply of a single call: of the one whose request
was in the slot. -/
structure Delivered (history : List (Label T Call × Option (Call × Result)))
    (s : State SerialByte T Call) : Prop where
  consumed : (received history).Perm
    (s.data.inbox ++ (examined history ++ awaited history s).map Prod.snd)
  answered : (ledger history).caught = examined history ++ awaited history s

/-- No request is made while a reply is still to be picked up, no packet is traced back to the
request of a call that has returned, and the flag is down only for the call whose request is
in the slot. -/
def Orderly [DecidableEq T] (trace : ComPacket → ComPacket → Bool)
    (history : List (Label T Call × Option (Call × Result))) (s : State SerialByte T Call) :
    Label T Call → Bool
  | .call _ (.comSection _) _ => s.data.waitComSection || !inside history s
  | .call _ (.incoming packet) _ =>
      !(s.data.waitComSection && trace s.data.outgoingPacket packet) || inside history s
  | .recheck t _ => s.data.waitComSection || (ledger history).caller == some t
  | .wake _ => true

end History

section Steps

variable {T : Type*} {trace : ComPacket → ComPacket → Bool}
  {history : List (Label T Call × Option (Call × Result))} {s s' : State SerialByte T Call}
  {l : Label T Call} {o : Option (Call × Result)}

@[simp] theorem ledger_snoc (event : Label T Call × Option (Call × Result)) :
    ledger (history ++ [event]) = (ledger history).record event := by
  simp [ledger]

theorem received_snoc (event : Label T Call × Option (Call × Result)) :
    received (history ++ [event]) = received history ++ received [event] :=
  List.filterMap_append

theorem examined_snoc (event : Label T Call × Option (Call × Result)) :
    examined (history ++ [event]) = examined history ++ examined [event] :=
  List.filterMap_append

/-- What holds in every run. -/
structure Sound (history : List (Label T Call × Option (Call × Result)))
    (s : State SerialByte T Call) : Prop where
  unsynced : s.data.waitSyncPacket = false
  sorted : (received history).Perm (s.data.inbox ++ (ledger history).caught.map Prod.snd)
  requests : ∀ t c, (s.phase t).call? = some c → ∃ outPacket, c = .comSection outPacket

theorem Sound.delivered_iff (sound : Sound history s) :
    Delivered history s ↔ (ledger history).caught = examined history ++ awaited history s := by
  refine ⟨Delivered.answered, fun answered => ⟨?_, answered⟩⟩
  rw [← answered]
  exact sound.sorted

theorem inside_snoc {event : Label T Call × Option (Call × Result)}
    (caller : ((ledger history).record event).caller = (ledger history).caller)
    (calls : ∀ u, (s'.phase u).call? = (s.phase u).call?) :
    inside (history ++ [event]) s' = inside history s := by
  simp only [inside, ledger_snoc, caller, calls]

/-- The reply at hand does not depend on who sleeps. -/
theorem awaited_snoc {event : Label T Call × Option (Call × Result)}
    (caller : ((ledger history).record event).caller = (ledger history).caller)
    (flag : s'.data.waitComSection = s.data.waitComSection)
    (packet : s'.data.incomingPacket = s.data.incomingPacket)
    (calls : ∀ u, (s'.phase u).call? = (s.phase u).call?) :
    awaited (history ++ [event]) s' = awaited history s := by
  rw [awaited, awaited, ledger_snoc, caller, flag, packet, inside_snoc caller calls]

theorem awaited_eq_nil_iff :
    awaited history s = [] ↔ (s.data.waitComSection || !inside history s) = true := by
  cases flag : s.data.waitComSection <;> simp [awaited, flag]

theorem awaited_of_flag (flag : s.data.waitComSection = true) : awaited history s = [] := by
  simp [awaited, flag]

variable [DecidableEq T]

theorem call?_update {phase : T → Phase Call} {t u : T} {p : Phase Call}
    (same : p.call? = (phase t).call?) : (Function.update phase t p u).call? = (phase u).call? := by
  obtain rfl | other := eq_or_ne u t
  · rw [Function.update_self, same]
  · rw [Function.update_of_ne other]

variable [Fintype T]

theorem request_cases {t : T} {outPacket : ComPacket} {woken : Option T}
    (effect : Effect (monitor trace) s (.call t (.comSection outPacket) woken) o s') :
    o = none ∧ s'.data = s.data.request outPacket := by
  cases effect with
  | call outside entered signalled =>
    obtain ⟨rfl, -, rfl⟩ := by simpa [monitor] using entered
    exact ⟨rfl, rfl⟩

/-- A packet that is traced back to the request in the slot is its reply; any other one is for
the inbox. -/
theorem incoming_cases {t : T} {packet : ComPacket} {woken : Option T}
    (unsynced : s.data.waitSyncPacket = false)
    (effect : Effect (monitor trace) s (.call t (.incoming packet) woken) o s') :
    (∀ u, (s'.phase u).call? = (s.phase u).call?) ∧
    ((s.data.waitComSection = true ∧ trace s.data.outgoingPacket packet = true ∧
        o = some (.incoming packet, .routed .comSection) ∧
        s'.data = { s.data with waitComSection := false, incomingPacket := packet }) ∨
      ((s.data.waitComSection && trace s.data.outgoingPacket packet) = false ∧
        o = some (.incoming packet, .routed .inbox) ∧
        s'.data = { s.data with inbox := s.data.inbox ++ [packet] })) := by
  cases effect with
  | @call _ _ _ data signal result phase outside entered signalled =>
    have returns : ∃ r, result = some r := by
      obtain ⟨-, -, rfl⟩ := by simpa [monitor] using entered
      exact ⟨_, rfl⟩
    refine ⟨fun u => ?_, ?_⟩
    · obtain ⟨r, rfl⟩ := returns
      rw [Phase.settled_some, call?_update, call?_notify signalled]
      rw [call?_notify signalled, outside]
    · simp only [monitor, SerialByte.dispatch_eq unsynced] at entered
      split at entered
      · rename_i traced
        obtain ⟨rfl, -, rfl⟩ := by simpa using entered
        obtain ⟨flag, traced⟩ := Bool.and_eq_true_iff.mp traced
        exact .inl ⟨flag, traced, rfl, rfl⟩
      · rename_i other
        obtain ⟨rfl, -, rfl⟩ := by simpa using entered
        exact .inr ⟨Bool.eq_false_of_not_eq_true other, rfl, rfl⟩

/-- A thread that looks again returns with the stored packet if the flag is down, and sleeps
or returns without one otherwise. -/
theorem recheck_cases (sound : Sound history s) {t : T} {late : Bool}
    (effect : Effect (monitor trace) s (.recheck t late) o s') :
    s'.data = s.data ∧ (s.phase t).call?.isSome = true ∧
    ((s.data.waitComSection = false ∧ s'.phase = Function.update s.phase t .idle ∧
        ∃ c, o = some (c, .reply s.data.incomingPacket)) ∨
      (s.data.waitComSection = true ∧ examined [(.recheck t late, o)] = [])) := by
  have section_of : ∀ {c : Call} {notified : Bool}, s.phase t = .awake c notified →
      ∃ outPacket, c = .comSection outPacket := by
    intro c notified waking
    exact sound.requests t c (by rw [waking]; rfl)
  cases effect with
  | resume waking resumed =>
    obtain ⟨outPacket, rfl⟩ := section_of waking
    obtain ⟨flag, rfl, rfl⟩ := by simpa [monitor] using resumed
    exact ⟨rfl, by rw [waking]; rfl, .inl ⟨flag, rfl, _, rfl⟩⟩
  | expire waking blocked expired =>
    obtain ⟨outPacket, rfl⟩ := section_of waking
    obtain rfl := Option.some.inj expired
    exact ⟨rfl, by rw [waking]; rfl, .inr ⟨by simpa [monitor] using blocked, rfl⟩⟩
  | sleep waking blocked =>
    obtain ⟨outPacket, rfl⟩ := section_of waking
    exact ⟨rfl, by rw [waking]; rfl, .inr ⟨by simpa [monitor] using blocked, rfl⟩⟩

/-- One step keeps what holds in every run. -/
theorem step_sound (sound : Sound history s) (effect : Effect (monitor trace) s l o s') :
    Sound (history ++ [(l, o)]) s' := by
  have requests : ∀ u c, (s'.phase u).call? = some c → ∃ outPacket, c = .comSection outPacket := by
    refine effect.blocking ?_ sound.requests
    intro c before after signal entered
    cases c with
    | comSection outPacket => exact ⟨outPacket, rfl⟩
    | incoming packet => simp [monitor] at entered
  have sorted := sound.sorted
  cases l with
  | call t c woken =>
    cases c with
    | comSection outPacket =>
      obtain ⟨rfl, data⟩ := request_cases effect
      refine ⟨by rw [data]; exact sound.unsynced, ?_, requests⟩
      rw [received_snoc, ledger_snoc, data]
      simpa [received, Ledger.record, SerialByte.request] using sorted
    | incoming packet =>
      obtain ⟨-, ⟨-, -, rfl, data⟩ | ⟨-, rfl, data⟩⟩ := incoming_cases sound.unsynced effect
      · refine ⟨by rw [data]; exact sound.unsynced, ?_, requests⟩
        rw [received_snoc, ledger_snoc, data]
        simpa [received, Ledger.record] using sorted.append_right [packet]
      · refine ⟨by rw [data]; exact sound.unsynced, ?_, requests⟩
        rw [received_snoc, ledger_snoc, data]
        have inbox : (received history ++ [packet]).Perm
            (s.data.inbox ++ [packet] ++ (ledger history).caught.map Prod.snd) := by
          apply (sorted.append_right [packet]).trans
          rw [List.append_assoc, List.append_assoc]
          exact List.perm_append_comm.append_left _
        simpa [received, Ledger.record] using inbox
  | wake t =>
    cases effect with
    | wake sleeping =>
      refine ⟨sound.unsynced, ?_, requests⟩
      rw [received_snoc, ledger_snoc]
      simpa [received, Ledger.record] using sorted
  | recheck t late =>
    obtain ⟨data, -⟩ := recheck_cases sound effect
    refine ⟨by rw [data]; exact sound.unsynced, ?_, requests⟩
    rw [received_snoc, ledger_snoc, data]
    simpa [received, Ledger.record] using sorted

omit [Fintype T] in
/-- A call that returns with the stored packet returns with its own reply, or the packet has
one more consumer. -/
theorem reply_answered_iff {t : T} {late : Bool} {c : Call}
    (flag : s.data.waitComSection = false) (present : (s.phase t).call?.isSome = true)
    (data : s'.data = s.data) (phase : s'.phase = Function.update s.phase t .idle)
    (answered : (ledger history).caught = examined history ++ awaited history s) :
    (ledger (history ++ [(.recheck t late, some (c, .reply s.data.incomingPacket))])).caught =
        examined history ++ examined [(.recheck t late, some (c, .reply s.data.incomingPacket))] ++
          awaited (history ++ [(.recheck t late, some (c, .reply s.data.incomingPacket))]) s' ↔
      Orderly trace history s (.recheck t late) = true := by
  rw [awaited, ledger_snoc, data]
  rw [awaited] at answered
  by_cases own : (ledger history).caller = some t
  · -- the call is the one that the reply came for, and it is outside now
    have before : inside history s = true := by simpa [inside, own] using present
    have after : inside (history ++ [(.recheck t late,
        some (c, .reply s.data.incomingPacket))]) s' = false := by
      simp [inside, Ledger.record, own, phase, Phase.call?]
    simp [Ledger.record, examined, answered, Orderly, own, before, after, flag]
  · have same : inside (history ++ [(.recheck t late,
        some (c, .reply s.data.incomingPacket))]) s' = inside history s := by
      cases caller : (ledger history).caller with
      | none => simp [inside, Ledger.record, caller]
      | some u =>
        have other : u ≠ t := by
          rintro rfl
          exact own caller
        simp [inside, Ledger.record, caller, phase, Function.update_of_ne other]
    have late : Orderly trace history s (.recheck t late) = false := by
      simp [Orderly, own, flag]
    rw [same, late]
    simp only [Ledger.record, Bool.false_eq_true, iff_false]
    intro equal
    have longer := congrArg List.length (answered.symm.trans equal)
    simp [examined] at longer

/-- A step keeps the balance exactly if it is orderly. -/
theorem step_delivered_iff (delivered : Delivered history s) (sound : Sound history s)
    (effect : Effect (monitor trace) s l o s') :
    Delivered (history ++ [(l, o)]) s' ↔ Orderly trace history s l = true := by
  rw [(step_sound sound effect).delivered_iff, examined_snoc]
  have answered := delivered.answered
  cases l with
  | call t c woken =>
    cases c with
    | comSection outPacket =>
      obtain ⟨rfl, data⟩ := request_cases effect
      have raised : s'.data.waitComSection = true := by rw [data]; rfl
      -- the flag is up again, so a reply that was not picked up is lost
      rw [awaited_of_flag raised, ledger_snoc]
      simp only [Ledger.record, examined, List.filterMap_cons, List.filterMap_nil,
        List.append_nil, Orderly, ← awaited_eq_nil_iff]
      rw [answered]
      exact List.append_right_eq_self
    | incoming packet =>
      obtain ⟨calls, ⟨flag, traced, rfl, data⟩ | ⟨other, rfl, data⟩⟩ :=
        incoming_cases sound.unsynced effect
      · rw [awaited_of_flag flag, List.append_nil] at answered
        rw [awaited, inside_snoc (by rfl) calls, data, ledger_snoc]
        cases now : inside history s with
        | true => simp [Ledger.record, examined, answered, Orderly, now]
        | false => simp [Ledger.record, examined, answered, Orderly, now, flag, traced]
      · rw [awaited_snoc (by rfl) (by rw [data]) (by rw [data]) calls, ledger_snoc]
        simp [Ledger.record, examined, answered, Orderly, other]
  | wake t =>
    cases effect with
    | wake sleeping =>
      have calls : ∀ u, (Function.update s.phase t (.awake _ false) u).call? =
          (s.phase u).call? := fun u => call?_update (by rw [sleeping]; rfl)
      rw [awaited_snoc (by rfl) (by rfl) (by rfl) calls, ledger_snoc]
      simp [Ledger.record, examined, answered, Orderly]
  | recheck t late =>
    obtain ⟨data, present, ⟨flag, phase, c, rfl⟩ | ⟨flag, none⟩⟩ :=
      recheck_cases sound effect
    · exact reply_answered_iff flag present data phase answered
    · rw [awaited_of_flag flag, List.append_nil] at answered
      rw [awaited_of_flag (by rw [data]; exact flag), ledger_snoc, none]
      simp [Ledger.record, answered, Orderly, flag]

/-- In a run, every packet is delivered to one consumer in every state reached exactly if all
steps are orderly. -/
theorem run_delivered_iff
    (run : ((monitor trace).machine T).Run (new T) history s) :
    ((monitor trace).machine T).Throughout (new T) Delivered history ↔
      ((monitor trace).machine T).BeforeEach (new T)
        (fun history s l => Orderly trace history s l = true) history := by
  apply run.throughout_iff (I := Sound)
  · exact ⟨.refl _, rfl⟩
  · exact ⟨rfl, .refl _, by simp [new, initial, Phase.call?]⟩
  · intro history t l o u _ sound step
    exact step_sound sound (step_iff_effect.mp step)
  · intro history t l o u delivered sound step
    exact step_delivered_iff delivered sound (step_iff_effect.mp step)

/-- A reply and an unasked packet. -/
theorem run_delivered_iff_two : ∃ history s,
    ((monitor SerialByte.tracePacket).machine (Fin 2)).Run (new (Fin 2)) history s ∧
      examined history = [(some 0, [0x21, 7])] ∧ s.data.inbox = [[0x21, 9]] ∧
      (((monitor SerialByte.tracePacket).machine (Fin 2)).Throughout (new (Fin 2)) Delivered
        history ↔ ((monitor SerialByte.tracePacket).machine (Fin 2)).BeforeEach (new (Fin 2))
          (fun history s l => Orderly SerialByte.tracePacket history s l = true) history) := by
  have executed : ∃ history s,
      ((monitor SerialByte.tracePacket).machine (Fin 2)).exec (new (Fin 2))
        [.call 0 (.comSection [0x12, 7]) none, .call 1 (.incoming [0x21, 9]) none,
          .call 1 (.incoming [0x21, 7]) (some 0), .recheck 0 false] = some (history, s) ∧
      examined history = [(some 0, [0x21, 7])] ∧ s.data.inbox = [[0x21, 9]] :=
    ⟨_, _, rfl, by decide, by decide⟩
  obtain ⟨history, s, computed, reply, inbox⟩ := executed
  have run := Machine.run_of_exec computed
  exact ⟨history, s, run, reply, inbox, run_delivered_iff run⟩

/-- A call times out, and then its reply arrives: the packet is stored for nobody. -/
theorem late_reply_swallowed : ∃ history s,
    ((monitor SerialByte.tracePacket).machine (Fin 2)).Run (new (Fin 2)) history s ∧
      received history = [[0x21, 7]] ∧ examined history = [] ∧ s.data.inbox = [] ∧
      (∀ t, s.phase t = .idle) ∧ ¬ Delivered history s := by
  have executed : ∃ history s,
      ((monitor SerialByte.tracePacket).machine (Fin 2)).exec (new (Fin 2))
        [.call 0 (.comSection [0x12, 7]) none, .wake 0, .recheck 0 true,
          .call 1 (.incoming [0x21, 7]) none] = some (history, s) ∧
      received history = [[0x21, 7]] ∧ examined history = [] ∧ s.data.inbox = [] ∧
        (∀ t, s.phase t = .idle) ∧
          (ledger history).caught ≠ examined history ++ awaited history s :=
    ⟨_, _, rfl, by decide⟩
  obtain ⟨history, s, computed, packets, replies, inbox, outside, lost⟩ := executed
  exact ⟨history, s, Machine.run_of_exec computed, packets, replies, inbox, outside,
    fun delivered => lost delivered.answered⟩

end Steps

end Crs.Sc.ComSection
