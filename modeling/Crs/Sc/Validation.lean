import Crs.Foundation.Monitor
import Crs.Sc.SerialByte

/-!
# The check of a reply

Whether a packet is the reply to a request is decided twice. `tracePacket`, in the thread of
the port, looks at the address and at the command, and lets all codes from `0xAD` on pass.
`comCheckPacket`, in the thread that has waited, looks at the checksum and at the command, and
knows four codes. A packet that the first one has let pass and the second one does not know is
handed back as the reply.

The exceptions carry their texts. A text is missing where `byteString` reads behind a packet.
The exception of a `write` that fails comes before anything has changed, so it is left out.
-/

namespace Crs.Sc

open Foundation

namespace ComPacket

/-- Whether the last byte is the checksum of the others. -/
def checkIdentity (packet : ComPacket) : Bool :=
  let newCRC := packet.dropLast.foldl (· - ·) 0
  newCRC == packet.getLastD 0

def hexDigit (n : UInt8) : Char := "0123456789ABCDEF".toList.getD n.toNat '0'

/-- Two digits, upper case. -/
def hexByte (byte : UInt8) : String := String.ofList [hexDigit (byte >>> 4), hexDigit (byte &&& 15)]

/-- Each round of the loop prints two bytes, so an odd packet is read one byte too far. -/
def byteString : ComPacket → Option String
  | [] => some ""
  | [_] => none
  | [a, b] => some (hexByte a ++ " " ++ hexByte b)
  | a :: b :: rest =>
      (byteString rest).map fun text => hexByte a ++ " " ++ hexByte b ++ " " ++ text

/-- The first byte with its two halves exchanged. -/
def reversedAddress (packet : ComPacket) : UInt8 :=
  packet.byteAt 0 <<< 4 ||| packet.byteAt 0 >>> 4

/-- The bytes of a packet sum up to zero. -/
def Balanced (packet : ComPacket) : Prop := (packet.map UInt8.toNat).sum % 256 = 0

theorem foldl_sub (bytes : List UInt8) (start : UInt8) :
    ((bytes.foldl (· - ·) start).toNat + (bytes.map UInt8.toNat).sum) % 256 = start.toNat := by
  induction bytes generalizing start with
  | nil =>
    have small := start.toNat_lt
    simp only [List.foldl_nil, List.map_nil, List.sum_nil]
    omega
  | cons byte bytes ih =>
    have rest := ih (start - byte)
    have small := start.toNat_lt
    have small' := byte.toNat_lt
    rw [UInt8.toNat_sub] at rest
    simp only [List.foldl_cons, List.map_cons, List.sum_cons]
    omega

theorem checkIdentity_iff (packet : ComPacket) :
    packet.checkIdentity = true ↔ packet.Balanced := by
  obtain rfl | ⟨others, last, rfl⟩ := packet.eq_nil_or_concat
  · exact iff_of_true rfl rfl
  · have sum := foldl_sub others 0
    have small := (others.foldl (· - ·) (0 : UInt8)).toNat_lt
    have small' := last.toNat_lt
    simp only [List.concat_eq_append, checkIdentity, Balanced, List.dropLast_concat,
      List.getLastD_concat, beq_iff_eq, ← UInt8.toNat_inj, List.map_append, List.sum_append,
      List.map_cons, List.map_nil, List.sum_cons, List.sum_nil, UInt8.toNat_zero] at sum ⊢
    omega

theorem exchange_exchange (byte : UInt8) :
    (byte <<< 4 ||| byte >>> 4) <<< 4 ||| (byte <<< 4 ||| byte >>> 4) >>> 4 = byte := by
  have all : ∀ v : BitVec 8, (v <<< 4 ||| v >>> 4) <<< 4 ||| (v <<< 4 ||| v >>> 4) >>> 4 = v := by
    decide
  exact UInt8.toBitVec_inj.mp (all byte.toBitVec)

end ComPacket

/-- The exceptions of `comCheckPacket`, with their texts. -/
inductive ComError where
  | crcError (what : Option String)
  | badAddress (what : Option String)
  | badCommand (what : Option String)
  | controllerOverflow (what : Option String)
  deriving DecidableEq

namespace SerialByte

def comCheckPacket (outPacket inPacket : ComPacket) : Except ComError Unit :=
  if inPacket.checkIdentity then
    if inPacket.byteAt 1 ≠ outPacket.byteAt 1 then
      let msgText (code : String) :=
        outPacket.byteString.map fun request =>
          "Request: " ++ request ++ "; controller code " ++ code
      if inPacket.byteAt 1 = 0xF0 then .error (.crcError (msgText "0xF0"))
      else if inPacket.byteAt 1 = 0xF1 then .error (.badAddress (msgText "0xF1"))
      else if inPacket.byteAt 1 = 0xF2 then .error (.badCommand (msgText "0xF2"))
      else if inPacket.byteAt 1 = 0xF3 then .error (.controllerOverflow (msgText "0xF3"))
      else .ok ()
    else .ok ()
  else .error (.crcError inPacket.byteString)

variable {outPacket inPacket : ComPacket}

/-- What the check lets pass. -/
theorem comCheckPacket_eq_ok_iff : comCheckPacket outPacket inPacket = .ok () ↔
    inPacket.checkIdentity = true ∧ (inPacket.byteAt 1 = outPacket.byteAt 1 ∨
      inPacket.byteAt 1 ∉ [0xF0, 0xF1, 0xF2, 0xF3]) := by
  unfold comCheckPacket
  split_ifs <;> simp_all

/-- What is traced back has the address of the request, or it is an error code. -/
theorem tracePacket_iff : tracePacket outPacket inPacket = true ↔
    inPacket.byteAt 0 = outPacket.reversedAddress ∧
      (inPacket.byteAt 1 = outPacket.byteAt 1 ∨ 0xAC < inPacket.byteAt 1) := by
  have address : outPacket.byteAt 0 = (inPacket.byteAt 0 <<< 4 ||| inPacket.byteAt 0 >>> 4) ↔
      inPacket.byteAt 0 = outPacket.reversedAddress := by
    constructor
    · intro same
      rw [ComPacket.reversedAddress, same, ComPacket.exchange_exchange]
    · intro same
      rw [same, ComPacket.reversedAddress, ComPacket.exchange_exchange]
  rw [← address]
  unfold tracePacket
  split_ifs <;> simp_all

end SerialByte

namespace Validation

open Monitor

/-- A request with or without a wait, the two sections at the begin of `synchronize`, or a
packet from the port. -/
inductive Call where
  | comSection (outPacket : ComPacket)
  | send (outPacket : ComPacket)
  | resetWaitComSection
  | awaitSyncPacket
  | incoming (packet : ComPacket)
  deriving DecidableEq

/-- `comSection` returns true with a reply, throws, or returns false. -/
inductive Result where
  | returned (inPacket : ComPacket)
  | threw (error : ComError)
  | timedOut
  | routed (route : Route)
  | done
  deriving DecidableEq

/-- What follows the wait, once the flag is down. The check is made without the lock, on the
caller's own packets. -/
def checked (outPacket inPacket : ComPacket) : Result :=
  match SerialByte.comCheckPacket outPacket inPacket with
  | .ok () => .returned inPacket
  | .error error => .threw error

def monitor : Monitor SerialByte Call Result where
  enter
    | .comSection outPacket, s => (s.request outPacket, .nobody, none)
    | .send outPacket, s => (s.send outPacket, .nobody, some .done)
    | .resetWaitComSection, s => (s.resetWaitComSection, .nobody, some .done)
    | .awaitSyncPacket, s => (s.awaitSyncPacket, .nobody, some .done)
    | .incoming packet, s =>
        let (route, s) := s.dispatch SerialByte.tracePacket packet
        (s, if route = .comSection then .one else .nobody, some (.routed route))
  resume
    | .comSection outPacket, s =>
        if s.waitComSection then none else some (s, checked outPacket s.incomingPacket)
    | .send _, _ | .resetWaitComSection, _ | .awaitSyncPacket, _ | .incoming _, _ => none
  expire
    | .comSection _ => some .timedOut
    | .send _ | .resetWaitComSection | .awaitSyncPacket | .incoming _ => none

/-- A port for packets of one size, with all threads outside. -/
def new (T : Type*) (size : Nat) : State SerialByte T Call :=
  initial T Call
    { incomingPacket := List.replicate size 0, outgoingPacket := List.replicate size 0 }

/-- A reply to a request. -/
structure Valid (outPacket inPacket : ComPacket) : Prop where
  balanced : inPacket.Balanced
  address : inPacket.byteAt 0 = outPacket.reversedAddress
  command : inPacket.byteAt 1 = outPacket.byteAt 1

/-- Every call that returned true has a reply to its request, and one that is about to return
with another command throws. -/
structure Validated {T : Type*} (history : List (Label T Call × Option (Call × Result)))
    (s : State SerialByte T Call) : Prop where
  returned : ∀ l outPacket inPacket,
    (l, some (.comSection outPacket, .returned inPacket)) ∈ history → Valid outPacket inPacket
  thrown : ∀ t outPacket, (s.phase t).call? = some (.comSection outPacket) →
    s.data.waitComSection = false →
    s.data.incomingPacket.byteAt 1 ≠ outPacket.byteAt 1 →
    ∃ error, checked outPacket s.data.incomingPacket = .threw error

/-- The command itself, one of the four codes, or a packet that was damaged. -/
def known (outPacket inPacket : ComPacket) : Bool :=
  inPacket.byteAt 1 == outPacket.byteAt 1 ||
    [0xF0, 0xF1, 0xF2, 0xF3].contains (inPacket.byteAt 1) || !inPacket.checkIdentity

/-- While a call waits, no other request and no synchronization begins, and no packet with
another code is traced back to its request. -/
def Orderly {T : Type*} (s : State SerialByte T Call) : Label T Call → Prop
  | .call _ (.comSection _) _ | .call _ (.send _) _ | .call _ .resetWaitComSection _ =>
      ∀ t, (s.phase t).isIdle
  | .call _ (.incoming packet) _ =>
      (∀ t, (s.phase t).isIdle) ∨
        ((s.data.waitComSection && SerialByte.tracePacket s.data.outgoingPacket packet) = true →
          known s.data.outgoingPacket packet = true)
  | .call _ .awaitSyncPacket _ | .wake _ | .recheck _ _ => True

section Steps

variable {T : Type*} {history : List (Label T Call × Option (Call × Result))}
  {s s' : State SerialByte T Call} {l : Label T Call} {o : Option (Call × Result)}
  {outPacket inPacket : ComPacket}

/-- The check passes what has the right command, if it knows all the codes that come. -/
theorem checked_valid (traced : SerialByte.tracePacket outPacket inPacket = true)
    (codes : known outPacket inPacket = true) {result : Result}
    (check : checked outPacket inPacket = result) :
    (∃ error, result = .threw error) ∨
      result = .returned inPacket ∧ Valid outPacket inPacket := by
  obtain ⟨address, -⟩ := SerialByte.tracePacket_iff.mp traced
  unfold checked at check
  cases passed : SerialByte.comCheckPacket outPacket inPacket with
  | error error =>
    rw [passed] at check
    exact .inl ⟨error, check.symm⟩
  | ok =>
    rw [passed] at check
    obtain ⟨identity, command⟩ := SerialByte.comCheckPacket_eq_ok_iff.mp passed
    refine .inr ⟨check.symm, (ComPacket.checkIdentity_iff _).mp identity, address, ?_⟩
    obtain same | other := command
    · exact same
    · simpa [known, identity, other] using codes

theorem checked_unknown (code : known outPacket inPacket = false) :
    checked outPacket inPacket = .returned inPacket := by
  have passes : SerialByte.comCheckPacket outPacket inPacket = .ok () := by
    rw [SerialByte.comCheckPacket_eq_ok_iff]
    simp only [known, Bool.or_eq_false_iff, Bool.not_eq_false', List.contains_eq_mem,
      decide_eq_false_iff_not] at code
    exact ⟨code.2, .inr code.1.2⟩
  rw [checked, passes]

/-- The call inside has its request in the slot; once the flag is down, it has a packet that was
traced back to the request and that the check knows. -/
def Served (s : State SerialByte T Call) : Prop :=
  ∀ t c, (s.phase t).call? = some c → ∃ outPacket, c = .comSection outPacket ∧
    s.data.outgoingPacket = outPacket ∧
    (s.data.waitComSection = false →
      SerialByte.tracePacket outPacket s.data.incomingPacket = true ∧
        known outPacket s.data.incomingPacket = true)

theorem call?_of_isIdle {p : Phase Call} (idle : p.isIdle = true) : p.call? = none := by
  cases p with
  | idle => rfl
  | asleep | awake => cases idle

theorem served_of_idle (idle : ∀ t, (s.phase t).call? = none) : Served s := by
  intro t c inside
  rw [idle t] at inside
  cases inside

/-- The same calls are inside, and what they wait for has not changed. -/
theorem Served.congr (served : Served s) (calls : ∀ t c, (s'.phase t).call? = some c →
    (s.phase t).call? = some c) (slot : s'.data.outgoingPacket = s.data.outgoingPacket)
    (flag : s'.data.waitComSection = s.data.waitComSection)
    (packet : s'.data.incomingPacket = s.data.incomingPacket) : Served s' := by
  intro t c inside
  rw [slot, flag, packet]
  exact served t c (calls t c inside)

/-- A packet goes to the synchronization or to the inbox, or it is stored as the reply. -/
theorem dispatch_cases (device : SerialByte) (packet : ComPacket) :
    let next := (device.dispatch SerialByte.tracePacket packet).2
    next.outgoingPacket = device.outgoingPacket ∧
      (next.waitComSection = device.waitComSection ∧
          next.incomingPacket = device.incomingPacket ∨
        (device.waitComSection && SerialByte.tracePacket device.outgoingPacket packet) = true ∧
          next.waitComSection = false ∧ next.incomingPacket = packet) := by
  simp only [SerialByte.dispatch, SerialByte.isSyncPacket, SerialByte.isComSectionPacket]
  by_cases sync : (device.waitSyncPacket && packet.syncPacket) = true
  · simp [sync]
  · by_cases reply :
      (device.waitComSection && SerialByte.tracePacket device.outgoingPacket packet) = true
    · simp [sync, reply]
    · simp [sync, reply]

variable [Fintype T] [DecidableEq T]

theorem call_served (served : Served s) {t : T} {c : Call} {woken : Option T}
    (orderly : Orderly s (.call t c woken))
    (effect : Effect monitor s (.call t c woken) o s') : Served s' := by
  cases effect with
  | @call _ _ _ data signal result phase outside entered signalled =>
    -- a thread that was outside is inside only if it is the caller, and has to wait
    have alone (nobody : ∀ u, (s.phase u).isIdle = true) (u : T) (other : u ≠ t) :
        (Function.update phase t (Phase.settled c result) u).call? = none := by
      rw [Function.update_of_ne other, call?_notify signalled, call?_of_isIdle (nobody u)]
    have settled (now : result ≠ none) (u : T) (d : Call)
        (inside : (Function.update phase t (Phase.settled c result) u).call? = some d) :
        (s.phase u).call? = some d := by
      obtain ⟨r, rfl⟩ := Option.ne_none_iff_exists'.mp now
      obtain rfl | other := eq_or_ne u t
      · simp [Phase.call?] at inside
      · rwa [Function.update_of_ne other, call?_notify signalled] at inside
    cases c with
    | comSection outPacket =>
      obtain ⟨rfl, -, rfl⟩ := by simpa [monitor] using entered
      intro u d inside
      obtain rfl | other := eq_or_ne u t
      · obtain rfl : Call.comSection outPacket = d := by simpa [Phase.call?] using inside
        exact ⟨outPacket, rfl, rfl, Bool.noConfusion⟩
      · rw [alone orderly u other] at inside
        cases inside
    | send outPacket | resetWaitComSection =>
      obtain ⟨-, -, rfl⟩ := by simpa [monitor] using entered
      apply served_of_idle
      intro u
      obtain rfl | other := eq_or_ne u t
      · simp [Phase.call?]
      · exact alone orderly u other
    | awaitSyncPacket =>
      obtain ⟨rfl, -, rfl⟩ := by simpa [monitor] using entered
      exact served.congr (settled (Option.some_ne_none _)) rfl rfl rfl
    | incoming packet =>
      obtain ⟨rfl, -, rfl⟩ := by simpa [monitor] using entered
      obtain ⟨slot, ⟨flag, stored⟩ | ⟨reply, flag, stored⟩⟩ := dispatch_cases s.data packet
      · exact served.congr (settled (Option.some_ne_none _)) slot flag stored
      · intro u d inside
        have before := settled (Option.some_ne_none _) u d inside
        obtain ⟨outPacket, rfl, own, -⟩ := served u d before
        refine ⟨outPacket, rfl, slot.trans own, fun _ => ?_⟩
        obtain nobody | codes := orderly
        · rw [call?_of_isIdle (nobody u)] at before
          cases before
        · rw [stored, ← own]
          exact ⟨(Bool.and_eq_true_iff.mp reply).2, codes reply⟩

/-- One step keeps what the call inside has. -/
theorem step_served (served : Served s) (orderly : Orderly s l)
    (effect : Effect monitor s l o s') : Served s' := by
  have kept {t : T} {p : Phase Call} (here : ∀ c, p.call? = some c → (s.phase t).call? = some c)
      (u : T) (d : Call) (inside : (Function.update s.phase t p u).call? = some d) :
      (s.phase u).call? = some d := by
    obtain rfl | other := eq_or_ne u t
    · rw [Function.update_self] at inside
      exact here d inside
    · rwa [Function.update_of_ne other] at inside
  cases l with
  | call t c woken => exact call_served served orderly effect
  | wake t =>
    cases effect with
    | wake sleeping =>
      refine served.congr (kept fun c same => ?_) rfl rfl rfl
      rw [sleeping]
      exact same
  | recheck t late =>
    cases effect with
    | @resume _ c _ _ data r waking resumed =>
      obtain rfl : s.data = data := by
        cases c with
        | comSection outPacket =>
          obtain ⟨-, same, -⟩ := by simpa [monitor] using resumed
          exact same
        | send | resetWaitComSection | awaitSyncPacket | incoming => cases resumed
      exact served.congr (kept nofun) rfl rfl rfl
    | expire waking => exact served.congr (kept nofun) rfl rfl rfl
    | sleep waking =>
      refine served.congr (kept fun c same => ?_) rfl rfl rfl
      rw [waking]
      exact same

/-- A call that returns true has a reply to its request. -/
theorem step_returned (served : Served s) {r p : ComPacket}
    (effect : Effect monitor s l (some (.comSection r, .returned p)) s') : Valid r p := by
  generalize report : some (Call.comSection r, Result.returned p) = o at effect
  cases effect with
  | @call t c woken data signal result phase outside entered signalled =>
    cases c with
    | comSection outPacket =>
      obtain ⟨-, -, rfl⟩ := by simpa [monitor] using entered
      cases report
    | send | resetWaitComSection | awaitSyncPacket | incoming =>
      obtain ⟨-, -, rfl⟩ := by simpa [monitor] using entered
      cases report
  | @resume t c _ _ data result waking resumed =>
    obtain ⟨rfl, rfl⟩ : c = _ ∧ result = _ := by simpa [eq_comm] using report
    obtain ⟨flag, -, check⟩ := by simpa [monitor] using resumed
    obtain ⟨outPacket, same, -, reply⟩ := served t _ (by rw [waking]; rfl)
    obtain rfl := Call.comSection.inj same
    obtain ⟨traced, codes⟩ := reply flag
    obtain ⟨error, threw⟩ | ⟨returned, valid⟩ := checked_valid traced codes check
    · cases threw
    · exact Result.returned.inj returned ▸ valid
  | @expire t c _ result waking blocked expired =>
    obtain ⟨rfl, rfl⟩ : c = _ ∧ result = _ := by simpa [eq_comm] using report
    cases expired
  | wake | sleep => cases report

omit [Fintype T] [DecidableEq T] in
theorem Served.thrown (served : Served s) {t : T} {r : ComPacket}
    (inside : (s.phase t).call? = some (.comSection r)) (flag : s.data.waitComSection = false)
    (other : s.data.incomingPacket.byteAt 1 ≠ r.byteAt 1) :
    ∃ error, checked r s.data.incomingPacket = .threw error := by
  obtain ⟨outPacket, same, -, reply⟩ := served t _ inside
  obtain rfl := Call.comSection.inj same
  obtain ⟨traced, codes⟩ := reply flag
  obtain ⟨error, threw⟩ | ⟨-, valid⟩ := checked_valid traced codes rfl
  · exact ⟨error, threw⟩
  · exact absurd valid.command other

/-- In a run whose steps are orderly, the calls that return true have replies to their requests,
in every state reached. -/
theorem run_validated {size : ℕ} (run : (monitor.machine T).Run (new T size) history s)
    (orderly : (monitor.machine T).BeforeEach (new T size) (fun _ s l => Orderly s l) history) :
    (monitor.machine T).Throughout (new T size) Validated history := by
  refine run.throughout_of (P := Validated) (I := fun history s => Served s ∧ ∀ l r p,
    (l, some (.comSection r, .returned p)) ∈ history → Valid r p) ?_ ?_ ?_ orderly
  · exact ⟨served_of_idle fun _ => rfl, by simp⟩
  · rintro history t l o u ⟨served, returned⟩ orderly step
    have effect := step_iff_effect.mp step
    refine ⟨step_served served orderly effect, fun l' r p member => ?_⟩
    obtain old | new := List.mem_append.mp member
    · exact returned l' r p old
    · obtain ⟨rfl, rfl⟩ : l' = l ∧ _ = o := by simpa using new
      exact step_returned served effect
  · rintro history s ⟨served, returned⟩
    exact ⟨returned, fun _ _ => served.thrown⟩

/-- What is traced back with a code that the check does not know is handed back as the reply. -/
theorem unknown_code_returned {t u : T} (other : t ≠ u) {r p : ComPacket}
    (idle : ∀ t, s.phase t = .idle) (unsynced : s.data.waitSyncPacket = false)
    (traced : SerialByte.tracePacket r p = true) (code : known r p = false) :
    ∃ s', (monitor.machine T).Run s [(.call t (.comSection r) none, none),
      (.call u (.incoming p) (some t), some (.incoming p, .routed .comSection)),
      (.recheck t false, some (.comSection r, .returned p))] s' := by
  have passes := checked_unknown code
  let s₁ : State SerialByte T Call :=
    ⟨s.data.request r, Function.update s.phase t (.asleep (.comSection r))⟩
  have asks : Effect monitor s (.call t (.comSection r) none) none s₁ :=
    .call (idle t) rfl rfl
  let data : SerialByte := { s.data.request r with waitComSection := false, incomingPacket := p }
  have entered : monitor.enter (.incoming p) s₁.data =
      (data, .one, some (.routed .comSection)) := by
    have still : (s.data.request r).waitSyncPacket = false := unsynced
    have reply : (s.data.request r).dispatch SerialByte.tracePacket p = (.comSection, data) := by
      rw [SerialByte.dispatch_eq still, if_pos (by simpa [SerialByte.request] using traced)]
    simp [monitor, s₁, reply]
  have outside : s₁.phase u = .idle := (Function.update_of_ne other.symm _ _).trans (idle u)
  have notified : notify s₁.phase .one (some t) =
      some (Function.update s₁.phase t (.awake (.comSection r) true)) := by
    simp [notify, s₁, Phase.isAsleep, Phase.notified]
  have arrives := Effect.call outside entered notified
  have waking : (Function.update (Function.update s₁.phase t (.awake (.comSection r) true)) u
      (Phase.settled (Call.incoming p) (some (Result.routed .comSection)))) t =
        .awake (.comSection r) true := by
    rw [Function.update_of_ne other, Function.update_self]
  have resumed : monitor.resume (.comSection r) data = some (data, .returned p) := by
    simp [monitor, data, passes]
  have returns : Effect monitor ⟨data, Function.update (Function.update s₁.phase t
      (.awake (.comSection r) true)) u
        (Phase.settled (Call.incoming p) (some (Result.routed .comSection)))⟩
      (.recheck t false) (some (.comSection r, .returned p)) _ := .resume waking resumed
  exact ⟨_, .cons (step_iff_effect.mpr asks) (.cons (step_iff_effect.mpr arrives)
    (.single (step_iff_effect.mpr returns)))⟩

end Steps

instance (s : State SerialByte (Fin 2) Call) (l : Label (Fin 2) Call) :
    Decidable (Orderly s l) := by
  unfold Orderly
  split <;> infer_instance

/-- A reply, and a request that the controller does not know. -/
theorem run_validated_two : ∃ history s,
    (monitor.machine (Fin 2)).Run (new (Fin 2) 4) history s ∧
      (.recheck 0 false, some (.comSection [0x12, 7, 0, 0xE7], .returned [0x21, 7, 3, 0xD5])) ∈
        history ∧
      (.recheck 0 false, some (.comSection [0x12, 8, 0, 0xE6], .threw (.badCommand
        (some "Request: 12 08 00 E6; controller code 0xF2")))) ∈ history ∧
      (monitor.machine (Fin 2)).Throughout (new (Fin 2) 4) Validated history := by
  have executed : ∃ history s,
      ((monitor.machine (Fin 2)).guard Orderly).exec (new (Fin 2) 4)
        [.call 0 (.comSection [0x12, 7, 0, 0xE7]) none,
          .call 1 (.incoming [0x21, 7, 3, 0xD5]) (some 0), .recheck 0 false,
          .call 0 (.comSection [0x12, 8, 0, 0xE6]) none,
          .call 1 (.incoming [0x21, 0xF2, 0, 0xED]) (some 0), .recheck 0 false] =
        some (history, s) ∧
      (.recheck 0 false, some (.comSection [0x12, 7, 0, 0xE7], .returned [0x21, 7, 3, 0xD5])) ∈
        history ∧
      (.recheck 0 false, some (.comSection [0x12, 8, 0, 0xE6], .threw (.badCommand
        (some "Request: 12 08 00 E6; controller code 0xF2")))) ∈ history :=
    ⟨_, _, rfl, by decide, by decide⟩
  obtain ⟨history, s, computed, reply, refused⟩ := executed
  obtain ⟨run, orderly⟩ := Machine.run_of_guard (Machine.run_of_exec computed)
  exact ⟨history, s, run, reply, refused, run_validated run orderly⟩

/-- The controller answers with the code `0xAD`, and `comSection` returns true. -/
theorem code_returned : ∃ history s,
    (monitor.machine (Fin 2)).Run (new (Fin 2) 4) history s ∧
      (.recheck 0 false, some (.comSection [0x12, 7, 0, 0xE7], .returned [0x21, 0xAD, 0, 0x32])) ∈
        history ∧
      ¬ (monitor.machine (Fin 2)).Throughout (new (Fin 2) 4) Validated history := by
  have traced : SerialByte.tracePacket [0x12, 7, 0, 0xE7] [0x21, 0xAD, 0, 0x32] = true := by decide
  have code : known [0x12, 7, 0, 0xE7] [0x21, 0xAD, 0, 0x32] = false := by decide
  have other : (0 : Fin 2) ≠ 1 := by decide
  obtain ⟨s, run⟩ := unknown_code_returned (s := new (Fin 2) 4) other (fun _ => rfl) rfl traced code
  refine ⟨_, s, run, by simp, fun validated => ?_⟩
  have valid : Valid [0x12, 7, 0, 0xE7] [0x21, 0xAD, 0, 0x32] :=
    (validated _ s List.prefix_rfl run).returned (.recheck 0 false) _ _ (by simp)
  exact absurd valid.command (by decide)

end Validation

end Crs.Sc
