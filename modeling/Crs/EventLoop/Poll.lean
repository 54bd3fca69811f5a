import Crs.EventLoop.Batch
import Crs.Foundation.Compaction

/-!
# The event loop over poll

Without epoll nothing in the kernel knows the descriptors: `prepare` builds the array for
`poll` from the list of descriptors, before each poll. `add`, `remove` and `handle_events`
index that list by file descriptor. `prepare` fills its empty places from the back, which
moves descriptors to places that are not theirs.

Each function is one step, and the loop goes through `prepare`, `do_poll` and
`handle_events` in this order, as `runOnce` does. The first entry of the array is that of
the control pipe. It is requested for input only and its write end stays open, so `poll`
reports input for it or nothing. A `poll` that fails leaves everything as it is.
-/

namespace Crs.EventLoop.Poll

open Foundation EventDescriptor

/-- The bits of `revents`. -/
structure Revents where
  err : Bool := false
  hup : Bool := false
  input : Bool := false
  output : Bool := false
  nval : Bool := false
deriving DecidableEq

/-- Some bit is set. -/
def Revents.any (r : Revents) : Bool := r.err || r.hup || r.input || r.output || r.nval

/-- A `pollfd`. POLLIN is always requested, POLLOUT where `output` holds. -/
structure PollFd where
  fd : ℕ
  output : Bool
  revents : Revents := {}
deriving DecidableEq

namespace PollFd

def request (e : PollFd) : ℕ × Bool := (e.fd, e.output)

/-- What was reported. -/
def ready (e : PollFd) : Ready where
  fd := e.fd
  err := e.revents.err
  hup := e.revents.hup
  input := e.revents.input
  output := e.revents.output

/-- What `handle_events` looks at: for output it takes the request instead of the report. -/
def considered (e : PollFd) : Ready := { e.ready with output := e.output }

end PollFd

/-- Where the loop is. A poll that has returned may have reported the control pipe. -/
inductive Phase where
  | idle
  | prepared
  | polled (control : Bool)

/-- `descriptors_list`, and `poll_records` with the array behind its first entry. -/
structure State (D : Type*) where
  descriptorsList : List (Option D) := []
  events : List PollFd := []
  restartFlag : Bool := false
  phase : Phase := .idle

/-- The answers of the functions. An exception that leaves `handle_events` takes the place
of its result. -/
inductive Answer (D : Type*) where
  | updated (o : Outcome D)
  | prepared (polled : List PollFd)
  | polled (nfds : ℕ)
  | handled (result : Option Bool) (log : List (Called D))

/-- What the loop and other threads call. `poll` writes the reports into the array. -/
inductive Call (D : Type*) where
  | add (d : D)
  | remove (d : D)
  | prepare (want2write : D → Bool)
  | doPoll (control : Bool) (events : List PollFd)
  | handleEvents (h : Handlers D)

variable {D : Type*} [EventDescriptor D]

def addDescriptor (list : List (Option D)) (d : D) : List (Option D) :=
  (resize list (getDescriptor d + 1)).set (getDescriptor d) (some d)

def removeDescriptor (list : List (Option D)) (d : D) :
    Option (Outcome D × List (Option D)) :=
  match list[getDescriptor d]? with
  | some none => some (.ignored, list)
  | some (some stored) =>
      some (.removed d (if autoDestroy d then some stored else none),
        list.set (getDescriptor d) none)
  | none => none

/-- The entry that `prepare` makes for a descriptor. -/
def entry (want2write : D → Bool) (d : D) : PollFd :=
  { fd := getDescriptor d, output := want2write d }

/-- The loop of `prepare` from position `i`, with the list and the entries made so far. -/
def prepareFrom (want2write : D → Bool) (list : List (Option D)) (events : List PollFd)
    (i : ℕ) : List (Option D) × List PollFd :=
  if within : i < list.length then
    match list[i] with
    | none =>
        let back := list.getLast (List.ne_nil_of_length_pos (Nat.zero_lt_of_lt within))
        prepareFrom want2write (list.set i back).dropLast events i
    | some d => prepareFrom want2write list (events ++ [entry want2write d]) (i + 1)
  else (list, events)
termination_by list.length - i
decreasing_by
  · simp only [List.length_dropLast, List.length_set]
    omega
  · omega

/-- The loop of `handle_events` with the calls it has made. -/
structure Progress (D : Type*) where
  descriptorsList : List (Option D)
  log : List (Called D) := []
  escaped : Bool := false

namespace Progress

/-- The `catch` block. -/
def disconnect (h : Handlers D) (s : Progress D) (d : D) (called : List (Called D)) :
    Option (Progress D) :=
  if h.disconnectThrows d then
    some { s with log := s.log ++ (called ++ [.handleDisconnect d]), escaped := true }
  else match removeDescriptor s.descriptorsList d with
    | none => none
    | some (.removed d _, descriptorsList) =>
        some { s with
          descriptorsList, log := s.log ++ (called ++ [.handleDisconnect d, .removed d]) }
    | some (_, descriptorsList) =>
        some { s with descriptorsList, log := s.log ++ (called ++ [.handleDisconnect d]) }

/-- The body of the loop for one entry. -/
def iteration (h : Handlers D) (s : Progress D) (e : PollFd) : Option (Progress D) :=
  if !e.considered.any then some s
  else match s.descriptorsList[e.fd]? with
    | some (some d) =>
        if (attempt h d e.considered).2 then s.disconnect h d (attempt h d e.considered).1
        else some { s with log := s.log ++ (attempt h d e.considered).1 }
    | some none | none => none

/-- The loop. It ends when all entries that were reported have been found. -/
def scan (h : Handlers D) : List PollFd → ℕ → Progress D → Option (Progress D)
  | [], _, s => some s
  | e :: rest, nfdsLast, s =>
      if 0 < nfdsLast then
        (s.iteration h e).bind fun s =>
          if s.escaped then some s
          else scan h rest (nfdsLast - if e.revents.any then 1 else 0) s
      else some s

end Progress

/-- The number that `poll` returns. -/
def readyCount (control : Bool) (events : List PollFd) : ℕ :=
  (if control then 1 else 0) + events.countP fun e => e.revents.any

def handleEvents (h : Handlers D) (control : Bool) (s : State D) :
    Option (Answer D × State D) :=
  let nfds := readyCount control s.events
  if nfds = 0 then some (.handled (some true) [], { s with phase := .idle })
  else if s.restartFlag then
    some (.handled (some true) [], { s with restartFlag := false, phase := .idle })
  else
    let nfdsLast := if control then nfds - 1 else nfds
    let log := if control then [.checkTerminate] else []
    (Progress.scan h s.events nfdsLast { descriptorsList := s.descriptorsList, log }).map
      fun p =>
        (.handled (if p.escaped then none else some !(control && h.terminated)) p.log,
          { s with descriptorsList := p.descriptorsList, phase := .idle })

/-- What `poll` may make of the array: it keeps the requests, and reports output only
where it is requested. -/
def Reports (events reported : List PollFd) : Prop :=
  reported.map PollFd.request = events.map PollFd.request ∧
    ∀ e ∈ reported, e.revents.output = true → e.output = true

instance (events reported : List PollFd) : Decidable (Reports events reported) :=
  inferInstanceAs (Decidable (_ ∧ _))

/-- No descriptor has the number of the control pipe, which is open. -/
def loop (controlPipe : ℕ) (D : Type*) [EventDescriptor D] :
    Machine (State D) (Call D) (Answer D) where
  step s
    | .add d =>
        if getDescriptor d = controlPipe then none
        else some (.updated (.added d),
          { s with descriptorsList := addDescriptor s.descriptorsList d })
    | .remove d =>
        (removeDescriptor s.descriptorsList d).map fun r =>
          (.updated r.1, { s with descriptorsList := r.2, restartFlag := true })
    | .prepare want2write =>
        let r := prepareFrom want2write s.descriptorsList [] 0
        some (.prepared r.2, { s with descriptorsList := r.1, events := r.2, phase := .prepared })
    | .doPoll control events =>
        match s.phase with
        | .prepared | .polled _ =>
            if Reports s.events events then
              some (.polled (readyCount control events),
                { s with events, phase := .polled control })
            else none
        | .idle => none
    | .handleEvents h =>
        match s.phase with
        | .polled control => handleEvents h control s
        | .idle | .prepared => none

/-- The calls that the callers and the kernel can make. -/
def Enabled (controlPipe : ℕ) (s : State D) : Call D → Prop
  | .add d => getDescriptor d ≠ controlPipe
  | .remove _ | .prepare _ => True
  | .doPoll _ events => s.phase ≠ .idle ∧ Reports s.events events
  | .handleEvents _ => ∃ control, s.phase = .polled control

section Specification

variable [DecidableEq D]

/-- The removals of a log take descriptors away. -/
def remaining (known : List D) (log : List (Called D)) : List D :=
  log.foldl (fun known c => match c with
    | .removed d => known.erase d
    | .checkTerminate | .handleRead _ | .handleWrite _ | .handleDisconnect _ => known) known

/-- How an answer changes the registered descriptors. -/
def Answer.after (known : List D) : Answer D → List D
  | .updated (.added d) => known.insert d
  | .updated (.removed d _) => known.erase d
  | .updated _ | .prepared _ | .polled _ => known
  | .handled _ log => remaining known log

/-- The descriptors that are registered when a run ends. -/
def registered (history : List (Call D × Answer D)) : List D :=
  history.foldl (fun known event => event.2.after known) []

end Specification

/-- The registered descriptor of a file descriptor. -/
def holder (known : List D) (fd : ℕ) : Option D := known.find? fun d => getDescriptor d = fd

/-- What was reported, the control pipe first. -/
def readiness (controlPipe : ℕ) (control : Bool) (events : List PollFd) : List Ready :=
  (if control then [{ fd := controlPipe, input := true }] else []) ++
    (events.filter fun e => e.revents.any).map PollFd.ready

/-- With the same descriptors, the epoll back end calls the same for a batch. -/
def SameAsEpoll [DecidableEq D] (controlPipe : ℕ) (h : Handlers D) (known : List D)
    (batch : List Ready) (log : List (Called D)) : Prop :=
  ∀ records : Records D, records.stored = holder known → Reported controlPipe records batch →
    batch ≠ [] → Scannable controlPipe h batch records →
      ∃ t, EventLoop.handleEvents controlPipe h false batch records = some (false, t) ∧
        log = t.log.flatten

/-- The answer is right: `prepare` makes one entry for each registered descriptor, and
`handle_events` makes those calls that the reports ask for. -/
def Right [DecidableEq D] (controlPipe : ℕ) (known : List D) (s : State D) (o : Answer D) :
    Call D → Prop
  | .add d => o = .updated (.added d)
  | .remove d =>
      if d ∈ known then ∃ destroyed, o = .updated (.removed d destroyed)
      else o = .updated .ignored
  | .prepare want2write => ∃ polled, o = .prepared polled ∧
      (polled.map PollFd.request).Perm (known.map fun d => (getDescriptor d, want2write d))
  | .doPoll control events => o = .polled (readyCount control events)
  | .handleEvents h => ∃ control result log, s.phase = .polled control ∧
      o = .handled result log ∧
      if s.restartFlag then log = []
      else
        let batch := readiness controlPipe control s.events
        log = (dispatch controlPipe h (holder known) batch).flatten ∧
          SameAsEpoll controlPipe h known batch log

/-- Each entry that the loop comes to either did not ask for output, or output was reported
for it, or it leaves the `try` block before the write. -/
def Answered (controlPipe : ℕ) (h : Handlers D) (stored : ℕ → Option D) : List PollFd → Prop
  | [] => True
  | e :: rest =>
      (e :: rest).any (fun e => e.revents.any) = true →
        (e.output = true → e.revents.output = true ∨ e.revents.err = true ∨
          e.revents.hup = true ∨
          e.revents.input = true ∧ (stored e.fd).any h.readThrows = true) ∧
        (escapes controlPipe h stored e.ready = false → Answered controlPipe h stored rest)

/-- A descriptor that is added has no smaller file descriptor than a registered one, one
that is removed has its place in the list, the loop prepares while the registered file
descriptors are the numbers from 0, and it finds output wherever it asked for it. -/
def fits (controlPipe : ℕ) (known : List D) (s : State D) : Call D → Prop
  | .add d => ∀ e ∈ known, getDescriptor e ≤ getDescriptor d
  | .remove d => getDescriptor d < s.descriptorsList.length
  | .prepare _ => ∀ d ∈ known, getDescriptor d < known.length
  | .doPoll _ _ => True
  | .handleEvents h =>
      s.restartFlag = true ∨ Answered controlPipe h (holder known) s.events

/-- The registered descriptors are in their places. -/
structure InPlace (known : List D) (list : List (Option D)) : Prop where
  nodup : known.Nodup
  stored : ∀ fd d, list[fd]? = some (some d) ↔ d ∈ known ∧ getDescriptor d = fd

/-- Unless the loop is told to restart, what it polls is registered. -/
structure Aligned (controlPipe : ℕ) (known : List D) (s : State D) : Prop where
  inPlace : InPlace known s.descriptorsList
  apart : ∀ d ∈ known, getDescriptor d ≠ controlPipe
  watched : s.phase ≠ .idle → s.restartFlag = false →
    ∀ e ∈ s.events, ∃ d ∈ known, getDescriptor d = e.fd
  fresh : (s.events.map (·.fd)).Nodup
  requested : ∀ control, s.phase = .polled control →
    ∀ e ∈ s.events, e.revents.output = true → e.output = true

section Attempts

variable {controlPipe : ℕ} {h : Handlers D} {stored : ℕ → Option D} {d : D} {e : PollFd}

omit [EventDescriptor D] in
/-- An entry that asked for output and got it, or asked for none, is treated as reported. -/
theorem attempt_considered (legal : e.revents.output = true → e.output = true)
    (answered : e.output = true → e.revents.output = true ∨ e.revents.err = true ∨
      e.revents.hup = true ∨ e.revents.input = true ∧ h.readThrows d = true) :
    attempt h d e.considered = attempt h d e.ready := by
  by_cases same : e.revents.output = e.output
  · rw [PollFd.considered, ← same]
    rfl
  · have asked : e.output = true := by
      by_contra no
      cases reported : e.revents.output with
      | false => exact same (by simp [reported, no])
      | true => exact no (legal reported)
    have silent : e.revents.output = false := by simpa [asked] using same
    have early := answered asked
    rw [silent] at early
    obtain err | hup | ⟨input, throws⟩ := early.resolve_left (by simp)
    · simp [attempt, PollFd.considered, PollFd.ready, err]
    · simp [attempt, PollFd.considered, PollFd.ready, hup]
    · simp [attempt, PollFd.considered, PollFd.ready, input, throws]

omit [EventDescriptor D] in
variable (h stored) in
/-- An entry without a report makes no calls. -/
theorem silent (quiet : e.revents.any = false) (own : e.fd ≠ controlPipe) :
    callsOf controlPipe h stored e.ready = [] ∧ escapes controlPipe h stored e.ready = false := by
  have still : e.ready.any = false := by
    simp only [Revents.any, Bool.or_eq_false_iff] at quiet
    simp [Ready.any, PollFd.ready, quiet]
  have calls : ∀ d, attempt h d e.ready = ([], false) := fun d => attempt_of_quiet still
  constructor
  · rw [callsOf, if_neg (by simpa [PollFd.ready] using own)]
    cases stored e.ready.fd with
    | none => rfl
    | some d => simp [served, calls]
  · rw [escapes, fails]
    cases stored e.ready.fd <;> simp [calls]

end Attempts

section InPlace

variable [DecidableEq D] {known : List D} {list : List (Option D)} {d : D} {fd : ℕ}

omit [DecidableEq D] in
theorem holder_eq_some (distinct : Function.Injective (getDescriptor : D → ℕ)) :
    holder known fd = some d ↔ d ∈ known ∧ getDescriptor d = fd := by
  constructor
  · intro found
    exact ⟨List.mem_of_find?_eq_some found, by simpa using List.find?_some found⟩
  · rintro ⟨member, rfl⟩
    have present : (known.find? fun e => getDescriptor e = getDescriptor d).isSome :=
      List.find?_isSome.mpr ⟨d, member, by simp⟩
    obtain ⟨e, found⟩ := Option.isSome_iff_exists.mp present
    have same : getDescriptor e = getDescriptor d := by simpa using List.find?_some found
    rw [holder, found, distinct same]

variable (distinct : Function.Injective (getDescriptor : D → ℕ))

include distinct

/-- An addition above all others. -/
theorem InPlace.add (held : InPlace known list)
    (below : ∀ e ∈ known, getDescriptor e ≤ getDescriptor d) :
    InPlace (known.insert d) (addDescriptor list d) where
  nodup := held.nodup.insert
  stored := (stored_resize_set_iff distinct held.stored fun _ => List.mem_insert_iff).mpr below

/-- The removal of a registered descriptor. -/
theorem InPlace.remove (held : InPlace known list) (member : d ∈ known) :
    ∃ destroyed, removeDescriptor list d =
        some (.removed d destroyed, list.set (getDescriptor d) none) ∧
      InPlace (known.erase d) (list.set (getDescriptor d) none) := by
  refine ⟨if autoDestroy d then some d else none, ?_, held.nodup.erase d,
    stored_set_none distinct held.nodup held.stored⟩
  rw [removeDescriptor, (held.stored _ d).mpr ⟨member, rfl⟩]

/-- The removal of any descriptor that has a place in the list. -/
theorem InPlace.removeDescriptor (held : InPlace known list)
    (inside : getDescriptor d < list.length) :
    ∃ o list', Poll.removeDescriptor list d = some (o, list') ∧
      InPlace ((Answer.updated o).after known) list' ∧
      if d ∈ known then ∃ destroyed, o = .removed d destroyed else o = .ignored := by
  split
  · rename_i member
    obtain ⟨destroyed, removed, held'⟩ := held.remove distinct member
    exact ⟨_, _, removed, held', destroyed, rfl⟩
  · rename_i other
    have place : list[getDescriptor d]? = some none := by
      rw [List.getElem?_eq_getElem inside]
      cases found : list[getDescriptor d] with
      | none => rfl
      | some e =>
          have here : list[getDescriptor d]? = some (some e) := by
            rw [List.getElem?_eq_getElem inside, found]
          obtain ⟨member, same⟩ := (held.stored _ e).mp here
          exact absurd (distinct same ▸ member) other
    refine ⟨.ignored, list, ?_, held, rfl⟩
    rw [Poll.removeDescriptor, place]

end InPlace

section Prepare

variable {want2write : D → Bool} {known : List D} {list : List (Option D)}

/-- The loop makes an entry for each element in the order in which it packs the list. -/
theorem prepareFrom_eq (front : List D) (rest : List (Option D)) (events : List PollFd) :
    prepareFrom want2write (front.map some ++ rest) events front.length =
      ((front ++ Compaction.pack rest).map some,
        events ++ (Compaction.pack rest).map (entry want2write)) := by
  induction rest using Compaction.pack_induction generalizing front events with
  | nil =>
      rw [prepareFrom, dif_neg (by simp)]
      simp
  | filled x rest ih =>
      have next := ih (front ++ [x]) (events ++ [entry want2write x])
      rw [List.length_append, List.length_singleton] at next
      rw [prepareFrom, dif_pos (by simp)]
      simpa using next
  | last =>
      rw [prepareFrom, dif_pos (by simp)]
      simp only [List.getElem_append_right, List.length_map, Nat.sub_self, le_refl,
        List.getElem_singleton]
      rw [prepareFrom, dif_neg (by simp)]
      simp
  | moved middle back ih =>
      have moved := Compaction.dropLast_set (front.map some) middle none back
      have last : (front.map some ++ none :: (middle ++ [back])).getLast (by simp) = back := by simp
      rw [List.length_map] at moved
      rw [Compaction.pack_none_snoc, ← ih front events, prepareFrom, dif_pos (by simp)]
      simp only [List.length_map, le_refl, List.getElem_append_right, Nat.sub_self,
        List.getElem_cons_zero, last, moved]

theorem prepareFrom_zero (list : List (Option D)) : prepareFrom want2write list [] 0 =
    ((Compaction.pack list).map some, (Compaction.pack list).map (entry want2write)) :=
  prepareFrom_eq [] list []

/-- Registered file descriptors that are the numbers from 0 stay in their places. -/
theorem InPlace.pack (distinct : Function.Injective (getDescriptor : D → ℕ))
    (held : InPlace known list) (dense : ∀ d ∈ known, getDescriptor d < known.length) :
    (Compaction.pack list).Perm known ∧ InPlace known ((Compaction.pack list).map some) ∧
      ((Compaction.pack list).map getDescriptor).Nodup := by
  have numbers : (known.map getDescriptor).Perm (List.range known.length) := by
    apply List.Subperm.perm_of_length_le
    · apply List.subperm_of_subset (held.nodup.map distinct)
      intro fd mapped
      obtain ⟨d, member, rfl⟩ := List.mem_map.mp mapped
      exact List.mem_range.mpr (dense d member)
    · simp
  obtain ⟨front, k, rfl, length⟩ := Compaction.exists_front (l := list) (m := known.length)
    (by
      intro i less
      obtain ⟨d, member, same⟩ := List.mem_map.mp (numbers.mem_iff.mpr (List.mem_range.mpr less))
      exact ⟨d, (held.stored i d).mpr ⟨member, same⟩⟩)
    (by
      intro i d found
      obtain ⟨member, rfl⟩ := (held.stored i d).mp found
      exact dense d member)
  rw [Compaction.pack_of_front]
  have stored : ∀ fd d, (front.map some)[fd]? = some (some d) ↔
      d ∈ known ∧ getDescriptor d = fd := by
    intro fd d
    rw [← held.stored fd d, List.getElem?_append, List.length_map]
    split
    · rfl
    · rename_i above
      simp only [List.getElem?_map, List.getElem?_replicate]
      rw [List.getElem?_eq_none (by omega)]
      split <;> simp
  have own : front.map getDescriptor = List.range front.length := by
    apply List.ext_getElem (by simp)
    intro i less _
    have within : i < front.length := by simpa using less
    have found : (front.map some)[i]? = some (some front[i]) := by simp [within]
    rw [List.getElem_map, List.getElem_range]
    exact ((stored i front[i]).mp found).2
  have fresh : (front.map getDescriptor).Nodup := own ▸ List.nodup_range
  refine ⟨?_, ⟨held.nodup, stored⟩, fresh⟩
  apply (List.perm_ext_iff_of_nodup fresh.of_map held.nodup).mpr
  intro d
  constructor
  · intro member
    obtain ⟨i, within, rfl⟩ := List.mem_iff_getElem.mp member
    exact ((stored i front[i]).mp (by simp [within])).1
  · intro member
    have found := (stored (getDescriptor d) d).mpr ⟨member, rfl⟩
    simpa using List.mem_of_getElem? found

end Prepare

section Scan

variable [DecidableEq D] {controlPipe : ℕ} {h : Handlers D} {known : List D} {d : D}
  {s : Progress D} {e : PollFd} {rest : List PollFd}

omit [EventDescriptor D] in
theorem remaining_append (known : List D) (log log' : List (Called D)) :
    remaining known (log ++ log') = remaining (remaining known log) log' :=
  List.foldl_append

omit [EventDescriptor D] in
/-- The `try` block removes nothing. -/
@[simp] theorem remaining_attempt (known : List D) (r : Ready) :
    remaining known (attempt h d r).1 = known := by
  rw [attempt]
  split_ifs <;> rfl

omit [EventDescriptor D] in
theorem remaining_sublist (known : List D) (log : List (Called D)) :
    (remaining known log).Sublist known := by
  induction log generalizing known with
  | nil => exact .refl known
  | cons c log ih =>
      cases c with
      | removed d => exact (ih (known.erase d)).trans List.erase_sublist
      | checkTerminate | handleRead | handleWrite | handleDisconnect => exact ih known

variable (distinct : Function.Injective (getDescriptor : D → ℕ))

include distinct

/-- The `catch` block for a registered descriptor. -/
theorem disconnect_spec {called : List (Called D)}
    (held : InPlace (remaining known s.log) s.descriptorsList)
    (member : d ∈ remaining known s.log) (plain : ∀ known', remaining known' called = known') :
    ∃ s', s.disconnect h d called = some s' ∧
      InPlace (remaining known s'.log) s'.descriptorsList ∧
      if h.disconnectThrows d then
        s'.escaped = true ∧ s'.log = s.log ++ (called ++ [.handleDisconnect d])
      else s'.escaped = s.escaped ∧
        s'.log = s.log ++ (called ++ [.handleDisconnect d, .removed d]) := by
  rw [Progress.disconnect]
  split
  · refine ⟨_, rfl, ?_, rfl, rfl⟩
    rw [remaining_append, remaining_append, plain]
    exact held
  · obtain ⟨destroyed, removed, held'⟩ := held.remove distinct member
    rw [removed]
    refine ⟨_, rfl, ?_, rfl, rfl⟩
    rw [remaining_append, remaining_append, plain]
    exact held'

/-- One pass over an entry of a registered descriptor that is answered: it throws out of the
loop, or it makes the calls that belong to the report. -/
theorem iteration_spec (held : InPlace (remaining known s.log) s.descriptorsList)
    (own : e.fd ≠ controlPipe) (watched : ∃ d ∈ remaining known s.log, getDescriptor d = e.fd)
    (legal : e.revents.output = true → e.output = true)
    (answered : e.output = true → e.revents.output = true ∨ e.revents.err = true ∨
      e.revents.hup = true ∨
      e.revents.input = true ∧ (holder known e.fd).any h.readThrows = true) :
    ∃ s', s.iteration h e = some s' ∧
      InPlace (remaining known s'.log) s'.descriptorsList ∧
      if escapes controlPipe h (holder known) e.ready then
        s'.escaped = true ∧
          s'.log = s.log ++ (callsOf controlPipe h (holder known) e.ready).dropLast
      else s'.escaped = s.escaped ∧
        s'.log = s.log ++ callsOf controlPipe h (holder known) e.ready ∧
        ∀ d ∈ remaining known s.log, getDescriptor d ≠ e.fd → d ∈ remaining known s'.log := by
  obtain ⟨d, member, atFd⟩ := watched
  have place : s.descriptorsList[e.fd]? = some (some d) := (held.stored e.fd d).mpr ⟨member, atFd⟩
  have found : holder known e.fd = some d :=
    (holder_eq_some distinct).mpr ⟨(remaining_sublist known s.log).subset member, atFd⟩
  have same : attempt h d e.considered = attempt h d e.ready := by
    apply attempt_considered legal
    simpa [found] using answered
  obtain ⟨-, escaping, calls⟩ := attempted (h := h) (r := e.ready) own found
  have branch : s.iteration h e =
      if e.considered.any = false then some s
      else if (attempt h d e.ready).2 then s.disconnect h d (attempt h d e.ready).1
      else some { s with log := s.log ++ (attempt h d e.ready).1 } := by
    simp [Progress.iteration, place, same]
  rw [branch, escaping, calls, served]
  cases failed : (attempt h d e.ready).2 with
  | true =>
      have loud : e.considered.any ≠ false := by
        intro quiet
        rw [← same, attempt_of_quiet quiet] at failed
        cases failed
      obtain ⟨s', caught, held', result⟩ := disconnect_spec (h := h) distinct held member
        (fun known' => remaining_attempt (h := h) (d := d) known' e.ready)
      refine ⟨s', by simp [loud, caught], held', ?_⟩
      cases throws : h.disconnectThrows d with
      | true =>
          rw [throws, if_pos rfl] at result
          simpa [List.dropLast_append_of_ne_nil] using result
      | false =>
          rw [throws, if_neg (by simp)] at result
          obtain ⟨escaped, log⟩ := result
          refine ⟨escaped, log, fun d' member' other => ?_⟩
          rw [log, remaining_append, remaining_append, remaining_attempt]
          have apart : d' ≠ d := by
            rintro rfl
            exact other atFd
          exact (List.mem_erase_of_ne apart).mpr member'
  | false =>
      refine ⟨{ s with log := s.log ++ (attempt h d e.ready).1 }, ?_, ?_, ?_⟩
      · split
        · rename_i quiet
          rw [← same, attempt_of_quiet quiet, List.append_nil]
        · rfl
      · rw [remaining_append, remaining_attempt]
        exact held
      · rw [if_neg (by simp)]
        refine ⟨rfl, by simp, fun d' member' _ => ?_⟩
        rw [remaining_append, remaining_attempt]
        exact member'

variable (known) in
/-- The loop makes the calls of what was reported, and the list stays right. -/
theorem scan_spec (held : InPlace (remaining known s.log) s.descriptorsList)
    (inside : s.escaped = false) (fresh : (rest.map (·.fd)).Nodup)
    (own : ∀ e ∈ rest, e.fd ≠ controlPipe)
    (watched : ∀ e ∈ rest, ∃ d ∈ remaining known s.log, getDescriptor d = e.fd)
    (legal : ∀ e ∈ rest, e.revents.output = true → e.output = true)
    (answered : Answered controlPipe h (holder known) rest) :
    ∃ s', Progress.scan h rest (rest.countP fun e => e.revents.any) s = some s' ∧
      InPlace (remaining known s'.log) s'.descriptorsList ∧
      s'.log = s.log ++ (dispatch controlPipe h (holder known)
        ((rest.filter fun e => e.revents.any).map PollFd.ready)).flatten := by
  induction rest generalizing s with
  | nil => exact ⟨s, rfl, held, by simp [dispatch]⟩
  | cons e rest ih =>
      by_cases more : (e :: rest).any (fun e => e.revents.any) = true
      · obtain ⟨answeredHere, answeredRest⟩ := answered more
        obtain ⟨s₁, made, held₁, result⟩ := iteration_spec distinct held
          (own e List.mem_cons_self) (watched e List.mem_cons_self)
          (legal e List.mem_cons_self) answeredHere
        have positive : 0 < (e :: rest).countP fun e => e.revents.any :=
          List.countP_pos_iff.mpr (by simpa using more)
        have left : ((e :: rest).countP fun e => e.revents.any) -
            (if e.revents.any then 1 else 0) = rest.countP fun e => e.revents.any := by
          rw [List.countP_cons]
          omega
        rw [Progress.scan, if_pos positive, made, Option.bind_some, left]
        split at result
        · rename_i escaping
          have loud : e.revents.any = true := by
            by_contra quiet
            rw [(silent h (holder known) (by simpa using quiet)
              (own e List.mem_cons_self)).2] at escaping
            cases escaping
          rw [List.filter_cons_of_pos (p := fun e : PollFd => e.revents.any) loud,
            List.map_cons, dispatch, if_pos escaping, if_pos result.1]
          exact ⟨s₁, rfl, held₁, by simpa using result.2⟩
        · rename_i staying
          obtain ⟨escaped, log, others⟩ := result
          obtain ⟨apart, freshRest⟩ := List.nodup_cons.mp fresh
          obtain ⟨s', scanned, held', log'⟩ := ih held₁ (escaped.trans inside) freshRest
            (fun e' later => own e' (List.mem_cons_of_mem e later))
            (by
              intro e' later
              obtain ⟨d, member, atFd⟩ := watched e' (List.mem_cons_of_mem e later)
              refine ⟨d, others d member ?_, atFd⟩
              intro same
              exact apart (List.mem_map.mpr ⟨e', later, atFd.symm.trans same⟩))
            (fun e' later => legal e' (List.mem_cons_of_mem e later))
            (answeredRest (by simpa using staying))
          rw [if_neg (by rw [escaped, inside]; simp)]
          refine ⟨s', scanned, held', ?_⟩
          rw [log', log, List.append_assoc]
          by_cases bit : e.revents.any = true
          · rw [List.filter_cons_of_pos (p := fun e : PollFd => e.revents.any) bit,
              List.map_cons, dispatch, if_neg staying, List.flatten_cons]
          · rw [List.filter_cons_of_neg (p := fun e : PollFd => e.revents.any) bit,
              (silent h (holder known) (by simpa using bit) (own e List.mem_cons_self)).1,
              List.nil_append]
      · have none : ∀ e' ∈ e :: rest, ¬ e'.revents.any = true := by simpa using more
        have zero : ((e :: rest).countP fun e => e.revents.any) = 0 := List.countP_eq_zero.mpr none
        rw [Progress.scan, zero, if_neg (Nat.lt_irrefl 0), List.filter_eq_nil_iff.mpr none]
        exact ⟨s, rfl, held, by simp [dispatch]⟩

end Scan

section Steps

variable [DecidableEq D] {controlPipe : ℕ} {h : Handlers D} {known : List D} {s s' : State D}
  {a : Call D} {o : Answer D} {control : Bool}

omit [DecidableEq D] [EventDescriptor D] in
/-- The control pipe in front of the entries. -/
theorem dispatch_readiness (stored : ℕ → Option D) (events : List PollFd) :
    (dispatch controlPipe h stored (readiness controlPipe control events)).flatten =
      (if control then [.checkTerminate] else []) ++
        (dispatch controlPipe h stored
          ((events.filter fun e => e.revents.any).map PollFd.ready)).flatten := by
  cases control with
  | false => simp [readiness]
  | true => simp [readiness, dispatch, escapes, fails, callsOf]

theorem sameAsEpoll_dispatch (batch : List Ready) : SameAsEpoll controlPipe h known batch
    (dispatch controlPipe h (holder known) batch).flatten := by
  intro records same reported nonempty scannable
  obtain ⟨t, handled, log⟩ := handleEvents_dispatches reported nonempty scannable
  exact ⟨t, handled, by rw [log, same]⟩

/-- Outside of an iteration only the list counts. -/
theorem Aligned.idle (held : Aligned controlPipe known s) (log : List (Called D))
    {list : List (Option D)} {restartFlag : Bool} (inPlace : InPlace (remaining known log) list) :
    Aligned controlPipe (remaining known log)
      { s with descriptorsList := list, restartFlag, phase := .idle } where
  inPlace := inPlace
  apart d member := held.apart d ((remaining_sublist known log).subset member)
  watched active := absurd rfl active
  fresh := held.fresh
  requested _ polled := by cases polled

variable (distinct : Function.Injective (getDescriptor : D → ℕ))

include distinct

/-- `handle_events` behind a poll. -/
theorem handleEvents_spec (held : Aligned controlPipe known s) (polled : s.phase = .polled control)
    (fit : fits controlPipe known s (.handleEvents h)) :
    ∃ o s', handleEvents h control s = some (o, s') ∧
      Right controlPipe known s o (.handleEvents h) ∧ Aligned controlPipe (o.after known) s' := by
  rw [handleEvents]
  split
  · rename_i none
    refine ⟨_, _, rfl, ⟨control, _, _, polled, rfl, ?_⟩, held.idle [] held.inPlace⟩
    split
    · rfl
    · rw [readyCount, Nat.add_eq_zero_iff] at none
      obtain ⟨noControl, noEntry⟩ := none
      have off : control = false := by
        cases control with
        | false => rfl
        | true => cases noControl
      have empty : readiness controlPipe control s.events = [] := by
        simpa [readiness, off, List.countP_eq_zero] using noEntry
      simp only [empty]
      exact ⟨by simp [dispatch], fun _ _ _ nonempty => absurd rfl nonempty⟩
  · split
    · rename_i up
      refine ⟨_, _, rfl, ⟨control, _, _, polled, rfl, ?_⟩, held.idle [] held.inPlace⟩
      rw [if_pos up]
    · rename_i up
      have down : s.restartFlag = false := by simpa using up
      have last : (if control then readyCount control s.events - 1
          else readyCount control s.events) = s.events.countP fun e => e.revents.any := by
        cases control <;> simp [readyCount]
      have unchanged : remaining known
          (if control then [.checkTerminate] else ([] : List (Called D))) = known := by
        cases control <;> rfl
      have own : ∀ e ∈ s.events, e.fd ≠ controlPipe := by
        intro e member
        obtain ⟨d, registered, same⟩ := held.watched (by simp [polled]) down e member
        exact same ▸ held.apart d registered
      obtain ⟨p, scanned, inPlace, log⟩ := scan_spec known distinct (h := h)
        (s := { descriptorsList := s.descriptorsList
                log := if control then [.checkTerminate] else [] })
        (unchanged.symm ▸ held.inPlace) rfl held.fresh own
        (unchanged.symm ▸ held.watched (by simp [polled]) down) (held.requested control polled)
        (fit.resolve_left up)
      rw [← dispatch_readiness] at log
      simp only [last, scanned, Option.map_some]
      refine ⟨_, _, rfl, ⟨control, _, _, polled, rfl, ?_⟩, held.idle p.log inPlace⟩
      rw [if_neg up]
      exact ⟨log, log ▸ sameAsEpoll_dispatch _⟩

/-- A descriptor that is added is not polled before the next `prepare`. -/
theorem Aligned.add {d : D} (held : Aligned controlPipe known s)
    (own : getDescriptor d ≠ controlPipe)
    (below : ∀ e ∈ known, getDescriptor e ≤ getDescriptor d) :
    Aligned controlPipe (known.insert d)
      { s with descriptorsList := addDescriptor s.descriptorsList d } where
  inPlace := held.inPlace.add distinct below
  apart e member := by
    obtain rfl | member := List.mem_insert_iff.mp member
    · exact own
    · exact held.apart e member
  watched active down e member := by
    obtain ⟨d', registered, same⟩ := held.watched active down e member
    exact ⟨d', List.mem_insert_of_mem registered, same⟩
  fresh := held.fresh
  requested := held.requested

omit [DecidableEq D] distinct in
/-- A removal tells the loop to restart, so what it polls does not matter. -/
theorem Aligned.remove (held : Aligned controlPipe known s) {known' : List D}
    {list : List (Option D)} (inPlace : InPlace known' list) (fewer : known' ⊆ known) :
    Aligned controlPipe known' { s with descriptorsList := list, restartFlag := true } where
  inPlace := inPlace
  apart d member := held.apart d (fewer member)
  watched _ down := by cases down
  fresh := held.fresh
  requested := held.requested

omit [DecidableEq D] in
/-- After `prepare` all entries are about registered descriptors. -/
theorem Aligned.prepare {want2write : D → Bool} (held : Aligned controlPipe known s)
    (dense : ∀ d ∈ known, getDescriptor d < known.length) :
    Aligned controlPipe known { s with
      descriptorsList := (Compaction.pack s.descriptorsList).map some
      events := (Compaction.pack s.descriptorsList).map (entry want2write)
      phase := .prepared } := by
  obtain ⟨perm, inPlace, fresh⟩ := held.inPlace.pack distinct dense
  refine ⟨inPlace, held.apart, ?_, ?_, fun _ polled => by cases polled⟩
  · intro _ _ e member
    obtain ⟨d, packed, rfl⟩ := List.mem_map.mp member
    exact ⟨d, perm.mem_iff.mp packed, rfl⟩
  · rw [List.map_map]
    exact fresh

omit [DecidableEq D] distinct in
/-- A poll changes the reports only. -/
theorem Aligned.doPoll {events : List PollFd} (held : Aligned controlPipe known s)
    (active : s.phase ≠ .idle) (reports : Reports s.events events) :
    Aligned controlPipe known { s with events, phase := .polled control } := by
  have numbers : events.map (·.fd) = s.events.map (·.fd) := by
    have requests := congrArg (List.map Prod.fst) reports.1
    rw [List.map_map, List.map_map] at requests
    exact requests
  refine ⟨held.inPlace, held.apart, ?_, numbers ▸ held.fresh, fun _ _ => reports.2⟩
  intro _ down e member
  have listed : e.fd ∈ events.map (·.fd) := List.mem_map_of_mem member
  rw [numbers] at listed
  obtain ⟨e', member', same⟩ := List.mem_map.mp listed
  obtain ⟨d, registered, atFd⟩ := held.watched active down e' member'
  exact ⟨d, registered, atFd.trans same⟩

/-- A call that fits has a step, its answer is right, and the list stays aligned. -/
theorem step_spec (held : Aligned controlPipe known s) (enabled : Enabled controlPipe s a)
    (fit : fits controlPipe known s a) :
    ∃ o s', (loop controlPipe D).step s a = some (o, s') ∧ Right controlPipe known s o a ∧
      Aligned controlPipe (o.after known) s' := by
  cases a with
  | add d =>
      exact ⟨.updated (.added d), _, if_neg enabled, rfl, held.add distinct enabled fit⟩
  | remove d =>
      obtain ⟨o, list, removed, inPlace, outcome⟩ := held.inPlace.removeDescriptor distinct fit
      have stepped : (loop controlPipe D).step s (.remove d) =
          some (.updated o, { s with descriptorsList := list, restartFlag := true }) := by
        simp [loop, removed]
      refine ⟨.updated o, _, stepped, ?_, held.remove inPlace ?_⟩
      · rw [Right]
        split at outcome
        · rename_i member
          obtain ⟨destroyed, rfl⟩ := outcome
          rw [if_pos member]
          exact ⟨destroyed, rfl⟩
        · rename_i other
          rw [if_neg other, outcome]
      · split at outcome
        · obtain ⟨destroyed, rfl⟩ := outcome
          exact List.erase_subset
        · rw [outcome]
          exact List.Subset.refl known
  | prepare want2write =>
      have stepped : (loop controlPipe D).step s (.prepare want2write) =
          some (.prepared ((Compaction.pack s.descriptorsList).map (entry want2write)),
            { s with
              descriptorsList := (Compaction.pack s.descriptorsList).map some
              events := (Compaction.pack s.descriptorsList).map (entry want2write)
              phase := .prepared }) := by
        simp only [loop, prepareFrom_zero]
      refine ⟨_, _, stepped, ⟨_, rfl, ?_⟩, held.prepare distinct fit⟩
      rw [List.map_map]
      exact (held.inPlace.pack distinct fit).1.map _
  | doPoll control events =>
      obtain ⟨active, reports⟩ := enabled
      have stepped : (loop controlPipe D).step s (.doPoll control events) =
          some (.polled (readyCount control events),
            { s with events, phase := .polled control }) := by
        cases now : s.phase with
        | idle => exact absurd now active
        | prepared | polled => simp [loop, now, reports]
      exact ⟨_, _, stepped, rfl, held.doPoll active reports⟩
  | handleEvents h =>
      obtain ⟨control, polled⟩ := enabled
      simp only [loop, polled]
      exact handleEvents_spec distinct held polled fit

omit [DecidableEq D] distinct in
/-- Only what is enabled has a step. -/
theorem enabled_of_step (step : (loop controlPipe D).step s a = some (o, s')) :
    Enabled controlPipe s a := by
  cases a with
  | add d =>
      simp only [loop] at step
      split at step
      · cases step
      · assumption
  | remove d => trivial
  | prepare want2write => trivial
  | doPoll control events =>
      simp only [loop] at step
      split at step
      · rename_i now
        split at step
        · rename_i reports
          exact ⟨by simp [now], reports⟩
        · cases step
      · rename_i now
        split at step
        · rename_i reports
          exact ⟨by simp [now], reports⟩
        · cases step
      · cases step
  | handleEvents h =>
      simp only [loop] at step
      split at step
      · rename_i control now
        exact ⟨control, now⟩
      · cases step
      · cases step

end Steps

section Runs

variable [DecidableEq D] {controlPipe : ℕ} {s : State D} {history : List (Call D × Answer D)}

omit [EventDescriptor D] in
theorem registered_snoc (history : List (Call D × Answer D)) (a : Call D) (o : Answer D) :
    registered (history ++ [(a, o)]) = o.after (registered history) := by
  rw [registered, List.foldl_append]
  rfl

/-- The calls of a run so far meet their conditions. -/
def Fitting (controlPipe : ℕ) (history : List (Call D × Answer D)) : Prop :=
  (loop controlPipe D).BeforeEach {}
    (fun earlier s a => fits controlPipe (registered earlier) s a) history

theorem run_aligned (distinct : Function.Injective (getDescriptor : D → ℕ))
    (run : (loop controlPipe D).Run {} history s) (fit : Fitting controlPipe history) :
    Aligned controlPipe (registered history) s := by
  induction run with
  | nil =>
      refine ⟨⟨List.nodup_nil, by simp [registered]⟩, by simp [registered],
        fun active => absurd rfl active, List.nodup_nil, fun _ polled => by cases polled⟩
  | snoc earlier step ih =>
      obtain ⟨before, here⟩ := (Machine.beforeEach_snoc earlier).mp fit
      obtain ⟨o, s', made, -, held⟩ :=
        step_spec distinct (ih before) (enabled_of_step step) here
      obtain ⟨rfl, rfl⟩ := Prod.mk.inj (Option.some.inj (made.symm.trans step))
      rw [registered_snoc]
      exact held

private def willing : Handlers Socket where
  readThrows _ := false
  writeThrows _ := false
  disconnectThrows _ := false
  terminated := false

/-- One descriptor is added and polled, and input is reported for it. -/
private def asked (fd : ℕ) : List (Call Socket × Answer Socket) :=
  [(.add ⟨fd⟩, .updated (.added ⟨fd⟩))] ++
    [(.prepare fun _ => false, .prepared [{ fd, output := false }])] ++
    [(.doPoll false [{ fd, output := false, revents := { input := true } }], .polled 1)]

private def readable (fd : ℕ) : State Socket where
  descriptorsList := [some ⟨fd⟩]
  events := [{ fd, output := false, revents := { input := true } }]
  phase := .polled false

private theorem run_asked (fd : ℕ) (own : fd ≠ 3)
    (only : (addDescriptor [] (⟨fd⟩ : Socket)).filterMap id = [⟨fd⟩]) :
    (loop 3 Socket).Run {} (asked fd) (readable fd) ∧
      (fd = 0 → Fitting 3 (asked fd)) := by
  have packed : Compaction.pack (addDescriptor [] (⟨fd⟩ : Socket)) = [⟨fd⟩] :=
    List.perm_singleton.mp (only ▸ Compaction.pack_perm _)
  have added : (loop 3 Socket).Run {} [(.add ⟨fd⟩, .updated (.added ⟨fd⟩))]
      { descriptorsList := addDescriptor [] ⟨fd⟩ } := .single (if_neg own)
  have prepared := added.snoc (a := .prepare fun _ => false)
    (o := .prepared [{ fd, output := false }])
    (u := { descriptorsList := [some ⟨fd⟩]
            events := [{ fd, output := false }]
            phase := .prepared })
    (by simp [loop, prepareFrom_zero, packed, entry, getDescriptor])
  have polled := prepared.snoc
    (a := .doPoll false [{ fd, output := false, revents := { input := true } }]) (o := .polled 1)
    (u := readable fd) (by simp [loop, Reports, PollFd.request, readable, readyCount, Revents.any])
  refine ⟨polled, ?_⟩
  rintro rfl
  have first : Fitting 3 ([] ++ [(.add ⟨0⟩, .updated (.added (⟨0⟩ : Socket)))]) :=
    (Machine.beforeEach_snoc .nil).mpr ⟨fun _ _ _ _ before => by simp at before, by
      simp [fits, registered]⟩
  have second : Fitting 3 ([(.add ⟨0⟩, .updated (.added (⟨0⟩ : Socket)))] ++
      [(.prepare fun _ => false, .prepared [{ fd := 0, output := false }])]) :=
    (Machine.beforeEach_snoc added).mpr ⟨first, by
      simp [fits, registered, Answer.after, getDescriptor]⟩
  exact (Machine.beforeEach_snoc prepared).mpr ⟨second, trivial⟩

end Runs

end Crs.EventLoop.Poll
