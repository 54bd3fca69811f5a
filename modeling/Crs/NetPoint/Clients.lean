import Crs.Foundation.Compaction
import Crs.Foundation.Machine

/-!
# The clients of a server

`serverSendRecv` builds the array for `poll` from the list of clients, and serves entry `i`
of the array with the client in place `i - 2` of the list. A client that fails is replaced
by a null pointer; the next `buildSelectList` fills its place from the back. A new client
is put behind the others, before those are served.

The steps are the parts of `serverSendRecv`. The loop that serves the clients may run in
parallel if there are many, so its iterations may come in any order then; they touch
different clients. A null pointer that is followed or handed to `handleDisconnect` and an
index past the end are steps that do not exist. The destructors do not throw.
-/

namespace Crs.PosixNetPoint

open Foundation

/-- A `pollfd` with its requests: POLLIN always, POLLOUT where `output` holds. -/
structure PollFd where
  fd : ℕ := 0
  output : Bool := false
deriving DecidableEq

/-- The bits of `revents` that are looked at. -/
structure Revents where
  hup : Bool := false
  input : Bool := false
  output : Bool := false
deriving DecidableEq

/-- Where `serverSendRecv` is: outside, at `poll`, or in the loop over the clients, with the
indices that are left. -/
inductive Phase where
  | idle
  | built
  | dispatching (revents : List Revents) (left : List ℕ)

/-- `_clientList`, and the allocated array with the number of its entries in use. -/
structure Server (C : Type*) where
  clientList : List (Option C) := []
  fds : List PollFd := []
  nfdsUsed : ℕ := 0
  phase : Phase := .idle

/-- How `checkTerminate` ends. -/
inductive Check where
  | goesOn
  | stops
  | throws

/-- How `accept` and `handleNewConnection` end. -/
inductive Accept (C : Type*) where
  | refused
  | accepted (newClient : Option C)
  | throws

/-- How `poll` ends; with the reports for all entries that are in use, and what comes next
for those about the pipe and the socket of the server. -/
inductive Polled (C : Type*) where
  | interrupted
  | failed
  | timedOut
  | ready (revents : List Revents) (check : Check) (accept : Accept C)

/-- `poll` reports about all entries that are in use. -/
def Polled.Fits {C : Type*} (nfdsUsed : ℕ) : Polled C → Prop
  | .ready revents _ _ => revents.length = nfdsUsed
  | .interrupted | .failed | .timedOut => True

instance {C : Type*} (nfdsUsed : ℕ) (polled : Polled C) : Decidable (polled.Fits nfdsUsed) :=
  match polled with
  | .ready _ _ _ => inferInstanceAs (Decidable (_ = _))
  | .interrupted | .failed | .timedOut => inferInstanceAs (Decidable True)

/-- What a client does when it is served, and what `handleDisconnect` answers. -/
structure Behaviour where
  transmitThrows : Bool := false
  receiveThrows : Bool := false
  handleDisconnect : Bool := true

inductive Action (C : Type*) where
  | buildSelectList (want2transmit : C → Bool)
  | poll (polled : Polled C)
  | dispatch (i : ℕ) (behaviour : Behaviour)
  | finish

/-- The calls for an entry. -/
inductive Called (C : Type*) where
  | transmit (c : C)
  | receive (c : C)
  | handleDisconnect (c : C)
deriving DecidableEq

inductive Seen (C : Type*) where
  | built
  | polled (newClient : Option C)
  | dispatched (calls : List (Called C)) (deleted : Option C)
  | returned (result : Bool)
  | thrown

variable {C : Type*}

def enumerateDescriptors (clientList : List (Option C)) : ℕ := clientList.length + 2

/-- The inner loop of `buildSelectList`. -/
def fill (clientList : List (Option C)) (i : ℕ) : List (Option C) :=
  if within : i < clientList.length then
    match clientList[i] with
    | none =>
        let back := clientList.getLast (List.ne_nil_of_length_pos (Nat.zero_lt_of_lt within))
        fill (clientList.set i back).dropLast i
    | some _ => clientList
  else clientList
termination_by clientList.length
decreasing_by
  simp only [List.length_dropLast, List.length_set]
  omega

theorem length_fill_le (clientList : List (Option C)) (i : ℕ) :
    (fill clientList i).length ≤ clientList.length := by
  induction clientList using fill.induct (i := i) with
  | case1 list within empty back ih =>
      rw [fill, dif_pos within]
      simp only [empty]
      refine ih.trans ?_
      simp
  | case2 list within c found =>
      rw [fill, dif_pos within]
      simp only [found, le_refl]
  | case3 list past =>
      rw [fill, dif_neg past]

variable (getSocket : C → ℕ)

def entry (want2transmit : C → Bool) (c : C) : PollFd :=
  { fd := getSocket c, output := want2transmit c }

/-- The outer loop of `buildSelectList` from place `i`. -/
def fillClients (want2transmit : C → Bool) (clientList : List (Option C)) (fds : List PollFd)
    (nfdsUsed i : ℕ) : Option (List (Option C) × List PollFd × ℕ) :=
  if i < clientList.length then
    match (fill clientList i)[i]? with
    | some (some c) =>
        if nfdsUsed < fds.length then
          fillClients want2transmit (fill clientList i)
            (fds.set nfdsUsed (entry getSocket want2transmit c)) (nfdsUsed + 1) (i + 1)
        else none
    | some none => none
    | none => fillClients want2transmit (fill clientList i) fds nfdsUsed (i + 1)
  else some (clientList, fds, nfdsUsed)
termination_by clientList.length - i
decreasing_by
  · have := length_fill_le clientList i
    omega
  · have := length_fill_le clientList i
    omega

/-- The entries of the pipe and of the socket of the server come first. -/
def buildSelectList (pipe socket : ℕ) (want2transmit : C → Bool) (s : Server C) :
    Option (Server C) :=
  let nfds := enumerateDescriptors s.clientList
  let fds := if s.fds.length < nfds then List.replicate nfds {} else s.fds
  if 1 < fds.length then
    (fillClients getSocket want2transmit s.clientList
      ((fds.set 0 { fd := pipe }).set 1 { fd := socket }) 2 0).map
      fun (clientList, fds, nfdsUsed) => { clientList, fds, nfdsUsed, phase := .built }
  else none

/-- POLLIN is reported for an entry. -/
def hasInput (revents : List Revents) (i : ℕ) : Bool := revents[i]?.any (·.input)

/-- What follows `poll` in front of the loop. -/
def afterPoll (s : Server C) : Polled C → Seen C × Server C
  | .interrupted | .timedOut => (.returned true, { s with phase := .idle })
  | .failed => (.thrown, { s with phase := .idle })
  | .ready revents check accept =>
      match if hasInput revents 0 then check else .goesOn with
      | .stops => (.returned false, { s with phase := .idle })
      | .throws => (.thrown, { s with phase := .idle })
      | .goesOn =>
          let phase := .dispatching revents (List.range' 2 (s.nfdsUsed - 2))
          match if hasInput revents 1 then accept else .refused with
          | .throws => (.thrown, { s with phase := .idle })
          | .refused => (.polled none, { s with phase })
          | .accepted newClient =>
              (.polled newClient, { s with clientList := s.clientList ++ [newClient], phase })

/-- The `try` block for an entry: the calls, and whether it throws. -/
def attempt (b : Behaviour) (c : C) (r : Revents) : List (Called C) × Bool :=
  if r.hup then ([], true)
  else if r.output && b.transmitThrows then ([.transmit c], true)
  else if r.input then
    ((if r.output then [.transmit c] else []) ++ [.receive c], b.receiveThrows)
  else (if r.output then [.transmit c] else [], false)

/-- An iteration of the loop, on the place that belongs to the entry. -/
def dispatch (b : Behaviour) (clientList : List (Option C)) (i : ℕ) (r : Revents) :
    Option (Seen C × List (Option C)) :=
  if !(r.hup || r.input || r.output) then some (.dispatched [] none, clientList)
  else match clientList[i - 2]? with
    | some (some c) =>
        if (attempt b c r).2 then
          if b.handleDisconnect then
            some (.dispatched ((attempt b c r).1 ++ [.handleDisconnect c]) (some c),
              clientList.set (i - 2) none)
          else some (.dispatched ((attempt b c r).1 ++ [.handleDisconnect c]) none, clientList)
        else some (.dispatched (attempt b c r).1 none, clientList)
    | some none | none => none

/-- The loop runs in parallel if there are more entries. -/
def sequentialBound : ℕ := 100

def server (pipe socket : ℕ) : Machine (Server C) (Action C) (Seen C) where
  step s
    | .buildSelectList want2transmit =>
        match s.phase with
        | .idle => (buildSelectList getSocket pipe socket want2transmit s).map fun s => (.built, s)
        | .built | .dispatching _ _ => none
    | .poll polled =>
        match s.phase with
        | .built => if polled.Fits s.nfdsUsed then some (afterPoll s polled) else none
        | .idle | .dispatching _ _ => none
    | .dispatch i b =>
        match s.phase with
        | .dispatching revents left =>
            if i ∈ left ∧ (sequentialBound < s.nfdsUsed ∨ left.head? = some i) then
              match revents[i]? with
              | some r => (dispatch b s.clientList i r).map fun d =>
                  (d.1, { s with clientList := d.2, phase := .dispatching revents (left.erase i) })
              | none => none
            else none
        | .idle | .built => none
    | .finish =>
        match s.phase with
        | .dispatching _ [] => some (.returned true, { s with phase := .idle })
        | .dispatching _ (_ :: _) | .idle | .built => none

/-- The steps that the server, the clients and the kernel can make. -/
def Enabled (s : Server C) : Action C → Prop
  | .buildSelectList _ => s.phase = .idle
  | .poll polled => s.phase = .built ∧ polled.Fits s.nfdsUsed
  | .dispatch i _ => ∃ revents left, s.phase = .dispatching revents left ∧ i ∈ left ∧
      (sequentialBound < s.nfdsUsed ∨ left.head? = some i)
  | .finish => ∃ revents, s.phase = .dispatching revents []

/-- The entries that have not been served. -/
def Server.pending (s : Server C) : List ℕ :=
  match s.phase with
  | .idle => []
  | .built => List.range' 2 (s.nfdsUsed - 2)
  | .dispatching _ left => left

section Specification

variable [DecidableEq C]

/-- How a step changes the connected clients. -/
def Seen.after (known : List C) : Seen C → List C
  | .polled (some newClient) => newClient :: known
  | .dispatched _ (some c) => known.erase c
  | .polled none | .dispatched _ none | .built | .returned _ | .thrown => known

/-- The clients that are connected when a run ends. -/
def connected (history : List (Action C × Seen C)) : List C :=
  history.foldl (fun known event => event.2.after known) []

end Specification

/-- Entry `i` is about the client in place `i - 2`. -/
def Agrees (s : Server C) (i : ℕ) : Prop :=
  ∃ c output, s.clientList[i - 2]? = some (some c) ∧
    s.fds[i]? = some { fd := getSocket c, output }

/-- The list holds the connected clients, each once, the entries in use are inside of the
array, and those that have not been served belong to the clients in their places. -/
structure Consistent (known : List C) (s : Server C) : Prop where
  kept : (s.clientList.filterMap id).Perm known
  room : s.nfdsUsed ≤ s.fds.length
  agrees : ∀ i ∈ s.pending, Agrees getSocket s i
  fresh : s.pending.Nodup
  reported : ∀ revents left, s.phase = .dispatching revents left →
    revents.length = s.nfdsUsed ∧ ∀ i ∈ left, 2 ≤ i ∧ i < s.nfdsUsed

/-- What a step does: `buildSelectList` packs the list and makes one entry for each client,
the entries for all clients are left when the loop begins, and an iteration serves its
client, which goes if it fails and `handleDisconnect` agrees; all other places stay. -/
def Right (s : Server C) (o : Seen C) (s' : Server C) : Action C → Prop
  | .buildSelectList want2transmit => o = .built ∧
      ∃ clients : List C, clients.Perm (s.clientList.filterMap id) ∧
        s'.clientList = clients.map some ∧ s'.nfdsUsed = clients.length + 2 ∧
        ∀ k c, clients[k]? = some c → s'.fds[k + 2]? = some (entry getSocket want2transmit c)
  | .poll _ => s'.fds = s.fds ∧ s'.nfdsUsed = s.nfdsUsed ∧
      ((∃ newClient, o = .polled newClient ∧ s.clientList <+: s'.clientList ∧
          s'.pending = List.range' 2 (s.nfdsUsed - 2)) ∨
        s'.phase = .idle ∧ s'.clientList = s.clientList)
  | .dispatch i b => ∃ c output revents left r,
      s.clientList[i - 2]? = some (some c) ∧
      s.fds[i]? = some { fd := getSocket c, output } ∧
      s.phase = .dispatching revents left ∧ revents[i]? = some r ∧
      s'.fds = s.fds ∧ s'.nfdsUsed = s.nfdsUsed ∧
      if (attempt b c r).2 then
        o = .dispatched ((attempt b c r).1 ++ [.handleDisconnect c])
            (if b.handleDisconnect then some c else none) ∧
          s'.clientList =
            if b.handleDisconnect then s.clientList.set (i - 2) none else s.clientList
      else o = .dispatched (attempt b c r).1 none ∧ s'.clientList = s.clientList
  | .finish => s'.clientList = s.clientList

section Build

variable (want2transmit : C → Bool)

/-- The inner loop fills one place from the back. -/
theorem fill_moved (front : List C) (middle : List (Option C)) (back : Option C) :
    fill (front.map some ++ none :: (middle ++ [back])) front.length =
      fill (front.map some ++ back :: middle) front.length := by
  have moved := Compaction.dropLast_set (front.map some) middle none back
  have last : (front.map some ++ none :: (middle ++ [back])).getLast (by simp) = back := by simp
  rw [List.length_map] at moved
  rw [fill, dif_pos (by simp)]
  simp only [List.length_map, le_refl, List.getElem_append_right, Nat.sub_self,
    List.getElem_cons_zero, last, moved]

theorem fill_some (front : List C) (c : C) (rest : List (Option C)) :
    fill (front.map some ++ some c :: rest) front.length = front.map some ++ some c :: rest := by
  rw [fill, dif_pos (by simp)]
  simp

theorem fill_last (front : List C) :
    fill (front.map some ++ [none]) front.length = front.map some := by
  rw [fill, dif_pos (by simp)]
  simp only [List.length_map, le_refl, List.getElem_append_right, Nat.sub_self,
    List.getElem_cons_zero, List.set_append_right, List.set_cons_zero, List.dropLast_concat]
  rw [fill, dif_neg (by simp)]

/-- The outer loop packs the rest of the list, and writes the entries of its clients behind
those that are there. -/
theorem fillClients_eq (front : List C) (rest : List (Option C)) (done junk : List PollFd)
    (room : rest.length ≤ junk.length) :
    fillClients getSocket want2transmit (front.map some ++ rest) (done ++ junk) done.length
        front.length =
      some ((front ++ Compaction.pack rest).map some,
        done ++ (Compaction.pack rest).map (entry getSocket want2transmit) ++
          junk.drop (Compaction.pack rest).length,
        done.length + (Compaction.pack rest).length) := by
  induction rest using Compaction.pack_induction generalizing front done junk with
  | nil =>
      rw [fillClients, if_neg (by simp)]
      simp
  | filled x rest ih =>
      cases junk with
      | nil => simp at room
      | cons old junk =>
          have next := ih (front ++ [x]) (done ++ [entry getSocket want2transmit x]) junk
            (by simpa using room)
          simp only [List.length_append, List.length_singleton] at next
          rw [fillClients, if_pos (by simp), fill_some]
          simp only [List.length_map, le_refl, List.getElem?_append_right, Nat.sub_self,
            List.getElem?_cons_zero, List.length_append, List.length_cons]
          rw [if_pos (by omega), List.set_append_right _ _ (le_refl _), Nat.sub_self,
            List.set_cons_zero]
          simpa [Nat.add_assoc, Nat.add_comm 1] using next
  | last =>
      rw [fillClients, if_pos (by simp), fill_last]
      simp only [List.getElem?_map, List.getElem?_eq_none (le_refl front.length), Option.map_none]
      rw [fillClients, if_neg (by simp)]
      simp
  | moved middle back ih =>
      have shorter := ih front done junk (by
        simp only [List.length_cons, List.length_append] at room ⊢
        omega)
      rw [fillClients, if_pos (by simp)] at shorter
      rw [Compaction.pack_none_snoc, ← shorter, fillClients, if_pos (by simp), fill_moved]

/-- `buildSelectList` has room for all entries, and packs the list. -/
theorem buildSelectList_spec (pipe socket : ℕ) (s : Server C) :
    ∃ fds, buildSelectList getSocket pipe socket want2transmit s = some
        { clientList := (Compaction.pack s.clientList).map some, fds
          nfdsUsed := (Compaction.pack s.clientList).length + 2, phase := .built } ∧
      (Compaction.pack s.clientList).length + 2 ≤ fds.length ∧
      ∀ k c, (Compaction.pack s.clientList)[k]? = some c →
        fds[k + 2]? = some (entry getSocket want2transmit c) := by
  have large : enumerateDescriptors s.clientList ≤
      (if s.fds.length < enumerateDescriptors s.clientList then
        List.replicate (enumerateDescriptors s.clientList) {} else s.fds).length := by
    split
    · simp
    · omega
  rw [buildSelectList]
  generalize (if s.fds.length < enumerateDescriptors s.clientList then
    List.replicate (enumerateDescriptors s.clientList) {} else s.fds) = fds at large
  rw [enumerateDescriptors] at large
  obtain ⟨first, second, junk, rfl⟩ : ∃ first second junk, fds = first :: second :: junk := by
    match fds with
    | first :: second :: junk => exact ⟨first, second, junk, rfl⟩
    | [] | [_] => simp at large
  have filled := fillClients_eq getSocket want2transmit [] s.clientList
    [{ fd := pipe }, { fd := socket }] junk (by simpa using large)
  simp only [List.map_nil, List.nil_append, List.length_cons, List.length_nil] at filled
  refine ⟨[{ fd := pipe }, { fd := socket }] ++
    (Compaction.pack s.clientList).map (entry getSocket want2transmit) ++
      junk.drop (Compaction.pack s.clientList).length, ?_, ?_, ?_⟩
  · simp only [List.length_cons, List.set_cons_zero, List.set_cons_succ]
    rw [if_pos (by omega)]
    simpa [Nat.add_comm] using filled
  · simp only [List.length_append, List.length_cons, List.length_map]
    omega
  · intro k c found
    obtain ⟨within, rfl⟩ := List.getElem?_eq_some_iff.mp found
    simp [List.getElem?_append, within]

end Build

section Steps

variable {getSocket} {pipe socket i : ℕ} {known : List C} {s s' : Server C} {a : Action C}
  {o : Seen C} {b : Behaviour} {c : C} {r : Revents}

/-- An iteration on the place of a client. -/
theorem dispatch_spec {clientList : List (Option C)}
    (found : clientList[i - 2]? = some (some c)) :
    dispatch b clientList i r = some
      (if (attempt b c r).2 then
        (.dispatched ((attempt b c r).1 ++ [.handleDisconnect c])
            (if b.handleDisconnect then some c else none),
          if b.handleDisconnect then clientList.set (i - 2) none else clientList)
      else (.dispatched (attempt b c r).1 none, clientList)) := by
  rw [dispatch]
  split
  · rename_i quiet
    have none : attempt b c r = ([], false) := by
      simp only [Bool.not_eq_true', Bool.or_eq_false_iff] at quiet
      simp [attempt, quiet]
    rw [none]
    rfl
  · rw [found]
    cases failed : (attempt b c r).2 with
    | false => simp [failed]
    | true => cases agreed : b.handleDisconnect <;> simp [failed]

variable [DecidableEq C]

omit [DecidableEq C] in
/-- Outside of `serverSendRecv` no entry is left. -/
theorem Consistent.idle (held : Consistent getSocket known s) :
    Consistent getSocket known { s with phase := .idle } where
  kept := held.kept
  room := held.room
  agrees _ member := by cases member
  fresh := List.nodup_nil
  reported _ _ same := by cases same

/-- `poll` and what follows it. -/
theorem afterPoll_spec (held : Consistent getSocket known s) (built : s.phase = .built)
    {polled : Polled C} (fits : polled.Fits s.nfdsUsed) :
    Right getSocket s (afterPoll s polled).1 (afterPoll s polled).2 (.poll polled) ∧
      Consistent getSocket ((afterPoll s polled).1.after known) (afterPoll s polled).2 := by
  have ended : ∀ o : Seen C, o.after known = known →
      Right getSocket s o { s with phase := .idle } (.poll polled) ∧
        Consistent getSocket (o.after known) { s with phase := .idle } := by
    intro o same
    rw [same]
    exact ⟨⟨rfl, rfl, .inr ⟨rfl, rfl⟩⟩, held.idle⟩
  cases polled with
  | interrupted | timedOut => exact ended (.returned true) rfl
  | failed => exact ended .thrown rfl
  | ready revents check accept =>
      have length : revents.length = s.nfdsUsed := fits
      have pending : s.pending = List.range' 2 (s.nfdsUsed - 2) := by rw [Server.pending, built]
      have range : ∀ i ∈ List.range' 2 (s.nfdsUsed - 2), 2 ≤ i ∧ i < s.nfdsUsed := by
        intro i member
        rw [List.mem_range'_1] at member
        omega
      have loop : ∀ added : List (Option C), Consistent getSocket
          (added.filterMap id ++ known) { s with
            clientList := s.clientList ++ added
            phase := .dispatching revents (List.range' 2 (s.nfdsUsed - 2)) } := by
        intro added
        refine ⟨?_, held.room, ?_, List.nodup_range', ?_⟩
        · rw [List.filterMap_append]
          exact (held.kept.append_right _).trans List.perm_append_comm
        · intro i member
          obtain ⟨c, output, place, filed⟩ := held.agrees i (pending ▸ member)
          exact ⟨c, output, List.getElem?_append_left
            (List.getElem?_eq_some_iff.mp place).1 ▸ place, filed⟩
        · rintro revents' left ⟨⟩
          exact ⟨length, range⟩
      simp only [afterPoll]
      split
      · exact ended (.returned false) rfl
      · exact ended .thrown rfl
      · split
        · exact ended .thrown rfl
        · refine ⟨⟨rfl, rfl, .inl ⟨none, rfl, List.prefix_rfl, rfl⟩⟩, ?_⟩
          have unchanged := loop []
          rw [List.append_nil] at unchanged
          exact unchanged
        · rename_i newClient _
          refine ⟨⟨rfl, rfl, .inl ⟨newClient, rfl, List.prefix_append _ _, rfl⟩⟩, ?_⟩
          have added := loop [newClient]
          cases newClient with
          | none => exact added
          | some c => exact added

omit [DecidableEq C] in
/-- A packed list beside the array that was made from it. -/
theorem Consistent.pack (held : Consistent getSocket known s) {fds : List PollFd}
    {want2transmit : C → Bool} (room : (Compaction.pack s.clientList).length + 2 ≤ fds.length)
    (filed : ∀ k c, (Compaction.pack s.clientList)[k]? = some c →
      fds[k + 2]? = some (entry getSocket want2transmit c)) :
    Consistent getSocket known
      { clientList := (Compaction.pack s.clientList).map some, fds
        nfdsUsed := (Compaction.pack s.clientList).length + 2, phase := .built } := by
  refine ⟨?_, room, ?_, ?_, ?_⟩
  · have all : ((Compaction.pack s.clientList).map some).filterMap id =
        Compaction.pack s.clientList := by simp
    rw [all]
    exact (Compaction.pack_perm s.clientList).trans held.kept
  · intro i member
    obtain ⟨low, below⟩ := List.mem_range'_1.mp member
    simp only at below
    have within : i - 2 < (Compaction.pack s.clientList).length := by omega
    have found := List.getElem?_eq_getElem within
    have atI := filed (i - 2) _ found
    rw [Nat.sub_add_cancel low] at atI
    refine ⟨(Compaction.pack s.clientList)[i - 2], _, ?_, atI⟩
    rw [List.getElem?_map, found, Option.map_some]
  · exact List.nodup_range'
  · rintro revents left ⟨⟩

omit [DecidableEq C] in
/-- Entry `i` is done, and only the place of its client may have changed. -/
theorem Consistent.served (held : Consistent getSocket known s) {revents : List Revents}
    {left : List ℕ} (phase : s.phase = .dispatching revents left) (member : i ∈ left)
    {known' : List C} {clientList : List (Option C)}
    (kept : (clientList.filterMap id).Perm known')
    (same : ∀ j, j - 2 ≠ i - 2 → clientList[j - 2]? = s.clientList[j - 2]?) :
    Consistent getSocket known'
      { s with clientList, phase := .dispatching revents (left.erase i) } := by
  obtain ⟨length, range⟩ := held.reported revents left phase
  have pending : s.pending = left := by rw [Server.pending, phase]
  have fresh : left.Nodup := pending ▸ held.fresh
  have others : ∀ j ∈ left.erase i, j ∈ left ∧ j - 2 ≠ i - 2 := by
    intro j later
    obtain ⟨apart, inLeft⟩ := fresh.mem_erase_iff.mp later
    have here := range i member
    have there := range j inLeft
    exact ⟨inLeft, by omega⟩
  refine ⟨kept, held.room, fun j later => ?_, fresh.erase i, ?_⟩
  · obtain ⟨inLeft, apart⟩ := others j later
    obtain ⟨c, output, place, filed⟩ := held.agrees j (pending ▸ inLeft)
    exact ⟨c, output, (same j apart).trans place, filed⟩
  · rintro revents' left' ⟨⟩
    exact ⟨length, fun j later => range j (others j later).1⟩

/-- An iteration of the loop. -/
theorem dispatch_consistent (held : Consistent getSocket known s)
    (enabled : Enabled s (.dispatch i b)) :
    ∃ o s', (server getSocket pipe socket).step s (.dispatch i b) = some (o, s') ∧
      Right getSocket s o s' (.dispatch i b) ∧ Consistent getSocket (o.after known) s' := by
  obtain ⟨revents, left, phase, member, order⟩ := enabled
  obtain ⟨length, range⟩ := held.reported revents left phase
  have pending : s.pending = left := by rw [Server.pending, phase]
  obtain ⟨c, output, place, filed⟩ := held.agrees i (pending ▸ member)
  have within : i < revents.length := length ▸ (range i member).2
  have report : revents[i]? = some revents[i] := List.getElem?_eq_getElem within
  have stepped : (server getSocket pipe socket).step s (.dispatch i b) =
      (dispatch b s.clientList i revents[i]).map fun d =>
        (d.1, { s with clientList := d.2, phase := .dispatching revents (left.erase i) }) := by
    simp only [server, phase, member, order, and_self, if_true, report]
  have unchanged := held.served phase member held.kept fun _ _ => rfl
  rw [stepped, dispatch_spec place, Option.map_some]
  refine ⟨_, _, rfl, ⟨c, output, revents, left, revents[i], place, filed, phase, report,
    rfl, rfl, ?_⟩, ?_⟩
  · split
    · exact ⟨rfl, rfl⟩
    · exact ⟨rfl, rfl⟩
  · split
    · cases b.handleDisconnect with
      | false => exact unchanged
      | true =>
          apply held.served phase member
          · have taken := (Compaction.filterMap_set_none place).symm.trans held.kept
            exact (List.perm_cons c).mp (taken.trans
              (List.perm_cons_erase (taken.mem_iff.mp List.mem_cons_self)))
          · intro j apart
            exact List.getElem?_set_ne apart.symm
    · exact unchanged

/-- Each step that can be made exists and is right, and keeps the list and the array in step. -/
theorem step_consistent (held : Consistent getSocket known s) (enabled : Enabled s a) :
    ∃ o s', (server getSocket pipe socket).step s a = some (o, s') ∧
      Right getSocket s o s' a ∧ Consistent getSocket (o.after known) s' := by
  cases a with
  | buildSelectList want2transmit =>
      have idle : s.phase = .idle := enabled
      obtain ⟨fds, built, room, filed⟩ :=
        buildSelectList_spec getSocket want2transmit pipe socket s
      have stepped : (server getSocket pipe socket).step s (.buildSelectList want2transmit) =
          some (.built, { clientList := (Compaction.pack s.clientList).map some, fds
                          nfdsUsed := (Compaction.pack s.clientList).length + 2
                          phase := .built }) := by
        simp only [server, idle, built, Option.map_some]
      have packed := Compaction.pack_perm s.clientList
      exact ⟨.built, _, stepped, ⟨rfl, _, packed, rfl, rfl, filed⟩, held.pack room filed⟩
  | poll polled =>
      obtain ⟨built, fits⟩ := enabled
      obtain ⟨right, held'⟩ := afterPoll_spec held built fits
      have stepped : (server getSocket pipe socket).step s (.poll polled) =
          some (afterPoll s polled) := by simp only [server, built, fits, if_true]
      exact ⟨_, _, stepped, right, held'⟩
  | dispatch i b => exact dispatch_consistent held enabled
  | finish =>
      obtain ⟨revents, phase⟩ := enabled
      have stepped : (server getSocket pipe socket).step s .finish =
          some (.returned true, { s with phase := .idle }) := by simp only [server, phase]
      exact ⟨.returned true, _, stepped, rfl, held.idle⟩

omit [DecidableEq C] in
/-- Only what is enabled has a step. -/
theorem enabled_of_step (step : (server getSocket pipe socket).step s a = some (o, s')) :
    Enabled s a := by
  cases a with
  | buildSelectList want2transmit =>
      cases now : s.phase with
      | idle => exact now
      | built | dispatching => simp [server, now] at step
  | poll polled =>
      cases now : s.phase with
      | built =>
          by_cases fits : polled.Fits s.nfdsUsed
          · exact ⟨now, fits⟩
          · simp [server, now, fits] at step
      | idle | dispatching => simp [server, now] at step
  | dispatch i b =>
      cases now : s.phase with
      | dispatching revents left =>
          by_cases legal : i ∈ left ∧ (sequentialBound < s.nfdsUsed ∨ left.head? = some i)
          · exact ⟨revents, left, now, legal⟩
          · simp [server, now, legal] at step
      | idle | built => simp [server, now] at step
  | finish =>
      cases now : s.phase with
      | dispatching revents left =>
          cases left with
          | nil => exact ⟨revents, now⟩
          | cons i left => simp [server, now] at step
      | idle | built => simp [server, now] at step

end Steps

section Runs

variable [DecidableEq C] {getSocket} {pipe socket : ℕ} {s : Server C}
  {history : List (Action C × Seen C)}

theorem connected_snoc (history : List (Action C × Seen C)) (a : Action C) (o : Seen C) :
    connected (history ++ [(a, o)]) = o.after (connected history) := by
  rw [connected, List.foldl_append]
  rfl

end Runs

end Crs.PosixNetPoint
