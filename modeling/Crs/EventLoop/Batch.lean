import Crs.EventLoop.Descriptors

/-!
# One batch of epoll results

`handle_events` goes through the results of `epoll_wait` by index, up to the number
that was reported. A descriptor that fails is removed on the way, and a removal drops
the last element of the array that is being read. What `Descriptors` counts is here the
bound of the reads: an index that is not below the current size is a fault.

The handlers of a descriptor may throw; `handle_disconnect` is called outside of the
`try` block, so its exception leaves the loop. The control pipe is registered for input
only, and its write end stays open.
-/

namespace Crs.EventLoop

open Foundation EventDescriptor

/-- The file descriptor and the bits of a result. -/
structure Ready where
  fd : ℕ
  err : Bool := false
  hup : Bool := false
  input : Bool := false
  output : Bool := false
deriving DecidableEq

/-- Some bit is set. -/
def Ready.any (r : Ready) : Bool := r.err || r.hup || r.input || r.output

/-- What the handlers of this call do, and what `check_terminate` finds. -/
structure Handlers (D : Type*) where
  readThrows : D → Bool
  writeThrows : D → Bool
  disconnectThrows : D → Bool
  terminated : Bool

/-- The calls that the loop makes. -/
inductive Called (D : Type*) where
  | checkTerminate
  | handleRead (d : D)
  | handleWrite (d : D)
  | handleDisconnect (d : D)
  | removed (d : D)
deriving DecidableEq

section Attempt

variable {D : Type*}

/-- The `try` block for one descriptor: the handlers called, and whether it throws. -/
def attempt (h : Handlers D) (d : D) (r : Ready) : List (Called D) × Bool :=
  if r.err || r.hup then ([], true)
  else if r.input && h.readThrows d then ([.handleRead d], true)
  else if r.output then
    ((if r.input then [.handleRead d] else []) ++ [.handleWrite d], h.writeThrows d)
  else (if r.input then [.handleRead d] else [], false)

/-- The calls for a result about a descriptor that do not depend on other results. -/
def served (h : Handlers D) (d : D) (r : Ready) : List (Called D) :=
  (attempt h d r).1 ++ if (attempt h d r).2 then [.handleDisconnect d, .removed d] else []

/-- The calls for one result alone, by the descriptors that are stored. -/
def callsOf (controlPipe : ℕ) (h : Handlers D) (stored : ℕ → Option D) (r : Ready) :
    List (Called D) :=
  if r.fd = controlPipe then [.checkTerminate]
  else match stored r.fd with
    | some d => served h d r
    | none => []

/-- The result ends in the error path. -/
def fails (controlPipe : ℕ) (h : Handlers D) (stored : ℕ → Option D) (r : Ready) : Bool :=
  r.fd ≠ controlPipe && (stored r.fd).any fun d => (attempt h d r).2

/-- The error path is left with an exception of `handle_disconnect`. -/
def escapes (controlPipe : ℕ) (h : Handlers D) (stored : ℕ → Option D) (r : Ready) : Bool :=
  fails controlPipe h stored r && (stored r.fd).any h.disconnectThrows

/-- The calls for a batch. The exception of a `handle_disconnect` ends them, and the
descriptor is not removed. -/
def dispatch (controlPipe : ℕ) (h : Handlers D) (stored : ℕ → Option D) :
    List Ready → List (List (Called D))
  | [] => []
  | r :: rest =>
      if escapes controlPipe h stored r then [(callsOf controlPipe h stored r).dropLast]
      else callsOf controlPipe h stored r :: dispatch controlPipe h stored rest

end Attempt

/-- The loop with the calls it has made, one list for each result. -/
structure Progress (D : Type*) where
  records : Records D
  log : List (List (Called D)) := []
  gotTerminate : Bool := false
  escaped : Bool := false

variable {D : Type*} [DecidableEq D] [EventDescriptor D]

namespace Progress

/-- The `catch` block. -/
def disconnect (h : Handlers D) (s : Progress D) (d : D) (called : List (Called D)) :
    Option (Progress D) :=
  if h.disconnectThrows d then
    some { s with log := s.log ++ [called ++ [.handleDisconnect d]], escaped := true }
  else match s.records.removeDescriptor d with
    | none => none
    | some (.thrown, records) =>
        some { s with
          records, log := s.log ++ [called ++ [.handleDisconnect d]], escaped := true }
    | some (_, records) =>
        some { s with records, log := s.log ++ [called ++ [.handleDisconnect d, .removed d]] }

/-- The body of the loop for one result. -/
def iteration (controlPipe : ℕ) (h : Handlers D) (s : Progress D) (r : Ready) :
    Option (Progress D) :=
  if !(r.err || r.hup) && r.input && r.fd == controlPipe then
    some { s with log := s.log ++ [[.checkTerminate]], gotTerminate := h.terminated }
  else if !r.any then some { s with log := s.log ++ [[]] }
  else match s.records.descriptorsList[r.fd]? with
    | some (some d) =>
        if (attempt h d r).2 then s.disconnect h d (attempt h d r).1
        else some { s with log := s.log ++ [(attempt h d r).1] }
    | some none | none => none

/-- The loop from index `n`, with `left` results to go. -/
def scan (controlPipe : ℕ) (h : Handlers D) (batch : List Ready) :
    ℕ → ℕ → Progress D → Option (Progress D)
  | 0, _, s => some s
  | left + 1, n, s =>
      if n < s.records.events then
        match batch[n]? with
        | none => none
        | some r => (s.iteration controlPipe h r).bind fun s =>
            if s.escaped then some s else scan controlPipe h batch left (n + 1) s
      else none

end Progress

/-- `handle_events` on what `epoll_wait` wrote to the front of the array, with the restart
flag before and after it. -/
def handleEvents (controlPipe : ℕ) (h : Handlers D) (restartFlag : Bool) (batch : List Ready)
    (records : Records D) : Option (Bool × Progress D) :=
  if batch.length = 0 then some (restartFlag, { records })
  else if restartFlag then some (false, { records })
  else (Progress.scan controlPipe h batch batch.length 0 { records }).map fun s => (false, s)

/-- The result is about the control pipe, or about a descriptor that is registered. -/
def Stands (controlPipe : ℕ) (stored : ℕ → Option D) (s : Records D) (r : Ready) : Prop :=
  (r.fd = controlPipe ∧ r.err = false ∧ r.hup = false ∧ r.input = true) ∨
    (r.fd ≠ controlPipe ∧ r.fd ∈ s.epollSet ∧ ∃ d, stored r.fd = some d ∧
      s.descriptorsList[r.fd]? = some (some d) ∧ getDescriptor d = r.fd)

/-- The descriptor that is stored for a file descriptor. -/
def Records.stored (s : Records D) (fd : ℕ) : Option D := (s.descriptorsList[fd]?).join

/-- What `epoll_wait` may write: no more than the array has room for, each file descriptor
at most once, and only what is registered. -/
structure Reported (controlPipe : ℕ) (s : Records D) (batch : List Ready) : Prop where
  room : batch.length ≤ s.events
  distinct : (batch.map (·.fd)).Nodup
  stands : ∀ r ∈ batch, Stands controlPipe s.stored s r

section Scan

variable {controlPipe n : ℕ} {h : Handlers D} {stored : ℕ → Option D} {s : Progress D}
  {r : Ready} {batch rest : List Ready}

variable (controlPipe stored) in
/-- The removal of a registered descriptor reaches its own entries only. -/
theorem removeDescriptor_registered {records : Records D} {d : D}
    (listed : getDescriptor d ∈ records.epollSet)
    (found : records.descriptorsList[getDescriptor d]? = some (some d)) :
    ∃ destroyed records', records.removeDescriptor d = some (.removed d destroyed, records') ∧
      records'.events = records.events - 1 ∧
      ∀ r, Stands controlPipe stored records r → r.fd ≠ getDescriptor d →
        Stands controlPipe stored records' r := by
  refine ⟨if autoDestroy d then some d else none, {
    descriptorsList := records.descriptorsList.set (getDescriptor d) none
    prepareList := if needsPrepare d then swapOut d records.prepareList else records.prepareList
    events := records.events - 1
    epollSet := records.epollSet.erase (getDescriptor d) }, ?_, rfl, ?_⟩
  · simp [Records.removeDescriptor, found, listed]
  · rintro r (control | ⟨other, member, e, known, atFd, own⟩) apart
    · exact .inl control
    · refine .inr ⟨other, (List.mem_erase_of_ne apart).mpr member, e, known, ?_, own⟩
      rw [List.getElem?_set_ne apart.symm]
      exact atFd

omit [DecidableEq D] [EventDescriptor D] in
/-- Without a bit there is nothing to do. -/
theorem attempt_of_quiet {d : D} (quiet : r.any = false) : attempt h d r = ([], false) := by
  simp only [Ready.any, Bool.or_eq_false_iff] at quiet
  obtain ⟨⟨⟨err, hup⟩, input⟩, output⟩ := quiet
  simp [attempt, err, hup, input, output]

omit [DecidableEq D] [EventDescriptor D] in
/-- A result about a descriptor that is stored goes the way of its `try` block. -/
theorem attempted {d : D} (other : r.fd ≠ controlPipe) (known : stored r.fd = some d) :
    fails controlPipe h stored r = (attempt h d r).2 ∧
      escapes controlPipe h stored r = ((attempt h d r).2 && h.disconnectThrows d) ∧
      callsOf controlPipe h stored r = served h d r := by
  have failing : fails controlPipe h stored r = (attempt h d r).2 := by
    simp [fails, other, known]
  refine ⟨failing, ?_, ?_⟩
  · simp [escapes, failing, known]
  · simp [callsOf, other, known]

variable (controlPipe stored) in
/-- The `catch` block for a registered descriptor. -/
theorem disconnect_spec {d : D} (called : List (Called D))
    (listed : getDescriptor d ∈ s.records.epollSet)
    (found : s.records.descriptorsList[getDescriptor d]? = some (some d)) :
    ∃ s', s.disconnect h d called = some s' ∧
      if h.disconnectThrows d then
        s'.escaped = true ∧ s'.log = s.log ++ [called ++ [.handleDisconnect d]]
      else s'.escaped = s.escaped ∧
        s'.log = s.log ++ [called ++ [.handleDisconnect d, .removed d]] ∧
        s'.records.events = s.records.events - 1 ∧
        ∀ r, Stands controlPipe stored s.records r → r.fd ≠ getDescriptor d →
          Stands controlPipe stored s'.records r := by
  rw [Progress.disconnect]
  split
  · exact ⟨_, rfl, rfl, rfl⟩
  · obtain ⟨destroyed, records', removed, events, others⟩ :=
      removeDescriptor_registered controlPipe stored listed found
    rw [removed]
    exact ⟨_, rfl, rfl, rfl, events, others⟩

/-- One pass over a result: it throws out of the loop, or it makes the calls that belong
to the result, and takes one element from the array if the result fails. -/
theorem iteration_spec (stands : Stands controlPipe stored s.records r) :
    ∃ s', s.iteration controlPipe h r = some s' ∧
      if escapes controlPipe h stored r then
        s'.escaped = true ∧ s'.log = s.log ++ [(callsOf controlPipe h stored r).dropLast]
      else s'.escaped = s.escaped ∧ s'.log = s.log ++ [callsOf controlPipe h stored r] ∧
        s'.records.events =
          s.records.events - (if fails controlPipe h stored r then 1 else 0) ∧
        ∀ r', Stands controlPipe stored s.records r' → r'.fd ≠ r.fd →
          Stands controlPipe stored s'.records r' := by
  obtain ⟨control, err, hup, input⟩ | ⟨other, listed, d, known, found, own⟩ := stands
  · refine ⟨{ s with log := s.log ++ [[.checkTerminate]], gotTerminate := h.terminated }, ?_, ?_⟩
    · simp [Progress.iteration, err, hup, input, control]
    · rw [if_neg (by simp [escapes, fails, control])]
      refine ⟨rfl, by simp [callsOf, control], by simp [fails, control], ?_⟩
      exact fun r' stands' _ => stands'
  · obtain ⟨failing, escaping, calls⟩ := attempted (h := h) other known
    have branch : s.iteration controlPipe h r =
        if r.any = false then some { s with log := s.log ++ [[]] }
        else if (attempt h d r).2 then s.disconnect h d (attempt h d r).1
        else some { s with log := s.log ++ [(attempt h d r).1] } := by
      simp [Progress.iteration, other, found]
    rw [branch, failing, escaping, calls, served]
    cases failed : (attempt h d r).2 with
    | true =>
        have loud : r.any ≠ false := by
          intro quiet
          rw [attempt_of_quiet quiet] at failed
          cases failed
        obtain ⟨s', caught, result⟩ := disconnect_spec controlPipe stored (h := h)
          (attempt h d r).1 (own ▸ listed) (own ▸ found)
        rw [own] at result
        exact ⟨s', by simp [loud, caught], by simpa using result⟩
    | false =>
        refine ⟨{ s with log := s.log ++ [(attempt h d r).1] }, ?_, ?_⟩
        · split
          · rename_i quiet
            rw [attempt_of_quiet quiet]
          · rfl
        · rw [if_neg (by simp)]
          exact ⟨rfl, by simp, rfl, fun r' stands' _ => stands'⟩

/-- The loop at a result: past the end of the array, thrown out of, or on to the results
behind it, for which a failing one leaves the array shorter. -/
theorem scan_cons (split : batch.drop n = r :: rest)
    (fresh : ((r :: rest).map (·.fd)).Nodup)
    (stands : ∀ r' ∈ r :: rest, Stands controlPipe stored s.records r')
    (inside : s.escaped = false) :
    batch.drop (n + 1) = rest ∧ (rest.map (·.fd)).Nodup ∧
      if s.records.events ≤ n then
        Progress.scan controlPipe h batch (rest.length + 1) n s = none
      else if escapes controlPipe h stored r then
        ∃ s', Progress.scan controlPipe h batch (rest.length + 1) n s = some s' ∧
          s'.escaped = true ∧ s'.log = s.log ++ [(callsOf controlPipe h stored r).dropLast]
      else ∃ s', Progress.scan controlPipe h batch (rest.length + 1) n s =
          Progress.scan controlPipe h batch rest.length (n + 1) s' ∧
        s'.escaped = false ∧ s'.log = s.log ++ [callsOf controlPipe h stored r] ∧
        s'.records.events =
          s.records.events - (if fails controlPipe h stored r then 1 else 0) ∧
        ∀ r' ∈ rest, Stands controlPipe stored s'.records r' := by
  have atN : batch[n]? = some r := by
    rw [← List.head?_drop, split, List.head?_cons]
  have split' : batch.drop (n + 1) = rest := by
    rw [← List.drop_drop, split]
    rfl
  rw [List.map_cons, List.nodup_cons] at fresh
  obtain ⟨s', made, result⟩ := iteration_spec (h := h) (stands r List.mem_cons_self)
  refine ⟨split', fresh.2, ?_⟩
  rw [Progress.scan, atN]
  by_cases below : n < s.records.events
  · rw [if_neg (Nat.not_le.mpr below), if_pos below]
    simp only [made, Option.bind_some]
    by_cases escaping : escapes controlPipe h stored r = true
    · rw [if_pos escaping] at result ⊢
      exact ⟨s', if_pos result.1, result⟩
    · rw [if_neg escaping] at result ⊢
      obtain ⟨escaped, log, events, others⟩ := result
      rw [inside] at escaped
      refine ⟨s', if_neg (by simp [escaped]), escaped, log, events, fun r' later => ?_⟩
      apply others r' (stands r' (List.mem_cons_of_mem r later))
      intro same
      exact fresh.1 (same ▸ List.mem_map_of_mem later)
  · rw [if_pos (Nat.not_lt.mp below), if_neg below]

/-- Scanning the results behind the first `n`: each is served, and by its own calls only,
exactly if no exception leaves the error path and all indices stay below the size of the
array, which each failing result in front of them has shortened. -/
theorem scan_iff (split : batch.drop n = rest) (fresh : (rest.map (·.fd)).Nodup)
    (stands : ∀ r ∈ rest, Stands controlPipe stored s.records r) (inside : s.escaped = false) :
    (∃ s', Progress.scan controlPipe h batch rest.length n s = some s' ∧ s'.escaped = false ∧
      s'.log = s.log ++ rest.map (callsOf controlPipe h stored)) ↔
    (∀ r ∈ rest, escapes controlPipe h stored r = false) ∧
      ∀ k < rest.length,
        n + k + (rest.take k).countP (fails controlPipe h stored) < s.records.events := by
  induction rest generalizing n s with
  | nil => simp [Progress.scan, inside]
  | cons r rest ih =>
      obtain ⟨split', fresh', result⟩ := scan_cons (h := h) split fresh stands inside
      rw [List.length_cons]
      split at result
      · rename_i past
        rw [result]
        apply iff_of_false
        · rintro ⟨s', impossible, -⟩
          cases impossible
        · rintro ⟨-, all⟩
          exact absurd (all 0 (Nat.zero_lt_succ _)) (by simpa using past)
      · rename_i below
        split at result
        · rename_i escaping
          obtain ⟨s₁, scanned, escaped, -⟩ := result
          rw [scanned]
          apply iff_of_false
          · rintro ⟨s', same, kept, -⟩
            obtain rfl := Option.some.inj same
            exact absurd (escaped.symm.trans kept) (by decide)
          · rintro ⟨none, -⟩
            exact absurd (escaping.symm.trans (none r List.mem_cons_self)) (by decide)
        · rename_i staying
          obtain ⟨s₁, scanned, escaped, log, events, stands'⟩ := result
          have next := ih split' fresh' stands' escaped
          rw [log, List.append_assoc, List.singleton_append, ← List.map_cons, ← scanned] at next
          rw [next, events, List.forall_mem_cons]
          refine and_congr (by simp [staying]) ?_
          constructor
          · intro all k less
            cases k with
            | zero => simpa using Nat.not_le.mp below
            | succ k =>
                have here := all k (by simpa using less)
                rw [List.take_succ_cons, List.countP_cons]
                omega
          · intro all k less
            have here := all (k + 1) (by simpa using less)
            rw [List.take_succ_cons, List.countP_cons] at here
            omega

/-- Where the indices stay inside of the array, the calls are those of the batch. -/
theorem scan_dispatch (split : batch.drop n = rest) (fresh : (rest.map (·.fd)).Nodup)
    (stands : ∀ r ∈ rest, Stands controlPipe stored s.records r) (inside : s.escaped = false)
    (bounded : ∀ k < rest.length,
      n + k + (rest.take k).countP (fails controlPipe h stored) < s.records.events) :
    ∃ s', Progress.scan controlPipe h batch rest.length n s = some s' ∧
      s'.log = s.log ++ dispatch controlPipe h stored rest := by
  induction rest generalizing n s with
  | nil => exact ⟨s, rfl, by simp [dispatch]⟩
  | cons r rest ih =>
      obtain ⟨split', fresh', result⟩ := scan_cons (h := h) split fresh stands inside
      have below : n < s.records.events := by simpa using bounded 0 (Nat.zero_lt_succ _)
      rw [if_neg (Nat.not_le.mpr below)] at result
      rw [List.length_cons, dispatch]
      split at result
      · rename_i escaping
        obtain ⟨s₁, scanned, -, log⟩ := result
        rw [if_pos escaping]
        exact ⟨s₁, scanned, log⟩
      · rename_i staying
        obtain ⟨s₁, scanned, escaped, log, events, stands'⟩ := result
        obtain ⟨s', rest', log'⟩ := ih split' fresh' stands' escaped (by
          intro k less
          have here := bounded (k + 1) (by simpa using less)
          rw [List.take_succ_cons, List.countP_cons] at here
          omega)
        rw [if_neg staying]
        refine ⟨s', scanned.trans rest', ?_⟩
        rw [log', log, List.append_assoc, List.singleton_append]

end Scan

/-- Every result of the batch is read inside of the array, makes its own calls once, and
no exception leaves the loop. -/
def Processed (controlPipe : ℕ) (h : Handlers D) (restartFlag : Bool) (batch : List Ready)
    (records : Records D) : Prop :=
  ∃ flag s, handleEvents controlPipe h restartFlag batch records = some (flag, s) ∧
    s.escaped = false ∧ s.log = batch.map (callsOf controlPipe h records.stored)

/-- The last index stays below the size of the array. -/
def Scannable (controlPipe : ℕ) (h : Handlers D) (batch : List Ready) (records : Records D) :
    Prop :=
  batch.length - 1 + batch.dropLast.countP (fails controlPipe h records.stored) < records.events

omit [DecidableEq D] [EventDescriptor D] in
/-- The bound at the last index is the bound at all indices. -/
theorem scannable_iff {controlPipe : ℕ} {h : Handlers D} {batch : List Ready}
    {records : Records D} (nonempty : batch ≠ []) : Scannable controlPipe h batch records ↔
      ∀ k < batch.length,
        0 + k + (batch.take k).countP (fails controlPipe h records.stored) < records.events := by
  have positive := List.length_pos_iff.mpr nonempty
  rw [Scannable, List.dropLast_eq_take]
  constructor
  · intro last k less
    have fewer : (batch.take k).countP (fails controlPipe h records.stored) ≤
        (batch.take (batch.length - 1)).countP (fails controlPipe h records.stored) := by
      apply List.Sublist.countP_le
      rw [← Nat.min_eq_left (show k ≤ batch.length - 1 by omega), ← List.take_take]
      exact List.take_sublist _ _
    omega
  · intro all
    have last := all (batch.length - 1) (by omega)
    omega

/-- What the epoll back end calls for a batch whose indices stay inside of the array. -/
theorem handleEvents_dispatches {controlPipe : ℕ} {h : Handlers D} {batch : List Ready}
    {records : Records D} (reported : Reported controlPipe records batch) (nonempty : batch ≠ [])
    (scannable : Scannable controlPipe h batch records) :
    ∃ s, handleEvents controlPipe h false batch records = some (false, s) ∧
      s.log = dispatch controlPipe h records.stored batch := by
  have length : batch.length ≠ 0 := mt List.length_eq_zero_iff.mp nonempty
  obtain ⟨s, scanned, log⟩ := scan_dispatch (h := h) (s := { records }) (n := 0) List.drop_zero
    reported.distinct reported.stands rfl ((scannable_iff nonempty).mp scannable)
  exact ⟨s, by simp [handleEvents, length, scanned], log⟩

private def quiet : Handlers Socket where
  readThrows _ := false
  writeThrows _ := false
  disconnectThrows _ := false
  terminated := true

/-- Descriptor 5 beside the control pipe, whose number is 3. -/
private def one : Records Socket :=
  { descriptorsList := [none, none, none, none, none, some ⟨5⟩], events := 2, epollSet := [5] }

private theorem one_reported {batch : List Ready}
    (either : batch = [{ fd := 3, input := true }, { fd := 5, hup := true }] ∨
      batch = [{ fd := 5, hup := true }, { fd := 3, input := true }]) : Reported 3 one batch := by
  have control : Stands 3 one.stored one { fd := 3, input := true } := .inl ⟨rfl, rfl, rfl, rfl⟩
  have socket : Stands 3 one.stored one { fd := 5, hup := true } :=
    .inr ⟨by decide, by decide, ⟨5⟩, rfl, rfl, rfl⟩
  obtain rfl | rfl := either
  · exact ⟨by decide, by decide, by simpa using ⟨control, socket⟩⟩
  · exact ⟨by decide, by decide, by simpa using ⟨socket, control⟩⟩

end Crs.EventLoop
