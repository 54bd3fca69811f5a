import Crs.ObjectIO.Modified

/-!
# Reads come to an end

The loops of `Hub::read` and `cINIFile::read` on a good stream: each line that is
taken brings the end nearer, a hub that stops at a header sets the position back
to its line only, and behind the end the loops stop. So the fuel of the model is
enough, and no read of a good stream is left out of a run.
-/

namespace Crs.ObjectIO

open Foundation

/-- What is left behind the position. -/
def Source.left (source : Source) : ℕ := source.is.text.length - source.is.position

theorem Source.getline_is {source source' : Source} {buf line : List Char}
    (taken : source.getline buf = some (line, source')) :
    source'.is = (source.is.getline buf).2 := by
  rw [Source.getline] at taken
  split at taken <;> cases taken <;> rfl

/-- The stream is good and the fuel lasts to its end, or it is at its end. -/
def Source.Ready (fuel : ℕ) (source : Source) : Prop :=
  source.is.eofbit = true ∨ source.is.good = true ∧ source.left < fuel

/-- A stream from which a line was taken is not in front of where it was. -/
theorem Source.getline_ready {source source' : Source} {buf line : List Char} {fuel : ℕ}
    (good : source.is.good = true) (enough : source.left < fuel + 1)
    (taken : source.getline buf = some (line, source')) :
    source'.is.text = source.is.text ∧ source'.Ready fuel ∧
      (source'.is.eofbit = false → source'.is.good = true ∧
        source.is.position < source'.is.position) := by
  obtain ⟨text, progress⟩ := InputStream.getline_progress good buf
  rw [← getline_is taken] at text progress
  refine ⟨text, ?_, fun going => ?_⟩
  · refine progress.imp id fun ⟨good', later, inside⟩ => ⟨good', ?_⟩
    rw [Source.left] at enough ⊢
    rw [text]
    omega
  · obtain ended | ⟨good', later, -⟩ := progress
    · exact absurd ended (by simp [going])
    · exact ⟨good', later⟩

/-- Nothing sets a stream back from its end but `clear`. -/
theorem Source.getline_eofbit {source source' : Source} {buf line : List Char}
    (ended : source.is.eofbit = true) (taken : source.getline buf = some (line, source')) :
    source'.is.eofbit = true := by
  have bad : source.is.good = false := by simp [InputStream.good, ended]
  rw [getline_is taken, InputStream.getline_of_not_good bad]
  exact ended

namespace Objects

variable {heap : Objects} {hub file v : Handle} {source : Source} {fuel : ℕ}

theorem exists_append (isHub : heap.IsHub hub) (inside : v < heap.length) :
    ∃ u, heap.append hub v = some u := by
  obtain ⟨owner, file, entries, olist, found, body⟩ := isHub
  rw [append, List.getElem?_eq_getElem inside, found]
  simp only [Option.bind_eq_bind, Option.bind_some, body]
  exact ⟨_, rfl⟩

/-- A new object is put into a hub. -/
theorem exists_append_alloc (isHub : heap.IsHub hub) (object : Object) :
    ∃ u, append (heap ++ [object]) hub heap.length = some u ∧ u.IsHub hub := by
  have inside : heap.length < (heap ++ [object]).length := by simp
  obtain ⟨u, appended⟩ := exists_append (isHub.alloc object) inside
  exact ⟨u, appended, (isHub.alloc object).append appended⟩

/-- Where the read of a hub returns, the stream is good and not in front of where it was. -/
def Behind (source source' : Source) : Prop :=
  source'.is.good = true ∧ source'.is.text = source.is.text ∧
    source.is.position ≤ source'.is.position

/-- At the end of the stream, one more line is taken. -/
theorem exists_readHubLoop_end (isHub : heap.IsHub hub) (ended : source.is.eofbit = true)
    (buf : List Char) : ∃ u how source',
      readHubLoop (fuel + 1) heap hub source buf = some (u, how, source') ∧ how ≠ .returned := by
  have bad : source.is.good = false := by simp [InputStream.good, ended]
  rw [readHubLoop, InputStream.tellg_of_not_good bad]
  dsimp only
  split
  · exact ⟨_, _, _, rfl, by simp⟩
  · next line next taken =>
    have last : next.is.eofbit = true := Source.getline_eofbit (by exact ended) taken
    split
    · exact ⟨_, _, _, rfl, by simp⟩
    · obtain ⟨u, appended, -⟩ := exists_append_alloc isHub (Object.ofVar (Var.create (trim line)))
      simp only [appended, Option.bind_eq_bind, Option.bind_some]
      exact ⟨_, _, _, rfl, by simp⟩

theorem exists_readHubLoop (isHub : heap.IsHub hub) (good : source.is.good = true)
    (enough : source.left < fuel) (buf : List Char) : ∃ u how source',
      readHubLoop fuel heap hub source buf = some (u, how, source') ∧
        (how = .returned → Behind source source') := by
  induction fuel generalizing heap source buf with
  | zero => cases enough
  | succ fuel ih =>
    rw [readHubLoop, InputStream.tellg_of_good good]
    dsimp only
    split
    · exact ⟨_, _, _, rfl, by simp⟩
    · next line next taken =>
      obtain ⟨text, ready, going⟩ := Source.getline_ready good enough taken
      split
      · -- the stream is set back to the header
        exact ⟨_, _, _, rfl, fun _ => ⟨rfl, text, Nat.le_refl _⟩⟩
      · obtain ⟨u, appended, isHub_u⟩ :=
          exists_append_alloc isHub (Object.ofVar (Var.create (trim line)))
        simp only [appended, Option.bind_eq_bind, Option.bind_some]
        split
        · exact ⟨_, _, _, rfl, by simp⟩
        · next notLast =>
          obtain ⟨good_next, later⟩ := going (by simpa using notLast)
          have enough_next : next.left < fuel := by
            obtain ended | ⟨-, less⟩ := ready
            · exact absurd ended notLast
            · exact less
          obtain ⟨t, how, source', loop, behind⟩ := ih isHub_u good_next enough_next (trim line)
          refine ⟨t, how, source', loop, fun returned => ?_⟩
          obtain ⟨good', text', position⟩ := behind returned
          exact ⟨good', text'.trans text, later.le.trans position⟩

/-- The read of a hub comes to an end on a stream that is good or was read to its end. -/
theorem exists_readHub (isHub : heap.IsHub hub)
    (ready : source.is.eofbit = true ∨ source.is.good = true) : ∃ u how source',
      readHub heap hub source = some (u, how, source') ∧
        (how = .returned → Behind source source') := by
  have loop : ∃ u how source',
      readHubLoop (source.is.text.length + 1) heap hub source [] = some (u, how, source') ∧
        (how = .returned → Behind source source') := by
    obtain ended | good := ready
    · obtain ⟨u, how, source', loop, differs⟩ := exists_readHubLoop_end isHub ended []
      exact ⟨u, how, source', loop, fun returned => absurd returned differs⟩
    · exact exists_readHubLoop isHub good (Nat.lt_succ_of_le (Nat.sub_le _ _)) []
  obtain ⟨u, how, source', loop, behind⟩ := loop
  rw [readHub, loop]
  refine ⟨_, how, _, rfl, fun returned => ?_⟩
  obtain ⟨-, text, position⟩ := behind returned
  exact ⟨rfl, text, position⟩

theorem exists_readFileLoop (closed : heap.Closed) (isHub : heap.IsHub file)
    (good : source.is.good = true) (enough : source.left < fuel) (buf : List Char) :
    ∃ u how, readFileLoop fuel heap file source buf = some (u, how) := by
  induction fuel generalizing heap source buf with
  | zero => cases enough
  | succ fuel ih =>
    rw [readFileLoop]
    split
    · exact ⟨_, _, rfl⟩
    · next line next taken =>
      obtain ⟨text, ready, going⟩ := Source.getline_ready good enough taken
      have goes_on {t : Objects} {source' : Source} (closed_t : t.Closed) (isHub_t : t.IsHub file)
          (notLast : ¬next.is.eofbit = true) (behind : Behind next source') :
          ∃ u how, readFileLoop fuel t file source' (trim line) = some (u, how) := by
        obtain ⟨good', text', position⟩ := behind
        refine ih closed_t isHub_t good' ?_ (trim line)
        obtain ended | ⟨-, less⟩ := ready
        · exact absurd ended notLast
        · rw [Source.left] at less ⊢
          rw [text']
          omega
      dsimp only
      split
      · -- a hub is read from the lines behind its header, and put into the file
        have created : Grown heap (heap ++ [Object.ofHub (Hub.create (trim line) [])]) :=
          (grown_refl closed).alloc rfl rfl
        have isHub_new := isHub_alloc heap (Hub.create (trim line) [])
        obtain ⟨t, how, source', read, behind⟩ :=
          exists_readHub isHub_new (ready.imp id And.left)
        obtain ⟨grown, hubs⟩ := readHub_grown created isHub_new read
        have isHub_t := hubs file (isHub.alloc _)
        obtain ⟨u, appended⟩ := exists_append isHub_t (hubs _ isHub_new).lt
        have closed_u := (grown.append appended (Nat.le_refl _) isHub.lt).closed
        simp only [read, appended, Option.bind_eq_bind, Option.bind_some]
        cases how with
        | errRead => exact ⟨_, _, rfl⟩
        | msgEOF => exact ⟨_, _, by simp; exact ⟨rfl, rfl⟩⟩
        | returned =>
          by_cases last : next.is.eofbit = true
          · exact ⟨_, _, by simp [last]; exact ⟨rfl, rfl⟩⟩
          · simpa [last] using goes_on closed_u (isHub_t.append appended) last (behind rfl)
      · obtain ⟨u, appended, isHub_u⟩ :=
          exists_append_alloc isHub (Object.ofVar (Var.create (trim line)))
        have closed_u := (((grown_refl closed).alloc_ofVar _).append appended (Nat.le_refl _)
          isHub.lt).closed
        simp only [appended, Option.bind_eq_bind, Option.bind_some]
        split
        · exact ⟨_, _, rfl⟩
        · next notLast =>
          obtain ⟨good_next, -⟩ := going (by simpa using notLast)
          exact goes_on closed_u isHub_u notLast ⟨good_next, rfl, Nat.le_refl _⟩

/-- A read of a good stream comes to an end. -/
theorem exists_read (closed : heap.Closed) (isHub : heap.IsHub hub)
    (good : source.is.good = true) : ∃ u how, heap.read hub source = some (u, how) := by
  have file_read : ∃ u how,
      readFileLoop (source.is.text.length + 1) heap hub source [] = some (u, how) :=
    exists_readFileLoop closed isHub good (Nat.lt_succ_of_le (Nat.sub_le _ _)) []
  obtain ⟨t, ended, source', hub_read, -⟩ := exists_readHub isHub (.inr good)
  obtain ⟨owner, file, entries, olist, found, body⟩ := isHub
  rw [Objects.read, found]
  simp only [Option.bind_eq_bind, Option.bind_some, body]
  cases file with
  | true =>
    obtain ⟨u, how, loop⟩ := file_read
    rw [readFile, loop]
    exact ⟨_, _, rfl⟩
  | false => exact ⟨_, _, by rw [hub_read]; rfl⟩

/-- No read of a good stream is left out of a run. -/
theorem Inv.exists_step {root : Handle} (inv : Inv root heap) (isHub : heap.IsHub hub)
    (good : source.is.good = true) :
    ∃ how u, objectMachine.step heap (.read hub source) = some (.ended how, u) := by
  obtain ⟨u, how, read⟩ := exists_read inv.closed isHub good
  exact ⟨how, u, by simp [objectMachine, perform, read]⟩

end Objects

end Crs.ObjectIO
