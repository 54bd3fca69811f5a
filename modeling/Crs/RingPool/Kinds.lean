import Crs.RingPool.Progress
import Crs.RingPool.Window

/-!
# The kinds of the pools

`_swap` casts the pool at `_nPool2Swap` to one in memory and the pool at `_nPool2Swap2` to
a file, and exchanges the pointers by indices without a mask. That is right if the root
has a place behind the pools in memory. The constructor takes `_nPool2Swap2` for the
number of the pools in memory, up to the whole root and at least two of them; a root
without room for a file gets no file.
-/

namespace Crs.RingPool

open Foundation Handshake

namespace Ring

variable {α X : Type*}

/-- While `_swap` runs, both indices are in the root and both casts succeed; while the
producer is at its pool, that pool is in memory. -/
def Sound (s : Ring α X) : Prop :=
  (s.control.swapper = .working → ∃ mp fp, s.root[s.control.nPool2Swap]? = some mp ∧
    s.root[s.nPool2Swap2]? = some fp ∧ (s.pool mp).kind = .mem ∧ (s.pool fp).kind = .file) ∧
  (s.control.producer = .writing → ∃ held, s.writing = some held ∧
    (s.pool held.1).kind = .mem)

variable {cfg : Config} {c : Client α X} {m p r : ℕ} {zero : α} {client : X}
  {history : List (Call α X × Seen α)} {seen : List (Seen α)} {s s' : Ring α X}

/-- With room for files. -/
theorem Inv.sound {g : BitMaskCalculator} (two : 2 ≤ m) (few : m < 2 ^ r)
    (held : Inv g m p r seen s) : Sound s := by
  constructor
  · intro works
    obtain ⟨mp, first, kind, -⟩ := held.layout.memory _ le_rfl (by omega)
    obtain ⟨fp, second, kind'⟩ := held.layout.files _ le_rfl (by omega)
    refine ⟨mp, fp, ?_, ?_, kind, kind'⟩
    · rw [held.control.toSwap]
      exact first
    · rw [held.file]
      exact second
  · intro phase
    obtain ⟨pair, written, found⟩ := held.writing phase
    obtain ⟨lower, upper, -⟩ := held.open_bounds two (by simp [phase])
    obtain ⟨id, here, kind, -⟩ := held.layout.memory _ lower upper
    rw [held.filled, here] at found
    obtain rfl : id = pair.1 := Option.some.inj found
    exact ⟨pair, written, kind⟩

/-- A whole swap, while the window does not move. -/
theorem Inv.exists_swapped {g : BitMaskCalculator} (shape : g.Shape p r) (two : 2 ≤ m)
    (held : Inv g m p r seen s) (works : s.control.swapper = .working)
    (stage : s.stage = .beginning) (early : swaps (events seen) + m < 2 ^ r) :
    ∃ s', (machine g c).Run s [(.swapper, .quiet), (.swapper, .quiet), (.swapper, .quiet),
        (.swapper, .control .swapped), (.swapper, .control .unlocked)] s' ∧
      s'.control.producer = s.control.producer ∧ s'.control.swapper = .checking ∧
      s'.control.activateFlag = s.control.activateFlag ∧ s'.stage = .beginning ∧
      s'.client = s.client := by
  obtain ⟨mp, fp, first, second, kind, kind'⟩ := (held.sound two (by omega)).1 works
  have moves : moved seen = swaps (events seen) + m - 2 ^ r := by
    have staged := held.stage
    rw [Staged, stage] at staged
    exact staged.1
  have notOldest : s.nPool2Swap2 ≠ g.rootIdx s.beginPos := fun same =>
    absurd ((held.oldest_iff shape two moves).mp same) (by omega)
  have mask (count : ℕ) : count % 2 ^ r &&& g.rootMask = count % 2 ^ r := by
    rw [shape.rootMask, Nat.and_two_pow_sub_one_eq_mod, Nat.mod_mod]
  have memory : s.getPool g s.control.nPool2Swap = some mp := by
    rw [getPool, held.control.toSwap, mask, ← held.control.toSwap, first]
  have file : s.getPool g s.nPool2Swap2 = some fp := by
    rw [getPool, held.file, mask, ← held.file, second]
  have begins : (machine g c).step s .swapper = some (.quiet, { s with stage := .fetching }) := by
    simp [machine, swapperRun, works, swap, stage, notOldest]
  have fetches : (machine g c).step { s with stage := .fetching } .swapper =
      some (.quiet, { s with stage := .assigning mp fp }) := by
    rw [getPool] at memory file
    simp [machine, swapperRun, works, swap, getPool, memory, file]
  have assigns : (machine g c).step { s with stage := .assigning mp fp } .swapper =
      some (.quiet, { s with
        pool := Function.update s.pool fp { s.pool fp with
          records := (s.pool mp).records, nCount := (s.pool mp).nCount }
        stage := .exchanging }) := by
    simp [machine, swapperRun, works, swap, Pool.assign, kind, kind']
  let assigned : ℕ → Pool α := Function.update s.pool fp { s.pool fp with
    records := (s.pool mp).records, nCount := (s.pool mp).nCount }
  let swapped : Ring α X := { s with
    control := { s.control with
      swapper := .unlocking
      nPool2Swap := (s.control.nPool2Swap + 1) &&& g.rootMask }
    root := (s.root.set s.control.nPool2Swap fp).set s.nPool2Swap2 mp
    pool := Function.update assigned mp (assigned mp).clear
    nPool2Swap2 := (s.nPool2Swap2 + 1) &&& g.rootMask
    stage := .beginning }
  have exchanges : (machine g c).step { s with pool := assigned, stage := .exchanging } .swapper =
      some (.control .swapped, swapped) := by
    simp [machine, swapperRun, works, swap, swapperStep, first, second, swapped]
  exact ⟨_, .cons begins (.cons fetches (.cons assigns (.cons exchanges (.single rfl)))),
    rfl, rfl, rfl, rfl, rfl⟩

section Degenerate

/-- A ring whose pools have no records: nothing has been stored. -/
structure Untouched (cfg : Config) (seen : List (Seen α)) (s : Ring α X) : Prop where
  control : Balanced cfg.memPools (2 ^ 0) (events seen) s.control
  nothing : fills (events seen) = 0
  root : s.root = [0]
  pool : (s.pool 0).kind = .mem ∧ (s.pool 0).records = []
  writing : s.control.producer = .writing → ∃ held, s.writing = some held ∧ held.1 = 0

theorem Untouched.not_working (held : Untouched cfg seen s) : s.control.swapper ≠ .working := by
  intro works
  have behind := held.control.swaps_add_le
  rw [works, held.nothing, Swapper.requests] at behind
  omega

theorem Untouched.sound (held : Untouched cfg seen s) : Sound s := by
  refine ⟨fun works => absurd works held.not_working, fun phase => ?_⟩
  obtain ⟨pair, written, first⟩ := held.writing phase
  exact ⟨pair, written, first ▸ held.pool.1⟩

/-- A step of the handshake alone. -/
theorem Untouched.control_step (held : Untouched cfg seen s) {e : Event}
    {control : Handshake.State} {writing : Option (ℕ × α)} {endPos : ℕ} (other : e ≠ .filled)
    (balanced : Balanced cfg.memPools (2 ^ 0) (events seen ++ [e]) control)
    (writes : control.producer = .writing → ∃ held, writing = some held ∧ held.1 = 0) :
    Untouched cfg (seen ++ [.control e]) { s with control, writing, endPos } := by
  refine ⟨by simpa [Seen.event?] using balanced, ?_, held.root, held.pool, writes⟩
  simpa [Seen.event?, other] using held.nothing

theorem Untouched.step (shape : cfg.metrix.Shape p 0) (held : Untouched cfg seen s)
    {a : Call α X} {o : Seen α} (step : (machine cfg.metrix c).step s a = some (o, s')) :
    Untouched cfg (seen ++ [o]) s' := by
  cases call : a with
  | push point =>
      simp only [call, machine, push] at step
      split at step
      · obtain ⟨pool, found, next⟩ := Option.bind_eq_some_iff.mp step
        obtain ⟨⟨event, control⟩, moves, result⟩ := Option.map_eq_some_iff.mp next
        obtain ⟨rfl, rfl⟩ := by simpa using result
        have balanced := producerStep_balanced held.control (shape.rootMask ▸ moves)
        rename_i idle
        have frame := producerStep_frame (by simp [idle]) moves
        refine held.control_step frame.1 balanced fun _ => ⟨_, rfl, ?_⟩
        rw [getPool, shape.rootMask, held.root, pow_zero, Nat.sub_self, Nat.and_zero] at found
        exact (Option.some.inj found).symm
      all_goals cases step
  | producer =>
      simp only [call, machine, produce] at step
      cases phase : s.control.producer with
      | idle => simp [phase] at step
      | writing =>
          obtain ⟨pair, written, first⟩ := held.writing phase
          simp [phase, written, first, Pool.push, held.pool] at step
      | advancing | locking | resuming | waking | counting =>
          simp only [phase, Option.map_eq_some_iff] at step
          obtain ⟨next, moves, result⟩ := step
          obtain ⟨rfl, rfl⟩ := by simpa using result
          have balanced := producerStep_balanced held.control (shape.rootMask ▸ moves)
          have frame := producerStep_frame (by simp [phase]) moves
          refine held.control_step frame.1 balanced fun writes => ?_
          cases phase.symm.trans (frame.2 writes)
  | swapper =>
      simp only [call, machine, swapperRun] at step
      cases phase : s.control.swapper with
      | working => exact absurd phase held.not_working
      | checking | asleep | stopping | stirring | unlocking =>
          simp only [phase, Option.map_eq_some_iff] at step
          obtain ⟨next, moves, result⟩ := step
          obtain ⟨rfl, rfl⟩ := by simpa using result
          have balanced := swapperStep_balanced held.control (shape.rootMask ▸ moves)
          obtain ⟨same, other⟩ := swapperStep_frame (by simp [phase]) moves
          refine held.control_step other.1 balanced ?_
          rw [same]
          exact held.writing
  | derived client =>
      obtain ⟨rfl, rfl⟩ := by simpa [call, machine] using step
      refine ⟨by simpa [Seen.event?] using held.control, ?_, held.root, held.pool, held.writing⟩
      simpa [Seen.event?] using held.nothing

theorem run_untouched (shape : cfg.metrix.Shape p 0) (none : cfg.metrix.nPoolSize = 0)
    (run : (machine cfg.metrix c).Run (new cfg zero client) history s) :
    Untouched cfg (history.map Prod.snd) s := by
  have two := le_memPools cfg
  apply run.invariant (P := fun history s => Untouched cfg (history.map Prod.snd) s)
  · refine ⟨new_balanced two, rfl, ?_, ?_, nofun⟩
    · rw [new, shape.nRootSize]
      rfl
    · have inMemory : 0 < cfg.memPools := by omega
      simp [new, inMemory, none]
  · intro history t a o u _ held step
    simpa using held.step shape step

end Degenerate

section Overflow

/-- A ring with `k` points in its first pool. Nothing else has happened. -/
structure Filling (cfg : Config) (k : ℕ) (s : Ring α X) : Prop where
  control : s.control = Handshake.new cfg.memPools
  root : s.root = List.range cfg.metrix.nRootSize
  pool : (s.pool 0).kind = .mem ∧ (s.pool 0).records.length = cfg.metrix.nPoolSize ∧
    (s.pool 0).nCount = k
  nPool2Swap2 : s.nPool2Swap2 = cfg.memPools

theorem new_filling : Filling cfg 0 (new cfg zero client : Ring α X) := by
  have inMemory : 0 < cfg.memPools := lt_of_lt_of_le Nat.two_pos (le_memPools cfg)
  exact ⟨rfl, rfl, by simp [new, inMemory], rfl⟩

section Push

variable {k : ℕ} (held : Filling cfg k s) (shape : cfg.metrix.Shape p r)

include held shape

theorem Filling.getPool : s.getPool cfg.metrix s.control.currentPool = some 0 := by
  rw [Ring.getPool, held.control, held.root, shape.nRootSize, Handshake.new, Nat.zero_and,
    List.getElem?_range (Nat.two_pow_pos r)]

/-- A point that does not fill the first pool. -/
theorem Filling.next (room : k + 1 < cfg.metrix.nPoolSize) (point : α) :
    ∃ rest s', (machine cfg.metrix c).Run s rest s' ∧ Filling cfg (k + 1) s' := by
  obtain ⟨kind, length, count⟩ := held.pool
  have idle : s.control.producer = .idle := by rw [held.control, Handshake.new]
  have stores := run_stored (c := c) idle (held.getPool shape) kind (by omega) point
  have counts : (s.stored cfg.metrix 0 point).control.producer = .counting := by
    simp [stored, count, room.ne]
  refine ⟨_, _, stores.snoc (step_counted counts), ?_, held.root, ?_, held.nPool2Swap2⟩
  · simp [counted, stored, held.control, Handshake.new]
  · simp [counted, stored, kind, length, count]

/-- The point that fills it. The thread gets to `_swap` with its first indices. -/
theorem Filling.last (full : k + 1 = cfg.metrix.nPoolSize) (point : α) :
    ∃ rest s', (machine cfg.metrix c).Run s rest s' ∧ s'.control.swapper = .working ∧
      s'.root = List.range cfg.metrix.nRootSize ∧ s'.nPool2Swap2 = cfg.memPools := by
  obtain ⟨kind, length, count⟩ := held.pool
  have idle : s.control.producer = .idle := by rw [held.control, Handshake.new]
  have two := le_memPools cfg
  have stores := run_stored (c := c) idle (held.getPool shape) kind (by omega) point
  have advances := run_advanced (c := c) (g := cfg.metrix) (s := s.stored cfg.metrix 0 point)
    (by simp [stored, count, full])
    (by simp only [stored, held.control, Handshake.new]; omega)
  have calls := run_called (c := c) (g := cfg.metrix)
    (s := (s.stored cfg.metrix 0 point).advanced cfg.metrix)
    (by simp [stored, advanced, held.control, Handshake.new]) rfl
  exact ⟨_, _, (stores.append advances).append calls, rfl, held.root, held.nPool2Swap2⟩

end Push

theorem exists_filling (shape : cfg.metrix.Shape p r) (point : α) {k : ℕ}
    (room : k < cfg.metrix.nPoolSize) : ∃ rest s',
      (machine cfg.metrix c).Run (new cfg zero client) rest s' ∧ Filling cfg k s' := by
  induction k with
  | zero => exact ⟨[], _, .nil, new_filling⟩
  | succ k ih =>
      obtain ⟨before, s, run, filling⟩ := ih (Nat.lt_of_succ_lt room)
      obtain ⟨rest, s', more, filling'⟩ := filling.next (c := c) shape room point
      exact ⟨_, s', run.append more, filling'⟩

/-- Without room for a file, the first swap finds its second index outside of the root. -/
theorem exists_unsound (shape : cfg.metrix.Shape p r) (some : cfg.metrix.nPoolSize ≠ 0)
    (narrow : cfg.metrix.nRootSize ≤ cfg.memPools) (client : X) (point : α) :
    ∃ history s, (machine cfg.metrix c).Run (new cfg zero client) history s ∧ ¬ Sound s := by
  obtain ⟨before, s, run, filling⟩ : ∃ before s,
      (machine cfg.metrix c).Run (new cfg zero client) before s ∧
        Filling cfg (cfg.metrix.nPoolSize - 1) s :=
    exists_filling shape point (Nat.sub_one_lt some)
  obtain ⟨rest, s', more, works, root, index⟩ := filling.last (c := c) shape
    (Nat.sub_add_cancel (Nat.one_le_iff_ne_zero.mpr some)) point
  refine ⟨_, s', run.append more, fun sound => ?_⟩
  obtain ⟨mp, fp, -, second, -⟩ := sound.1 works
  rw [root, index, List.getElem?_eq_none (by simpa using narrow)] at second
  cases second

end Overflow

/-- In all runs the casts of `_swap` succeed and the producer writes into memory, exactly if
the root has room for a file, or if the size of a pool has wrapped to zero. -/
theorem run_sound_kinds_iff (c : Client α X) (zero : α) (client : X) :
    (∀ history s, (machine cfg.metrix c).Run (new cfg zero client) history s → Sound s) ↔
      max 2 cfg.nMemPools.toNat < cfg.metrix.nRootSize ∨ cfg.metrix.nPoolSize = 0 := by
  obtain ⟨p, r, shape⟩ := exists_shape cfg.nPoolSize cfg.nRootSize
  change cfg.metrix.Shape p r at shape
  constructor
  · intro sound
    by_contra neither
    obtain ⟨narrow, some⟩ := not_or.mp neither
    have overflow : cfg.metrix.nRootSize ≤ cfg.memPools := by
      rw [cfg.memPools_eq]
      omega
    obtain ⟨history, s, run, unsound⟩ : ∃ history s,
        (machine cfg.metrix c).Run (new cfg zero client) history s ∧ ¬ Sound s :=
      exists_unsound shape some overflow client zero
    exact unsound (sound history s run)
  · rintro (roomy | none) history s run
    · obtain ⟨p, r, shape, large, few⟩ := exists_roomy_shape roomy
      exact (run_inv shape large few run).sound (le_memPools cfg) few
    · have whole : p = 64 := by
        by_contra less
        have fits := shape.fits
        have below := Nat.pow_lt_pow_right Nat.one_lt_two (by omega : p < 64)
        rw [shape.nPoolSize, Nat.mod_eq_of_lt below] at none
        exact (Nat.two_pow_pos p).ne' none
      have alone : r = 0 := by
        have fits := shape.fits
        omega
      subst alone
      exact (run_untouched shape none run).sound

/-- The ring of the test program: four pools, all of them in memory. -/
private def testConfig : Config := ⟨4, 0xFFFF, 3⟩

/-- In the test program the first swap goes wrong. -/
theorem test_unsound : ∃ history s, (machine testConfig.metrix (Client.reserved fun _ => none)).Run
    (new testConfig 0 () : Ring ℕ Unit) history s ∧ ¬ Sound s := by
  obtain ⟨p, r, shape⟩ := exists_shape testConfig.nPoolSize testConfig.nRootSize
  exact exists_unsound shape (by decide) (by decide) () 0

end Ring

end Crs.RingPool
