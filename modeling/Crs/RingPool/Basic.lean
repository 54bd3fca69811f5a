import Crs.RingPool.Geometry
import Crs.RingPool.Handshake
import Mathlib.Data.List.Nodup
import Mathlib.Logic.Function.Basic

/-!
# The ring of pools

The root of a ring holds pointers to pools in memory and in files. The producer writes
into a pool in memory. The swapper copies a pool that is full into the oldest file, and
exchanges the two pointers. Before it overwrites a file that the window still shows, it
moves the beginning of the window, and gives a derived class the chance to release what
the points of that pool link to.

The pools are objects with a number, the place in the root that they were created for. A
file holds the records that were written to it; the bytes of a record and the paths of
the files are left out, and all points have the size that the ring was made for. A null
pointer that is followed, an index past the end and a read past the end of a file are
steps that do not exist.
-/

namespace Crs.RingPool

open Foundation Handshake

inductive Kind where
  | mem
  | file
deriving DecidableEq

/-- `mem_pool` and `file_pool`. -/
structure Pool (α : Type*) where
  kind : Kind
  records : List α
  nCount : ℕ := 0

namespace Pool

variable {α : Type*}

/-- Whether the pool is full then, and the pool. -/
def push (nFullSize : ℕ) (pool : Pool α) (r : α) : Option (Bool × Pool α) :=
  let full := decide (pool.nCount + 1 = nFullSize)
  match pool.kind with
  | .mem =>
      if pool.nCount < pool.records.length then
        some (full, { pool with
          records := pool.records.set pool.nCount r
          nCount := pool.nCount + 1 })
      else none
  | .file =>
      some (full, { pool with
        records := pool.records.take pool.nCount ++ r :: pool.records.drop (pool.nCount + 1)
        nCount := pool.nCount + 1 })

def get (pool : Pool α) (i : ℕ) : Option α := pool.records[i]?

/-- `file_pool::assign`. The pointers are null if the pools have other kinds. -/
def assign (fp mp : Pool α) : Option (Pool α) :=
  match fp.kind, mp.kind with
  | .file, .mem => some { fp with records := mp.records, nCount := mp.nCount }
  | .file, .file | .mem, _ => none

def clear (pool : Pool α) : Pool α := { pool with nCount := 0 }

end Pool

/-- What a derived class adds: the links of the points, and the virtual functions. -/
structure Client (α X : Type*) where
  link : α → Option ℕ
  release : α → X → Option X
  fixLink : α → ℕ → X → Option X

/-- In `ring_pool` itself the virtual functions are reserved for future use. -/
def Client.reserved {α : Type*} (link : α → Option ℕ) : Client α Unit where
  link := link
  release _ x := some x
  fixLink _ _ x := some x

/-- Where `_swap` is: at `increment_begin_iter`; at the points of the pool that leaves the
window; at the two calls of `get_pool`; at `assign`; at the exchange of the pointers. -/
inductive Stage where
  | beginning
  | releasing
  | fetching
  | assigning (mp fp : ℕ)
  | exchanging
deriving DecidableEq

/-- A `ring_pool` with its producer and its swapper. The indices that the two of them count
with are in `control`, except for the one of the file. While the producer is at its pool,
`writing` has the pointer and the point. -/
structure Ring (α X : Type*) where
  control : Handshake.State
  root : List ℕ
  pool : ℕ → Pool α
  nPool2Swap2 : ℕ
  beginPos : ℕ := 0
  endPos : ℕ := 0
  writing : Option (ℕ × α) := none
  stage : Stage := .beginning
  client : X

/-- The arguments of the constructor, except for the size of a point. -/
structure Config where
  nMemPools : UInt64
  nPoolSize : UInt64
  nRootSize : UInt64

namespace Config

variable (cfg : Config)

def metrix : BitMaskCalculator := .new cfg.nPoolSize cfg.nRootSize

/-- `_nPool2Swap2` at the end of the constructor: the number of pools in memory. -/
def memPools : ℕ :=
  let nMemPools := cfg.nMemPools.toNat
  let n := if cfg.metrix.nRootSize < nMemPools then cfg.metrix.nRootSize else nMemPools
  if n < 2 then 2 else n

theorem memPools_eq : cfg.memPools = max 2 (min cfg.metrix.nRootSize cfg.nMemPools.toNat) := by
  rw [memPools]
  grind

end Config

variable {α X : Type*}

/-- The constructor. A pool in memory is filled with `zero`. -/
def Ring.new (cfg : Config) (zero : α) (client : X) : Ring α X where
  control := Handshake.new cfg.memPools
  root := List.range cfg.metrix.nRootSize
  pool i :=
    if i < cfg.memPools then ⟨.mem, List.replicate cfg.metrix.nPoolSize zero, 0⟩
    else ⟨.file, [], 0⟩
  nPool2Swap2 := cfg.memPools
  client := client

namespace Ring

variable (g : BitMaskCalculator) (c : Client α X)

def idx (s : Ring α X) (i : ℕ) : Option α :=
  s.root[g.rootIdx i]?.bind fun pool => (s.pool pool).get (g.poolIdx i)

/-- The point of the iterator `begin () + i`. -/
def nth (s : Ring α X) (i : ℕ) : Option α := s.idx g ((s.beginPos + i) % 2 ^ digits)

def size (s : Ring α X) : ℕ := g.fullIdx ((s.endPos + (2 ^ digits - s.beginPos)) % 2 ^ digits)

def getPool (s : Ring α X) (nPool : ℕ) : Option ℕ := s.root[nPool &&& g.rootMask]?

/-- The loop of `_swap` from position `i` on; `lnk` is the link of the last point, and
`fuel` a bound for the number of rounds. -/
def releaseRuns (s : Ring α X) (e : ℕ) : ℕ → ℕ → Option ℕ → X → Option X
  | 0, _, _, _ => none
  | fuel + 1, i, lnk, x =>
      if g.fullIdx i = g.fullIdx e then some x
      else
        (s.idx g i).bind fun point =>
          if c.link point = lnk then releaseRuns s e fuel ((i + 1) % 2 ^ digits) lnk x
          else (c.release point x).bind fun x =>
            releaseRuns s e fuel ((i + 1) % 2 ^ digits) (c.link point) x

/-- What `_swap` does about the points of the pool that has left the window. Nobody else
writes to these points, so it is one step here. -/
def releasePool (s : Ring α X) : Option X :=
  let nBeginPos := g.fullIdx ((s.nPool2Swap2 <<< g.rootMaskShift) % 2 ^ digits)
  let nEndPos := g.fullIdx (((s.nPool2Swap2 + 1) <<< g.rootMaskShift) % 2 ^ digits)
  (s.idx g nBeginPos).bind fun first =>
    (s.releaseRuns g c nEndPos (g.capacity + 1) nBeginPos (c.link first) s.client).bind fun x =>
      (s.idx g nEndPos).bind fun e => c.fixLink e nEndPos x

/-- A step of the producer or the thread in its handshake; a record was stored, with the
answer whether its pool is full; the beginning of the window was moved, and the pool that
left the window was released; or something else in `_swap`. -/
inductive Seen (α : Type*) where
  | control (event : Event)
  | stored (point : α) (full : Bool)
  | moved
  | released
  | quiet

/-- The first statement of `push`. -/
def push (s : Ring α X) (point : α) : Option (Seen α × Ring α X) :=
  match s.control.producer with
  | .idle =>
      (s.getPool g s.control.currentPool).bind fun pool =>
        (producerStep g.rootMask false s.control).map fun next =>
          (.control next.1, { s with control := next.2, writing := some (pool, point) })
  | .writing | .advancing | .locking | .resuming | .waking | .counting => none

/-- The other statements of `push`. -/
def produce (s : Ring α X) : Option (Seen α × Ring α X) :=
  match s.control.producer with
  | .idle => none
  | .writing =>
      s.writing.bind fun held =>
        ((s.pool held.1).push g.nPoolSize held.2).bind fun written =>
          (producerStep g.rootMask written.1 s.control).map fun next =>
            (.stored held.2 written.1,
              { s with
                control := next.2
                pool := Function.update s.pool held.1 written.2
                writing := none })
  | .advancing | .locking | .resuming | .waking =>
      (producerStep g.rootMask false s.control).map fun next =>
        (.control next.1, { s with control := next.2 })
  | .counting =>
      (producerStep g.rootMask false s.control).map fun next =>
        (.control next.1, { s with control := next.2, endPos := g.fullIdx (s.endPos + 1) })

/-- `_swap`, except for its last statement. -/
def swap (s : Ring α X) : Option (Seen α × Ring α X) :=
  match s.stage with
  | .beginning =>
      if s.nPool2Swap2 = g.rootIdx s.beginPos then
        some (.moved, { s with
          beginPos :=
            (((s.nPool2Swap2 + 1) &&& g.rootMask) <<< g.rootMaskShift) % 2 ^ digits
          stage := .releasing })
      else some (.quiet, { s with stage := .fetching })
  | .releasing =>
      (s.releasePool g c).map fun client => (.released, { s with client, stage := .fetching })
  | .fetching =>
      (s.getPool g s.control.nPool2Swap).bind fun mp =>
        (s.getPool g s.nPool2Swap2).map fun fp => (.quiet, { s with stage := .assigning mp fp })
  | .assigning mp fp =>
      ((s.pool fp).assign (s.pool mp)).map fun assigned =>
        (.quiet, { s with pool := Function.update s.pool fp assigned, stage := .exchanging })
  | .exchanging =>
      s.root[s.control.nPool2Swap]?.bind fun mp =>
        s.root[s.nPool2Swap2]?.bind fun fp =>
          (swapperStep g.rootMask s.control).map fun next =>
            (.control next.1,
              { s with
                control := next.2
                root := (s.root.set s.control.nPool2Swap fp).set s.nPool2Swap2 mp
                pool := Function.update s.pool mp (s.pool mp).clear
                nPool2Swap2 := (s.nPool2Swap2 + 1) &&& g.rootMask
                stage := .beginning })

/-- The thread. -/
def swapperRun (s : Ring α X) : Option (Seen α × Ring α X) :=
  match s.control.swapper with
  | .working => s.swap g c
  | .checking | .asleep | .stopping | .stirring | .unlocking =>
      (swapperStep g.rootMask s.control).map fun next =>
        (.control next.1, { s with control := next.2 })

/-- The producer calls `push` or goes on with it; the thread goes on; a derived class
changes what is its own. -/
inductive Call (α X : Type*) where
  | push (point : α)
  | producer
  | swapper
  | derived (client : X)

def machine : Machine (Ring α X) (Call α X) (Seen α) where
  step s
    | .push point => s.push g point
    | .producer => s.produce g
    | .swapper => s.swapperRun g c
    | .derived client => some (.quiet, { s with client })

end Ring

end Crs.RingPool
