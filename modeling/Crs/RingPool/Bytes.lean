import Crs.Foundation.Machine
import Crs.Foundation.Records
import Crs.RingPool.Basic

/-!
# The bytes of the pools

A point is packed: its time, its link and its intensities, eight bytes each. A pool in memory is
one array of bytes with a point at each place, and a pool in a file is the contents of a stream.
Both hold what the lists of records hold that the ring works with.

Numbers of eight bytes are taken as they are stored. An access outside of an array, a read behind
the end of a file and a place that a stream cannot be set to are steps that do not exist.
-/

namespace Crs.RingPool

open Foundation Memory

/-- The contents of a `basic_ipoint` with its intensities. -/
structure RawPoint (nData : ℕ) where
  time : UInt64
  link : UInt64
  intensity : Fin nData → UInt64
  deriving DecidableEq

namespace RawPoint

variable {nData : ℕ}

def byteSize (nData : ℕ) : ℕ := 8 * nData + 16

def words (p : RawPoint nData) : List UInt64 := p.time :: p.link :: List.ofFn p.intensity

def wordBytes (word : UInt64) : List UInt8 := bytesOf 8 word.toNat

def bytes (p : RawPoint nData) : List UInt8 := Records.image wordBytes p.words

/-- The word with number `k`. -/
def wordAt (bytes : List UInt8) (k : ℕ) : UInt64 :=
  UInt64.ofNat (valueOf ((bytes.drop (k * 8)).take 8))

def ofBytes (bytes : List UInt8) : RawPoint nData where
  time := wordAt bytes 0
  link := wordAt bytes 1
  intensity i := wordAt bytes (i + 2)

@[simp] theorem length_wordBytes (word : UInt64) : (wordBytes word).length = 8 :=
  length_bytesOf 8 _

@[simp] theorem length_words (p : RawPoint nData) : p.words.length = nData + 2 := by
  simp [words]

@[simp] theorem length_bytes (p : RawPoint nData) : p.bytes.length = byteSize nData := by
  rw [bytes, Records.length_image length_wordBytes, length_words, byteSize]
  ring

theorem ofNat_valueOf_wordBytes (word : UInt64) :
    UInt64.ofNat (valueOf (wordBytes word)) = word := by
  have less : word.toNat < 256 ^ 8 := word.toNat_lt
  rw [wordBytes, valueOf_bytesOf, Nat.mod_eq_of_lt less, UInt64.ofNat_toNat]

theorem wordBytes_ofNat_valueOf {bytes : List UInt8} (sized : bytes.length = 8) :
    wordBytes (UInt64.ofNat (valueOf bytes)) = bytes := by
  have less : valueOf bytes < 2 ^ 64 := by
    have below := valueOf_lt bytes
    rwa [sized] at below
  rw [wordBytes, UInt64.toNat_ofNat_of_lt' less, ← sized, bytesOf_valueOf]

theorem wordAt_bytes (p : RawPoint nData) {k : ℕ} (inside : k < p.words.length) :
    wordAt p.bytes k = p.words[k] := by
  rw [wordAt, bytes, Records.drop_image length_wordBytes, List.drop_eq_getElem_cons inside,
    Records.image, List.flatMap_cons, List.take_left' (length_wordBytes _),
    ofNat_valueOf_wordBytes]

/-- A point is read as it was stored. -/
theorem ofBytes_bytes (p : RawPoint nData) : ofBytes p.bytes = p := by
  have at_k (k : ℕ) (inside : k < nData + 2) :
      wordAt p.bytes k = p.words.get ⟨k, by simpa using inside⟩ :=
    wordAt_bytes p (by simpa using inside)
  refine RawPoint.mk.injEq .. |>.mpr ⟨?_, ?_, funext fun i => ?_⟩
  · exact at_k 0 (by omega)
  · exact at_k 1 (by omega)
  · rw [at_k (i + 2) (by omega)]
    simp [words]

/-- Every array of the size is stored as it was read. -/
theorem bytes_ofBytes {bytes : List UInt8} (sized : bytes.length = byteSize nData) :
    (ofBytes bytes : RawPoint nData).bytes = bytes := by
  have whole : bytes.length = (nData + 2) * 8 := sized.trans (by rw [byteSize]; ring)
  have words : (ofBytes bytes : RawPoint nData).words =
      (List.range (nData + 2)).map (wordAt bytes) := by
    refine List.ext_getElem (by simp) fun k inside _ => ?_
    rw [List.getElem_map, List.getElem_range]
    match k with
    | 0 | 1 => rfl
    | k + 2 => simp [RawPoint.words, ofBytes]
  have parts : ∀ k ∈ List.range (nData + 2),
      wordBytes (wordAt bytes k) = (bytes.drop (k * 8)).take 8 := by
    intro k member
    have inside := List.mem_range.mp member
    refine wordBytes_ofNat_valueOf ?_
    rw [List.length_take, List.length_drop]
    omega
  rw [RawPoint.bytes, words, Records.image, List.flatMap_map, List.flatMap_congr parts,
    Records.flatMap_range, List.take_of_length_le whole.le]

end RawPoint

/-- A point with its array, which is its own or a part of another one. -/
structure CIntensityPoint where
  bLocalStor : Bool
  stor : List UInt8
  deriving DecidableEq

namespace CIntensityPoint

def getByteSize (nData : UInt64) : UInt64 := 8 * (nData - 1) + 24

/-- `operator =`, for another point. An array of its own is replaced by one of the right size. -/
def assign (p o : CIntensityPoint) : CIntensityPoint :=
  if p.bLocalStor ∧ p.stor.length ≠ o.stor.length then { p with stor := o.stor }
  else { p with stor := o.stor.take p.stor.length ++ p.stor.drop o.stor.length }

theorem assign_sized {p o : CIntensityPoint} (same : o.stor.length = p.stor.length) :
    p.assign o = { p with stor := o.stor } := by
  rw [assign, if_neg (fun differs => differs.2 same.symm), ← same, List.take_length, same,
    List.drop_length, List.append_nil]

end CIntensityPoint

/-- `basic_pool`. -/
structure BasicPool where
  nRecordSize : UInt64
  nByteRecordSize : UInt64
  nFullSize : UInt64
  nCount : UInt64 := 0

def BasicPool.new (nData nPoolSize : UInt64) : BasicPool where
  nRecordSize := nData
  nByteRecordSize := CIntensityPoint.getByteSize nData
  nFullSize := nPoolSize

/-- `vContainer` has the places of its points in `pBigStor`. -/
structure MemPool extends BasicPool where
  pBigStor : List UInt8
  vContainer : List UInt64

namespace MemPool

def new (nData nPoolSize : UInt64) : MemPool :=
  let pool := BasicPool.new nData nPoolSize
  { pool with
    pBigStor := List.replicate (nPoolSize * pool.nByteRecordSize).toNat 0
    vContainer := (List.range nPoolSize.toNat).map fun nRec =>
      UInt64.ofNat nRec * pool.nByteRecordSize }

/-- An element of `vContainer`, which shares `pBigStor`. -/
def element (mp : MemPool) (i : UInt64) : Option (UInt64 × CIntensityPoint) :=
  mp.vContainer[i.toNat]?.bind fun place =>
    (read mp.pBigStor place.toNat mp.nByteRecordSize.toNat).map fun stor => (place, ⟨false, stor⟩)

def push (mp : MemPool) (r : CIntensityPoint) : Option (Bool × MemPool) :=
  (mp.element mp.nCount).bind fun (place, p) =>
    (write mp.pBigStor place.toNat (p.assign r).stor).map fun pBigStor =>
      (mp.nCount + 1 == mp.nFullSize, { mp with pBigStor, nCount := mp.nCount + 1 })

def get (mp : MemPool) (i : UInt64) (r : CIntensityPoint) : Option CIntensityPoint :=
  (mp.element i).map fun (_, p) => r.assign p

def clear (mp : MemPool) : MemPool := { mp with nCount := 0 }

end MemPool

/-- `_stream` is the contents of the file. -/
structure FilePool extends BasicPool where
  stream : List UInt8

namespace FilePool

def new (nData nPoolSize : UInt64) : FilePool := { BasicPool.new nData nPoolSize with stream := [] }

/-- The place that a stream is set to is a signed number. -/
def seek (pos : UInt64) : Option ℕ := if pos.toNat < 2 ^ 63 then some pos.toNat else none

/-- A file is filled up with zeros when it is written to behind its end. -/
def overwrite (stream : List UInt8) (pos : ℕ) (bytes : List UInt8) : List UInt8 :=
  stream.take pos ++ List.replicate (pos - stream.length) 0 ++ bytes ++
    stream.drop (pos + bytes.length)

def assign (fp : FilePool) (mp : MemPool) : Option FilePool :=
  (read mp.pBigStor 0 (fp.nFullSize * fp.nByteRecordSize).toNat).map fun bytes =>
    { fp with stream := overwrite fp.stream 0 bytes, nCount := mp.nCount }

def push (fp : FilePool) (r : CIntensityPoint) : Option (Bool × FilePool) :=
  (seek (fp.nCount * fp.nByteRecordSize)).bind fun pos =>
    (read r.stor 0 fp.nByteRecordSize.toNat).map fun bytes =>
      (fp.nCount + 1 == fp.nFullSize,
        { fp with stream := overwrite fp.stream pos bytes, nCount := fp.nCount + 1 })

def get (fp : FilePool) (i : UInt64) (r : CIntensityPoint) : Option CIntensityPoint :=
  (seek (i * fp.nByteRecordSize)).bind fun pos =>
    (read fp.stream pos fp.nByteRecordSize.toNat).bind fun bytes =>
      (write r.stor 0 bytes).map fun stor => { r with stor }

def clear (fp : FilePool) : FilePool := { fp with nCount := 0 }

end FilePool

/-- What a pointer to a `basic_pool` points to. -/
inductive RawPool where
  | mem (mp : MemPool)
  | file (fp : FilePool)

/-- A call on pools that have numbers. -/
inductive RawCall where
  | push (pool : ℕ) (r : CIntensityPoint)
  | get (pool : ℕ) (i : UInt64) (r : CIntensityPoint)
  | assign (fp mp : ℕ)
  | clear (pool : ℕ)

inductive RawSeen (α : Type*) where
  | pushed (full : Bool)
  | got (point : α)
  | quiet
  deriving DecidableEq

def RawSeen.map {α β : Type*} (f : α → β) : RawSeen α → RawSeen β
  | pushed full => pushed full
  | got point => got (f point)
  | quiet => quiet

namespace RawPool

def push (r : CIntensityPoint) : RawPool → Option (Bool × RawPool)
  | mem mp => (mp.push r).map fun next => (next.1, mem next.2)
  | file fp => (fp.push r).map fun next => (next.1, file next.2)

def get (i : UInt64) (r : CIntensityPoint) : RawPool → Option CIntensityPoint
  | mem mp => mp.get i r
  | file fp => fp.get i r

/-- The two pointers are cast, and must not be null then. -/
def assign : RawPool → RawPool → Option RawPool
  | file fp, mem mp => (fp.assign mp).map file
  | file _, file _ | mem _, _ => none

def clear : RawPool → RawPool
  | mem mp => mem mp.clear
  | file fp => file fp.clear

def machine : Machine (ℕ → RawPool) RawCall (RawSeen CIntensityPoint) where
  step s
    | .push pool r => ((s pool).push r).map fun next =>
        (.pushed next.1, Function.update s pool next.2)
    | .get pool i r => ((s pool).get i r).map fun r => (.got r, s)
    | .assign fp mp => ((s fp).assign (s mp)).map fun next => (.quiet, Function.update s fp next)
    | .clear pool => some (.quiet, Function.update s pool (s pool).clear)

/-- The pools of a ring, of which the first `memPools` are in memory. -/
def new (nData nPoolSize : UInt64) (memPools : ℕ) (i : ℕ) : RawPool :=
  if i < memPools then mem (.new nData nPoolSize) else file (.new nData nPoolSize)

end RawPool

variable (nData nPoolSize : UInt64)

/-- The same calls on lists of records. -/
def recordMachine : Machine (ℕ → Pool (RawPoint nData.toNat)) RawCall
    (RawSeen (RawPoint nData.toNat)) where
  step s
    | .push pool r =>
        ((s pool).push nPoolSize.toNat (RawPoint.ofBytes r.stor)).map fun next =>
          (.pushed next.1, Function.update s pool next.2)
    | .get pool i _ => ((s pool).get i.toNat).map fun point => (.got point, s)
    | .assign fp mp => ((s fp).assign (s mp)).map fun next => (.quiet, Function.update s fp next)
    | .clear pool => some (.quiet, Function.update s pool (s pool).clear)

/-- The pools as a ring is made with them, with zeros in memory. -/
def newRecords (memPools : ℕ) (i : ℕ) : Pool (RawPoint nData.toNat) :=
  if i < memPools then
    ⟨.mem, List.replicate nPoolSize.toNat (RawPoint.ofBytes
      (List.replicate (RawPoint.byteSize nData.toNat) 0)), 0⟩
  else ⟨.file, [], 0⟩

/-- The arrays of a record and of a pool can be allocated. -/
structure Allocated : Prop where
  record : RawPoint.byteSize nData.toNat < 2 ^ 63
  pool : nPoolSize.toNat * RawPoint.byteSize nData.toNat < 2 ^ 63

namespace RawPool

def kind : RawPool → Kind
  | mem _ => .mem
  | file _ => .file

def basic : RawPool → BasicPool
  | mem mp => mp.toBasicPool
  | file fp => fp.toBasicPool

def contents : RawPool → List UInt8
  | mem mp => mp.pBigStor
  | file fp => fp.stream

/-- How the ring calls its pools: with points of its size, with an index inside of a pool, and
without a push into a full one. -/
def Proper (s : ℕ → RawPool) : RawCall → Prop
  | .push pool r => r.stor.length = RawPoint.byteSize nData.toNat ∧
      (s pool).basic.nCount < nPoolSize
  | .get _ i r => r.stor.length = RawPoint.byteSize nData.toNat ∧ i < nPoolSize
  | .assign _ _ | .clear _ => True

/-- The bytes of a pool are those of the records. -/
structure Shows (raw : RawPool) (p : Pool (RawPoint nData.toNat)) : Prop where
  kind : p.kind = raw.kind
  nByteRecordSize : raw.basic.nByteRecordSize = CIntensityPoint.getByteSize nData
  nFullSize : raw.basic.nFullSize = nPoolSize
  contents : raw.contents = Records.image RawPoint.bytes p.records
  count : raw.basic.nCount.toNat = p.nCount
  within : p.nCount ≤ p.records.length
  fits : p.records.length ≤ nPoolSize.toNat
  places : ∀ mp, raw = .mem mp → p.records.length = nPoolSize.toNat ∧
    mp.vContainer = (MemPool.new nData nPoolSize).vContainer

end RawPool

section Sizes

variable {nData nPoolSize : UInt64}

theorem toNat_getByteSize (small : RawPoint.byteSize nData.toNat < 2 ^ 63) :
    (CIntensityPoint.getByteSize nData).toNat = RawPoint.byteSize nData.toNat := by
  have less := nData.toNat_lt
  rw [RawPoint.byteSize] at small ⊢
  rw [CIntensityPoint.getByteSize, UInt64.toNat_add, UInt64.toNat_mul, UInt64.toNat_sub]
  show (8 * ((2 ^ 64 - 1 + nData.toNat) % 2 ^ 64) % 2 ^ 64 + 24) % 2 ^ 64 = _
  omega

variable (allocated : Allocated nData nPoolSize)

include allocated

/-- The place of a point in a pool. -/
theorem toNat_place {i : UInt64} (inside : i.toNat ≤ nPoolSize.toNat) :
    (i * CIntensityPoint.getByteSize nData).toNat = i.toNat * RawPoint.byteSize nData.toNat := by
  have least := Nat.mul_le_mul_right (RawPoint.byteSize nData.toNat) inside
  have most := allocated.pool
  rw [UInt64.toNat_mul, toNat_getByteSize allocated.record]
  exact Nat.mod_eq_of_lt (by omega)

end Sizes

namespace RawPool.Shows

variable {nData nPoolSize : UInt64} {p : Pool (RawPoint nData.toNat)} {mp mp' : MemPool}
  {fp : FilePool} {raw : RawPool} {r : CIntensityPoint} {i : UInt64}
  (allocated : Allocated nData nPoolSize)

/-- Whether the pool is full after a push. -/
theorem full_eq (shows : Shows nData nPoolSize raw p) (room : raw.basic.nCount < nPoolSize) :
    (raw.basic.nCount + 1 == raw.basic.nFullSize) = decide (p.nCount + 1 = nPoolSize.toNat) ∧
      (raw.basic.nCount + 1).toNat = p.nCount + 1 := by
  have less : raw.basic.nCount.toNat < nPoolSize.toNat := UInt64.lt_iff_toNat_lt.mp room
  have below := nPoolSize.toNat_lt
  have next : (raw.basic.nCount + 1).toNat = p.nCount + 1 := by
    rw [UInt64.toNat_add, shows.count]
    show (p.nCount + 1) % 2 ^ 64 = _
    have same := shows.count
    omega
  refine ⟨?_, next⟩
  rw [shows.nFullSize, ← next, Bool.beq_eq_decide_eq]
  exact decide_eq_decide.mpr UInt64.toNat_inj.symm

include allocated

theorem element_eq (shows : Shows nData nPoolSize (.mem mp) p) (inside : i < nPoolSize) :
    mp.element i = (p.records[i.toNat]?).map fun point =>
      (i * CIntensityPoint.getByteSize nData, ⟨false, point.bytes⟩) := by
  have less : i.toNat < nPoolSize.toNat := UInt64.lt_iff_toNat_lt.mp inside
  obtain ⟨length, places⟩ := shows.places mp rfl
  have size : mp.nByteRecordSize = CIntensityPoint.getByteSize nData := shows.nByteRecordSize
  have stored : mp.pBigStor = Records.image RawPoint.bytes p.records := shows.contents
  have place : mp.vContainer[i.toNat]? = some (i * CIntensityPoint.getByteSize nData) := by
    rw [places]
    simp [MemPool.new, BasicPool.new, less]
  rw [MemPool.element, place, Option.bind_some, size, stored, toNat_place allocated less.le,
    toNat_getByteSize allocated.record,
    Records.read_image RawPoint.length_bytes (Nat.succ_pos _), Option.map_map]
  rfl

/-- A point of the right size is stored with all of its bytes. -/
theorem push_mem (shows : Shows nData nPoolSize (.mem mp) p)
    (sized : r.stor.length = RawPoint.byteSize nData.toNat) (room : mp.nCount < nPoolSize) :
    ∃ full mp' p', mp.push r = some (full, mp') ∧
      p.push nPoolSize.toNat (.ofBytes r.stor) = some (full, p') ∧
      Shows nData nPoolSize (.mem mp') p' := by
  have count : mp.nCount.toNat = p.nCount := shows.count
  have kind : p.kind = .mem := shows.kind
  obtain ⟨length, places⟩ := shows.places mp rfl
  have inside : p.nCount < p.records.length := by
    rw [length, ← count]
    exact UInt64.lt_iff_toNat_lt.mp room
  obtain ⟨full, next⟩ := shows.full_eq room
  have stored : (CIntensityPoint.assign ⟨false, (p.records[p.nCount]).bytes⟩ r).stor =
      (RawPoint.ofBytes r.stor : RawPoint nData.toNat).bytes := by
    rw [CIntensityPoint.assign_sized (sized.trans (RawPoint.length_bytes _).symm),
      RawPoint.bytes_ofBytes sized]
  have writes : write mp.pBigStor (p.nCount * RawPoint.byteSize nData.toNat)
      (RawPoint.ofBytes r.stor : RawPoint nData.toNat).bytes =
        some (Records.image RawPoint.bytes (p.records.set p.nCount (.ofBytes r.stor))) := by
    rw [show mp.pBigStor = Records.image RawPoint.bytes p.records from shows.contents]
    exact Records.write_image RawPoint.length_bytes inside
  refine ⟨mp.nCount + 1 == mp.nFullSize, { mp with
      pBigStor := Records.image RawPoint.bytes (p.records.set p.nCount (.ofBytes r.stor))
      nCount := mp.nCount + 1 }, { p with
      records := p.records.set p.nCount (.ofBytes r.stor)
      nCount := p.nCount + 1 }, ?_, ?_, ?_⟩
  · rw [MemPool.push, shows.element_eq allocated room, count, List.getElem?_eq_getElem inside]
    simp only [Option.map_some, Option.bind_some]
    rw [stored, toNat_place allocated (count ▸ length ▸ inside.le), count, writes, Option.map_some]
  · simp only [Pool.push, kind, if_pos inside]
    exact congrArg (fun b => some (b, _)) full.symm
  · exact
      { kind := kind
        nByteRecordSize := shows.nByteRecordSize
        nFullSize := shows.nFullSize
        contents := rfl
        count := next
        within := by rw [List.length_set]; exact inside
        fits := by simpa using shows.fits
        places := by
          rintro _ ⟨⟩
          exact ⟨by simpa using length, places⟩ }

/-- A stream that is not too long can be set to every place in it. -/
theorem seek_eq (shows : Shows nData nPoolSize (.file fp) p) (inside : i.toNat ≤ nPoolSize.toNat) :
    FilePool.seek (i * fp.nByteRecordSize) = some (i.toNat * RawPoint.byteSize nData.toNat) := by
  have least := Nat.mul_le_mul_right (RawPoint.byteSize nData.toNat) inside
  have size : fp.nByteRecordSize = CIntensityPoint.getByteSize nData := shows.nByteRecordSize
  rw [FilePool.seek, size, toNat_place allocated inside,
    if_pos (least.trans_lt allocated.pool)]

theorem push_file (shows : Shows nData nPoolSize (.file fp) p)
    (sized : r.stor.length = RawPoint.byteSize nData.toNat) (room : fp.nCount < nPoolSize) :
    ∃ full fp' p', fp.push r = some (full, fp') ∧
      p.push nPoolSize.toNat (.ofBytes r.stor) = some (full, p') ∧
      Shows nData nPoolSize (.file fp') p' := by
  have count : fp.nCount.toNat = p.nCount := shows.count
  have kind : p.kind = .file := shows.kind
  have size : fp.nByteRecordSize = CIntensityPoint.getByteSize nData := shows.nByteRecordSize
  have less : fp.nCount.toNat < nPoolSize.toNat := UInt64.lt_iff_toNat_lt.mp room
  have within := shows.within
  have fits := shows.fits
  obtain ⟨full, next⟩ := shows.full_eq room
  have stored : fp.stream = Records.image RawPoint.bytes p.records := shows.contents
  have reads : read r.stor 0 fp.nByteRecordSize.toNat = some r.stor := by
    rw [size, toNat_getByteSize allocated.record, ← sized, read_of_le (Nat.zero_add _).le,
      List.drop_zero, List.take_length]
  have writes : FilePool.overwrite fp.stream (p.nCount * RawPoint.byteSize nData.toNat) r.stor =
      Records.image RawPoint.bytes
        (p.records.take p.nCount ++ .ofBytes r.stor :: p.records.drop (p.nCount + 1)) := by
    have long : p.nCount * RawPoint.byteSize nData.toNat ≤ fp.stream.length := by
      rw [stored, Records.length_image RawPoint.length_bytes]
      exact Nat.mul_le_mul_right _ within
    have encoded : r.stor = RawPoint.bytes (.ofBytes r.stor) := (RawPoint.bytes_ofBytes sized).symm
    rw [FilePool.overwrite, Nat.sub_eq_zero_of_le long, List.replicate_zero, List.append_nil,
      sized, stored, ← Records.overwrite RawPoint.length_bytes, ← encoded]
  refine ⟨fp.nCount + 1 == fp.nFullSize, { fp with
      stream := Records.image RawPoint.bytes
        (p.records.take p.nCount ++ .ofBytes r.stor :: p.records.drop (p.nCount + 1))
      nCount := fp.nCount + 1 }, { p with
      records := p.records.take p.nCount ++ .ofBytes r.stor :: p.records.drop (p.nCount + 1)
      nCount := p.nCount + 1 }, ?_, ?_, ?_⟩
  · rw [FilePool.push, shows.seek_eq allocated less.le, Option.bind_some, reads, Option.map_some,
      count, writes]
  · simp only [Pool.push, kind]
    exact congrArg (fun b => some (b, _)) full.symm
  · have length : (p.records.take p.nCount ++
        RawPoint.ofBytes r.stor :: p.records.drop (p.nCount + 1)).length =
        max p.records.length (p.nCount + 1) := by
      rw [List.length_append, List.length_take, List.length_cons, List.length_drop]
      omega
    exact
      { kind := kind
        nByteRecordSize := shows.nByteRecordSize
        nFullSize := shows.nFullSize
        contents := rfl
        count := next
        within := by rw [length]; exact le_max_right _ _
        fits := by rw [length]; omega
        places := nofun }

/-- Whatever pool it is: what is read is the record with the index. -/
theorem get_eq (shows : Shows nData nPoolSize raw p)
    (sized : r.stor.length = RawPoint.byteSize nData.toNat) (inside : i < nPoolSize) :
    raw.get i r = (p.get i.toNat).map fun point => { r with stor := point.bytes } := by
  have less : i.toNat < nPoolSize.toNat := UInt64.lt_iff_toNat_lt.mp inside
  have sameSize (point : RawPoint nData.toNat) : point.bytes.length = r.stor.length := by
    rw [sized, RawPoint.length_bytes]
  cases raw with
  | mem mp =>
    rw [RawPool.get, MemPool.get, shows.element_eq allocated inside, Option.map_map, Pool.get]
    refine congrArg (fun f => p.records[i.toNat]?.map f) (funext fun point => ?_)
    exact CIntensityPoint.assign_sized (sameSize point)
  | file fp =>
    have size : fp.nByteRecordSize = CIntensityPoint.getByteSize nData := shows.nByteRecordSize
    have stored : fp.stream = Records.image RawPoint.bytes p.records := shows.contents
    have writes (point : RawPoint nData.toNat) : write r.stor 0 point.bytes = some point.bytes := by
      rw [write_of_le (by rw [sameSize, Nat.zero_add]), sameSize, Nat.zero_add, List.drop_length]
      simp
    rw [RawPool.get, FilePool.get, shows.seek_eq allocated less.le, Option.bind_some, size,
      toNat_getByteSize allocated.record, stored,
      Records.read_image RawPoint.length_bytes (Nat.succ_pos _), Pool.get]
    cases p.records[i.toNat]? with
    | none => rfl
    | some point => simp [writes]

/-- A file that gets a pool in memory has its bytes, and no others. -/
theorem assign_file {q : Pool (RawPoint nData.toNat)}
    (shows : Shows nData nPoolSize (.file fp) p) (shows' : Shows nData nPoolSize (.mem mp) q) :
    ∃ fp', fp.assign mp = some fp' ∧
      Shows nData nPoolSize (.file fp') { p with records := q.records, nCount := q.nCount } := by
  have size : fp.nByteRecordSize = CIntensityPoint.getByteSize nData := shows.nByteRecordSize
  have full : fp.nFullSize = nPoolSize := shows.nFullSize
  have stored : fp.stream = Records.image RawPoint.bytes p.records := shows.contents
  have stored' : mp.pBigStor = Records.image RawPoint.bytes q.records := shows'.contents
  have length : mp.pBigStor.length = nPoolSize.toNat * RawPoint.byteSize nData.toNat := by
    rw [stored', Records.length_image RawPoint.length_bytes, (shows'.places mp rfl).1]
  have reads : read mp.pBigStor 0 (fp.nFullSize * fp.nByteRecordSize).toNat = some mp.pBigStor := by
    rw [size, full, toNat_place allocated le_rfl, ← length, read_of_le (Nat.zero_add _).le,
      List.drop_zero, List.take_length]
  have writes : FilePool.overwrite fp.stream 0 mp.pBigStor = mp.pBigStor := by
    have short : fp.stream.length ≤ 0 + mp.pBigStor.length := by
      rw [length, stored, Records.length_image RawPoint.length_bytes, Nat.zero_add]
      exact Nat.mul_le_mul_right _ shows.fits
    rw [FilePool.overwrite, List.drop_of_length_le short]
    simp
  refine ⟨{ fp with stream := mp.pBigStor, nCount := mp.nCount }, ?_, ?_⟩
  · rw [FilePool.assign, reads, Option.map_some, writes]
  · exact
      { kind := shows.kind
        nByteRecordSize := shows.nByteRecordSize
        nFullSize := shows.nFullSize
        contents := shows'.contents
        count := shows'.count
        within := shows'.within
        fits := shows'.fits
        places := nofun }

omit allocated in
theorem clear (shows : Shows nData nPoolSize raw p) : Shows nData nPoolSize raw.clear p.clear := by
  cases raw with
  | mem mp =>
    exact
      { kind := shows.kind
        nByteRecordSize := shows.nByteRecordSize
        nFullSize := shows.nFullSize
        contents := shows.contents
        count := rfl
        within := Nat.zero_le _
        fits := shows.fits
        places := by
          rintro _ ⟨⟩
          exact shows.places mp rfl }
  | file fp =>
    exact
      { kind := shows.kind
        nByteRecordSize := shows.nByteRecordSize
        nFullSize := shows.nFullSize
        contents := shows.contents
        count := rfl
        within := Nat.zero_le _
        fits := shows.fits
        places := nofun }

end RawPool.Shows

namespace RawPool

variable {nData nPoolSize : UInt64} {s s' : ℕ → RawPool} {t : ℕ → Pool (RawPoint nData.toNat)}
  {a : RawCall} {o : RawSeen CIntensityPoint} {history : List (RawCall × RawSeen CIntensityPoint)}
  {memPools : ℕ}

/-- The answer of a call, as records. -/
def answer (nData : ℕ) : RawSeen CIntensityPoint → RawSeen (RawPoint nData) :=
  RawSeen.map fun r => .ofBytes r.stor

theorem shows_update {pool : ℕ} {raw : RawPool} {p : Pool (RawPoint nData.toNat)}
    (shows : ∀ i, Shows nData nPoolSize (s i) (t i)) (next : Shows nData nPoolSize raw p) (i : ℕ) :
    Shows nData nPoolSize (Function.update s pool raw i) (Function.update t pool p i) := by
  obtain rfl | other := eq_or_ne i pool
  · simpa using next
  · simpa [other] using shows i

/-- A proper call exists for the bytes just if it does for the records, with the same answer. -/
theorem step_refines (allocated : Allocated nData nPoolSize)
    (shows : ∀ i, Shows nData nPoolSize (s i) (t i)) (proper : Proper nData nPoolSize s a) :
    (machine.step s a = none ∧ (recordMachine nData nPoolSize).step t a = none) ∨
      ∃ o s' t', machine.step s a = some (o, s') ∧
        (recordMachine nData nPoolSize).step t a = some (answer nData.toNat o, t') ∧
        ∀ i, Shows nData nPoolSize (s' i) (t' i) := by
  cases a with
  | push pool r =>
    obtain ⟨sized, room⟩ := proper
    obtain ⟨full, raw, p, pushes, pushes', next⟩ : ∃ full raw p,
        (s pool).push r = some (full, raw) ∧
        (t pool).push nPoolSize.toNat (.ofBytes r.stor) = some (full, p) ∧
        Shows nData nPoolSize raw p := by
      have here := shows pool
      cases raw : s pool with
      | mem mp =>
        rw [raw] at here room
        obtain ⟨full, mp', p, pushes, pushes', next⟩ := here.push_mem allocated sized room
        exact ⟨full, mem mp', p, by rw [RawPool.push, pushes, Option.map_some], pushes', next⟩
      | file fp =>
        rw [raw] at here room
        obtain ⟨full, fp', p, pushes, pushes', next⟩ := here.push_file allocated sized room
        exact ⟨full, file fp', p, by rw [RawPool.push, pushes, Option.map_some], pushes', next⟩
    exact .inr ⟨.pushed full, Function.update s pool raw, Function.update t pool p,
      by simp only [machine, pushes, Option.map_some],
      by simp only [recordMachine, pushes', Option.map_some]; rfl, shows_update shows next⟩
  | get pool i r =>
    obtain ⟨sized, inside⟩ := proper
    have reads := (shows pool).get_eq allocated sized inside
    cases found : (t pool).get i.toNat with
    | none =>
      refine .inl ⟨?_, ?_⟩
      · simp only [machine, reads, found, Option.map_none]
      · simp only [recordMachine, found, Option.map_none]
    | some point =>
      refine .inr ⟨.got { r with stor := point.bytes }, s, t, ?_, ?_, shows⟩
      · simp only [machine, reads, found, Option.map_some]
      · simp only [recordMachine, found, Option.map_some, answer, RawSeen.map,
          RawPoint.ofBytes_bytes]
  | assign fp mp =>
    have target := shows fp
    have source := shows mp
    have kind := target.kind
    have kind' := source.kind
    cases raw : s fp with
    | mem _ =>
      rw [raw] at kind
      refine .inl ⟨by simp only [machine, raw, RawPool.assign, Option.map_none], ?_⟩
      simp only [recordMachine, Pool.assign, kind, RawPool.kind, Option.map_none]
    | file fp' =>
      rw [raw] at kind target
      cases raw' : s mp with
      | file _ =>
        rw [raw'] at kind'
        refine .inl ⟨by simp only [machine, raw, raw', RawPool.assign, Option.map_none], ?_⟩
        simp only [recordMachine, Pool.assign, kind, kind', RawPool.kind, Option.map_none]
      | mem mp' =>
        rw [raw'] at kind' source
        obtain ⟨fp'', assigns, next⟩ := target.assign_file allocated source
        refine .inr ⟨.quiet, Function.update s fp (file fp''), Function.update t fp
          { t fp with records := (t mp).records, nCount := (t mp).nCount }, ?_, ?_,
          shows_update shows next⟩
        · simp only [machine, raw, raw', RawPool.assign, assigns, Option.map_some]
        · simp only [recordMachine, Pool.assign, kind, kind', RawPool.kind, Option.map_some]
          rfl
  | clear pool =>
    exact .inr ⟨.quiet, Function.update s pool (s pool).clear,
      Function.update t pool (t pool).clear, rfl, rfl, shows_update shows (shows pool).clear⟩

theorem new_shows (allocated : Allocated nData nPoolSize) (i : ℕ) :
    Shows nData nPoolSize (new nData nPoolSize memPools i)
      (newRecords nData nPoolSize memPools i) := by
  by_cases memory : i < memPools
  · rw [new, if_pos memory, newRecords, if_pos memory]
    exact
      { kind := rfl
        nByteRecordSize := rfl
        nFullSize := rfl
        contents := by
          have size := toNat_place allocated (i := nPoolSize) le_rfl
          rw [Records.image, List.flatMap_replicate,
            RawPoint.bytes_ofBytes List.length_replicate, List.flatten_replicate_replicate, ← size]
          rfl
        count := rfl
        within := Nat.zero_le _
        fits := List.length_replicate.le
        places := by
          rintro _ ⟨⟩
          exact ⟨List.length_replicate, rfl⟩ }
  · rw [new, if_neg memory, newRecords, if_neg memory]
    exact
      { kind := rfl
        nByteRecordSize := rfl
        nFullSize := rfl
        contents := rfl
        count := rfl
        within := le_rfl
        fits := Nat.zero_le _
        places := fun mp none => by cases none }

/-- Every run of the pools with their bytes is one of the lists of records that the ring works
with, with the same answers; and no proper call fails for the bytes alone. -/
theorem run_stores_records (allocated : Allocated nData nPoolSize)
    (run : machine.Run (new nData nPoolSize memPools) history s)
    (proper : machine.BeforeEach (new nData nPoolSize memPools)
      (fun _ s a => Proper nData nPoolSize s a) history) :
    ∃ t, (recordMachine nData nPoolSize).Run (newRecords nData nPoolSize memPools)
        (history.map fun e => (e.1, answer nData.toNat e.2)) t ∧
      (∀ i, Shows nData nPoolSize (s i) (t i)) ∧
      ∀ a, Proper nData nPoolSize s a → ((machine.step s a).isSome ↔
        ((recordMachine nData nPoolSize).step t a).isSome) := by
  suffices related : ∃ t, (recordMachine nData nPoolSize).Run (newRecords nData nPoolSize memPools)
      (history.map fun e => (e.1, answer nData.toNat e.2)) t ∧
      ∀ i, Shows nData nPoolSize (s i) (t i) by
    obtain ⟨t, run', shows⟩ := related
    refine ⟨t, run', shows, fun a proper => ?_⟩
    obtain ⟨none, none'⟩ | ⟨o, s', t', steps, steps', -⟩ := step_refines allocated shows proper
    · simp [none, none']
    · simp [steps, steps']
  induction run with
  | nil => exact ⟨_, .nil, new_shows allocated⟩
  | @snoc history u v a o earlier step ih =>
    obtain ⟨before, now⟩ := (Machine.beforeEach_snoc earlier).mp proper
    obtain ⟨t, run', shows⟩ := ih before
    obtain ⟨none, -⟩ | ⟨o', s', t', steps, steps', next⟩ := step_refines allocated shows now
    · rw [step] at none
      cases none
    · rw [step] at steps
      obtain ⟨rfl, rfl⟩ := by simpa using steps
      refine ⟨t', ?_, next⟩
      rw [List.map_append]
      exact run'.snoc steps'

instance (s : ℕ → RawPool) (a : RawCall) : Decidable (Proper nData nPoolSize s a) :=
  match a with
  | .push _ _ => inferInstanceAs (Decidable (_ ∧ _))
  | .get _ _ _ => inferInstanceAs (Decidable (_ ∧ _))
  | .assign _ _ | .clear _ => .isTrue trivial

/-- A point of one intensity, with its own array. -/
private def testPoint (value : UInt8) : CIntensityPoint := ⟨true, List.replicate 24 value⟩

/-- Two points fill a pool in memory, which is copied to a file. The second one is read there. -/
theorem run_stores_records_two :
    ∃ (history : List (RawCall × RawSeen CIntensityPoint)) (t : ℕ → Pool (RawPoint 1)),
      (recordMachine 1 2).Run (newRecords 1 2 1)
        (history.map fun e => (e.1, answer 1 e.2)) t ∧
      history.getLast?.map (fun e => e.2) = some (.got (testPoint 8)) := by
  have computed : ((machine.guard (Proper 1 2)).exec (new 1 2 1)
      [.push 0 (testPoint 7), .push 0 (testPoint 8), .assign 1 0, .clear 0,
        .get 1 1 (testPoint 0)]).map (fun r => r.1.getLast?.map fun e => e.2) =
      some (some (.got (testPoint 8))) := by decide +kernel
  obtain ⟨⟨history, s⟩, executed, last⟩ := Option.map_eq_some_iff.mp computed
  obtain ⟨run, proper⟩ := Machine.run_of_guard (Machine.run_of_exec executed)
  have allocated : Allocated 1 2 := ⟨by decide, by decide⟩
  obtain ⟨t, run', -⟩ := run_stores_records allocated run proper
  exact ⟨history, t, run', last⟩

end RawPool

end Crs.RingPool
