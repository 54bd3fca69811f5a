import Crs.Ude.PacketSizes

/-!
# The elements of a packet

`byte`, `word`, `value` and `int64` are four views of one block of memory, each with a check of
its own. The block is the payload, as long as the header says; a view cuts it into elements of
one width, and an element is a reference, so it is read and written in place. A double is
here the 64 bits that stand for it.
-/

namespace Crs.Ude

open Foundation

/-- The views of the contents. -/
inductive View where
  | byte
  | word
  | value
  | int64
  deriving DecidableEq

/-- The size of an element. -/
def View.width : View → Nat
  | .byte => 1
  | .word => 2
  | .value | .int64 => 8

/-- The exception for an index outside. -/
def View.failure : View → Failure
  | .byte => .rangeError "cTalkPacket::_byte_range"
  | .word => .rangeError "cTalkPacket::_word_range"
  | .value => .rangeError "cTalkPacket::_value_range"
  | .int64 => .rangeError "cTalkPacket::_int64_range"

namespace TalkPacket

def range (p : TalkPacket) : View → UInt32 → Except Failure UInt32
  | .byte => p.byteRange
  | .word => p.wordRange
  | .value => p.valueRange
  | .int64 => p.int64Range

/-- The memory of an element. -/
def element (p : TalkPacket) (view : View) (idx : UInt32) : Except Failure (List UInt8) := do
  let idx ← p.range view idx
  inBounds (Memory.read p.contents (headerSize + view.width * idx.toNat) view.width)

/-- An assignment to an element. -/
def setElement (p : TalkPacket) (view : View) (idx : UInt32) (bytes : List UInt8) :
    Except Failure TalkPacket := do
  let idx ← p.range view idx
  let contents ← inBounds (Memory.write p.contents (headerSize + view.width * idx.toNat) bytes)
  return { p with contents }

def byte (p : TalkPacket) (idx : UInt32) : Except Failure UInt8 :=
  (p.element .byte idx).map fun bytes => .ofNat (Memory.valueOf bytes)

def word (p : TalkPacket) (idx : UInt32) : Except Failure UInt16 :=
  (p.element .word idx).map fun bytes => .ofNat (Memory.valueOf bytes)

def value (p : TalkPacket) (idx : UInt32) : Except Failure UInt64 :=
  (p.element .value idx).map fun bytes => .ofNat (Memory.valueOf bytes)

def int64 (p : TalkPacket) (idx : UInt32) : Except Failure UInt64 :=
  (p.element .int64 idx).map fun bytes => .ofNat (Memory.valueOf bytes)

def setByte (p : TalkPacket) (idx : UInt32) (byte : UInt8) : Except Failure TalkPacket :=
  p.setElement .byte idx (Memory.bytesOf 1 byte.toNat)

def setWord (p : TalkPacket) (idx : UInt32) (word : UInt16) : Except Failure TalkPacket :=
  p.setElement .word idx (Memory.bytesOf 2 word.toNat)

def setValue (p : TalkPacket) (idx : UInt32) (bits : UInt64) : Except Failure TalkPacket :=
  p.setElement .value idx (Memory.bytesOf 8 bits.toNat)

def setInt64 (p : TalkPacket) (idx : UInt32) (bits : UInt64) : Except Failure TalkPacket :=
  p.setElement .int64 idx (Memory.bytesOf 8 bits.toNat)

/-- The bytes behind the header, as many as it says. -/
def payload (p : TalkPacket) : List UInt8 :=
  match p.byteSize with
  | .ok sz => (p.contents.drop headerSize).take sz.toNat
  | .error _ => []

variable {p q : TalkPacket} {view : View} {idx sz : UInt32} {bytes : List UInt8}

theorem View.width_pos (view : View) : 0 < view.width := by
  cases view <;> decide

/-- All four checks compare with the number of whole elements. -/
theorem range_eq (told : p.byteSize = .ok sz) (view : View) (idx : UInt32) :
    p.range view idx =
      if sz.toNat / view.width ≤ idx.toNat then .error view.failure else .ok idx := by
  have compare : ∀ (what : String) (limit : UInt32) (count : Nat), limit.toNat = count →
      checkRange what (.ok limit) idx =
        if count ≤ idx.toNat then .error (.rangeError what) else .ok idx := by
    rintro what limit - rfl
    simp only [checkRange, bind, Except.bind, UInt32.le_iff_toNat_le]
  cases view with
  | byte =>
    rw [range, byteRange, told]
    exact compare _ sz _ (Nat.div_one _).symm
  | word =>
    rw [range, wordRange, wordSize, told]
    exact compare _ (sz / 2) _ (UInt32.toNat_div sz 2)
  | value =>
    rw [range, valueRange, valueSize, told]
    exact compare _ (sz / 8) _ (UInt32.toNat_div sz 8)
  | int64 =>
    rw [range, int64Range, int64Size, told]
    exact compare _ (sz / 8) _ (UInt32.toNat_div sz 8)

/-- A packet whose memory is a header and a body, with what the header promises. -/
structure Split (p : TalkPacket) (header body : List UInt8) (sz : UInt32) : Prop where
  whole : p.contents = header ++ body
  ten : header.length = headerSize
  told : p.byteSize = .ok sz
  inside : sz.toNat ≤ body.length
  payload : p.payload = body.take sz.toNat

theorem Sound.split (sound : Sound p) : ∃ header body sz, Split p header body sz := by
  obtain ⟨sz, told, promised⟩ := sound.promised
  rw [← sound.allocated] at promised
  refine ⟨p.contents.take headerSize, p.contents.drop headerSize, sz,
    (List.take_append_drop _ _).symm, ?_, told, ?_, ?_⟩
  · rw [List.length_take]
    omega
  · rw [List.length_drop]
    omega
  · rw [TalkPacket.payload, told]

/-- The promise stands in the header, so another body of the same length is as good. -/
theorem Split.replace {header body body' : List UInt8} (sound : Sound p)
    (split : Split p header body sz) (same : body'.length = body.length) :
    Sound ⟨p.size, header ++ body'⟩ ∧ Split ⟨p.size, header ++ body'⟩ header body' sz := by
  obtain ⟨whole, ten, told, inside, -⟩ := split
  have front : ∀ tail : List UInt8, Memory.read (header ++ tail) 0 4 = some (header.take 4) := by
    intro tail
    simp only [headerSize] at ten
    rw [Memory.read_of_le (by rw [List.length_append]; omega), List.drop_zero,
      List.take_append_of_le_length (by omega)]
  have told' : (⟨p.size, header ++ body'⟩ : TalkPacket).byteSize = .ok sz := by
    rw [byteSize, whole, front] at told
    rw [byteSize, front, told]
  have allocated : (header ++ body').length = p.rawSize.toNat := by
    rw [← sound.allocated, whole, List.length_append, List.length_append, same]
  refine ⟨sound_of_promised allocated told' ?_, rfl, ten, told', by omega, ?_⟩
  · show _ ≤ p.rawSize.toNat
    rw [← allocated, List.length_append]
    omega
  · rw [TalkPacket.payload, told']
    simp only [← ten, List.drop_left]

theorem Sound.length_payload (sound : Sound p) (told : p.byteSize = .ok sz) :
    p.payload.length = sz.toNat := by
  obtain ⟨header, body, sz', -, -, told', inside, payload⟩ := sound.split
  obtain rfl := Except.ok.inj (told.symm.trans told')
  rw [payload, List.length_take, Nat.min_eq_left inside]

/-- An accepted element lies in the payload. -/
theorem element_inside {count : Nat} (accepted : ¬ sz.toNat / view.width ≤ count) :
    view.width * count + view.width ≤ sz.toNat := by
  have whole := Nat.div_mul_le_self sz.toNat view.width
  have next := Nat.mul_le_mul_left view.width (Nat.lt_of_not_le accepted)
  rw [Nat.mul_succ, Nat.mul_comm _ (_ / _)] at next
  omega

/-- An element is read from the payload. -/
theorem element_eq (sound : Sound p) (view : View) (idx : UInt32) :
    p.element view idx =
      if p.payload.length / view.width ≤ idx.toNat then .error view.failure
      else .ok ((p.payload.drop (view.width * idx.toNat)).take view.width) := by
  obtain ⟨header, body, sz, whole, ten, told, inside, payload⟩ := sound.split
  have length := sound.length_payload told
  rw [element, range_eq told, length]
  split
  · rfl
  · rename_i accepted
    have within := element_inside accepted
    have room : headerSize + view.width * idx.toNat + view.width ≤ p.contents.length := by
      rw [whole, List.length_append]
      omega
    simp only [bind, Except.bind]
    rw [Memory.read_of_le room, payload, whole, ← ten, List.drop_length_add_append,
      List.drop_take, List.take_take, Nat.min_eq_left (by omega)]
    rfl

/-- An element is written into the payload, and nothing else changes. -/
theorem setElement_eq (sound : Sound p) (view : View) (idx : UInt32)
    (fits : bytes.length = view.width) :
    if p.payload.length / view.width ≤ idx.toNat then
      p.setElement view idx bytes = .error view.failure
    else ∃ q, p.setElement view idx bytes = .ok q ∧ Sound q ∧ q.size = p.size ∧
      q.contents.take headerSize = p.contents.take headerSize ∧
      q.payload = p.payload.take (view.width * idx.toNat) ++ bytes ++
        p.payload.drop (view.width * idx.toNat + view.width) := by
  obtain ⟨header, body, sz, split⟩ := sound.split
  obtain ⟨whole, ten, told, inside, payload⟩ := split
  have length := sound.length_payload told
  rw [setElement, range_eq told, length]
  split
  · rfl
  rename_i accepted
  have within := element_inside accepted
  obtain ⟨offset, place⟩ : ∃ offset, view.width * idx.toNat = offset := ⟨_, rfl⟩
  rw [place] at within ⊢
  have room : headerSize + offset + bytes.length ≤ p.contents.length := by
    rw [whole, List.length_append]
    omega
  have writes : Memory.write p.contents (headerSize + offset) bytes =
      some (header ++ (body.take offset ++ bytes ++ body.drop (offset + bytes.length))) := by
    rw [Memory.write_of_le room, whole, ← ten, List.take_length_add_append, Nat.add_assoc,
      List.drop_length_add_append]
    simp only [List.append_assoc]
  have same : (body.take offset ++ bytes ++ body.drop (offset + bytes.length)).length =
      body.length := by
    simp only [List.length_append, List.length_take, List.length_drop]
    omega
  obtain ⟨sound', split'⟩ := Split.replace sound ⟨whole, ten, told, inside, payload⟩ same
  simp only [bind, Except.bind, place, writes, inBounds]
  refine ⟨_, rfl, sound', rfl, ?_, ?_⟩
  · rw [whole, ← ten, List.take_left, List.take_left]
  · rw [split'.payload, payload]
    have before : (body.take sz.toNat).take offset = body.take offset := by
      rw [List.take_take, Nat.min_eq_left (by omega)]
    have after : (body.take sz.toNat).drop (offset + view.width) =
        (body.drop (offset + bytes.length)).take (sz.toNat - (offset + bytes.length)) := by
      rw [List.drop_take, fits]
    have front : (body.take offset ++ bytes).length = offset + bytes.length := by
      rw [List.length_append, List.length_take, Nat.min_eq_left (by omega)]
    rw [before, after, List.take_append, front, List.take_of_length_le (by omega)]

/-- On a sound packet, whatever the view: an index outside throws and changes nothing; an
element is read from its place in the payload; and an assignment replaces these bytes, leaves
the header, the length and all other bytes, and the packet is sound again. So the views agree
with one array of bytes. -/
theorem elements_refine (sound : Sound p) (view : View) (idx : UInt32) :
    (p.element view idx =
      if p.payload.length / view.width ≤ idx.toNat then .error view.failure
      else .ok ((p.payload.drop (view.width * idx.toNat)).take view.width)) ∧
    ∀ bytes : List UInt8, bytes.length = view.width →
      if p.payload.length / view.width ≤ idx.toNat then
        p.setElement view idx bytes = .error view.failure
      else ∃ q, p.setElement view idx bytes = .ok q ∧ Sound q ∧ q.size = p.size ∧
        q.contents.take headerSize = p.contents.take headerSize ∧
        q.payload = p.payload.take (view.width * idx.toNat) ++ bytes ++
          p.payload.drop (view.width * idx.toNat + view.width) :=
  ⟨element_eq sound view idx, fun _ fits => setElement_eq sound view idx fits⟩

/-- A word is written into a packet and read back as two bytes. -/
theorem elements_refine_word : ∃ p q : TalkPacket, construct (fun _ => 7) 0 4 0 0 = .ok p ∧
    p.setElement .word 1 [1, 2] = .ok q ∧ q.payload = [7, 7, 1, 2] := by
  obtain ⟨p, built, payload⟩ : ∃ p, construct (fun _ => 7) 0 4 0 0 = .ok p ∧
      p.payload = [7, 7, 7, 7] := ⟨_, rfl, by decide⟩
  have sound : Sound p := by
    have outcome := @construct_sound_iff (fun _ => 7) 0 0 0 4 |>.mpr (by decide)
    rwa [built] at outcome
  have writes := (elements_refine sound .word 1).2 [1, 2] rfl
  rw [if_neg (by rw [payload]; decide)] at writes
  obtain ⟨q, written, -, -, -, result⟩ := writes
  exact ⟨p, q, built, written, by rw [result, payload]; rfl⟩

end TalkPacket

end Crs.Ude
