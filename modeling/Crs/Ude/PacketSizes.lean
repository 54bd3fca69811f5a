import Crs.Ude.Packet

/-!
# The length of a packet against the size in its header

The accessors trust the size in the header, so they are safe only if the allocation
holds that many bytes behind the header. The constructors make it so up to the border
where the length no longer fits into 32 bits; beyond it the allocation is short, and
the header may not even fit into it.
-/

namespace Crs.Ude.TalkPacket

open Foundation

variable {fresh : Nat → UInt8} {pid dmn rcp : UInt16} {csz : UInt32}

/-- The contents that `construct` leaves: the header, then untouched memory. -/
theorem construct_of_le (enough : headerSize ≤ (constructSize csz).toNat) :
    construct fresh pid csz dmn rcp = .ok ⟨constructSize csz,
      (⟨csz, pid, dmn, rcp⟩ : PacketHeader).toBytes ++
        (allocate fresh (constructSize csz)).drop headerSize⟩ := by
  have length : (allocate fresh (constructSize csz)).length = (constructSize csz).toNat := by
    simp [allocate]
  rw [← length] at enough
  simp only [headerSize] at enough
  have sz := Memory.write_append [] (Memory.bytesOf 4 csz.toNat)
    (allocate fresh (constructSize csz)) (rfl : 0 = _) (by simp; omega)
  have id := Memory.write_append (Memory.bytesOf 4 csz.toNat) (Memory.bytesOf 2 pid.toNat)
    ((allocate fresh (constructSize csz)).drop 4) (show 4 = _ by simp) (by simp; omega)
  have domain := Memory.write_append (Memory.bytesOf 4 csz.toNat ++ Memory.bytesOf 2 pid.toNat)
    (Memory.bytesOf 2 dmn.toNat) ((allocate fresh (constructSize csz)).drop 6)
    (show 6 = _ by simp) (by simp; omega)
  have recepient := Memory.write_append
    (Memory.bytesOf 4 csz.toNat ++ Memory.bytesOf 2 pid.toNat ++ Memory.bytesOf 2 dmn.toNat)
    (Memory.bytesOf 2 rcp.toNat) ((allocate fresh (constructSize csz)).drop 8)
    (show 8 = _ by simp) (by simp; omega)
  simp only [List.nil_append, Memory.length_bytesOf, List.drop_drop] at sz id domain recepient
  simp only [construct, sz, id, domain, recepient, inBounds, bind, Except.bind]
  rfl

/-- An allocation shorter than a header does not survive the header's construction. -/
theorem construct_of_lt (short : (constructSize csz).toNat < headerSize) :
    construct fresh pid csz dmn rcp = .error .outOfBounds := by
  have length : (allocate fresh (constructSize csz)).length = (constructSize csz).toNat := by
    simp [allocate]
  have step : ∀ (block : List UInt8) (offset width value : Nat),
      Memory.write block offset (Memory.bytesOf width value) = none ∨
        ∃ block', Memory.write block offset (Memory.bytesOf width value) = some block' ∧
          block'.length = block.length := by
    intro block offset width value
    by_cases inside : offset + (Memory.bytesOf width value).length ≤ block.length
    · obtain ⟨block', written, same, -⟩ := Memory.write_spec block offset _ inside
      exact .inr ⟨block', written, same⟩
    · exact .inl (if_neg inside)
  simp only [construct]
  obtain failed | ⟨block₁, written₁, same₁⟩ :=
    step (allocate fresh (constructSize csz)) 0 4 csz.toNat
  · rw [failed]
    rfl
  obtain failed | ⟨block₂, written₂, same₂⟩ := step block₁ 4 2 pid.toNat
  · rw [written₁]
    simp only [inBounds, bind, Except.bind, failed]
  obtain failed | ⟨block₃, written₃, same₃⟩ := step block₂ 6 2 dmn.toNat
  · rw [written₁]
    simp only [inBounds, bind, Except.bind, written₂, failed]
  have failed : Memory.write block₃ 8 (Memory.bytesOf 2 rcp.toNat) = none := by
    apply Memory.write_of_lt
    simp only [headerSize] at short
    rw [Memory.length_bytesOf]
    omega
  rw [written₁]
  simp only [inBounds, bind, Except.bind, written₂, written₃, failed]

/-- Every index that a check accepts addresses bytes of the allocation. -/
def Addresses (p : TalkPacket) (check : UInt32 → Except Failure UInt32) (width : Nat) : Prop :=
  ∀ idx accepted, check idx = .ok accepted →
    headerSize + (accepted.toNat + 1) * width ≤ p.contents.length

/-- The allocation is as long as the packet says and holds the contents that the header promises. -/
structure Sound (p : TalkPacket) : Prop where
  allocated : p.contents.length = p.rawSize.toNat
  promised : ∃ sz, p.byteSize = .ok sz ∧ headerSize + sz.toNat ≤ p.rawSize.toNat
  bytes : Addresses p p.byteRange 1
  words : Addresses p p.wordRange 2
  values : Addresses p p.valueRange 8
  int64s : Addresses p p.int64Range 8

/-- An accepted index lies below the number of whole elements in the contents. -/
theorem checkRange_addresses {p : TalkPacket} {what : String} {limit : UInt32} {width : Nat}
    (inside : headerSize + limit.toNat * width ≤ p.contents.length) :
    Addresses p (checkRange what (.ok limit)) width := by
  intro idx accepted passed
  simp only [checkRange, bind, Except.bind] at passed
  split at passed
  · cases passed
  · rename_i below
    obtain rfl := Except.ok.inj passed
    have less : idx.toNat + 1 ≤ limit.toNat := by
      rw [UInt32.not_le] at below
      exact UInt32.lt_iff_toNat_lt.mp below
    have := Nat.mul_le_mul_right width less
    omega

/-- The checks trust the header, so a packet that holds what it promises is sound. -/
theorem sound_of_promised {p : TalkPacket} {sz : UInt32}
    (allocated : p.contents.length = p.rawSize.toNat) (told : p.byteSize = .ok sz)
    (promised : headerSize + sz.toNat ≤ p.rawSize.toNat) : Sound p := by
  have whole : ∀ width, headerSize + sz.toNat / width * width ≤ p.contents.length := by
    intro width
    have := Nat.div_mul_le_self sz.toNat width
    omega
  refine ⟨allocated, ⟨sz, told, promised⟩, ?_, ?_, ?_, ?_⟩
  · show Addresses p (checkRange _ p.byteSize) 1
    rw [told]
    exact checkRange_addresses (by omega)
  · show Addresses p (checkRange _ (p.byteSize.map (· / 2))) 2
    rw [told]
    exact checkRange_addresses (by rw [UInt32.toNat_div]; exact whole 2)
  · show Addresses p (checkRange _ (p.byteSize.map (· / 8))) 8
    rw [told]
    exact checkRange_addresses (by rw [UInt32.toNat_div]; exact whole 8)
  · show Addresses p (checkRange _ (p.byteSize.map (· / 8))) 8
    rw [told]
    exact checkRange_addresses (by rw [UInt32.toNat_div]; exact whole 8)

/-- The calls of the constructors. -/
inductive Construction where
  | fields (pid : UInt16) (csz : UInt32) (dmn rcp : UInt16)
  | header (hdr : PacketHeader)
  | raw (rawSize : UInt64) (rawContents : Nat → UInt8)
  | copy (of : Construction)

namespace Construction

def run (fresh : Nat → UInt8) : Construction → Except Failure TalkPacket
  | fields pid csz dmn rcp => construct fresh pid csz dmn rcp
  | header hdr => ofHeader fresh hdr
  | raw rawSize rawContents => ofRaw rawSize rawContents
  | copy of => (of.run fresh).map TalkPacket.copy

/-- The contents fit behind a header into 32 bits; a raw packet that is refused needs no room. -/
def Fits : Construction → Prop
  | fields _ csz _ _ => csz.toNat ≤ 2 ^ 32 - 16
  | header hdr => hdr.sz.toNat ≤ 2 ^ 32 - 16
  | raw rawSize rawContents =>
      let sz := Memory.valueOf ((List.range 4).map rawContents)
      rawSize.toNat < headerSize + sz ∨ headerSize + sz ≤ rawSize.toNat % 2 ^ 32
  | copy of => of.Fits

end Construction

/-- A constructor makes a sound packet or refuses with an exception. -/
def SoundOutcome : Except Failure TalkPacket → Prop
  | .ok p => Sound p
  | .error (.rangeError _) => True
  | .error .outOfBounds => False

/-- The size is the first field of the header. -/
theorem byteSize_header (size : UInt32) (hdr : PacketHeader) (rest : List UInt8) :
    (⟨size, hdr.toBytes ++ rest⟩ : TalkPacket).byteSize = .ok hdr.sz := by
  have range : hdr.sz.toNat < 256 ^ 4 := hdr.sz.toNat_lt
  simp only [byteSize, PacketHeader.toBytes, List.append_assoc]
  rw [Memory.read_of_le (by simp), List.drop_zero, List.take_left' (Memory.length_bytesOf 4 _)]
  show Except.ok (UInt32.ofNat (Memory.valueOf (Memory.bytesOf 4 hdr.sz.toNat))) = _
  rw [Memory.valueOf_bytesOf, Nat.mod_eq_of_lt range, UInt32.ofNat_toNat]

theorem construct_sound_iff :
    SoundOutcome (construct fresh pid csz dmn rcp) ↔ csz.toNat ≤ 2 ^ 32 - 16 := by
  have size := toNat_constructSize csz
  have range := csz.toNat_lt
  simp only [headerSize, padding] at size
  by_cases enough : headerSize ≤ (constructSize csz).toNat
  · rw [construct_of_le enough]
    simp only [SoundOutcome]
    constructor
    · intro sound
      obtain ⟨sz, told, promised⟩ := sound.promised
      rw [byteSize_header] at told
      obtain rfl := Except.ok.inj told
      simp only [rawSize, headerSize] at promised
      omega
    · intro fits
      refine sound_of_promised ?_ (byteSize_header _ _ _) ?_
      · simp only [List.length_append, PacketHeader.length_toBytes, List.length_drop, allocate,
          List.length_map, List.length_range, rawSize]
        omega
      · simp only [rawSize, headerSize]
        omega
  · rw [construct_of_lt (by omega)]
    simp only [SoundOutcome, false_iff]
    simp only [headerSize] at enough
    omega

theorem ofRaw_sound_iff (rawSize : UInt64) (rawContents : Nat → UInt8) :
    SoundOutcome (ofRaw rawSize rawContents) ↔
      (Construction.raw rawSize rawContents).Fits := by
  have range : Memory.valueOf ((List.range 4).map rawContents) < 2 ^ 32 :=
    (Memory.valueOf_lt _).trans_eq (by simp)
  have size : rawSize.toUInt32.toNat = rawSize.toNat % 2 ^ 32 := UInt64.toNat_toUInt32 rawSize
  simp only [Construction.Fits, ofRaw]
  by_cases refused : rawSize.toNat < Memory.valueOf ((List.range 4).map rawContents) + headerSize
  · rw [if_pos refused]
    simp only [SoundOutcome, true_iff]
    omega
  · rw [if_neg refused]
    have told : 4 ≤ rawSize.toUInt32.toNat →
        (⟨rawSize.toUInt32, allocate rawContents rawSize.toUInt32⟩ : TalkPacket).byteSize =
          .ok (.ofNat (Memory.valueOf ((List.range 4).map rawContents))) := by
      intro enough
      rw [byteSize, allocate, Memory.read_of_le (by simpa using enough), List.drop_zero,
        ← List.map_take, List.take_range, Nat.min_eq_left enough]
      rfl
    have back : (UInt32.ofNat (Memory.valueOf ((List.range 4).map rawContents))).toNat =
        Memory.valueOf ((List.range 4).map rawContents) := by
      rw [UInt32.toNat_ofNat', Nat.mod_eq_of_lt range]
    constructor
    · intro sound
      obtain ⟨sz, told', promised⟩ := sound.promised
      simp only [TalkPacket.rawSize, size, headerSize] at promised
      rw [told (by omega)] at told'
      obtain rfl := Except.ok.inj told'
      rw [back] at promised
      exact .inr (by simpa [headerSize] using promised)
    · rintro (short | fits)
      · omega
      · simp only [headerSize] at fits
        refine sound_of_promised ?_ (told (by omega)) ?_
        · simp [allocate, TalkPacket.rawSize]
        · simp only [TalkPacket.rawSize, size, back, headerSize]
          omega

/-- A constructor makes a sound packet exactly if the contents that the header names fit
behind the header into a 32-bit length. -/
theorem run_sound_iff (fresh : Nat → UInt8) (k : Construction) :
    SoundOutcome (k.run fresh) ↔ k.Fits := by
  induction k with
  | fields pid csz dmn rcp => exact construct_sound_iff
  | header hdr => exact construct_sound_iff
  | raw rawSize rawContents => exact ofRaw_sound_iff rawSize rawContents
  | copy of ih =>
      show SoundOutcome ((of.run fresh).map TalkPacket.copy) ↔ of.Fits
      rw [← ih]
      cases of.run fresh <;> rfl

/-- A received header may name the largest size: the length wraps around to ten bytes. -/
theorem largest_size_unsound : ∃ p,
    (Construction.header ⟨0xFFFFFFFF, 0, 0, 0⟩).run (fun _ => 0) = .ok p ∧
      p.rawSize = 10 ∧ p.byteSize = .ok 0xFFFFFFFF ∧ p.byteRange 10 = .ok 10 ∧
      ¬ SoundOutcome (.ok p) := by
  refine ⟨⟨10, [255, 255, 255, 255, 0, 0, 0, 0, 0, 0]⟩, by decide, rfl, by decide, by decide, ?_⟩
  intro sound
  have accepted := sound.bytes 10 10 (by decide)
  simp [headerSize] at accepted

end Crs.Ude.TalkPacket
