import Crs.Ude.Reassembly
import Crs.Ude.Transmission

/-!
# Raw packets on the wire

The sender transmits as many bytes as the packet's length says. The receiver takes as
many as it computes from the size in the header, with the contents rounded up to whole
doubles. `construct` rounds in the same way. The raw constructor keeps the length that
the caller gave, if the contents fit into it, so sender and receiver agree only if the
caller rounded; otherwise every later packet of the stream starts in the wrong place.
-/

namespace Crs.Ude

open Foundation

/-- The bytes transmitted for a packet are as many as the receiver consumes for its header. -/
def LengthsAgree (p : TalkPacket) : Prop :=
  ∃ hdr, (Memory.read p.contents 0 headerSize).bind PacketHeader.ofBytes = some hdr ∧
    ∀ (fresh : Nat → UInt8) (o : OutSlot), o.outFlag = false →
      ∃ q o', TalkPacket.ofHeader fresh hdr = .ok q ∧ o.sendPacket p = some (true, o') ∧
        o'.pending.length = q.rawSize.toNat

/-- However the bytes of the stream arrive at the front of the buffer, the packets that
leave the parser are those sent, and the parser can go on. -/
def DecodedAsSent (packets : List TalkPacket) : Prop :=
  ∀ (memory : List UInt8) (fresh : Nat → UInt8) (peer : NetPeer)
    (history : List (Action × Seen)) (s : Session),
    headerSize ≤ memory.length → NetPeer.new memory fresh = some peer →
    (Session.machine.guard fun s a => Session.unconsumed s a = true).Run { peer } history s →
    Session.received history <+: packets.flatMap (·.contents) →
    Session.delivered history ++ s.peer.inPacketQueue =
      Framing.contained (·.contents) packets (Session.received history).length ∧
    ∀ c bytes fresh, s.call = some c → c.inBufPtr = 0 →
      0 < bytes.length → bytes.length ≤ s.peer.room →
      Session.received history ++ bytes <+: packets.flatMap (·.contents) →
      ∃ o s', Session.machine.step s (.recv (.data bytes) fresh) = some (o, s')

/-- A raw packet's length, in 32 bits, is that of a packet with rounded contents. -/
def TalkPacket.Construction.Rounded : TalkPacket.Construction → Prop
  | .fields _ _ _ _ | .header _ => True
  | .raw rawSize rawContents =>
      let sz := Memory.valueOf ((List.range 4).map rawContents)
      headerSize ≤ rawSize.toNat % 2 ^ 32 ∧
        rawSize.toNat % 2 ^ 32 = (headerSize + sz + TalkPacket.padding sz) % 2 ^ 32
  | .copy of => of.Rounded

/-- A word of a header, from the bytes that stand for it. -/
private theorem bytesOf_word {width : Nat} {bytes : List UInt8} {word : Nat}
    (length : bytes.length = width) (same : word = Memory.valueOf bytes) :
    Memory.bytesOf width word = bytes := by
  rw [← length, same, Memory.bytesOf_valueOf]

/-- The first bytes of any memory are a header, whose size is the first word. -/
theorem PacketHeader.exists_of_length {memory : List UInt8}
    (enough : headerSize ≤ memory.length) : ∃ hdr : PacketHeader,
      memory.take headerSize = hdr.toBytes ∧ hdr.sz.toNat = Memory.valueOf (memory.take 4) := by
  simp only [headerSize] at enough
  have part : ∀ offset width, offset + width ≤ 10 →
      ((memory.drop offset).take width).length = width := by
    intro offset width within
    rw [List.length_take, List.length_drop]
    omega
  have small : ∀ offset width, offset + width ≤ 10 →
      Memory.valueOf ((memory.drop offset).take width) < 256 ^ width := by
    intro offset width within
    exact (Memory.valueOf_lt _).trans_eq (by rw [part offset width within])
  have short : ∀ offset, offset + 2 ≤ 10 →
      (UInt16.ofNat (Memory.valueOf ((memory.drop offset).take 2))).toNat =
        Memory.valueOf ((memory.drop offset).take 2) := by
    intro offset within
    rw [UInt16.toNat_ofNat', Nat.mod_eq_of_lt]
    exact small offset 2 within
  have sz : (UInt32.ofNat (Memory.valueOf (memory.take 4))).toNat =
      Memory.valueOf (memory.take 4) := by
    rw [UInt32.toNat_ofNat', Nat.mod_eq_of_lt]
    exact small 0 4 (by decide)
  refine ⟨⟨.ofNat (Memory.valueOf (memory.take 4)),
    .ofNat (Memory.valueOf ((memory.drop 4).take 2)),
    .ofNat (Memory.valueOf ((memory.drop 6).take 2)),
    .ofNat (Memory.valueOf ((memory.drop 8).take 2))⟩, ?_, sz⟩
  have split : memory.take headerSize = memory.take 4 ++ (memory.drop 4).take 2 ++
      (memory.drop 6).take 2 ++ (memory.drop 8).take 2 := by
    rw [← List.take_add, ← List.take_add, ← List.take_add]
    rfl
  rw [split, PacketHeader.toBytes, bytesOf_word (part 0 4 (by decide)) sz,
    bytesOf_word (part 4 2 (by decide)) (short 4 (by decide)),
    bytesOf_word (part 6 2 (by decide)) (short 6 (by decide)),
    bytesOf_word (part 8 2 (by decide)) (short 8 (by decide))]
  rfl

/-- The header that the receiver reads from the bytes of a packet. -/
theorem read_header {p : TalkPacket} {hdr : PacketHeader} (enough : headerSize ≤ p.contents.length)
    (front : p.contents.take headerSize = hdr.toBytes) :
    (Memory.read p.contents 0 headerSize).bind PacketHeader.ofBytes = some hdr := by
  rw [Memory.read_of_le (by omega), List.drop_zero, front, Option.bind_some,
    PacketHeader.ofBytes_toBytes]

/-- Sender and receiver agree exactly on framed packets. -/
theorem lengthsAgree_iff {p : TalkPacket} (allocated : p.contents.length = p.rawSize.toNat) :
    LengthsAgree p ↔ Framed p := by
  have accepted : ∀ o : OutSlot, o.outFlag = false → ∃ o', o.sendPacket p = some (true, o') ∧
      o'.pending.length = p.rawSize.toNat := by
    intro o free
    refine ⟨_, by rw [OutSlot.sendPacket, if_pos allocated, if_neg (by simp [free])], ?_⟩
    simpa [OutSlot.pending] using allocated
  constructor
  · rintro ⟨hdr, header, agree⟩
    obtain ⟨q, o', built, sent, same⟩ := agree (fun _ => 0) ⟨p, 0, 0, 0, false⟩ rfl
    obtain ⟨o'', sent', length⟩ := accepted ⟨p, 0, 0, 0, false⟩ rfl
    obtain ⟨-, rfl⟩ := Prod.mk.inj (Option.some.inj (sent.symm.trans sent'))
    have size : p.rawSize = q.rawSize := UInt32.toNat_inj.mp (length.symm.trans same)
    have enough : headerSize ≤ (TalkPacket.constructSize hdr.sz).toNat := by
      by_contra short
      rw [TalkPacket.ofHeader, TalkPacket.construct_of_lt (by omega)] at built
      cases built
    rw [TalkPacket.ofHeader, TalkPacket.construct_of_le enough] at built
    obtain rfl := Except.ok.inj built
    have computed : p.size = TalkPacket.constructSize hdr.sz := size
    have inside : headerSize ≤ p.contents.length := by
      rw [allocated, TalkPacket.rawSize, computed]
      exact enough
    obtain ⟨hdr', front, -⟩ := PacketHeader.exists_of_length inside
    have same : hdr' = hdr := Option.some.inj ((read_header inside front).symm.trans header)
    exact ⟨hdr, same ▸ front, computed, allocated, computed ▸ enough⟩
  · rintro ⟨hdr, front, size, length, enough⟩
    refine ⟨hdr, read_header (length ▸ enough) front, fun fresh o free => ?_⟩
    obtain ⟨contents, built, -⟩ := ofHeader_spec fresh hdr (size ▸ enough)
    obtain ⟨o', sent, bytes⟩ := accepted o free
    refine ⟨_, o', built, sent, ?_⟩
    rw [bytes, TalkPacket.rawSize, size]
    rfl

/-- A stream of framed packets is decoded as it was sent. -/
theorem decodedAsSent_of_framed {packets : List TalkPacket}
    (framed : ∀ p ∈ packets, Framed p) : DecodedAsSent packets := by
  intro memory fresh peer history s large created run delivery
  have held := Session.run_reassembled large created framed run delivery
  refine ⟨held.contained framed, ?_⟩
  intro c bytes fresh running start some fits more
  obtain ⟨notified, result, s', iterated, -⟩ :=
    Session.iterate_data fresh framed held more some fits start
  exact ⟨_, s', by simpa [Session.machine, running] using iterated⟩

namespace TalkPacket

variable {fresh : Nat → UInt8} {p : TalkPacket}

/-- A copy is made of a packet with the same length and contents. -/
private theorem Construction.run_copy {of : Construction} (built : (copy of).run fresh = .ok p) :
    of.run fresh = .ok p := by
  simp only [run] at built
  cases made : of.run fresh with
  | error e => simp [made, Except.map] at built
  | ok q => simpa [made, Except.map, TalkPacket.copy] using built

/-- Every constructor allocates as many bytes as the packet says. -/
theorem Construction.allocated {k : Construction} (built : k.run fresh = .ok p) :
    p.contents.length = p.rawSize.toNat := by
  induction k generalizing p with
  | fields pid csz dmn rcp =>
      obtain ⟨hdr, -, -, length, -⟩ := framed_of_construct built
      exact length
  | header hdr =>
      obtain ⟨hdr, -, -, length, -⟩ := framed_of_construct built
      exact length
  | raw rawSize rawContents =>
      simp only [run, ofRaw] at built
      split at built
      · cases built
      · obtain rfl := Except.ok.inj built
        simp [allocate, TalkPacket.rawSize]
  | copy of ih => exact ih (run_copy built)

/-- The raw constructor frames its packet exactly if the caller rounded the length. -/
theorem framed_ofRaw_iff {rawSize : UInt64} {rawContents : Nat → UInt8}
    (built : ofRaw rawSize rawContents = .ok p) :
    Framed p ↔ (Construction.raw rawSize rawContents).Rounded := by
  simp only [ofRaw] at built
  split at built
  · cases built
  obtain rfl := Except.ok.inj built
  have size : rawSize.toUInt32.toNat = rawSize.toNat % 2 ^ 32 := UInt64.toNat_toUInt32 rawSize
  have length : (allocate rawContents rawSize.toUInt32).length = rawSize.toNat % 2 ^ 32 := by
    simp [allocate]
  have word : headerSize ≤ rawSize.toNat % 2 ^ 32 →
      (allocate rawContents rawSize.toUInt32).take 4 = (List.range 4).map rawContents := by
    intro enough
    simp only [headerSize] at enough
    rw [allocate, ← List.map_take, List.take_range, size, Nat.min_eq_left (by omega)]
  simp only [Construction.Rounded]
  constructor
  · rintro ⟨hdr, front, computed, -, enough⟩
    rw [size] at enough
    obtain ⟨hdr', front', sz⟩ := PacketHeader.exists_of_length (length ▸ enough)
    have same : hdr' = hdr := by
      apply Option.some.inj
      rw [← PacketHeader.ofBytes_toBytes, ← PacketHeader.ofBytes_toBytes, ← front, ← front']
    refine ⟨enough, ?_⟩
    rw [← size, show rawSize.toUInt32 = _ from computed, toNat_constructSize, ← same, sz,
      word enough]
  · rintro ⟨enough, rounded⟩
    obtain ⟨hdr, front, sz⟩ := PacketHeader.exists_of_length (length ▸ enough)
    refine ⟨hdr, front, ?_, by rw [length, size], size ▸ enough⟩
    apply UInt32.toNat_inj.mp
    rw [size, rounded, toNat_constructSize, sz, word enough]

/-- A packet is framed exactly if no raw length in its construction was left unrounded. -/
theorem Construction.framed_iff {k : Construction} (built : k.run fresh = .ok p) :
    Framed p ↔ k.Rounded := by
  induction k generalizing p with
  | fields pid csz dmn rcp => exact iff_of_true (framed_of_construct built) trivial
  | header hdr => exact iff_of_true (framed_of_construct built) trivial
  | raw rawSize rawContents => exact framed_ofRaw_iff built
  | copy of ih => exact ih (run_copy built)

end TalkPacket

/-- Any sequence of packets from any constructors. For each packet as many bytes are
transmitted as the receiver consumes, and the stream is decoded as it was sent, exactly
if the length of each raw packet is that of rounded contents. -/
theorem raw_packets_agree_iff {constructions : List TalkPacket.Construction}
    {packets : List TalkPacket}
    (built : List.Forall₂ (fun k p => ∃ fresh, k.run fresh = .ok p) constructions packets) :
    ((∀ p ∈ packets, LengthsAgree p) ∧ DecodedAsSent packets) ↔
      ∀ k ∈ constructions, k.Rounded := by
  have both : ((∀ p ∈ packets, LengthsAgree p) ↔ ∀ k ∈ constructions, k.Rounded) ∧
      ((∀ p ∈ packets, LengthsAgree p) → ∀ p ∈ packets, Framed p) := by
    induction built with
    | nil => simp
    | cons made _ ih =>
        obtain ⟨fresh, made⟩ := made
        have agree := lengthsAgree_iff (TalkPacket.Construction.allocated made)
        simp only [List.forall_mem_cons]
        constructor
        · rw [ih.1, agree, TalkPacket.Construction.framed_iff made]
        · rintro ⟨first, rest⟩
          exact ⟨agree.mp first, ih.2 rest⟩
  obtain ⟨agree_iff, framed⟩ := both
  rw [← agree_iff]
  constructor
  · rintro ⟨agree, -⟩
    exact agree
  · intro agree
    exact ⟨agree, decodedAsSent_of_framed (framed agree)⟩

/-- A header that names one byte of contents, and that byte: eleven bytes. -/
def unrounded (i : Nat) : UInt8 := if i = 0 then 1 else 0

/-- The same header in front of eight bytes is rounded. -/
theorem raw_packets_agree_iff_eighteen : ∃ p q : TalkPacket,
    (TalkPacket.Construction.raw 18 unrounded).run (fun _ => 0) = .ok p ∧
      (TalkPacket.Construction.fields 7 0 0 0).run (fun _ => 0) = .ok q ∧
      LengthsAgree p ∧ DecodedAsSent [p, q] := by
  obtain ⟨p, first⟩ : ∃ p, (TalkPacket.Construction.raw 18 unrounded).run (fun _ => 0) = .ok p :=
    ⟨_, rfl⟩
  obtain ⟨q, second⟩ : ∃ q, (TalkPacket.Construction.fields 7 0 0 0).run (fun _ => 0) = .ok q :=
    ⟨_, rfl⟩
  have rounded : ∀ k ∈ [TalkPacket.Construction.raw 18 unrounded, .fields 7 0 0 0],
      k.Rounded := by
    intro k member
    simp only [List.mem_cons, List.not_mem_nil, or_false] at member
    obtain rfl | rfl := member
    · exact ⟨by decide, by decide⟩
    · trivial
  obtain ⟨agree, decoded⟩ := (raw_packets_agree_iff
    (.cons ⟨_, first⟩ (.cons ⟨_, second⟩ .nil))).mpr rounded
  exact ⟨p, q, first, second, agree p (by simp), decoded⟩

/-- The raw packet of eleven bytes and a packet behind it arrive at once: the receiver
consumes eighteen bytes for the first header, and the second packet is not decoded. -/
theorem unrounded_packet_swallows :
    ¬ ∀ (rawSize : UInt64) rawContents p q,
      TalkPacket.ofRaw rawSize rawContents = .ok p → Sent q → DecodedAsSent [p, q] := by
  intro always
  obtain ⟨p, raw, stream⟩ : ∃ p, TalkPacket.ofRaw 11 unrounded = .ok p ∧
      p.contents = [1, 0, 0, 0, 0, 0, 0, 0, 0, 0, 0] := ⟨_, rfl, by decide⟩
  have next : Sent (Session.bare 2) := ⟨fun _ => 0, 2, 0, 0, 0, by decide, by decide⟩
  have decoded := always 11 unrounded p (Session.bare 2) raw next
  have computed : Session.decoded
      (Session.machine.guard fun s a => Session.unconsumed s a = true) (List.replicate 32 0)
      [.handleRead, .recv (.data
        ([1, 0, 0, 0, 0, 0, 0, 0, 0, 0, 0] ++ (Session.bare 2).contents)) fun _ => 0] =
      some ([1, 0, 0, 0, 0, 0, 0, 0, 0, 0, 0] ++ (Session.bare 2).contents,
        [⟨18, [1, 0, 0, 0, 0, 0, 0, 0, 0, 0, 0, 0, 0, 0, 0, 2, 0, 0]⟩]) := by decide +kernel
  obtain ⟨peer, history, s, created, run, bytes, queued⟩ := Session.run_of_decoded computed
  have sent : Session.received history = [p, Session.bare 2].flatMap (·.contents) := by
    rw [bytes, List.flatMap_cons, stream]
    rfl
  have result := (decoded _ _ peer history s (by decide) created run (sent ▸ List.prefix_rfl)).1
  rw [queued, sent] at result
  have count := congrArg List.length result
  simp [Framing.contained, stream, Session.bare] at count

end Crs.Ude
