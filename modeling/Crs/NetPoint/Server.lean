import Crs.Foundation.Memory

/-!
# The two halves of a server

A message goes over the socket as its size and its contents. `transmit` sends from the
message at the front of the outbox, `receive` collects the parts of the next message. Both
know by a flag in which part they are, and count the bytes that are left of it; each call
moves as many bytes as the socket takes or gives.
-/

namespace Crs.SimpleNetPoint

open Foundation

/-- The representation of `unsigned long`, the same one at both ends. -/
structure LongFormat where
  size : Nat
  toBytes : Nat → List UInt8
  ofBytes : List UInt8 → Nat
  positive : 0 < size
  length_toBytes : ∀ n, (toBytes n).length = size
  ofBytes_toBytes : ∀ n, n < 256 ^ size → ofBytes (toBytes n) = n

/-- The lowest byte first. -/
def LongFormat.little (size : Nat) (positive : 0 < size) : LongFormat where
  size
  toBytes := Memory.bytesOf size
  ofBytes := Memory.valueOf
  positive
  length_toBytes := Memory.length_bytesOf size
  ofBytes_toBytes n fits := by rw [Memory.valueOf_bytesOf, Nat.mod_eq_of_lt fits]

def LongFormat.amd64 : LongFormat := .little 8 (by decide)

structure Message where
  size : Nat
  contents : List UInt8
  deriving DecidableEq

variable (L : LongFormat)

/-- The constructors allocate as many characters as the size says, and it is a number of
the machine. -/
structure Message.Sound (msg : Message) : Prop where
  length : msg.contents.length = msg.size
  fits : msg.size < 256 ^ L.size

/-- A message on the socket. -/
def frame (msg : Message) : List UInt8 := L.toBytes msg.size ++ msg.contents

structure Outgoing where
  outbox : List Message := []
  outContents : Bool := true
  outNeeded : Bool := false
  outNextByte : Nat := 0
  outBytesRest : Nat := 0

/-- `inSize` and `inContents` are the bytes of the incoming message; `inPart` says which of
them `inNextByte` points into. -/
structure Incoming where
  inbox : List Message := []
  inSize : List UInt8
  inContents : List UInt8 := []
  inPart : Bool := false
  inNextByte : Nat := 0
  inBytesRest : Nat

namespace Outgoing

def sendMessage (o : Outgoing) (msg : Message) : Outgoing := { o with outbox := o.outbox ++ [msg] }

/-- The part of `transmit` before it calls `send`, with a message at the front. -/
def start (o : Outgoing) (msg : Message) : Outgoing :=
  if o.outBytesRest = 0 then
    if o.outContents then
      { o with outNeeded := true, outContents := false, outNextByte := 0, outBytesRest := L.size }
    else { o with outContents := true, outNextByte := 0, outBytesRest := msg.size }
  else o

/-- What `outNextByte` points into. -/
def part (o : Outgoing) (msg : Message) : List UInt8 :=
  if o.outContents then msg.contents else L.toBytes msg.size

/-- `transmit`, with the number of bytes that `send` takes: the bytes. Without a message it
returns at once, and in the middle of one there has to be a message. -/
def transmit (o : Outgoing) (count : Nat) : Option (List UInt8 × Outgoing) :=
  match o.outbox with
  | [] => if o.outBytesRest = 0 ∧ o.outContents ∧ count = 0 then some ([], o) else none
  | msg :: later =>
      let o := o.start L msg
      if count ≤ o.outBytesRest ∧ (0 < count ∨ o.outBytesRest = 0) then
        (Memory.read (o.part L msg) o.outNextByte count).map fun bytes =>
          let o := { o with
            outBytesRest := o.outBytesRest - count
            outNextByte := o.outNextByte + count }
          if o.outContents ∧ o.outBytesRest = 0 then
            (bytes, { o with outbox := later, outNeeded := o.outNeeded && !later.isEmpty })
          else (bytes, o)
      else none

end Outgoing

namespace Incoming

/-- A server that has received nothing. -/
def new : Incoming := { inSize := L.toBytes 0, inBytesRest := L.size }

/-- `recv` stores bytes at `inNextByte`. -/
def store (i : Incoming) (bytes : List UInt8) : Option Incoming :=
  if i.inPart then (Memory.write i.inContents i.inNextByte bytes).map fun inContents =>
    { i with
      inContents
      inBytesRest := i.inBytesRest - bytes.length
      inNextByte := i.inNextByte + bytes.length }
  else (Memory.write i.inSize i.inNextByte bytes).map fun inSize =>
    { i with
      inSize
      inBytesRest := i.inBytesRest - bytes.length
      inNextByte := i.inNextByte + bytes.length }

/-- A part of the message is complete. The new characters are not initialised. -/
def finish (i : Incoming) : Incoming :=
  if i.inPart then
    { i with
      inPart := false
      inNextByte := 0
      inBytesRest := L.size
      inbox := i.inbox ++ [⟨L.ofBytes i.inSize, i.inContents⟩] }
  else if L.ofBytes i.inSize ≠ 0 then
    { i with
      inPart := true
      inContents := List.replicate (L.ofBytes i.inSize) 0
      inBytesRest := L.ofBytes i.inSize
      inNextByte := 0 }
  else { i with inContents := [] }

/-- `receive`, with the bytes that `recv` gives: whether it throws `end_of_file`. As many
bytes as are left are asked for, and of no bytes there are none to get. -/
def receive (i : Incoming) (bytes : List UInt8) : Option (Bool × Incoming) :=
  if i.inBytesRest = 0 then if bytes = [] then some (true, i) else none
  else if bytes ≠ [] ∧ bytes.length ≤ i.inBytesRest then
    (i.store bytes).map fun i => (false, if i.inBytesRest = 0 then i.finish L else i)
  else none

/-- `recvMessage`: the message, if there is one. -/
def recvMessage (i : Incoming) : Option Message × Incoming :=
  match i.inbox with
  | [] => (none, i)
  | msg :: inbox => (some msg, { i with inbox })

end Incoming

namespace Outgoing

/-- The bytes that are still to be sent. -/
def pending (o : Outgoing) : List UInt8 :=
  match o.outbox with
  | [] => []
  | msg :: later =>
      (if o.outContents then
        if o.outBytesRest = 0 then frame L msg else msg.contents.drop o.outNextByte
      else (L.toBytes msg.size).drop o.outNextByte ++ msg.contents) ++ later.flatMap (frame L)

/-- The cursors agree. -/
structure Ready (o : Outgoing) : Prop where
  sound : ∀ msg ∈ o.outbox, msg.Sound L
  idle : o.outbox = [] → o.outContents = true ∧ o.outBytesRest = 0
  cursor : ∀ msg later, o.outbox = msg :: later → o.outContents = true ∧ o.outBytesRest = 0 ∨
    o.outNextByte + o.outBytesRest = (o.part L msg).length

variable {L} {o o' : Outgoing} {msg : Message} {count : Nat} {bytes : List UInt8}

theorem sendMessage_spec (ready : o.Ready L) (sound : msg.Sound L) :
    (o.sendMessage msg).Ready L ∧ (o.sendMessage msg).pending L = o.pending L ++ frame L msg := by
  obtain ⟨outbox, outContents, outNeeded, outNextByte, outBytesRest⟩ := o
  refine ⟨⟨fun other member => ?_, by simp [sendMessage], fun first later front => ?_⟩, ?_⟩
  · obtain member | same := List.mem_append.mp member
    · exact ready.sound other member
    · exact List.mem_singleton.mp same ▸ sound
  · cases outbox with
    | nil => exact .inl (ready.idle rfl)
    | cons head rest =>
      obtain ⟨rfl, -⟩ := by simpa [sendMessage] using front
      exact ready.cursor head rest rfl
  · cases outbox with
    | nil =>
      obtain ⟨rfl, rfl⟩ := ready.idle rfl
      simp [sendMessage, pending]
    | cons head rest =>
      simp only [sendMessage, pending, List.cons_append, List.flatMap_append, List.flatMap_cons,
        List.flatMap_nil, List.append_nil, List.append_assoc]
      rfl

/-- Between two messages, all of the outbox is to be sent. -/
theorem pending_of_idle (contents : o.outContents = true) (rest : o.outBytesRest = 0) :
    o.pending L = o.outbox.flatMap (frame L) := by
  cases outbox : o.outbox with
  | nil => simp [pending, outbox]
  | cons msg later => simp [pending, outbox, contents, rest]

/-- Inside of a message, the rest of the part comes first. -/
theorem pending_of_cons {later : List Message} (outbox : o.outbox = msg :: later)
    (inside : ¬ (o.outContents = true ∧ o.outBytesRest = 0)) :
    o.pending L = (o.part L msg).drop o.outNextByte ++
      (if o.outContents then [] else msg.contents) ++ later.flatMap (frame L) := by
  cases contents : o.outContents with
  | true =>
    have rest : o.outBytesRest ≠ 0 := fun none => inside ⟨contents, none⟩
    simp [pending, outbox, part, contents, rest]
  | false => simp [pending, outbox, part, contents]

/-- The next part is begun if the last one is complete. -/
theorem start_spec (ready : o.Ready L) {later : List Message} (outbox : o.outbox = msg :: later) :
    (o.start L msg).outbox = msg :: later ∧
      (o.start L msg).outNextByte + (o.start L msg).outBytesRest =
        ((o.start L msg).part L msg).length ∧
      ((o.start L msg).part L msg).drop (o.start L msg).outNextByte ++
        (if (o.start L msg).outContents then [] else msg.contents) ++ later.flatMap (frame L) =
          o.pending L := by
  have sound := ready.sound msg (by simp [outbox])
  by_cases rest : o.outBytesRest = 0
  · cases contents : o.outContents with
    | true =>
      rw [pending_of_idle contents rest]
      simp [start, part, rest, contents, outbox, frame, L.length_toBytes]
    | false =>
      have whole : o.outNextByte = (L.toBytes msg.size).length := by
        simpa [contents, rest, part] using ready.cursor msg later outbox
      rw [pending_of_cons outbox (by simp [contents])]
      simp [start, part, rest, contents, outbox, sound.length, whole]
  · have same : o.start L msg = o := if_neg rest
    have cursor := ready.cursor msg later outbox
    rw [same, pending_of_cons outbox (by simp [rest])]
    exact ⟨outbox, by simpa [rest] using cursor, rfl⟩

/-- What is sent is taken from the front of the bytes that were to be sent. -/
theorem transmit_spec (ready : o.Ready L) (sends : o.transmit L count = some (bytes, o')) :
    bytes ++ o'.pending L = o.pending L ∧ o'.Ready L := by
  cases outbox : o.outbox with
  | nil =>
    simp only [transmit, outbox] at sends
    split at sends
    · obtain ⟨rfl, rfl⟩ := by simpa using sends
      exact ⟨rfl, ready⟩
    · cases sends
  | cons msg later =>
    obtain ⟨outbox', cursor, pending⟩ := start_spec ready outbox
    have sound := ready.sound
    rw [outbox] at sound
    simp only [transmit, outbox] at sends
    generalize o.start L msg = o₁ at *
    split at sends
    · rename_i legal
      obtain ⟨front, readFront, result⟩ := Option.map_eq_some_iff.mp sends
      rw [Memory.read_of_le (by omega)] at readFront
      obtain rfl := Option.some.inj readFront
      rw [← pending]
      by_cases done : o₁.outContents = true ∧ o₁.outBytesRest - count = 0
      · rw [if_pos done] at result
        obtain ⟨rfl, rfl⟩ := by simpa using result
        have whole : ((o₁.part L msg).drop o₁.outNextByte).length ≤ count := by
          rw [List.length_drop]
          omega
        refine ⟨?_, fun other member => sound other (List.mem_cons_of_mem _ member),
          fun _ => done, fun _ _ _ => .inl done⟩
        rw [pending_of_idle (by exact done.1) (by exact done.2), List.take_of_length_le whole]
        simp [done.1]
      · rw [if_neg done] at result
        obtain ⟨rfl, rfl⟩ := by simpa using result
        refine ⟨?_, ?_, ?_, ?_⟩
        · rw [pending_of_cons (by exact outbox') (by exact done)]
          have split := List.take_append_drop count ((o₁.part L msg).drop o₁.outNextByte)
          rw [List.drop_drop] at split
          conv_rhs => rw [← split]
          simp only [List.append_assoc]
          rfl
        · exact fun other member => sound other (outbox' ▸ member)
        · intro none
          simp [outbox'] at none
        · intro head rest front
          obtain ⟨rfl, -⟩ := by simpa [outbox'] using front
          refine .inr ?_
          change o₁.outNextByte + count + (o₁.outBytesRest - count) = (o₁.part L msg).length
          omega
    · cases sends

end Outgoing

namespace Incoming

/-- What a server holds of the message to come: the first bytes of its size; a size of zero,
after which it waits for no more bytes; or the size and the first bytes of the contents. -/
inductive Holding (L : LongFormat) (i : Incoming) : List UInt8 → Prop where
  | size (length : i.inSize.length = L.size) (part : i.inPart = false) (some : 0 < i.inBytesRest)
      (cursor : i.inNextByte + i.inBytesRest = L.size) : Holding L i (i.inSize.take i.inNextByte)
  | stuck (length : i.inSize.length = L.size) (rest : i.inBytesRest = 0)
      (zero : L.ofBytes i.inSize = 0) : Holding L i i.inSize
  | contents (length : i.inSize.length = L.size) (part : i.inPart = true)
      (some : 0 < i.inBytesRest) (cursor : i.inNextByte + i.inBytesRest = i.inContents.length)
      (whole : i.inContents.length = L.ofBytes i.inSize) :
      Holding L i (i.inSize ++ i.inContents.take i.inNextByte)

variable {L : LongFormat} {i i' : Incoming} {held bytes : List UInt8} {eof : Bool}

theorem new_holding : (new L).Holding L [] := by
  have start := Holding.size (i := new L) (L.length_toBytes 0) rfl L.positive (Nat.zero_add _)
  simpa [new] using start

/-- Behind the size come the contents, if there are any. -/
theorem finish_size (length : i.inSize.length = L.size) (part : i.inPart = false)
    (rest : i.inBytesRest = 0) :
    (i.finish L).inbox = i.inbox ∧ (i.finish L).Holding L i.inSize := by
  obtain ⟨inbox, inSize, inContents, inPart, inNextByte, inBytesRest⟩ := i
  obtain rfl := part
  by_cases zero : L.ofBytes inSize = 0
  · have same : finish L ⟨inbox, inSize, inContents, false, inNextByte, inBytesRest⟩ =
        ⟨inbox, inSize, [], false, inNextByte, inBytesRest⟩ := by simp [finish, zero]
    rw [same]
    exact ⟨rfl, .stuck length rest zero⟩
  · have next : finish L ⟨inbox, inSize, inContents, false, inNextByte, inBytesRest⟩ =
        ⟨inbox, inSize, List.replicate (L.ofBytes inSize) 0, true, 0, L.ofBytes inSize⟩ := by
      simp [finish, zero]
    rw [next]
    have holding : Holding L ⟨inbox, inSize, List.replicate (L.ofBytes inSize) 0, true, 0,
        L.ofBytes inSize⟩ _ :=
      .contents length rfl (Nat.pos_of_ne_zero zero) (by simp) (by simp)
    exact ⟨rfl, by simpa using holding⟩

/-- Behind the contents comes the next message. -/
theorem finish_contents (length : i.inSize.length = L.size) (part : i.inPart = true) :
    (i.finish L).inbox = i.inbox ++ [⟨L.ofBytes i.inSize, i.inContents⟩] ∧
      (i.finish L).Holding L [] := by
  obtain ⟨inbox, inSize, inContents, inPart, inNextByte, inBytesRest⟩ := i
  obtain rfl := part
  have holding : Holding L ⟨inbox ++ [⟨L.ofBytes inSize, inContents⟩], inSize, inContents, false, 0,
      L.size⟩ _ := .size length rfl L.positive (Nat.zero_add _)
  exact ⟨rfl, by simpa [finish] using holding⟩

/-- The bytes of `recv` are held, and a message is complete if its last byte is among them. -/
theorem receive_spec (holding : i.Holding L held) (gets : i.receive L bytes = some (eof, i')) :
    (eof = true ∧ i' = i ∧ bytes = [] ∧ L.ofBytes held = 0 ∧ held.length = L.size) ∨
    (eof = false ∧ i'.inbox = i.inbox ∧ i'.Holding L (held ++ bytes)) ∨
    (eof = false ∧ ∃ size contents, i'.inbox = i.inbox ++ [⟨L.ofBytes size, contents⟩] ∧
      held ++ bytes = size ++ contents ∧ size.length = L.size ∧
      contents.length = L.ofBytes size ∧ contents ≠ [] ∧ i'.Holding L []) := by
  obtain ⟨inbox, inSize, inContents, inPart, inNextByte, inBytesRest⟩ := i
  cases holding with
  | stuck length rest zero =>
    rw [receive, if_pos rest] at gets
    obtain ⟨none, rfl, rfl⟩ := by simpa using gets
    exact .inl ⟨rfl, rfl, none, zero, length⟩
  | size length part more cursor =>
    obtain rfl := part
    rw [receive, if_neg (Nat.ne_of_gt more)] at gets
    split at gets
    · obtain ⟨inSize', stores, length', front⟩ :=
        Memory.write_spec inSize inNextByte bytes (by simp only at *; omega)
      obtain ⟨rfl, rfl⟩ := by simpa [store, stores] using gets
      refine .inr (.inl ⟨rfl, ?_⟩)
      rw [← front]
      split
      · rename_i done
        rw [List.take_of_length_le (by simp only at *; omega)]
        exact finish_size (length'.trans length) rfl done
      · rename_i rest
        refine ⟨rfl, .size (length'.trans length) rfl (Nat.pos_of_ne_zero rest) ?_⟩
        simp only at *
        omega
    · cases gets
  | contents length part more cursor whole =>
    obtain rfl := part
    rw [receive, if_neg (Nat.ne_of_gt more)] at gets
    split at gets
    · obtain ⟨inContents', stores, length', front⟩ :=
        Memory.write_spec inContents inNextByte bytes (by simp only at *; omega)
      obtain ⟨rfl, rfl⟩ := by simpa [store, stores] using gets
      rw [List.append_assoc, ← front]
      split
      · rename_i done
        obtain ⟨delivers, fresh⟩ := finish_contents (i := ⟨inbox, inSize, inContents', true,
          inNextByte + bytes.length, inBytesRest - bytes.length⟩) length rfl
        refine .inr (.inr ⟨rfl, inSize, inContents', delivers, ?_, length, length'.trans whole, ?_,
          fresh⟩)
        · rw [List.take_of_length_le (by simp only at *; omega)]
        · rintro rfl
          simp only [List.length_nil] at *
          omega
      · rename_i rest
        refine .inr (.inl ⟨rfl, rfl, .contents length rfl (Nat.pos_of_ne_zero rest) ?_
          (length'.trans whole)⟩)
        simp only at *
        omega
    · cases gets

end Incoming

end Crs.SimpleNetPoint
