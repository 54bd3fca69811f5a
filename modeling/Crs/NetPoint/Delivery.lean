import Crs.Foundation.Machine
import Crs.NetPoint.Server

/-!
# Messages over a connection

One end gives messages to `sendMessage` and calls `transmit`, the other end calls `receive`,
and the transport splits the bytes in any way. The size of an empty message is followed by
no bytes; `receive` then asks for none, gets none, and takes that for the end of the file.
-/

namespace Crs.SimpleNetPoint

open Foundation

structure Connection where
  sender : Outgoing := {}
  channel : List UInt8 := []
  receiver : Incoming

/-- `transmit` and `receive` say how many bytes the transport moves. -/
inductive Action (L : LongFormat) where
  | sendMessage (msg : Message) (sound : msg.Sound L)
  | transmit (count : Nat)
  | receive (count : Nat)
  | recvMessage

inductive Seen where
  | posted (msg : Message)
  | transmitted
  | received
  | endOfFile
  | taken (msg : Option Message)

def Seen.posted? : Seen → Option Message
  | .posted msg => some msg
  | .transmitted | .received | .endOfFile | .taken _ => none

def Seen.taken? : Seen → Option Message
  | .taken msg => msg
  | .transmitted | .received | .endOfFile | .posted _ => none

namespace Connection

variable (L : LongFormat)

/-- While the sender is connected, a `recv` that asks for bytes waits until there are some. -/
def machine : Machine Connection (Action L) Seen where
  step s
    | .sendMessage msg _ => some (.posted msg, { s with sender := s.sender.sendMessage msg })
    | .transmit count =>
        (s.sender.transmit L count).map fun (bytes, sender) =>
          (.transmitted, { s with sender, channel := s.channel ++ bytes })
    | .receive count =>
        if count ≤ s.channel.length then
          (s.receiver.receive L (s.channel.take count)).map fun (eof, receiver) =>
            (if eof then .endOfFile else .received,
              { s with receiver, channel := s.channel.drop count })
        else none
    | .recvMessage =>
        let (msg, receiver) := s.receiver.recvMessage
        some (.taken msg, { s with receiver })

def new : Connection := { receiver := .new L }

variable {L}

/-- The messages given to `sendMessage`, in order. -/
def posted (history : List (Action L × Seen)) : List Message :=
  history.filterMap fun event => event.2.posted?

/-- The messages that `recvMessage` has returned and those in the inbox. -/
def delivered (history : List (Action L × Seen)) (s : Connection) : List Message :=
  history.filterMap (fun event => event.2.taken?) ++ s.receiver.inbox

/-- The bytes that the receiver holds, those on their way and those to be sent are the
messages that are not delivered yet. -/
structure Carries (history : List (Action L × Seen)) (todo : List Message) (held : List UInt8)
    (s : Connection) : Prop where
  ready : s.sender.Ready L
  holding : s.receiver.Holding L held
  posted : posted history = delivered history s ++ todo
  bytes : held ++ s.channel ++ s.sender.pending L = todo.flatMap (frame L)
  sound : ∀ msg ∈ todo, msg.Sound L
  filled : ∀ msg ∈ delivered history s, msg.size ≠ 0

variable {history : List (Action L × Seen)} {todo : List Message} {held : List UInt8}
  {s s' : Connection} {a : Action L} {o : Seen}

@[simp] theorem posted_snoc :
    posted (history ++ [(a, o)]) = posted history ++ o.posted?.toList :=
  Machine.filterMap_snoc _ history (a, o)

theorem delivered_snoc : delivered (history ++ [(a, o)]) s =
    history.filterMap (fun event => event.2.taken?) ++ o.taken?.toList ++ s.receiver.inbox := by
  rw [delivered, Machine.filterMap_snoc]

theorem new_carries : Carries ([] : List (Action L × Seen)) [] [] (new L) where
  ready := ⟨by simp [new], by simp [new], by simp [new]⟩
  holding := Incoming.new_holding
  posted := by simp [Connection.posted, delivered, new, Incoming.new]
  bytes := by simp [new, Outgoing.pending]
  sound := by simp
  filled := by simp [delivered, new, Incoming.new]

theorem send_carries (carries : Carries history todo held s) {msg : Message} (sound : msg.Sound L) :
    Carries (history ++ [(.sendMessage msg sound, .posted msg)]) (todo ++ [msg]) held
      { s with sender := s.sender.sendMessage msg } := by
  obtain ⟨ready, pending⟩ := Outgoing.sendMessage_spec carries.ready sound
  have same : delivered (history ++ [(.sendMessage msg sound, .posted msg)])
      { s with sender := s.sender.sendMessage msg } = delivered history s := by
    simp [delivered, Seen.taken?]
  refine ⟨ready, carries.holding, ?_, ?_, fun other member => ?_, fun other member => ?_⟩
  · rw [posted_snoc, same, carries.posted, List.append_assoc]
    rfl
  · rw [pending, ← List.append_assoc, carries.bytes]
    simp
  · obtain member | here := List.mem_append.mp member
    · exact carries.sound other member
    · exact List.mem_singleton.mp here ▸ sound
  · exact carries.filled other (same ▸ member)

theorem transmit_carries (carries : Carries history todo held s) {count : Nat}
    {bytes : List UInt8} {sender : Outgoing}
    (sends : s.sender.transmit L count = some (bytes, sender)) :
    Carries (history ++ [(.transmit count, .transmitted)]) todo held
      { s with sender, channel := s.channel ++ bytes } := by
  obtain ⟨front, ready⟩ := Outgoing.transmit_spec carries.ready sends
  have same : delivered (history ++ [((.transmit count : Action L), .transmitted)])
      { s with sender, channel := s.channel ++ bytes } = delivered history s := by
    simp [delivered, Seen.taken?]
  refine ⟨ready, carries.holding, ?_, ?_, carries.sound, same ▸ carries.filled⟩
  · rw [posted_snoc, same, carries.posted]
    simp [Seen.posted?]
  · rw [← carries.bytes, ← front]
    simp

/-- The first message is complete if a size and contents of that length are there. -/
theorem first_message {size contents behind : List UInt8} (sound : ∀ msg ∈ todo, msg.Sound L)
    (bytes : size ++ contents ++ behind = todo.flatMap (frame L)) (sized : size.length = L.size)
    (length : contents.length = L.ofBytes size) :
    ∃ msg later, todo = msg :: later ∧ msg = ⟨L.ofBytes size, contents⟩ ∧
      behind = later.flatMap (frame L) := by
  cases todo with
  | nil =>
    have none : size.length = 0 := by simp_all
    exact absurd (sized ▸ none) (Nat.ne_of_gt L.positive)
  | cons msg later =>
    obtain ⟨length', fits⟩ := sound msg List.mem_cons_self
    rw [List.flatMap_cons, frame, List.append_assoc, List.append_assoc] at bytes
    obtain ⟨rfl, more⟩ := List.append_inj bytes (sized.trans (L.length_toBytes msg.size).symm)
    rw [L.ofBytes_toBytes _ fits] at length ⊢
    obtain ⟨rfl, behind⟩ := List.append_inj more (length.trans length'.symm)
    exact ⟨msg, later, rfl, rfl, behind⟩

theorem receive_carries (carries : Carries history todo held s) {count : Nat} {eof : Bool}
    {receiver : Incoming}
    (gets : s.receiver.receive L (s.channel.take count) = some (eof, receiver)) :
    ∃ todo' held', Carries
        (history ++ [(.receive count, if eof then .endOfFile else .received)]) todo' held'
        { s with receiver, channel := s.channel.drop count } ∧
      (eof = true → ∃ msg ∈ posted history, msg.size = 0) := by
  have split := List.take_append_drop count s.channel
  have unposted : posted (history ++ [((.receive count : Action L),
      if eof then Seen.endOfFile else .received)]) = posted history := by
    cases eof <;> simp [Seen.posted?]
  have untaken : delivered (history ++ [((.receive count : Action L),
      if eof then Seen.endOfFile else .received)])
        { s with receiver, channel := s.channel.drop count } =
      history.filterMap (fun event => event.2.taken?) ++ receiver.inbox := by
    cases eof <;> simp [delivered, Seen.taken?]
  have bytes := carries.bytes
  rw [← split, ← List.append_assoc] at bytes
  obtain ⟨rfl, rfl, none, zero, length⟩ | ⟨rfl, inbox, holding⟩ |
    ⟨rfl, size, contents, inbox, parts, sized, length, some, holding⟩ :=
      Incoming.receive_spec carries.holding gets
  · rw [none, List.append_nil] at bytes
    refine ⟨todo, held, ⟨carries.ready, carries.holding, ?_, ?_, carries.sound, ?_⟩, fun _ => ?_⟩
    · rw [unposted, untaken]
      exact carries.posted
    · exact bytes
    · rw [untaken]
      exact carries.filled
    · have parts : held ++ [] ++ (s.channel.drop count ++ s.sender.pending L) =
          todo.flatMap (frame L) := by simpa using bytes
      obtain ⟨msg, later, rfl, rfl, -⟩ := first_message carries.sound parts length zero.symm
      exact ⟨⟨L.ofBytes held, []⟩, by rw [carries.posted]; simp, zero⟩
  · refine ⟨todo, held ++ s.channel.take count,
      ⟨carries.ready, holding, ?_, bytes, carries.sound, ?_⟩, nofun⟩
    · rw [unposted, untaken, inbox]
      exact carries.posted
    · rw [untaken, inbox]
      exact carries.filled
  · rw [parts, List.append_assoc] at bytes
    obtain ⟨msg, later, rfl, rfl, behind⟩ := first_message carries.sound bytes sized length
    refine ⟨later, [], ⟨carries.ready, holding, ?_, behind, ?_, ?_⟩, nofun⟩
    · rw [unposted, untaken, inbox, carries.posted, delivered]
      simp
    · exact fun other member => carries.sound other (List.mem_cons_of_mem _ member)
    · intro other member
      rw [untaken, inbox, ← List.append_assoc] at member
      obtain member | here := List.mem_append.mp member
      · exact carries.filled other member
      · obtain rfl := List.mem_singleton.mp here
        change L.ofBytes size ≠ 0
        rw [← length]
        exact fun none => some (List.length_eq_zero_iff.mp none)

theorem take_carries (carries : Carries history todo held s) :
    Carries (history ++ [(.recvMessage, .taken s.receiver.recvMessage.1)]) todo held
      { s with receiver := s.receiver.recvMessage.2 } := by
  obtain ⟨sender, channel, ⟨inbox, inSize, inContents, inPart, inNextByte, inBytesRest⟩⟩ := s
  have same : delivered (history ++ [((.recvMessage : Action L), .taken inbox.head?)])
      ⟨sender, channel, ⟨inbox.tail, inSize, inContents, inPart, inNextByte, inBytesRest⟩⟩ =
        delivered history
          ⟨sender, channel, ⟨inbox, inSize, inContents, inPart, inNextByte, inBytesRest⟩⟩ := by
    cases inbox <;> simp [delivered, Seen.taken?]
  have next : Incoming.recvMessage ⟨inbox, inSize, inContents, inPart, inNextByte, inBytesRest⟩ =
      (inbox.head?, ⟨inbox.tail, inSize, inContents, inPart, inNextByte, inBytesRest⟩) := by
    cases inbox <;> rfl
  have holding : Incoming.Holding L
      ⟨inbox.tail, inSize, inContents, inPart, inNextByte, inBytesRest⟩ held := by
    cases carries.holding with
    | size length part more cursor => exact .size length part more cursor
    | stuck length rest zero => exact .stuck length rest zero
    | contents length part more cursor whole => exact .contents length part more cursor whole
  simp only [next]
  refine ⟨carries.ready, holding, ?_, carries.bytes, carries.sound, same ▸ carries.filled⟩
  rw [posted_snoc, same]
  simpa [Seen.posted?] using carries.posted

theorem step_carries (carries : Carries history todo held s)
    (step : (machine L).step s a = some (o, s')) :
    ∃ todo' held', Carries (history ++ [(a, o)]) todo' held' s' ∧
      (o = .endOfFile → ∃ msg ∈ posted history, msg.size = 0) := by
  cases a with
  | sendMessage msg sound =>
    obtain ⟨rfl, rfl⟩ := by simpa [machine] using step
    exact ⟨_, _, send_carries carries sound, nofun⟩
  | transmit count =>
    obtain ⟨⟨bytes, sender⟩, sends, result⟩ := Option.map_eq_some_iff.mp step
    obtain ⟨rfl, rfl⟩ := by simpa using result
    exact ⟨_, _, transmit_carries carries sends, nofun⟩
  | receive count =>
    simp only [machine] at step
    split at step
    · obtain ⟨⟨eof, receiver⟩, gets, result⟩ := Option.map_eq_some_iff.mp step
      obtain ⟨rfl, rfl⟩ := by simpa using result
      obtain ⟨todo', held', next, fault⟩ := receive_carries carries gets
      refine ⟨todo', held', next, fun ended => fault ?_⟩
      cases eof with
      | true => rfl
      | false => cases ended
    · cases step
  | recvMessage =>
    obtain ⟨rfl, rfl⟩ := by simpa [machine] using step
    exact ⟨_, _, take_carries carries, nofun⟩

theorem run_carries (run : (machine L).Run (new L) history s) :
    (∃ todo held, Carries history todo held s) ∧
      ((∀ msg ∈ posted history, msg.size ≠ 0) → ∀ event ∈ history, event.2 ≠ .endOfFile) := by
  induction run with
  | nil => exact ⟨⟨[], [], new_carries⟩, by simp⟩
  | @snoc history t u a o earlier step ih =>
    obtain ⟨⟨todo, held, carries⟩, clean⟩ := ih
    obtain ⟨todo', held', next, fault⟩ := step_carries carries step
    refine ⟨⟨todo', held', next⟩, fun filled event member => ?_⟩
    rw [posted_snoc] at filled
    have before : ∀ msg ∈ posted history, msg.size ≠ 0 :=
      fun msg inside => filled msg (List.mem_append_left _ inside)
    obtain member | here := List.mem_append.mp member
    · exact clean before event member
    · obtain rfl := List.mem_singleton.mp here
      intro ended
      obtain ⟨msg, inside, zero⟩ := fault ended
      exact before msg inside zero

/-- The held bytes are less than a message that is not empty. -/
theorem todo_eq_nil (holding : s.receiver.Holding L held) (sound : ∀ msg ∈ todo, msg.Sound L)
    (filled : ∀ msg ∈ todo, msg.size ≠ 0) (bytes : held = todo.flatMap (frame L)) : todo = [] := by
  cases todo with
  | nil => rfl
  | cons msg later =>
    obtain ⟨length, fits⟩ := sound msg List.mem_cons_self
    have nonempty := filled msg List.mem_cons_self
    rw [List.flatMap_cons, frame, List.append_assoc] at bytes
    have least : L.size + msg.size ≤ held.length := by
      rw [bytes, List.length_append, List.length_append, L.length_toBytes, length]
      omega
    cases holding with
    | size sized part more cursor =>
      rw [List.length_take, sized] at least
      omega
    | stuck sized rest zero =>
      omega
    | contents sized part more cursor whole =>
      obtain ⟨same, -⟩ := List.append_inj bytes (sized.trans (L.length_toBytes msg.size).symm)
      rw [same, L.ofBytes_toBytes _ fits] at whole
      rw [List.length_append, List.length_take, sized] at least
      omega

/-- In every run the delivered messages are a prefix of the posted ones. If no message is
empty, no end of the file is reported; and when all bytes are transferred, all messages are
delivered exactly if none of them is empty. -/
theorem run_delivers (run : (machine L).Run (new L) history s) :
    delivered history s <+: posted history ∧
    ((∀ msg ∈ posted history, msg.size ≠ 0) → ∀ event ∈ history, event.2 ≠ .endOfFile) ∧
    (s.sender.pending L = [] → s.channel = [] →
      (delivered history s = posted history ↔ ∀ msg ∈ posted history, msg.size ≠ 0)) := by
  obtain ⟨⟨todo, held, carries⟩, clean⟩ := run_carries run
  refine ⟨⟨todo, carries.posted.symm⟩, clean, fun sent arrived => ⟨fun all => ?_, fun filled => ?_⟩⟩
  · exact all ▸ carries.filled
  · have bytes := carries.bytes
    rw [sent, arrived, List.append_nil, List.append_nil] at bytes
    rw [carries.posted] at filled ⊢
    rw [todo_eq_nil carries.holding carries.sound
      (fun msg member => filled msg (List.mem_append_right _ member)) bytes, List.append_nil]

/-- Two messages, of which the first one arrives in three parts. -/
theorem run_delivers_two : ∃ (history : List (Action .amd64 × Seen)) (s : Connection),
    (machine .amd64).Run (new .amd64) history s ∧
      delivered history s = [⟨2, [72, 105]⟩] ∧ delivered history s <+: posted history := by
  have executed : ∃ history s, (machine .amd64).exec (new .amd64)
      [.sendMessage ⟨2, [72, 105]⟩ ⟨rfl, by decide⟩, .sendMessage ⟨1, [33]⟩ ⟨rfl, by decide⟩,
        .transmit 8, .transmit 1, .receive 5, .receive 3, .transmit 1, .receive 2, .transmit 8] =
          some (history, s) ∧ delivered history s = [⟨2, [72, 105]⟩] := ⟨_, _, rfl, by decide⟩
  obtain ⟨history, s, computed, arrived⟩ := executed
  have run := Machine.run_of_exec computed
  exact ⟨history, s, run, arrived, (run_delivers run).1⟩

/-- After an empty message all bytes are transferred, it is not delivered, and the next call
of `receive` reports the end of the file. -/
theorem empty_message_ends : ∃ (history : List (Action .amd64 × Seen))
    (s s' : Connection),
    (machine .amd64).Run (new .amd64) history s ∧
      s.sender.pending .amd64 = [] ∧ s.channel = [] ∧
      posted history = [⟨0, []⟩] ∧ delivered history s = [] ∧
      (machine .amd64).step s (.receive 0) = some (.endOfFile, s') := by
  have executed : ∃ history s s', (machine .amd64).exec (new .amd64)
        [.sendMessage ⟨0, []⟩ ⟨rfl, by decide⟩, .transmit 8, .receive 8, .transmit 0] =
          some (history, s) ∧
      s.sender.pending .amd64 = [] ∧ s.channel = [] ∧
      posted history = [⟨0, []⟩] ∧ delivered history s = [] ∧
      (machine .amd64).step s (.receive 0) = some (.endOfFile, s') :=
    ⟨_, _, _, rfl, by decide, by decide, by decide, by decide, rfl⟩
  obtain ⟨history, s, s', computed, shown⟩ := executed
  exact ⟨history, s, s', Machine.run_of_exec computed, shown⟩

end Connection

end Crs.SimpleNetPoint
