import Crs.Sc.Lines
import Crs.Sc.SerialByte

/-!
# Ports that stop to read

`handle_read` asks for as many bytes as there is room for. If the buffer is full, `::read`
returns 0 and the loop goes on for ever. Packets never fill a buffer that has room for one of
them. A line that is as long as the buffer does, and so do bytes behind a NUL.
-/

namespace Crs.Sc

open Foundation

namespace InPort

variable {σ ω : Type*}

/-- The next call of `handle_read` returns, and all calls before have gone right. -/
def Responsive (compileResponse : CompileResponse σ ω) (s : InPort σ) : Prop :=
  s.undefined = false ∧ s.Terminates compileResponse

theorem responsive_iff {compileResponse : CompileResponse σ ω} {s : InPort σ} :
    s.Responsive compileResponse ↔ s.undefined = false ∧ s.inBufPtr < s.inBuf.length := by
  rw [Responsive, terminates_iff, room, Nat.sub_pos_iff_lt]

end InPort

namespace TextPort

open InPort

/-- `strpbrk` ends here. -/
def stops (c : UInt8) : Bool := c == 0 || delim c

/-- The buffer with the bytes of a read. -/
def filledWith (s : InPort (List UInt8)) (bytes : List UInt8) : List UInt8 :=
  s.waiting ++ bytes ++ s.inBuf.drop (s.inBufPtr + bytes.length)

/-- In a read that fills the buffer, a terminator comes before any NUL. Otherwise one of them is
somewhere in the buffer. -/
def Drains (s : InPort (List UInt8)) : ReadAction (List UInt8) → Prop
  | .handleRead results =>
      let bytes := arrived results
      bytes = [] ∨
        if s.inBufPtr + bytes.length = s.inBuf.length then
          ((filledWith s bytes).find? stops).any delim = true
        else (filledWith s bytes).any stops = true
  | .others _ => True

instance (s : InPort (List UInt8)) : DecidablePred (Drains s)
  | .handleRead results => by
    unfold Drains
    infer_instance
  | .others _ => inferInstanceAs (Decidable True)

section Receive

variable {s s' : InPort (List UInt8)} {bytes : List UInt8} {o : ReadSeen TextEffect}

/-- The search ends behind the memory, or at the first NUL or terminator. -/
theorem strpbrk_cases (memory : List UInt8) :
    (memory.any stops = false ∧ strpbrk memory = none) ∨
      (memory.any stops = true ∧ (memory.find? stops).any delim = false ∧
        strpbrk memory = some none) ∨
      (memory.any stops = true ∧ (memory.find? stops).any delim = true ∧
        ∃ p, strpbrk memory = some (some p) ∧ p < memory.length ∧
          (memory.drop p).head?.any delim = true) := by
  induction memory with
  | nil => exact .inl ⟨rfl, rfl⟩
  | cons c memory ih =>
    rw [strpbrk]
    by_cases zero : c = 0
    · exact .inr (.inl (by simp [zero, stops, delim]))
    · by_cases now : delim c = true
      · exact .inr (.inr ⟨by simp [stops, now], by simp [stops, now], 0, by simp [zero, now]⟩)
      · have passes : stops c = false := by simp [stops, zero, now]
        rw [List.any_cons, List.find?_cons_of_neg (by simp [passes]), passes, Bool.false_or,
          if_neg zero, if_neg now]
        obtain ⟨nowhere, search⟩ | ⟨somewhere, nul, search⟩ |
          ⟨somewhere, first, p, search, inside, here⟩ := ih
        · exact .inl ⟨nowhere, by rw [search, Option.map_none]⟩
        · exact .inr (.inl ⟨somewhere, nul, by rw [search]; rfl⟩)
        · exact .inr (.inr ⟨somewhere, first, p + 1, by rw [search]; rfl, by simpa using inside,
            here⟩)

/-- A line that has ended is taken, with a terminator behind it. -/
theorem exists_compileResponse {lpBuf : List UInt8} {dwAvailable p : Nat}
    (search : strpbrk lpBuf = some (some p)) (before : p < dwAvailable)
    (available : dwAvailable ≤ lpBuf.length) (here : (lpBuf.drop p).head?.any delim = true)
    (strInBuf : List UInt8) : ∃ effects n strInBuf',
      compileResponse lpBuf dwAvailable strInBuf = some (effects, n, strInBuf') ∧
        0 < n ∧ n ≤ dwAvailable := by
  refine ⟨_, _, _, by simp only [compileResponse, search, Option.map_some, if_pos before]; rfl,
    ?_, ?_⟩
  · obtain ⟨c, rest, begins⟩ : ∃ c rest, lpBuf.drop p = c :: rest :=
      List.exists_cons_of_length_pos (by rw [List.length_drop]; omega)
    obtain ⟨left, some⟩ : ∃ left, dwAvailable - p = left + 1 := ⟨dwAvailable - p - 1, by omega⟩
    have terminates : delim c = true := by simpa [begins] using here
    rw [List.drop_take, begins, some, List.take_succ_cons, List.takeWhile_cons_of_pos terminates]
    simp
  · have group := (List.takeWhile_prefix delim (l := (lpBuf.take dwAvailable).drop p)).length_le
    rw [List.length_drop, List.length_take] at group
    omega

/-- The next read has room exactly if a line was taken, or there was room for more and the search
has ended inside the buffer. -/
theorem receive_responsive_iff (responsive : s.Responsive compileResponse)
    (fits : bytes.length ≤ s.room) (received : s.receive compileResponse bytes = some (o, s')) :
    s'.Responsive compileResponse ↔
      if s.inBufPtr + bytes.length = s.inBuf.length then
        ((filledWith s bytes).find? stops).any delim = true
      else (filledWith s bytes).any stops = true := by
  obtain ⟨defined, within⟩ := responsive_iff.mp responsive
  have inside : s.inBufPtr + bytes.length ≤ s.inBuf.length := by
    rw [room] at fits
    omega
  obtain ⟨inBuf, length, front, stale, result⟩ := receive_spec compileResponse inside
  have memory : filledWith s bytes = inBuf := by
    rw [filledWith, ← front, ← stale, List.take_append_drop]
  have available : s.inBufPtr + bytes.length ≤ inBuf.length := by rwa [length]
  rw [memory, responsive_iff]
  -- what was not taken stays behind what was there
  have kept (search : compileResponse inBuf (s.inBufPtr + bytes.length) s.device =
      some ([], 0, s.device)) : s'.undefined = false ∧ s'.inBuf.length = s.inBuf.length ∧
        s'.inBufPtr = s.inBufPtr + bytes.length := by
    obtain ⟨inBuf', gives, same, -⟩ := processIncomingBytes_spec (s := { s with inBuf }) available
      (Nat.zero_le _) search
    rw [gives] at result
    obtain ⟨-, rfl⟩ := Prod.mk.inj (Option.some.inj (result.symm.trans received))
    exact ⟨defined, same.trans length, rfl⟩
  obtain ⟨nowhere, search⟩ | ⟨somewhere, nul, search⟩ |
    ⟨somewhere, first, p, search, before, here⟩ := strpbrk_cases inBuf
  · have fails : ({ s with inBuf } : InPort (List UInt8)).processIncomingBytes compileResponse
        bytes.length = none := by
      simp [processIncomingBytes, compileResponse, search]
    rw [fails] at result
    obtain ⟨-, rfl⟩ := Prod.mk.inj (Option.some.inj (result.symm.trans received))
    have absent : inBuf.find? stops = none := by simpa using nowhere
    simp [nowhere, absent]
  · obtain ⟨defined', length', ptr⟩ := kept (by simp [compileResponse, search])
    rw [defined', length', ptr, nul, somewhere, inside.lt_iff_ne]
    simp
  · by_cases taken : p < s.inBufPtr + bytes.length
    · obtain ⟨effects, n, strInBuf, compiled, positive, bound⟩ :=
        exists_compileResponse search taken available here s.device
      obtain ⟨inBuf', gives, same, -⟩ := processIncomingBytes_spec (s := { s with inBuf })
        available bound compiled
      rw [gives] at result
      obtain ⟨-, rfl⟩ := Prod.mk.inj (Option.some.inj (result.symm.trans received))
      rw [first, somewhere, ite_self]
      refine iff_of_true ⟨defined, ?_⟩ rfl
      change s.inBufPtr + bytes.length - n < inBuf'.length
      rw [same, length]
      omega
    · obtain ⟨defined', length', ptr⟩ := kept (by simp [compileResponse, search, taken])
      have more : s.inBufPtr + bytes.length < s.inBuf.length := by omega
      rw [defined', length', ptr, if_neg more.ne]
      exact iff_of_true ⟨rfl, more⟩ somewhere

end Receive

/-- A step leaves room exactly if it drains the buffer. -/
theorem step_responsive_iff {s s' : InPort (List UInt8)} {a : ReadAction (List UInt8)}
    {o : ReadSeen TextEffect} (responsive : s.Responsive compileResponse)
    (step : machine.step s a = some (o, s')) :
    s'.Responsive compileResponse ↔ Drains s a := by
  obtain ⟨results, rfl, -, ⟨empty, rfl, -⟩ | ⟨nonempty, fits, receives⟩⟩ |
    ⟨device, rfl, rfl, rfl⟩ := InPort.step_cases step
  · exact iff_of_true responsive (.inl empty)
  · rw [receive_responsive_iff responsive fits receives, Drains]
    simp only [nonempty, false_or]
  · rw [responsive_iff] at responsive ⊢
    exact iff_of_true responsive trivial

end TextPort

namespace PacketPort

variable (size : Nat) (trace : ComPacket → ComPacket → Bool)

/-- The loop of `compileResponse` from `nBytesProcessed` on, with a bound for its rounds. -/
def compileLoop (lpBuf : List UInt8) (dwAvailable : Nat) :
    (rounds nBytesProcessed : Nat) → SerialByte →
      Option (List (ComPacket × Route) × Nat × SerialByte)
  | 0, _, _ => none
  | rounds + 1, nBytesProcessed, device =>
      if size ≤ dwAvailable - nBytesProcessed then
        (Memory.read lpBuf nBytesProcessed size).bind fun packet =>
          match device.dispatch trace packet with
          | (.sync, device) => some ([(packet, .sync)], dwAvailable, device)
          | (route, device) =>
              (compileLoop lpBuf dwAvailable rounds (nBytesProcessed + size) device).map
                fun (packets, result) => ((packet, route) :: packets, result)
      else some ([], nBytesProcessed, device)

/-- `compileResponse` of a port with packets. -/
def compileResponse : CompileResponse SerialByte (ComPacket × Route) :=
  fun lpBuf dwAvailable device =>
    compileLoop size trace lpBuf dwAvailable (dwAvailable + 1) 0 device

def machine :
    Machine (InPort SerialByte) (ReadAction SerialByte) (ReadSeen (ComPacket × Route)) :=
  InPort.machine (compileResponse size trace)

variable {size trace} {lpBuf : List UInt8} {dwAvailable : Nat}

variable (trace) in
/-- The loop ends, inside the buffer, with less than a packet left. -/
theorem exists_compileLoop (positive : 0 < size) (inside : dwAvailable ≤ lpBuf.length)
    {rounds n : Nat} (enough : dwAvailable - n < rounds) (within : n ≤ dwAvailable)
    (device : SerialByte) : ∃ packets n' device',
      compileLoop size trace lpBuf dwAvailable rounds n device = some (packets, n', device') ∧
        n' ≤ dwAvailable ∧ dwAvailable - n' < size := by
  induction rounds generalizing n device with
  | zero => exact absurd enough (Nat.not_lt_zero _)
  | succ rounds ih =>
    rw [compileLoop]
    by_cases more : size ≤ dwAvailable - n
    · rw [if_pos more, Memory.read_of_le (by omega), Option.bind_some]
      generalize (lpBuf.drop n).take size = packet
      obtain ⟨route, next⟩ := device.dispatch trace packet
      obtain ⟨packets, n', device', loop, bound, less⟩ := ih (n := n + size) (by omega)
        (by omega) next
      cases route with
      | sync => exact ⟨_, dwAvailable, next, rfl, le_rfl, by omega⟩
      | comSection =>
        exact ⟨(packet, .comSection) :: packets, n', device', by simp [loop], bound, less⟩
      | inbox => exact ⟨(packet, .inbox) :: packets, n', device', by simp [loop], bound, less⟩
    · rw [if_neg more]
      exact ⟨[], n, device, rfl, within, by omega⟩

/-- With packets, a step leaves room for one of them. -/
theorem step_responsive (positive : 0 < size) {s s' : InPort SerialByte}
    {a : ReadAction SerialByte} {o : ReadSeen (ComPacket × Route)} (fits : size ≤ s.inBuf.length)
    (short : s.undefined = false ∧ s.inBufPtr < size)
    (step : (machine size trace).step s a = some (o, s')) :
    s'.inBuf.length = s.inBuf.length ∧ s'.undefined = false ∧ s'.inBufPtr < size := by
  obtain ⟨results, rfl, -, ⟨-, rfl, -⟩ | ⟨-, room, receives⟩⟩ | ⟨device, rfl, rfl, rfl⟩ :=
    InPort.step_cases step
  · exact ⟨rfl, short⟩
  · generalize InPort.arrived results = bytes at room receives
    have inside : s.inBufPtr + bytes.length ≤ s.inBuf.length := by
      rw [InPort.room] at room
      omega
    obtain ⟨inBuf, length, -, -, result⟩ :=
      InPort.receive_spec (compileResponse size trace) inside
    have available : s.inBufPtr + bytes.length ≤ inBuf.length := by rwa [length]
    obtain ⟨packets, n, device, loop, bound, less⟩ := exists_compileLoop trace positive available
      (n := 0) (Nat.lt_succ_self _) (Nat.zero_le _) s.device
    have compiled : compileResponse size trace inBuf (s.inBufPtr + bytes.length) s.device =
        some (packets, n, device) := loop
    obtain ⟨inBuf', gives, same, -⟩ := InPort.processIncomingBytes_spec (s := { s with inBuf })
      available bound compiled
    rw [gives] at result
    obtain ⟨rfl, rfl⟩ := Prod.mk.inj (Option.some.inj (result.symm.trans receives))
    exact ⟨same.trans length, short.1, less⟩
  · exact ⟨rfl, short⟩

end PacketPort

section Runs

variable {size : Nat} {trace : ComPacket → ComPacket → Bool} {inBuf inBuf' strInBuf : List UInt8}
  {device : SerialByte} {history : List (ReadAction (List UInt8) × ReadSeen TextEffect)}
  {history' : List (ReadAction SerialByte × ReadSeen (ComPacket × Route))}
  {s : InPort (List UInt8)} {s' : InPort SerialByte}

end Runs

end Crs.Sc
