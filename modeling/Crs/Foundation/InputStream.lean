import Crs.Foundation.Text

/-!
# An input stream over a text

The state of an `istream` over characters that are all there: a position, and the flags for the
end of the text and for a failed operation. A stream that is not good refuses to read.
-/

namespace Foundation

structure InputStream where
  text : List Char
  position : ℕ := 0
  eofbit : Bool := false
  failbit : Bool := false

namespace InputStream

def good (s : InputStream) : Bool := !s.eofbit && !s.failbit

/-- The next character, or none for EOF. -/
def get (s : InputStream) : Option Char × InputStream :=
  if s.good then
    match s.text.drop s.position with
    | [] => (none, { s with eofbit := true, failbit := true })
    | ch :: _ => (some ch, { s with position := s.position + 1 })
  else (none, { s with failbit := true })

/-- `getline` into a buffer, which a stream that is not good leaves alone. -/
def getline (s : InputStream) (buf : List Char) : List Char × InputStream :=
  if s.good then
    let rest := s.text.drop s.position
    let line := rest.takeWhile (· != '\n')
    if line.length < rest.length then
      (line, { s with position := s.position + line.length + 1 })
    else
      (line, { s with
        position := s.position + line.length
        eofbit := true
        failbit := line.isEmpty })
  else (buf, { s with failbit := true })

/-- `getline` with a delimiter of the caller's. -/
def getlineBy (delim : Char) (s : InputStream) (buf : List Char) : List Char × InputStream :=
  if s.good then
    let rest := s.text.drop s.position
    let line := rest.takeWhile (· != delim)
    if line.length < rest.length then
      (line, { s with position := s.position + line.length + 1 })
    else
      (line, { s with
        position := s.position + line.length
        eofbit := true
        failbit := line.isEmpty })
  else (buf, { s with failbit := true })

theorem getline_eq (s : InputStream) (buf : List Char) : s.getline buf = s.getlineBy '\n' buf :=
  rfl

/-- The position, or none for `pos_type(-1)`. -/
def tellg (s : InputStream) : Option ℕ × InputStream :=
  if s.good then (some s.position, s) else (none, { s with failbit := true })

def seekg (s : InputStream) (position : Option ℕ) : InputStream :=
  if s.failbit then { s with eofbit := false }
  else
    match position with
    | some position => { s with position, eofbit := false }
    | none => { s with eofbit := false, failbit := true }

def clear (s : InputStream) : InputStream := { s with eofbit := false, failbit := false }

section Get

variable {s : InputStream}

theorem tellg_of_good (good : s.good = true) : s.tellg = (some s.position, s) := by
  rw [tellg, if_pos good]

theorem tellg_of_not_good (bad : s.good = false) :
    s.tellg = (none, { s with failbit := true }) := by
  rw [tellg, if_neg (by simp [bad])]

theorem get_cons {ch : Char} {rest : List Char} (good : s.good = true)
    (left : s.text.drop s.position = ch :: rest) :
    s.get = (some ch, { s with position := s.position + 1 }) ∧
      s.text.drop (s.position + 1) = rest := by
  rw [get, if_pos good, left, ← List.drop_drop, left]
  exact ⟨rfl, rfl⟩

theorem get_nil (good : s.good = true) (left : s.text.drop s.position = []) :
    s.get = (none, { s with eofbit := true, failbit := true }) := by
  rw [get, if_pos good, left]

theorem get_of_not_good (bad : s.good = false) : s.get = (none, { s with failbit := true }) := by
  rw [get, if_neg (by simp [bad])]

end Get

theorem getline_of_not_good {s : InputStream} (bad : s.good = false) (buf : List Char) :
    s.getline buf = (buf, { s with failbit := true }) := by
  rw [getline, if_neg (by simp [bad])]

/-- A stream from which a line was taken is at its end, or it is good and has come nearer to it. -/
theorem getline_progress {s : InputStream} (good : s.good = true) (buf : List Char) :
    (s.getline buf).2.text = s.text ∧
      ((s.getline buf).2.eofbit = true ∨ (s.getline buf).2.good = true ∧
        s.position < (s.getline buf).2.position ∧ (s.getline buf).2.position ≤ s.text.length) := by
  rw [getline, if_pos good]
  dsimp only
  split
  · next shorter =>
    rw [List.length_drop] at shorter
    refine ⟨rfl, .inr ⟨good, ?_, ?_⟩⟩ <;> dsimp only <;> omega
  · exact ⟨rfl, .inl rfl⟩

/-- The stream is good, and these pieces are what is left to read. -/
structure StandsBy (delim : Char) (s : InputStream) (pieces : List (List Char)) : Prop where
  good : s.good = true
  rest : (s.text.drop s.position).splitOn delim = pieces

section StandsBy

variable {delim : Char} {s : InputStream} {piece : List Char} {pieces : List (List Char)}

theorem standsBy_start (delim : Char) (text : List Char) :
    StandsBy delim { text } (text.splitOn delim) :=
  ⟨rfl, rfl⟩

theorem StandsBy.unbroken (stands : s.StandsBy delim pieces) (member : piece ∈ pieces) :
    delim ∉ piece := by
  rw [← stands.rest] at member
  exact Text.not_mem_of_mem_splitOn member

theorem StandsBy.ne_nil (stands : s.StandsBy delim pieces) : pieces ≠ [] := by
  rw [← stands.rest]
  exact List.splitOn_ne_nil _ _

theorem StandsBy.eofbit (stands : s.StandsBy delim pieces) : s.eofbit = false := by
  have good := stands.good
  simp only [InputStream.good, Bool.and_eq_true, Bool.not_eq_true'] at good
  exact good.1

theorem StandsBy.drop_eq (stands : s.StandsBy delim (piece :: pieces)) :
    s.text.drop s.position = piece ++ Text.behind delim pieces :=
  Text.eq_append_behind stands.rest

theorem StandsBy.takeWhile_eq (stands : s.StandsBy delim (piece :: pieces)) :
    (s.text.drop s.position).takeWhile (· != delim) = piece := by
  have whole (c : Char) (member : c ∈ piece) : (c != delim) = true := by
    rw [bne_iff_ne]
    rintro rfl
    exact stands.unbroken List.mem_cons_self member
  rw [stands.drop_eq, List.takeWhile_append_of_pos whole]
  cases pieces <;> simp

/-- The last piece is read, and with it the end. -/
theorem StandsBy.getlineBy_last (stands : s.StandsBy delim [piece]) (buf : List Char) :
    s.getlineBy delim buf = (piece, { s with
      position := s.position + piece.length
      eofbit := true
      failbit := piece.isEmpty }) := by
  have whole : s.text.drop s.position = piece := by simpa using stands.drop_eq
  have all := stands.takeWhile_eq
  rw [whole] at all
  rw [getlineBy, if_pos stands.good]
  simp only [whole, all, Nat.lt_irrefl, if_false]

/-- A piece is read, and others are left. -/
theorem StandsBy.getlineBy_next (stands : s.StandsBy delim (piece :: pieces)) (more : pieces ≠ [])
    (buf : List Char) :
    s.getlineBy delim buf = (piece, { s with position := s.position + piece.length + 1 }) := by
  obtain ⟨next, pieces, rfl⟩ := List.exists_cons_of_ne_nil more
  have short : piece.length < (s.text.drop s.position).length := by
    rw [stands.drop_eq]
    simp
  rw [getlineBy, if_pos stands.good]
  simp only [stands.takeWhile_eq, short, if_true]

theorem StandsBy.next (stands : s.StandsBy delim (piece :: pieces)) (more : pieces ≠ []) :
    StandsBy delim { s with position := s.position + piece.length + 1 } pieces := by
  obtain ⟨next, pieces, rfl⟩ := List.exists_cons_of_ne_nil more
  refine ⟨stands.good, ?_⟩
  have unbroken : ∀ p ∈ next :: pieces, delim ∉ p := fun p member =>
    stands.unbroken (List.mem_cons_of_mem _ member)
  have rest : s.text.drop (s.position + piece.length + 1) =
      next ++ Text.behind delim pieces := by
    rw [Nat.add_assoc, ← List.drop_drop, stands.drop_eq, Text.behind_cons, ← List.drop_drop,
      List.drop_left]
    rfl
  rw [rest, ← Text.intercalate_cons]
  exact List.splitOn_intercalate delim unbroken (by simp)

end StandsBy

section ForPieces

variable {σ : Type*} {delim : Char} {body : σ → List Char → Option σ} {s : InputStream}

/-- A loop over the pieces of a stream. It ends without the last piece where that is empty. -/
def forPieces (delim : Char) (body : σ → List Char → Option σ) :
    ℕ → InputStream → List Char → σ → Option σ
  | 0, _, _, _ => none
  | fuel + 1, s, buf, state =>
      if s.good then
        let (buf, s) := s.getlineBy delim buf
        if s.eofbit && buf.isEmpty then some state
        else do
          let state ← body state buf
          forPieces delim body fuel s buf state
      else some state

/-- Without an empty piece at the end. -/
def unlessEmpty : List (List Char) → List (List Char)
  | [] => []
  | [piece] => if piece.isEmpty then [] else [piece]
  | piece :: next :: pieces => piece :: unlessEmpty (next :: pieces)

theorem mem_of_mem_unlessEmpty {pieces : List (List Char)} {piece : List Char}
    (member : piece ∈ unlessEmpty pieces) : piece ∈ pieces := by
  induction pieces with
  | nil => exact member
  | cons first pieces ih =>
    cases pieces with
    | nil =>
      rw [unlessEmpty] at member
      split at member
      · simp at member
      · exact member
    | cons next pieces =>
      obtain rfl | member := List.mem_cons.mp member
      · exact List.mem_cons_self
      · exact List.mem_cons_of_mem _ (ih member)

/-- With enough fuel, the body runs for one piece after the other. -/
theorem forPieces_spec {pieces : List (List Char)} (stands : s.StandsBy delim pieces) {fuel : ℕ}
    (enough : pieces.length < fuel) (buf : List Char) (state : σ) :
    forPieces delim body fuel s buf state = (unlessEmpty pieces).foldlM body state := by
  induction pieces generalizing s fuel buf state with
  | nil => exact absurd rfl stands.ne_nil
  | cons piece pieces ih =>
    obtain ⟨fuel, rfl⟩ : ∃ rest, fuel = rest + 1 := ⟨fuel - 1, by omega⟩
    simp only [List.length_cons, Nat.add_lt_add_iff_right] at enough
    rw [forPieces, if_pos stands.good]
    cases pieces with
    | nil =>
      simp only [stands.getlineBy_last, Bool.true_and, unlessEmpty]
      split
      · rfl
      · -- the stream is not good any more, so the loop ends
        obtain ⟨fuel, rfl⟩ : ∃ rest, fuel = rest + 1 := ⟨fuel - 1, by simp at enough; omega⟩
        simp [forPieces, InputStream.good]
    | cons next pieces =>
      simp only [stands.getlineBy_next (List.cons_ne_nil _ _), unlessEmpty, List.foldlM_cons]
      rw [if_neg (by simp [stands.eofbit])]
      congr 1
      funext state
      exact ih (stands.next (List.cons_ne_nil _ _)) enough _ _

end ForPieces

/-- The stream is good, and these lines are what is left to read. -/
structure Stands (s : InputStream) (lines : List (List Char)) : Prop where
  good : s.good = true
  rest : (s.text.drop s.position).splitOn '\n' = lines

variable {s : InputStream} {line : List Char} {lines : List (List Char)}

theorem stands_start (text : List Char) : Stands { text } (text.splitOn '\n') :=
  ⟨rfl, rfl⟩

theorem stands_iff : s.Stands lines ↔ s.StandsBy '\n' lines :=
  ⟨fun stands => ⟨stands.good, stands.rest⟩, fun stands => ⟨stands.good, stands.rest⟩⟩

theorem Stands.eofbit (stands : s.Stands lines) : s.eofbit = false :=
  (stands_iff.mp stands).eofbit

theorem Stands.unbroken (stands : s.Stands lines) (member : line ∈ lines) : '\n' ∉ line :=
  (stands_iff.mp stands).unbroken member

theorem Stands.ne_nil (stands : s.Stands lines) : lines ≠ [] :=
  (stands_iff.mp stands).ne_nil

theorem Stands.length_le (stands : s.Stands lines) : lines.length ≤ s.text.length + 1 := by
  rw [← stands.rest]
  apply Nat.le_trans (Text.length_splitOn_le _ _)
  simp

theorem Stands.clear (stands : s.Stands lines) : s.clear.Stands lines :=
  ⟨rfl, stands.rest⟩

/-- The last line is read, and with it the end. -/
theorem Stands.getline_last (stands : s.Stands [line]) (buf : List Char) :
    s.getline buf = (line, { s with
      position := s.position + line.length
      eofbit := true
      failbit := line.isEmpty }) :=
  (stands_iff.mp stands).getlineBy_last buf

/-- A line is read, and others are left. -/
theorem Stands.getline_next (stands : s.Stands (line :: lines)) (more : lines ≠ [])
    (buf : List Char) :
    s.getline buf = (line, { s with position := s.position + line.length + 1 }) :=
  (stands_iff.mp stands).getlineBy_next more buf

theorem Stands.next (stands : s.Stands (line :: lines)) (more : lines ≠ []) :
    Stands { s with position := s.position + line.length + 1 } lines :=
  stands_iff.mpr ((stands_iff.mp stands).next more)

/-- Going back to a position, the same lines are left. -/
theorem Stands.seekg (stands : s.Stands lines) {t : InputStream} (text : t.text = s.text) :
    (t.clear.seekg (some s.position)).Stands lines := by
  refine ⟨rfl, ?_⟩
  simp only [InputStream.clear, InputStream.seekg, Bool.false_eq_true, if_false, text]
  exact stands.rest

end InputStream

end Foundation
