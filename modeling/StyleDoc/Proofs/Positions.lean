import Mathlib.Data.List.Induction
import StyleDoc.Proofs.Tiling

/-!
# Positions and offsets

A position tells the offset that it was made from.  Positions grow with every character, so that
different offsets have different positions; and the line and the column lead back to the offset, by
the bytes of the lines in front and of the characters in front on the same line.
-/

namespace StyleDoc

/-! ## Order -/

namespace Position

/-- Positions are ordered by line, and on one line by column. -/
instance : LT Position :=
  ⟨fun p q => p.line < q.line ∨ p.line = q.line ∧ p.column < q.column⟩

theorem lt_iff {p q : Position} :
    p < q ↔ p.line < q.line ∨ p.line = q.line ∧ p.column < q.column := Iff.rfl

theorem lt_trans {p q r : Position} (first : p < q) (second : q < r) : p < r := by
  rw [lt_iff] at first second ⊢
  omega

theorem lt_advance (position : Position) (c : Char) : position < position.advance c := by
  rw [lt_iff, advance]
  by_cases lineBreak : c = '\n'
  · rw [if_pos lineBreak]
    show position.line < position.line + 1 ∨ _
    omega
  · rw [if_neg lineBreak]
    show _ ∨ position.line = position.line ∧ position.column < position.column + 1
    omega

theorem lt_foldl_advance (position : Position) {text : List Char} (nonempty : text ≠ []) :
    position < text.foldl advance position := by
  induction text generalizing position with
  | nil => exact (nonempty rfl).elim
  | cons c text ih =>
      rw [List.foldl_cons]
      have first := lt_advance position c
      by_cases last : text = []
      · rw [last, List.foldl_nil]
        exact first
      · exact lt_trans first (ih _ last)

theorem after_append (before text : List Char) :
    after (before ++ text) = text.foldl advance (after before) := by
  rw [after, List.foldl_append]
  rfl

end Position

/-! ## Boundaries -/

namespace Text

theorem exists_append_of_byteSize_lt {text before after before' after' : List Char}
    (split : text = before ++ after) (split' : text = before' ++ after')
    (shorter : byteSize before < byteSize before') :
    ∃ between, between ≠ [] ∧ before' = before ++ between := by
  rcases List.append_eq_append_iff.mp (split.symm.trans split') with
    ⟨between, longer, _⟩ | ⟨between, longer, _⟩
  · refine ⟨between, ?_, longer⟩
    rintro rfl
    rw [longer, List.append_nil] at shorter
    omega
  · rw [longer, byteSize_append] at shorter
    omega

theorem join_lines (lines : List (List Char)) (line : List Char) :
    ['\n'].intercalate (lines ++ [line]) = lines.flatMap (· ++ ['\n']) ++ line := by
  induction lines with
  | nil => simp
  | cons first lines ih =>
      rw [List.cons_append, List.intercalate_cons_of_ne_nil (by simp), ih, List.flatMap_cons]
      simp

end Text

/-! ## Lines and columns -/

namespace Position

/-- The position after a text is told by the lines of the text: their number, and the length of the
last one. -/
theorem exists_lines_of_after (before : List Char) :
    ∃ lines line, before.splitOn '\n' = lines ++ [line] ∧
      after before = ⟨lines.length + 1, line.length + 1⟩ := by
  induction before using List.reverseRecOn with
  | nil => exact ⟨[], [], rfl, rfl⟩
  | append_singleton before c ih =>
      obtain ⟨lines, line, split, position⟩ := ih
      rw [after_append, position, List.foldl_cons, List.foldl_nil, advance]
      by_cases lineBreak : c = '\n'
      · have next : List.splitOn '\n' [c] = [[], []] := by rw [lineBreak]; rfl
        refine ⟨lines ++ [line], [], ?_, ?_⟩
        · rw [Text.splitOn_append split next]
          simp
        · rw [if_pos lineBreak, List.length_append]
          rfl
      · have next : List.splitOn '\n' [c] = [[c]] :=
          List.splitOn_eq_singleton (by simpa using Ne.symm lineBreak)
        refine ⟨lines, line ++ [c], Text.splitOn_append split next, ?_⟩
        rw [if_neg lineBreak, List.length_append]
        rfl

/-- A position that a text has: the line is one of its lines, and the column that of a character on
it or right behind the last one. -/
structure LiesIn (text : List Char) (position : Position) : Prop where
  line_pos : 1 ≤ position.line
  line_le : position.line ≤ (text.splitOn '\n').length
  column_pos : 1 ≤ position.column
  column_le : ∃ line, (text.splitOn '\n')[position.line - 1]? = some line ∧
    position.column - 1 ≤ line.length

/-- The offset of the character at a position: the bytes of the lines in front of it, each with its
line feed, and those of the characters in front of it on its own line. -/
def toOffset (text : List Char) (position : Position) : Nat :=
  let lines := text.splitOn '\n'
  Text.byteSize ((lines.take (position.line - 1)).flatMap (· ++ ['\n'])) +
    Text.byteSize ((lines[position.line - 1]?.getD []).take (position.column - 1))

/-- Lines, of which one is cut in two: the position of the cut, and its offset. -/
theorem cut_spec {text a b : List Char} {lines later : List (List Char)}
    (split : text.splitOn '\n' = lines ++ (a ++ b) :: later) :
    LiesIn text ⟨lines.length + 1, a.length + 1⟩ ∧
      toOffset text ⟨lines.length + 1, a.length + 1⟩ =
        Text.byteSize (['\n'].intercalate (lines ++ [a])) := by
  have found : (text.splitOn '\n')[lines.length]? = some (a ++ b) := by
    rw [split, List.getElem?_append_right (Nat.le_refl _), Nat.sub_self]
    rfl
  constructor
  · refine ⟨by simp, ?_, by simp, a ++ b, found, by simp⟩
    rw [split, List.length_append, List.length_cons]
    show lines.length + 1 ≤ _
    omega
  · show Text.byteSize (((text.splitOn '\n').take lines.length).flatMap (· ++ ['\n'])) +
      Text.byteSize (((text.splitOn '\n')[lines.length]?.getD []).take a.length) = _
    rw [found, split, List.take_left, Option.getD_some, List.take_left, Text.join_lines,
      Text.byteSize_append]

/-- The position after a beginning of a text lies in the text and leads back to the offset. -/
theorem after_spec (before rest : List Char) :
    LiesIn (before ++ rest) (after before) ∧
      toOffset (before ++ rest) (after before) = Text.byteSize before := by
  obtain ⟨lines, a, split, position⟩ := exists_lines_of_after before
  obtain ⟨b, later, split'⟩ := List.exists_cons_of_ne_nil (List.splitOn_ne_nil '\n' rest)
  rw [position]
  have spec := cut_spec (Text.splitOn_append split split')
  rwa [← split, List.intercalate_splitOn] at spec

theorem after_join {lines : List (List Char)} {line : List Char}
    (absent : ∀ part ∈ lines ++ [line], '\n' ∉ part) :
    after (['\n'].intercalate (lines ++ [line])) = ⟨lines.length + 1, line.length + 1⟩ := by
  obtain ⟨lines', line', split, position⟩ :=
    exists_lines_of_after (['\n'].intercalate (lines ++ [line]))
  rw [List.splitOn_intercalate _ absent (by simp)] at split
  obtain ⟨sameLines, sameLine⟩ := List.append_inj' split rfl
  rw [position, ← sameLines, ← List.singleton_inj.mp sameLine]

/-- Every position that a text has is that of a beginning of the text. -/
theorem LiesIn.exists_split {text : List Char} {position : Position}
    (lies : position.LiesIn text) :
    ∃ before rest, text = before ++ rest ∧ after before = position := by
  obtain ⟨line, found, fits⟩ := lies.column_le
  obtain ⟨lines, later, split, number⟩ : ∃ lines later,
      text.splitOn '\n' = lines ++ line :: later ∧ lines.length = position.line - 1 := by
    obtain ⟨bound, rfl⟩ := List.getElem?_eq_some_iff.mp found
    refine ⟨_, (text.splitOn '\n').drop (position.line - 1 + 1), ?_,
      List.length_take_of_le (Nat.le_of_lt bound)⟩
    rw [List.getElem_cons_drop, List.take_append_drop]
  have absent : ∀ part ∈ lines ++ [line.take (position.column - 1)], '\n' ∉ part := by
    intro part member inside
    rcases List.mem_append.mp member with earlier | same
    · have among : part ∈ text.splitOn '\n' := by simp [split, earlier]
      exact Text.not_mem_of_mem_splitOn among inside
    · rw [List.mem_singleton.mp same] at inside
      exact Text.not_mem_of_mem_splitOn (List.mem_of_getElem? found) (List.mem_of_mem_take inside)
  refine ⟨['\n'].intercalate (lines ++ [line.take (position.column - 1)]),
    ['\n'].intercalate (line.drop (position.column - 1) :: later), ?_, ?_⟩
  · rw [Text.intercalate_append_intercalate, List.take_append_drop, ← split,
      List.intercalate_splitOn]
  · rw [after_join absent, number, List.length_take_of_le fits, Nat.sub_add_cancel lies.line_pos,
      Nat.sub_add_cancel lies.column_pos]

theorem ofOffsetFrom_of_le (position : Position) {text : List Char} {offset : Nat}
    (past : Text.byteSize text ≤ offset) :
    ofOffsetFrom position offset text = text.foldl advance position := by
  induction text generalizing position offset with
  | nil => cases offset <;> rfl
  | cons c text ih =>
      have width : 0 < c.utf8Size := c.utf8Size_pos
      rw [Text.byteSize_cons] at past
      obtain ⟨rest, rfl⟩ : ∃ rest, offset = rest + 1 := ⟨offset - 1, by omega⟩
      rw [ofOffsetFrom, ih _ (by omega), List.foldl_cons]

theorem ofOffset_of_le {text : List Char} {offset : Nat} (past : Text.byteSize text ≤ offset) :
    ofOffset text offset = ofOffset text (Text.byteSize text) := by
  rw [ofOffset, ofOffset, ofOffsetFrom_of_le start past, ofOffsetFrom_of_le start (Nat.le_refl _)]

theorem ofOffset_lt_ofOffset {text : List Char} {o₁ o₂ : Nat} (first : Text.IsBoundary text o₁)
    (second : Text.IsBoundary text o₂) (earlier : o₁ < o₂) :
    ofOffset text o₁ < ofOffset text o₂ := by
  obtain ⟨before, rest, split, rfl⟩ := first
  obtain ⟨before', rest', split', rfl⟩ := second
  obtain ⟨between, nonempty, longer⟩ := Text.exists_append_of_byteSize_lt split split' earlier
  have position : ofOffset text (Text.byteSize before) = after before := by
    rw [split, ofOffset_append]
  have position' : ofOffset text (Text.byteSize before') = after before' := by
    rw [split', ofOffset_append]
  rw [position, position', longer, after_append]
  exact lt_foldl_advance (after before) nonempty

theorem ofOffset_eq_iff {text : List Char} {offset : Nat} (boundary : Text.IsBoundary text offset)
    (position : Position) :
    ofOffset text offset = position ↔ position.LiesIn text ∧ position.toOffset text = offset := by
  obtain ⟨before, rest, split, rfl⟩ := boundary
  rw [split, ofOffset_append]
  constructor
  · rintro rfl
    exact after_spec before rest
  · rintro ⟨lies, same⟩
    obtain ⟨before', rest', split', rfl⟩ := lies.exists_split
    have size : Text.byteSize before' = Text.byteSize before := by
      rw [← same, split', (after_spec before' rest').2]
    rw [← ofOffset_append before rest, ← size, split', ofOffset_append]

end Position

/-! ## The statement -/

/-- The place of a cause tells the offset that it was placed at.  The places of later offsets on
character boundaries come later, so that different offsets have different places; the offset at a
place is that of the character with the column of the place, on the line of the place; and offsets
past the end have the place of the end. -/
theorem places_tell_offsets {ε : Type} (source : List Char) (cause : ε) :
    (∀ o₁ o₂, Text.IsBoundary source o₁ → Text.IsBoundary source o₂ → o₁ < o₂ →
      (Located.ofOffset source o₁ cause).position < (Located.ofOffset source o₂ cause).position) ∧
    (∀ o₁ o₂, Text.IsBoundary source o₁ → Text.IsBoundary source o₂ →
      (Located.ofOffset source o₁ cause).position = (Located.ofOffset source o₂ cause).position →
        o₁ = o₂) ∧
    (∀ o position, Text.IsBoundary source o →
      ((Located.ofOffset source o cause).position = position ↔
        position.LiesIn source ∧ position.toOffset source = o)) ∧
    ∀ o, Text.byteSize source ≤ o → (Located.ofOffset source o cause).position =
      (Located.ofOffset source (Text.byteSize source) cause).position := by
  refine ⟨?_, ?_, ?_, ?_⟩
  · intro o₁ o₂ first second earlier
    exact Position.ofOffset_lt_ofOffset first second earlier
  · intro o₁ o₂ first second same
    obtain ⟨_, told⟩ := (Position.ofOffset_eq_iff first _).mp same
    obtain ⟨_, told'⟩ := (Position.ofOffset_eq_iff second _).mp rfl
    exact told.symm.trans told'
  · intro o position boundary
    exact Position.ofOffset_eq_iff boundary position
  · intro o past
    exact Position.ofOffset_of_le past

theorem places_tell_offsets_sample :
    (Located.ofOffset "é\n\nab".toList 2 ()).position <
      (Located.ofOffset "é\n\nab".toList 3 ()).position ∧
    (Located.ofOffset "é\n\nab".toList 5 ()).position = ⟨3, 2⟩ ∧
    (Located.ofOffset "é\n\nab".toList 9 ()).position =
      (Located.ofOffset "é\n\nab".toList 6 ()).position := by
  obtain ⟨ordered, _, told, past⟩ := places_tell_offsets "é\n\nab".toList ()
  refine ⟨?_, ?_, past 9 (by decide)⟩
  · exact ordered 2 3 ⟨"é".toList, "\n\nab".toList, by decide, by decide⟩
      ⟨"é\n".toList, "\nab".toList, by decide, by decide⟩ (by decide)
  · refine (told 5 ⟨3, 2⟩ ⟨"é\n\na".toList, "b".toList, by decide, by decide⟩).mpr ⟨?_, by decide⟩
    exact ⟨by decide, by decide, by decide, "ab".toList, by decide, by decide⟩

end StyleDoc
