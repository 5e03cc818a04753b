import Mathlib.Data.List.Forall2
import Mathlib.Order.Bounds.Basic
import StyleDoc.Proofs.Indentation
import StyleDoc.Proofs.Slices
import StyleDoc.Proofs.Tiling

/-!
# Margins

The margin of some lines is the greatest number of spaces and tabs that all of them start with,
blank lines apart.  Outdenting cuts it off.  Spaces and tabs are one byte long each, so that the
place of the cut is the same in characters and in bytes, whatever follows it.  One of the lines that
are left starts at the margin, so that there is nothing more to cut off.
-/

namespace StyleDoc

/-! ## Indented lines -/

/-- A line that starts with `width` spaces and tabs; the rest may start with more of them. -/
def IndentedBy (width : Nat) (line rest : Line) : Prop :=
  ∃ margin, line = margin ++ rest ∧ margin.length = width ∧ ∀ c ∈ margin, c = ' ' ∨ c = '\t'

theorem byteSize_of_indents {margin : List Char} (indents : ∀ c ∈ margin, c = ' ' ∨ c = '\t') :
    Text.byteSize margin = margin.length := by
  induction margin with
  | nil => rfl
  | cons c margin ih =>
      rw [List.forall_mem_cons] at indents
      have width : c.utf8Size = 1 := by
        rcases indents.1 with rfl | rfl
        · decide
        · decide
      rw [Text.byteSize_cons, width, ih indents.2, List.length_cons]
      omega

theorem indentedBy_of_le {width : Nat} {line : Line} (enough : width ≤ indentation line) :
    IndentedBy width line (line.drop width) := by
  have whole : (line.takeWhile fun c => c == ' ' || c == '\t') ++
      (line.dropWhile fun c => c == ' ' || c == '\t') = line := List.takeWhile_append_dropWhile
  have start : line.take width =
      (line.takeWhile fun c => c == ' ' || c == '\t').take width := by
    conv_lhs => rw [← whole]
    exact List.take_append_of_le_length enough
  refine ⟨line.take width, (List.take_append_drop width line).symm, ?_, ?_⟩
  · rw [start, List.length_take]
    exact Nat.min_eq_left enough
  · intro c member
    rw [start] at member
    simpa using List.all_eq_true.mp List.all_takeWhile c (List.mem_of_mem_take member)

namespace IndentedBy

variable {width : Nat} {line rest : Line}

theorem indentation_eq (indented : IndentedBy width line rest) :
    indentation line = width + indentation rest := by
  obtain ⟨margin, rfl, rfl, indents⟩ := indented
  exact indentation_append indents rest

theorem isBlankLine_eq (indented : IndentedBy width line rest) :
    isBlankLine line = isBlankLine rest := by
  obtain ⟨margin, rfl, rfl, indents⟩ := indented
  exact isBlankLine_append_of_indents indents rest

theorem isBoundary (indented : IndentedBy width line rest) : Text.IsBoundary line width := by
  obtain ⟨margin, rfl, rfl, indents⟩ := indented
  exact ⟨margin, rest, rfl, byteSize_of_indents indents⟩

/-- The rest starts as many bytes behind the start of the line as characters. -/
theorem dropBytes_eq (indented : IndentedBy width line rest) :
    Text.dropBytes width line = rest := by
  obtain ⟨margin, rfl, rfl, indents⟩ := indented
  rw [← byteSize_of_indents indents, Text.dropBytes_append]

end IndentedBy

theorem exists_indentedBy_iff {width : Nat} {line : Line} :
    (∃ rest, IndentedBy width line rest) ↔ width ≤ indentation line := by
  constructor
  · rintro ⟨rest, indented⟩
    rw [indented.indentation_eq]
    omega
  · intro enough
    exact ⟨_, indentedBy_of_le enough⟩

/-! ## The margin of lines -/

theorem isBlankLine_eq_true_iff {line : Line} : isBlankLine line = true ↔ Text.trim line = [] := by
  rw [isBlankLine, List.all_eq_true]
  exact ⟨Text.trim_eq_nil, Text.isBlank_of_trim_eq_nil⟩

theorem isBlankLine_eq_false_iff {line : Line} :
    isBlankLine line = false ↔ Text.trim line ≠ [] := by
  rw [← Bool.not_eq_true, isBlankLine_eq_true_iff]

def ShareIndent (lines : List Line) (width : Nat) : Prop :=
  ∀ line ∈ lines, Text.trim line ≠ [] → ∃ rest, IndentedBy width line rest

/-- The greatest number of spaces and tabs that the lines share; 0 if all of them are blank. -/
structure IsMargin (lines : List Line) (width : Nat) : Prop where
  greatest : (∃ line ∈ lines, Text.trim line ≠ []) →
    IsGreatest {other | ShareIndent lines other} width
  blank : (∀ line ∈ lines, Text.trim line = []) → width = 0

theorem isMargin_commonIndentation (lines : List Line) :
    IsMargin lines (commonIndentation lines) := by
  constructor
  · rintro ⟨line, member, visible⟩
    constructor
    · intro other among shown
      rw [exists_indentedBy_iff]
      exact commonIndentation_le among (isBlankLine_eq_false_iff.mpr shown)
    · intro width shared
      obtain ⟨⟨least, among, shown, same⟩, _⟩ :=
        commonIndentation_spec ⟨line, member, isBlankLine_eq_false_iff.mpr visible⟩
      rw [← same, ← exists_indentedBy_iff]
      exact shared least among (isBlankLine_eq_false_iff.mp shown)
  · intro blank
    exact commonIndentation_of_blank fun line member =>
      isBlankLine_eq_true_iff.mpr (blank line member)

theorem IsMargin.unique {lines : List Line} {width width' : Nat} (first : IsMargin lines width)
    (second : IsMargin lines width') : width = width' := by
  by_cases visible : ∃ line ∈ lines, Text.trim line ≠ []
  · exact (first.greatest visible).unique (second.greatest visible)
  · have blank : ∀ line ∈ lines, Text.trim line = [] := by simpa using visible
    rw [first.blank blank, second.blank blank]

/-! ## Cutting the margin off -/

/-- What becomes of a line that loses a margin of `width` spaces and tabs: nothing of a blank line,
and else what follows the margin, up to the blanks at its end.  The margin ends between two
characters of the line, and `width` bytes behind its start. -/
structure Outdented (width : Nat) (line output : Line) : Prop where
  blank : Text.trim line = [] → output = []
  visible : Text.trim line ≠ [] → ∃ rest, IndentedBy width line rest ∧
    Text.IsBoundary line width ∧ Text.dropBytes width line = rest ∧ Text.trimEnd rest = output

theorem outdentLine_of_visible (width : Nat) {line : Line} (visible : isBlankLine line = false) :
    outdentLine width line = Text.trimEnd (line.drop width) := by
  rw [outdentLine, visible]
  rfl

theorem outdented_outdentLine {width : Nat} {line : Line}
    (enough : isBlankLine line = false → width ≤ indentation line) :
    Outdented width line (outdentLine width line) := by
  constructor
  · intro blank
    rw [outdentLine, if_pos (isBlankLine_eq_true_iff.mpr blank)]
  · intro visible
    have shown := isBlankLine_eq_false_iff.mpr visible
    have indented := indentedBy_of_le (enough shown)
    exact ⟨_, indented, indented.isBoundary, indented.dropBytes_eq,
      (outdentLine_of_visible width shown).symm⟩

theorem getLast?_outdentLine (width : Nat) (line : Line) :
    ∀ c ∈ (outdentLine width line).getLast?, Text.isBlank c = false := by
  rw [outdentLine]
  split
  · simp
  · exact Text.getLast?_trimEnd _

theorem indentation_outdentLine {width : Nat} {line : Line} (visible : isBlankLine line = false)
    (enough : width ≤ indentation line) :
    isBlankLine (outdentLine width line) = false ∧
      indentation line = width + indentation (outdentLine width line) := by
  have indented := indentedBy_of_le enough
  have rest : isBlankLine (line.drop width) = false := by
    rw [← indented.isBlankLine_eq]
    exact visible
  rw [outdentLine_of_visible width visible, isBlankLine_trimEnd, indentation_trimEnd rest]
  exact ⟨rest, indented.indentation_eq⟩

theorem commonIndentation_outdent (lines : List Line) : commonIndentation (outdent lines) = 0 := by
  by_cases visible : ∃ line ∈ lines, isBlankLine line = false
  · -- The margin was the whole indentation of the line with the least, which does not become blank.
    obtain ⟨⟨line, member, shown, same⟩, _⟩ := commonIndentation_spec visible
    obtain ⟨shown', kept⟩ := indentation_outdentLine shown (Nat.le_of_eq same.symm)
    have among : outdentLine (commonIndentation lines) line ∈ outdent lines :=
      List.mem_map_of_mem member
    have bound := commonIndentation_le among shown'
    omega
  · apply commonIndentation_of_blank
    intro output among
    obtain ⟨line, member, rfl⟩ := List.mem_map.mp among
    have blank : isBlankLine line = true := by
      rw [← Bool.not_eq_false]
      exact fun shown => visible ⟨line, member, shown⟩
    rw [outdentLine, if_pos blank]
    rfl

theorem outdent_outdent (lines : List Line) : outdent (outdent lines) = outdent lines := by
  have kept : ∀ output ∈ outdent lines, outdentLine 0 output = output := by
    intro output among
    obtain ⟨line, _, rfl⟩ := List.mem_map.mp among
    exact outdentLine_zero (getLast?_outdentLine _ line)
  rw [outdent, commonIndentation_outdent, List.map_congr_left kept, List.map_id']

/-! ## The statement -/

/-- Outdenting cuts the margin of the lines off each of them and trims what is left at its end;
only blank lines become empty.  Outdented lines are left as they are. -/
theorem outdent_cuts_margin (lines : List Line) :
    (∃! width, IsMargin lines width ∧ List.Forall₂ (Outdented width) lines (outdent lines)) ∧
      outdent (outdent lines) = outdent lines := by
  refine ⟨⟨commonIndentation lines, ⟨isMargin_commonIndentation lines, ?_⟩, ?_⟩,
    outdent_outdent lines⟩
  · rw [outdent, List.forall₂_map_right_iff, List.forall₂_same]
    intro line member
    exact outdented_outdentLine (commonIndentation_le member)
  · rintro width ⟨isMargin, _⟩
    exact isMargin.unique (isMargin_commonIndentation lines)

-- The no-break space is a blank, but no indentation; the blank lines are shorter than the margin.
example : outdent ["\t  \u00a0a \u3000".toList, " ".toList, "   \tb".toList, [], "\u00a0".toList] =
    ["\u00a0a".toList, [], "\tb".toList, [], []] := by decide +kernel

end StyleDoc
