import Mathlib.Data.List.Forall2
import StyleDoc.Proofs.CommentLayout
import StyleDoc.Proofs.TagEntries

/-!
# The indentation of comments

What a comment says does not depend on the blanks around its lines.  Texts are alike if their lines
are the same up to such blanks.  The delimiters of a comment hold no blanks, so alike comments have
alike bodies; and the lines of alike bodies are laid out in the same way, up to an empty line at the
end, which means nothing.
-/

namespace StyleDoc

namespace Text

/-! ## Lines that are alike -/

/-- The lines of both texts are the same, up to the blanks around them. -/
def Alike (a b : List Char) : Prop := (a.splitOn '\n').map trim = (b.splitOn '\n').map trim

theorem Alike.symm {a b : List Char} (alike : Alike a b) : Alike b a := Eq.symm alike

/-- A word stands in alike texts in alike places. -/
theorem Alike.exists_word {before word after text : List Char}
    (alike : Alike (before ++ word ++ after) text) (nonempty : word ≠ [])
    (visible : ∀ c ∈ word, isBlank c = false) :
    ∃ before' after', text = before' ++ word ++ after' ∧ Alike before before' ∧
      Alike after after' := by
  have oneLine : '\n' ∉ word := by
    intro member
    cases visible _ member
  obtain ⟨above, line, splitBefore⟩ : ∃ above line, before.splitOn '\n' = above ++ [line] :=
    ⟨_, _, (List.dropLast_append_getLast (List.splitOn_ne_nil '\n' before)).symm⟩
  obtain ⟨rest, below, splitAfter⟩ := List.exists_cons_of_ne_nil (List.splitOn_ne_nil '\n' after)
  have splitWord : word.splitOn '\n' = [word] := List.splitOn_eq_singleton oneLine
  have splitBoth : List.splitOn '\n' (before ++ word ++ after) =
      above ++ (line ++ word ++ rest) :: below :=
    splitOn_append (splitOn_append splitBefore splitWord) splitAfter
  rw [Alike, splitBoth, List.map_append, List.map_cons, trim_word nonempty visible] at alike
  obtain ⟨above', found, splitText, sameAbove, sameFound⟩ :=
    List.map_eq_append_iff.mp alike.symm
  obtain ⟨line', below', rfl, sameLine, sameBelow⟩ := List.map_eq_cons_iff.mp sameFound
  obtain ⟨blanks, blanks', whole, blank, blank'⟩ := exists_append_trim_append line'
  rw [sameLine] at whole
  have absent : ∀ part ∈ above' ++ line' :: below', '\n' ∉ part := by
    rw [← splitText]
    exact fun part => not_mem_of_mem_splitOn
  have absentLine : '\n' ∉ line' := absent line' (by simp)
  rw [whole] at absentLine
  simp only [List.mem_append, not_or] at absentLine
  refine ⟨['\n'].intercalate (above' ++ [blanks ++ trimStart line]),
    ['\n'].intercalate ((trimEnd rest ++ blanks') :: below'), ?_, ?_, ?_⟩
  · have middle := intercalate_append_intercalate ['\n'] above' [] (blanks ++ trimStart line) word
    have all := intercalate_append_intercalate ['\n'] above' below'
      (blanks ++ trimStart line ++ word) (trimEnd rest ++ blanks')
    rw [List.intercalate_singleton] at middle
    rw [middle, all, ← @List.intercalate_splitOn _ text _ _ '\n', splitText, whole]
    simp
  · have absent' : ∀ part ∈ above' ++ [blanks ++ trimStart line], '\n' ∉ part := by
      intro part member
      rcases List.mem_append.mp member with member | member
      · exact absent part (by simp [member])
      · rw [List.mem_singleton.mp member, List.mem_append, not_or]
        exact ⟨absentLine.1.1, absentLine.1.2.1.1⟩
    rw [Alike, splitBefore, List.splitOn_intercalate _ absent' (by simp), List.map_append,
      List.map_append, sameAbove, List.map_singleton, List.map_singleton, trim_blanks_append blank,
      trim_trimStart]
  · have absent' : ∀ part ∈ (trimEnd rest ++ blanks') :: below', '\n' ∉ part := by
      intro part member
      rcases List.mem_cons.mp member with rfl | member
      · rw [List.mem_append, not_or]
        exact ⟨absentLine.1.2.2, absentLine.2⟩
      · exact absent part (by simp [member])
    rw [Alike, splitAfter, List.splitOn_intercalate _ absent' (by simp), List.map_cons,
      List.map_cons, trim_append_blanks blank', trim_trimEnd, sameBelow]

theorem Alike.isBlank {a b : List Char} (alike : Alike a b) (blank : ∀ c ∈ a, isBlank c = true) :
    ∀ c ∈ b, isBlank c = true := by
  intro c member
  rw [← @List.intercalate_splitOn _ b _ _ '\n'] at member
  rcases mem_intercalate member with lineFeed | ⟨line, among, inLine⟩
  · rw [List.mem_singleton.mp lineFeed]
    decide
  · have trimmed : trim line ∈ (a.splitOn '\n').map trim := by
      rw [alike]
      exact List.mem_map_of_mem among
    obtain ⟨line', among', same⟩ := List.mem_map.mp trimmed
    have empty : trim line' = [] := by
      apply trim_eq_nil
      intro d inLine'
      apply blank
      rw [← @List.intercalate_splitOn _ a _ _ '\n']
      exact mem_intercalate_of_mem among' inLine'
    rw [empty] at same
    exact isBlank_of_trim_eq_nil same.symm c inLine

end Text

/-! ## Bodies of comments -/

theorem commentBody?_eq_some_iff {comment body : List Char} :
    commentBody? comment = some body ↔ ∃ before after,
      comment = before ++ ['/', '*', '*'] ++ (body ++ ['*', '/'] ++ after) ∧
        (∀ c ∈ before, Text.isBlank c = true) ∧ ∀ c ∈ after, Text.isBlank c = true := by
  constructor
  · intro found
    unfold commentBody? at found
    split at found
    · next rest opened =>
        obtain ⟨before, after, whole, blankBefore, blankAfter⟩ :=
          Text.exists_append_trim_append comment
        rw [← List.append_eq_of_isPrefixOf?_eq_some opened,
          ← List.append_eq_of_isSuffixOf?_eq_some found] at whole
        exact ⟨before, after, by simpa using whole, blankBefore, blankAfter⟩
    · cases found
  · rintro ⟨before, after, rfl, blankBefore, blankAfter⟩
    have trimmed : Text.Trimmed (['/', '*', '*'] ++ (body ++ ['*', '/'])) := by
      apply Text.trimmed_cons (by decide)
      simpa [List.getLast?_cons] using by decide
    have whole := Text.trim_append_append trimmed blankBefore blankAfter
    rw [commentBody?, show before ++ ['/', '*', '*'] ++ (body ++ ['*', '/'] ++ after) =
      before ++ (['/', '*', '*'] ++ (body ++ ['*', '/'])) ++ after by simp, whole,
      Text.isPrefixOf?_append]
    exact Text.isSuffixOf?_append _ _

theorem exists_commentBody_of_alike {a b body : List Char} (alike : Text.Alike a b)
    (found : commentBody? a = some body) :
    ∃ other, commentBody? b = some other ∧ Text.Alike body other := by
  obtain ⟨before, after, rfl, blankBefore, blankAfter⟩ := commentBody?_eq_some_iff.mp found
  obtain ⟨before', rest, rfl, sameBefore, sameRest⟩ :=
    alike.exists_word (by simp) (by simpa using by decide)
  obtain ⟨other, after', rfl, sameBody, sameAfter⟩ :=
    sameRest.exists_word (by simp) (by simpa using by decide)
  refine ⟨other, commentBody?_eq_some_iff.mpr ⟨before', after', rfl, ?_, ?_⟩, sameBody⟩
  · exact sameBefore.isBlank blankBefore
  · exact sameAfter.isBlank blankAfter

/-! ## Lines of comments -/

/-- The lines of a comment as they are read. -/
def laidOut : List Line → List Line
  | [] => [[]]
  | first :: others => Text.trim (withoutStar first) :: outdent (others.map withoutStar)

theorem commentLines_eq (body : List Char) : commentLines body = laidOut (Text.lines body) := by
  unfold commentLines
  cases Text.lines body <;> rfl

theorem withoutStar_cases (line : Line) :
    (∃ rest, Text.trimStart line = '*' :: rest ∧ withoutStar line = rest) ∨
      (∀ rest, Text.trimStart line ≠ '*' :: rest) ∧ withoutStar line = Text.trimStart line := by
  unfold withoutStar
  split
  · next rest start => exact .inl ⟨rest, start, rfl⟩
  · next none => exact .inr ⟨none, rfl⟩

theorem withoutStar_trim (line : Line) :
    withoutStar (Text.trim line) = Text.trimEnd (withoutStar line) := by
  have start : Text.trimStart (Text.trim line) = Text.trim line := by
    simpa using @Text.trimStart_append [] (Text.trim line) (by simp) (Text.trimmed_trim line).1
  rcases withoutStar_cases line with ⟨rest, starred, same⟩ | ⟨unstarred, same⟩
  · have trimmed : Text.trim line = '*' :: Text.trimEnd rest := by
      rw [Text.trim, starred, Text.trimEnd_cons rest (by decide)]
    rcases withoutStar_cases (Text.trim line) with ⟨rest', starred', same'⟩ | ⟨unstarred, _⟩
    · rw [start, trimmed, List.cons.injEq] at starred'
      rw [same', same, starred'.2]
    · rw [start] at unstarred
      exact (unstarred _ trimmed).elim
  · rcases withoutStar_cases (Text.trim line) with ⟨rest, starred, _⟩ | ⟨_, kept⟩
    · obtain ⟨more, whole⟩ := Text.trim_prefix_trimStart line
      rw [start] at starred
      rw [starred] at whole
      exact (unstarred _ whole.symm).elim
    · rw [kept, start, same, Text.trim]

/-! ## Indentation -/

theorem isBlankLine_trimEnd (line : Line) : isBlankLine (Text.trimEnd line) = isBlankLine line := by
  obtain ⟨blanks, whole, blank⟩ := Text.exists_trimEnd_append line
  have all : blanks.all Text.isBlank = true := List.all_eq_true.mpr blank
  conv_rhs => rw [whole, isBlankLine, List.all_append, all, Bool.and_true]
  rfl

theorem indentation_trimEnd {line : Line} (visible : isBlankLine line = false) :
    indentation (Text.trimEnd line) = indentation line := by
  obtain ⟨blanks, whole, blank⟩ := Text.exists_trimEnd_append line
  have stops : ¬((Text.trimEnd line).takeWhile fun c => c == ' ' || c == '\t').length =
      (Text.trimEnd line).length := by
    intro all
    have same := List.IsPrefix.eq_of_length (List.takeWhile_prefix _) all
    have blankAll : isBlankLine (Text.trimEnd line) = true := by
      rw [isBlankLine, List.all_eq_true]
      intro c member
      rw [← same] at member
      have isIndent := List.all_eq_true.mp List.all_takeWhile c member
      simp only [Bool.or_eq_true, beq_iff_eq] at isIndent
      rcases isIndent with rfl | rfl
      · decide
      · decide
    rw [isBlankLine_trimEnd, visible] at blankAll
    cases blankAll
  conv_rhs => rw [whole, indentation, List.takeWhile_append, if_neg stops]
  rfl

theorem outdentLine_trimEnd (width : Nat) (line : Line) :
    outdentLine width (Text.trimEnd line) = outdentLine width line := by
  obtain ⟨blanks, whole, blank⟩ := Text.exists_trimEnd_append line
  have rest : ∀ c ∈ blanks.drop (width - (Text.trimEnd line).length), Text.isBlank c = true :=
    fun c member => blank c (List.mem_of_mem_drop member)
  have same : Text.trimEnd (line.drop width) = Text.trimEnd ((Text.trimEnd line).drop width) := by
    conv_lhs => rw [whole, List.drop_append, Text.trimEnd_append_blanks rest]
  rw [outdentLine, outdentLine, isBlankLine_trimEnd, same]

theorem commonIndentation_map_trimEnd (lines : List Line) :
    commonIndentation (lines.map Text.trimEnd) = commonIndentation lines := by
  have kept : ((fun line => !isBlankLine line) ∘ Text.trimEnd) = fun line => !isBlankLine line := by
    funext line
    rw [Function.comp_apply, isBlankLine_trimEnd]
  have same : ∀ line ∈ lines.filter fun line => !isBlankLine line,
      (indentation ∘ Text.trimEnd) line = indentation line := by
    intro line member
    exact indentation_trimEnd (by simpa using (List.mem_filter.mp member).2)
  rw [commonIndentation, commonIndentation, List.filter_map, kept, List.map_map,
    List.map_congr_left same]

theorem outdent_map_trimEnd (lines : List Line) :
    outdent (lines.map Text.trimEnd) = outdent lines := by
  rw [outdent, outdent, commonIndentation_map_trimEnd, List.map_map]
  exact List.map_congr_left fun line _ => outdentLine_trimEnd _ line

/-- Blanks around lines mean nothing for their layout. -/
theorem laidOut_map_trim (lines : List Line) : laidOut (lines.map Text.trim) = laidOut lines := by
  cases lines with
  | nil => rfl
  | cons first others =>
      have unstarred : (others.map Text.trim).map withoutStar =
          (others.map withoutStar).map Text.trimEnd := by
        rw [List.map_map, List.map_map]
        exact List.map_congr_left fun line _ => withoutStar_trim line
      rw [List.map_cons, laidOut, laidOut, withoutStar_trim, Text.trim_trimEnd, unstarred,
        outdent_map_trimEnd]

theorem Text.trim_reverse_withoutReturn (line : List Char) :
    trim (match line with
      | '\r' :: rest => rest
      | _ => line).reverse = trim line.reverse := by
  split
  · next rest =>
      have blank : ∀ c ∈ ['\r'], isBlank c = true := by simpa using by decide
      rw [List.reverse_cons, trim_append_blanks blank]
  · rfl

/-- The lines of a text are its parts between line feeds, up to blanks around them and an empty part
at the end. -/
theorem Text.splitOn_lines (line text : List Char) :
    (text.splitOnPPrepend (· == '\n') line).map trim = (linesAux line text).map trim ∨
      (text.splitOnPPrepend (· == '\n') line).map trim = (linesAux line text).map trim ++ [[]] := by
  fun_induction linesAux line text with
  | case1 line empty =>
      rw [List.isEmpty_iff.mp empty]
      exact .inr rfl
  | case2 line nonempty => exact .inl rfl
  | case3 line text ih =>
      rw [List.splitOnPPrepend_cons_pos rfl, List.map_cons, List.map_cons,
        ← trim_reverse_withoutReturn line, List.cons_append, List.cons.injEq, List.cons.injEq]
      exact ih.imp (fun same => ⟨rfl, same⟩) fun same => ⟨rfl, same⟩
  | case4 line c text other ih =>
      rw [List.splitOnPPrepend_cons_neg (by simpa using other)]
      exact ih

theorem laidOut_append_nil (lines : List Line) :
    laidOut (lines ++ [[]]) = laidOut lines ∨ laidOut (lines ++ [[]]) = laidOut lines ++ [[]] := by
  cases lines with
  | nil => exact .inl rfl
  | cons first others =>
      have last : withoutStar [] = [] := rfl
      refine .inr ?_
      rw [List.cons_append, laidOut, laidOut, List.map_append, List.map_singleton, last, outdent,
        outdent, commonIndentation_append_nil, List.map_append, List.map_singleton,
        List.cons_append]
      rfl

/-! ## Parts of comments -/

/-- A last element that satisfies `p` stays in the run, if the run goes so far, or behind it. -/
theorem Text.span_append_singleton {α : Type} {p : α → Bool} {last : α} (holds : p last = true)
    (list : List α) :
    (list.dropWhile p = [] ∧ (list ++ [last]).dropWhile p = [] ∧
      (list ++ [last]).takeWhile p = list.takeWhile p ++ [last]) ∨
      (list ++ [last]).dropWhile p = list.dropWhile p ++ [last] ∧
        (list ++ [last]).takeWhile p = list.takeWhile p := by
  induction list with
  | nil => simp [holds]
  | cons a list ih =>
      by_cases found : p a = true
      · simpa [List.dropWhile_cons, List.takeWhile_cons, found] using ih
      · simp [found]

/-- An empty line at the end belongs to the last tag and means nothing there. -/
theorem Tag.gist_listOfLines_append_nil (lines : List Line) :
    (listOfLines (lines ++ [[]])).map gist = (listOfLines lines).map gist := by
  fun_induction listOfLines lines with
  | case1 => simp [listOfLines, opening?]
  | case2 line lines unopened ih =>
      rw [List.cons_append, listOfLines]
      simp only [unopened, ih]
  | case3 line lines name text opened shorter ih =>
      have continues : continuesTag name [] = true := rfl
      rw [List.cons_append, listOfLines]
      simp only [opened, List.map_cons]
      rcases Text.span_append_singleton continues lines with ⟨ended, ended', taken⟩ | ⟨rest, taken⟩
      · rw [taken, ended', ended, ← List.cons_append, gist_append_nil]
      · rw [taken, rest, ih]

namespace CommentParts

theorem draft_of_no_tags {parts : CommentParts} (noTags : parts.tags = []) :
    parts.draft = .ok none := by
  rw [draft, noTags]
  rfl

theorem draft_ofLines_append_nil (lines : List Line) :
    (ofLines (lines ++ [[]])).draft = (ofLines lines).draft := by
  rcases @Text.span_append_singleton _ (fun line => !Tag.opens false line) [] rfl lines with
    ⟨ended, ended', _⟩ | ⟨rest, taken⟩
  · have noTags (lines : List Line)
        (none : lines.dropWhile (fun line => !Tag.opens false line) = []) :
        (ofLines lines).tags = [] := by
      simp only [ofLines, none, Tag.listOfLines]
    rw [draft_of_no_tags (noTags _ ended), draft_of_no_tags (noTags _ ended')]
  · apply draft_congr
    · simp only [description, ofLines, taken]
    · simp only [ofLines, rest, Tag.gist_listOfLines_append_nil]

/-- What a body says depends on its lines up to the blanks around them. -/
theorem draft_ofBody (body : List Char) : (ofBody body).draft =
    (ofLines (laidOut ((body.splitOn '\n').map Text.trim))).draft := by
  rw [ofBody, commentLines_eq, ← laidOut_map_trim (Text.lines body)]
  rcases Text.splitOn_lines [] body with same | same
  · rw [List.splitOn, List.splitOnP, same, Text.lines]
  · rw [List.splitOn, List.splitOnP, same, ← Text.lines]
    rcases laidOut_append_nil ((Text.lines body).map Text.trim) with laid | laid
    · rw [laid]
    · rw [laid, draft_ofLines_append_nil]

end CommentParts

theorem Draft.ofComment_congr {a b : String} (alike : Text.Alike a.toList b.toList) :
    ofComment a = ofComment b := by
  unfold ofComment
  cases found : commentBody? a.toList with
  | some body =>
      obtain ⟨other, found', same⟩ := exists_commentBody_of_alike alike found
      simp only [found', CommentParts.draft_ofBody, show _ = _ from same]
  | none =>
      cases found' : commentBody? b.toList with
      | none => rfl
      | some body =>
          obtain ⟨other, impossible, _⟩ := exists_commentBody_of_alike alike.symm found'
          rw [found] at impossible
          cases impossible

/-! ## The statement -/

/-- Blanks on one line, which may be carriage returns. -/
def AreSpaces (text : List Char) : Prop := ∀ c ∈ text, Text.isBlank c = true ∧ c ≠ '\n'

instance (text : List Char) : Decidable (AreSpaces text) :=
  decidable_of_iff ((text.all fun c => Text.isBlank c && c != '\n') = true) (by simp [AreSpaces])

/-- A line with other blanks in front of it and more of them after it. -/
def Reindented (line other : Line) : Prop :=
  ∃ before text before' after, line = before ++ text ∧ other = before' ++ text ++ after ∧
    AreSpaces before ∧ AreSpaces before' ∧ AreSpaces after

theorem Reindented.trim_eq {line other : Line} (reindented : Reindented line other) :
    Text.trim other = Text.trim line := by
  obtain ⟨before, text, before', after, rfl, rfl, spaces, spaces', spacesAfter⟩ := reindented
  rw [Text.trim_append_blanks fun c member => (spacesAfter c member).1,
    Text.trim_blanks_append fun c member => (spaces' c member).1,
    Text.trim_blanks_append fun c member => (spaces c member).1]

theorem AreSpaces.noBreak {text : List Char} (spaces : AreSpaces text) : '\n' ∉ text :=
  fun member => (spaces _ member).2 rfl

theorem Reindented.noBreak {line other : Line} (reindented : Reindented line other)
    (noBreak : '\n' ∉ line) : '\n' ∉ other := by
  obtain ⟨before, text, before', after, rfl, rfl, _, spaces', spacesAfter⟩ := reindented
  simp only [List.mem_append, not_or] at noBreak ⊢
  exact ⟨⟨spaces'.noBreak, noBreak.2⟩, spacesAfter.noBreak⟩

theorem reindented_lines {lines others : List Line}
    (reindented : List.Forall₂ Reindented lines others) (noBreak : ∀ line ∈ lines, '\n' ∉ line) :
    others.map Text.trim = lines.map Text.trim ∧ ∀ line ∈ others, '\n' ∉ line := by
  induction reindented with
  | nil => exact ⟨rfl, noBreak⟩
  | cons first _ ih =>
      rw [List.forall_mem_cons] at noBreak
      obtain ⟨trimmed, later⟩ := ih noBreak.2
      refine ⟨by rw [List.map_cons, List.map_cons, first.trim_eq, trimmed], ?_⟩
      rw [List.forall_mem_cons]
      exact ⟨first.noBreak noBreak.1, later⟩

/-- A comment says the same whatever the indentation of its lines after the first one is, and
whatever blanks its lines end with. -/
theorem ofComment_reindented {comment : String} {first after : Line} {others others' : List Line}
    (lines : comment.toList.splitOn '\n' = first :: others) (spaces : AreSpaces after)
    (reindented : List.Forall₂ Reindented others others') :
    Draft.ofComment (String.ofList (['\n'].intercalate ((first ++ after) :: others'))) =
      Draft.ofComment comment := by
  have noBreak : ∀ line ∈ first :: others, '\n' ∉ line := by
    rw [← lines]
    exact fun line => Text.not_mem_of_mem_splitOn
  rw [List.forall_mem_cons] at noBreak
  obtain ⟨trimmed, noBreakLater⟩ := reindented_lines reindented noBreak.2
  have noBreak' : ∀ line ∈ (first ++ after) :: others', '\n' ∉ line := by
    rw [List.forall_mem_cons, List.mem_append, not_or]
    exact ⟨⟨noBreak.1, spaces.noBreak⟩, noBreakLater⟩
  apply Draft.ofComment_congr
  rw [String.toList_ofList, Text.Alike, List.splitOn_intercalate _ noBreak' (by simp), lines,
    List.map_cons,
    List.map_cons, trimmed, Text.trim_append_blanks fun c member => (spaces c member).1]

def sampleIndented : String := "/**D\n   * @mixin\n * @example\n * a\n *   b\n */"

/-- The example keeps the indentation after the stars; the last line of the body comes and goes. -/
theorem ofComment_reindented_example :
    ∃ draft, Draft.ofComment sampleIndented = .ok (some draft) ∧
      draft.details.examples = ["a\n  b"] ∧
      Draft.ofComment "/**D\r\n* @mixin \n\t* @example\r\n  * a\n*   b\n*/\t" =
        .ok (some draft) := by
  have lines : sampleIndented.toList.splitOn '\n' =
      "/**D".toList :: ["   * @mixin".toList, " * @example".toList, " * a".toList, " *   b".toList,
        " */".toList] := by
    decide +kernel
  have reindented : List.Forall₂ Reindented
      ["   * @mixin".toList, " * @example".toList, " * a".toList, " *   b".toList, " */".toList]
      ["* @mixin ".toList, "\t* @example\r".toList, "  * a".toList, "*   b".toList,
        "*/\t".toList] := by
    refine .cons ⟨"   ".toList, "* @mixin".toList, [], [' '], ?_⟩ <|
      .cons ⟨[' '], "* @example".toList, ['\t'], ['\r'], ?_⟩ <|
      .cons ⟨[' '], "* a".toList, [' ', ' '], [], ?_⟩ <|
      .cons ⟨[' '], "*   b".toList, [], [], ?_⟩ <| .cons ⟨[' '], "*/".toList, [], ['\t'], ?_⟩ .nil
    all_goals decide
  have read : Draft.ofComment sampleIndented = .ok (some
      ⟨.callable [] none, { description := "D", examples := ["a\n  b"] }⟩) :=
    eq_ok_of_toOption (by decide +kernel)
  have same := @ofComment_reindented _ _ ['\r'] _ _ lines (by decide) reindented
  exact ⟨_, read, rfl, same.trans read⟩

end StyleDoc
