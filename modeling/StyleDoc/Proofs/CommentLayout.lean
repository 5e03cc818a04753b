import StyleDoc.Doc.Draft
import StyleDoc.Proofs.Texts

/-!
# The layout of a documentation comment

A comment is written with a star in front of each line, its description first and then its tags.
Reading it takes the stars and the indentation off again and finds the same description and the same
tags, up to blank lines after a tag, which mean nothing.
-/

namespace StyleDoc

/-- A trimmed text on one line. -/
structure IsLine (text : List Char) : Prop where
  trimmed : Text.Trimmed text
  noBreak : '\n' ∉ text

theorem isLine_phrase {parts : List (List Char)} (isLine : ∀ part ∈ parts, IsLine part) :
    IsLine (Text.phrase parts) :=
  ⟨Text.trimmed_phrase fun part member => (isLine part member).trimmed,
    Text.not_mem_phrase (by decide) fun part member => (isLine part member).noBreak⟩

theorem isLine_of_visible {text : List Char} (visible : ∀ c ∈ text, Text.isBlank c = false) :
    IsLine text := by
  refine ⟨Text.trimmed_of_visible visible, ?_⟩
  intro member
  cases visible _ member

/-- A line without a blank at its end; in particular, a line of blanks is empty. -/
structure IsNeat (line : Line) : Prop where
  last : ∀ c ∈ line.getLast?, Text.isBlank c = false
  noBreak : '\n' ∉ line

def starred (line : Line) : Line := ' ' :: '*' :: ' ' :: line

def renderBody (lines : List Line) : List Char :=
  '\n' :: ((lines.map starred).flatMap (· ++ ['\n']) ++ [' '])

def renderLines (lines : List Line) : List Char :=
  ['/', '*', '*'] ++ (renderBody lines ++ ['*', '/'])

/-! ## Indentation -/

theorem indentation_append {margin : List Char} (indents : ∀ c ∈ margin, c = ' ' ∨ c = '\t')
    (rest : Line) : indentation (margin ++ rest) = margin.length + indentation rest := by
  have all : ∀ c ∈ margin, (c == ' ' || c == '\t') = true := by simpa using indents
  rw [indentation, List.takeWhile_append_of_pos all, List.length_append]
  rfl

theorem isBlankLine_append_of_indents {margin : List Char}
    (indents : ∀ c ∈ margin, c = ' ' ∨ c = '\t') (rest : Line) :
    isBlankLine (margin ++ rest) = isBlankLine rest := by
  have all : margin.all Text.isBlank = true := by
    rw [List.all_eq_true]
    intro c member
    rcases indents c member with rfl | rfl
    · decide
    · decide
  rw [isBlankLine, List.all_append, all, Bool.true_and]
  rfl

theorem isBlankLine_cons_space (line : Line) : isBlankLine (' ' :: line) = isBlankLine line :=
  @isBlankLine_append_of_indents [' '] (by simp) line

theorem eq_nil_of_isBlankLine {line : Line} (last : ∀ c ∈ line.getLast?, Text.isBlank c = false)
    (blank : isBlankLine line = true) : line = [] := by
  cases found : line.getLast? with
  | none => exact List.getLast?_eq_none_iff.mp found
  | some c =>
      have visible := last c found
      have := List.all_eq_true.mp blank c (List.mem_of_getLast? found)
      rw [this] at visible
      cases visible

theorem commonIndentation_of_blank {lines : List Line}
    (blank : ∀ line ∈ lines, isBlankLine line = true) : commonIndentation lines = 0 := by
  have empty : lines.filter (fun line => !isBlankLine line) = [] := by
    simpa using blank
  rw [commonIndentation, empty]
  rfl

/-- Of the lines that are not blank, one has the common indentation and none has less. -/
theorem commonIndentation_spec {lines : List Line}
    (visible : ∃ line ∈ lines, isBlankLine line = false) :
    (∃ line ∈ lines, isBlankLine line = false ∧ indentation line = commonIndentation lines) ∧
      ∀ line ∈ lines, isBlankLine line = false → commonIndentation lines ≤ indentation line := by
  have mem_iff {width : Nat} :
      width ∈ (lines.filter fun line => !isBlankLine line).map indentation ↔
        ∃ line ∈ lines, isBlankLine line = false ∧ indentation line = width := by
    simp [and_assoc]
  obtain ⟨line, member, shown⟩ := visible
  cases least : ((lines.filter fun line => !isBlankLine line).map indentation).min? with
  | none =>
      rw [List.min?_eq_none_iff] at least
      have found := mem_iff.mpr ⟨line, member, shown, rfl⟩
      rw [least] at found
      cases found
  | some width =>
      have common : commonIndentation lines = width := by
        rw [commonIndentation, least, Option.getD_some]
      obtain ⟨reached, smallest⟩ := List.min?_eq_some_iff.mp least
      rw [common]
      refine ⟨mem_iff.mp reached, ?_⟩
      intro other among shown'
      exact smallest _ (mem_iff.mpr ⟨other, among, shown', rfl⟩)

theorem commonIndentation_le {lines : List Line} {line : Line} (member : line ∈ lines)
    (visible : isBlankLine line = false) : commonIndentation lines ≤ indentation line :=
  (commonIndentation_spec ⟨line, member, visible⟩).2 line member visible

theorem commonIndentation_eq {lines : List Line} {width : Nat}
    (reached : ∃ line ∈ lines, isBlankLine line = false ∧ indentation line = width)
    (least : ∀ line ∈ lines, isBlankLine line = false → width ≤ indentation line) :
    commonIndentation lines = width := by
  obtain ⟨line, member, visible, same⟩ := reached
  obtain ⟨⟨other, among, shown, found⟩, bound⟩ := commonIndentation_spec ⟨line, member, visible⟩
  have upper := bound line member visible
  have lower := least other among shown
  omega

theorem commonIndentation_append_nil (lines : List Line) :
    commonIndentation (lines ++ [[]]) = commonIndentation lines := by
  simp [commonIndentation, isBlankLine]

theorem outdentLine_zero {line : Line} (last : ∀ c ∈ line.getLast?, Text.isBlank c = false) :
    outdentLine 0 line = line := by
  rw [outdentLine]
  split
  · next blank => exact (eq_nil_of_isBlankLine last blank).symm
  · have kept := @Text.trimEnd_append [] line (by simp) last
    rw [List.append_nil] at kept
    rw [List.drop_zero, kept]

theorem outdentLine_space {line : Line} (last : ∀ c ∈ line.getLast?, Text.isBlank c = false) :
    outdentLine 1 (' ' :: line) = line := by
  have same : outdentLine 1 (' ' :: line) = outdentLine 0 line := by
    rw [outdentLine, outdentLine, isBlankLine_cons_space, List.drop_succ_cons]
  rw [same, outdentLine_zero last]

/-! ## Lines of a comment -/

theorem commentBody?_renderLines (lines : List Line) :
    commentBody? (renderLines lines) = some (renderBody lines) := by
  have trimmed : Text.trim (renderLines lines) = renderLines lines := by
    apply Text.trim_eq_self
    apply Text.trimmed_cons (by decide)
    simpa [List.getLast?_cons] using by decide
  rw [commentBody?, trimmed, renderLines, Text.isPrefixOf?_append]
  exact Text.isSuffixOf?_append _ _

theorem withoutStar_starred (line : Line) : withoutStar (starred line) = ' ' :: line := by
  have start : Text.trimStart (starred line) = '*' :: ' ' :: line :=
    @Text.trimStart_append [' '] ('*' :: ' ' :: line) Text.isBlank_of_mem_space
      (by simpa using by decide)
  simp only [withoutStar, start]

theorem lines_renderBody {lines : List Line} (neat : ∀ line ∈ lines, IsNeat line) :
    Text.lines (renderBody lines) = [] :: (lines.map starred ++ [[' ']]) := by
  have isLine : ∀ line ∈ lines.map starred, '\n' ∉ line ∧ line.getLast? ≠ some '\r' := by
    intro line member
    obtain ⟨inner, among, rfl⟩ := List.mem_map.mp member
    refine ⟨by simpa [starred] using (neat inner among).noBreak, ?_⟩
    intro last
    cases found : inner.getLast? with
    | none => simp [starred, List.getLast?_cons, found] at last
    | some c =>
        have visible := (neat inner among).last c found
        have isReturn : c = '\r' := by simpa [starred, List.getLast?_cons, found] using last
        subst isReturn
        cases visible
  have first := @Text.lines_append [] ((lines.map starred).flatMap (· ++ ['\n']) ++ [' '])
    (by simp) (by simp)
  rw [List.nil_append, Text.lines_flatMap _ isLine] at first
  exact first

/-- The lines of a comment are read back, if one of them is not indented.  The line that the comment
starts with and the line that it ends with are empty. -/
theorem commentLines_renderBody {lines : List Line} (neat : ∀ line ∈ lines, IsNeat line)
    (flush : ∃ line ∈ lines, line ≠ [] ∧ indentation line = 0) :
    commentLines (renderBody lines) = [] :: (lines ++ [[]]) := by
  have indented (line : Line) : indentation (' ' :: line) = indentation line + 1 := by
    simp [indentation]
  have width : commonIndentation (lines.map (' ' :: ·) ++ [[]]) = 1 := by
    apply commonIndentation_eq
    · obtain ⟨line, member, nonempty, none⟩ := flush
      refine ⟨' ' :: line, by simp [member], ?_, by rw [indented, none]⟩
      rw [isBlankLine_cons_space]
      cases blank : isBlankLine line with
      | false => rfl
      | true => exact (nonempty (eq_nil_of_isBlankLine (neat line member).last blank)).elim
    · intro line member visible
      rcases List.mem_append.mp member with member | member
      · obtain ⟨inner, _, rfl⟩ := List.mem_map.mp member
        rw [indented]
        omega
      · rw [List.mem_singleton.mp member] at visible
        cases visible
  have unstarred : (Text.lines (renderBody lines)).map withoutStar =
      [] :: (lines.map (' ' :: ·) ++ [[]]) := by
    have last : withoutStar [' '] = [] := by decide
    have inner : withoutStar ∘ starred = (' ' :: ·) := funext withoutStar_starred
    rw [lines_renderBody neat, List.map_cons, List.map_append, List.map_map, inner,
      List.map_singleton, last]
    rfl
  have outdented : outdent (lines.map (' ' :: ·) ++ [[]]) = lines ++ [[]] := by
    have same : ∀ line ∈ lines, (outdentLine 1 ∘ (' ' :: ·)) line = line := by
      intro line member
      exact outdentLine_space (neat line member).last
    rw [outdent, width, List.map_append, List.map_map, List.map_congr_left same, List.map_id']
    rfl
  have first : Text.trim [] = [] := rfl
  simp only [commentLines, unstarred, outdented, first]

/-! ## Tags -/

namespace Tag

def isTagName : List Char → Bool
  | c :: rest => c.isAlpha && rest.all fun d => Text.isWordChar d || d == '-'
  | [] => false

def print (tag : Tag) : List Line :=
  match tag.lines with
  | [] => []
  | text :: lines => Text.phrase ['@' :: tag.name.toList, text] :: lines

theorem print_of_lines {tag : Tag} {text : Line} {later : List Line}
    (lines_eq : tag.lines = text :: later) :
    tag.print = Text.phrase ['@' :: tag.name.toList, text] :: later := by
  simp only [print, lines_eq]

/-- The name is known, the text beside it is trimmed, and no line after it opens another tag. -/
structure Printable (tag : Tag) : Prop where
  isName : isTagName tag.name.toList = true
  known : isKnown tag.name = true
  lines : ∃ text later, tag.lines = text :: later ∧ IsLine text ∧
    ∀ line ∈ later, IsNeat line ∧ continuesTag tag.name line = true

/-- The name of a tag goes as far as it can. -/
theorem opening?_append {name : String} {rest : List Char}
    (isName : isTagName name.toList = true)
    (stops : ∀ d ∈ rest.head?, (Text.isWordChar d || d == '-') = false) :
    opening? ('@' :: (name.toList ++ rest)) = some (name, Text.trimStart rest) := by
  cases whole : name.toList with
  | nil =>
      rw [whole] at isName
      cases isName
  | cons c word =>
      rw [whole, isTagName, Bool.and_eq_true, List.all_eq_true] at isName
      have name_eq : String.ofList (c :: word) = name := by rw [← whole, String.ofList_toList]
      simp only [List.cons_append, opening?, isName.1, if_true,
        Text.takeWhile_append_of_head? isName.2 stops,
        Text.dropWhile_append_of_head? isName.2 stops, name_eq]

theorem opening?_phrase {name : String} {text : List Char}
    (isName : isTagName name.toList = true) (trimmed : Text.Trimmed text) :
    opening? (Text.phrase ['@' :: name.toList, text]) = some (name, text) := by
  obtain ⟨tail, line_eq, stops, tail_eq⟩ : ∃ tail,
      Text.phrase ['@' :: name.toList, text] = '@' :: (name.toList ++ tail) ∧
      (∀ d ∈ tail.head?, (Text.isWordChar d || d == '-') = false) ∧ Text.trimStart tail = text := by
    rw [Text.phrase_cons _ (List.cons_ne_nil _ _)]
    by_cases empty : text = []
    · subst empty
      exact ⟨[], rfl, by simp, rfl⟩
    · refine ⟨' ' :: text, by rw [Text.phrase_singleton, if_neg empty]; rfl, ?_, ?_⟩
      · have space : (Text.isWordChar ' ' || ' ' == '-') = false := by decide +kernel
        simpa using space
      · exact @Text.trimStart_append [' '] text Text.isBlank_of_mem_space trimmed.1
  rw [line_eq, opening?_append isName stops, tail_eq]

/-- What a tag is read for. -/
def gist (tag : Tag) : String × List Char × List Char := (tag.name, tag.oneLine, tag.verbatim)

theorem trimLines_append_nil (lines : List Line) : trimLines (lines ++ [[]]) = trimLines lines := by
  rw [trimLines, trimLines, List.dropWhile_append]
  split
  · next none =>
      rw [List.isEmpty_iff.mp none]
      rfl
  · rw [List.reverse_append, List.reverse_singleton, List.singleton_append,
      List.dropWhile_cons_of_pos rfl]

theorem gist_append_nil (name : String) (lines : List Line) :
    gist ⟨name, lines ++ [[]]⟩ = gist ⟨name, lines⟩ := by
  have text : oneLine ⟨name, lines ++ [[]]⟩ = oneLine ⟨name, lines⟩ := by
    have blank : Text.trim [] = [] := rfl
    simp [oneLine, blank]
  have block : verbatim ⟨name, lines ++ [[]]⟩ = verbatim ⟨name, lines⟩ := by
    have last : outdentLine (commonIndentation lines) [] = [] := rfl
    simp only [verbatim, outdent, commonIndentation_append_nil, List.map_append,
      List.map_singleton, last, trimLines_append_nil]
  rw [gist, gist, text, block]

theorem opens_phrase {inExample : Bool} {name : String} {text : List Char}
    (isName : isTagName name.toList = true) (known : isKnown name = true)
    (trimmed : Text.Trimmed text) :
    opens inExample (Text.phrase ['@' :: name.toList, text]) = true := by
  rw [opens, opening?_phrase isName trimmed]
  simp [known]

theorem continuesTag_of_head? {tags : List Tag} (printable : ∀ tag ∈ tags, tag.Printable)
    (name : String) (nonempty : tags ≠ []) :
    ∀ line ∈ (tags.flatMap print ++ [[]]).head?, continuesTag name line = false := by
  obtain ⟨tag, tags, rfl⟩ := List.exists_cons_of_ne_nil nonempty
  have first := printable tag List.mem_cons_self
  obtain ⟨text, later, lines_eq, isLine, _⟩ := first.lines
  rintro line head
  rw [List.flatMap_cons, print_of_lines lines_eq] at head
  cases head
  rw [continuesTag, opens_phrase first.isName first.known isLine.trimmed]
  rfl

/-- Written tags are read back, up to the blank line at their end. -/
theorem gist_listOfLines {tags : List Tag} (printable : ∀ tag ∈ tags, tag.Printable) :
    (listOfLines (tags.flatMap print ++ [[]])).map gist = tags.map gist := by
  induction tags with
  | nil => simp [listOfLines, opening?]
  | cons tag tags ih =>
      have first := printable tag List.mem_cons_self
      have laterPrintable : ∀ other ∈ tags, other.Printable :=
        fun other member => printable other (List.mem_cons_of_mem _ member)
      obtain ⟨text, later, lines_eq, isLine, continues⟩ := first.lines
      have opened := opening?_phrase first.isName isLine.trimmed
      have goesOn : ∀ line ∈ later, continuesTag tag.name line = true :=
        fun line member => (continues line member).2
      have same : gist ⟨tag.name, text :: later⟩ = gist tag := by rw [← lines_eq]
      have whole : (tag :: tags).flatMap print ++ [[]] =
          Text.phrase ['@' :: tag.name.toList, text] ::
            (later ++ (tags.flatMap print ++ [[]])) := by
        simp [print_of_lines lines_eq]
      rw [whole, listOfLines]
      simp only [opened]
      by_cases none : tags = []
      · subst none
        have all : ∀ line ∈ later ++ [[]], continuesTag tag.name line = true := by
          intro line member
          rcases List.mem_append.mp member with member | member
          · exact goesOn line member
          · rw [List.mem_singleton.mp member]
            rfl
        have taken := @Text.takeWhile_append_of_head? _ _ _ [] all (by simp)
        have dropped := @Text.dropWhile_append_of_head? _ _ _ [] all (by simp)
        rw [List.append_nil] at taken dropped
        rw [List.flatMap_nil, List.nil_append, taken, dropped, List.map_cons, ← List.cons_append,
          gist_append_nil, same]
        simp [listOfLines]
      · have stops := continuesTag_of_head? laterPrintable tag.name none
        rw [Text.takeWhile_append_of_head? goesOn stops,
          Text.dropWhile_append_of_head? goesOn stops,
          List.map_cons, same, ih laterPrintable, List.map_cons]

theorem isBlank_of_mem_tagName {name : List Char} (isName : isTagName name = true) :
    ∀ c ∈ name, Text.isBlank c = false := by
  intro c member
  cases name with
  | nil => cases member
  | cons d rest =>
      simp only [isTagName, Bool.and_eq_true, List.all_eq_true, Bool.or_eq_true,
        beq_iff_eq] at isName
      rcases List.mem_cons.mp member with rfl | member
      · exact @Text.isBlank_of_class Char.isAlpha (by decide) c isName.1
      · rcases isName.2 c member with word | rfl
        · exact Text.isBlank_of_isWordChar word
        · decide

theorem print_eq_cons {tag : Tag} (printable : tag.Printable) :
    ∃ rest later, tag.print = ('@' :: rest) :: later := by
  obtain ⟨text, later, lines_eq, _⟩ := printable.lines
  have first := Text.phrase_cons [text] (List.cons_ne_nil '@' tag.name.toList)
  exact ⟨_, later, by rw [print_of_lines lines_eq, first, List.cons_append]⟩

theorem isNeat_of_mem_print {tag : Tag} (printable : tag.Printable) :
    ∀ line ∈ tag.print, IsNeat line := by
  obtain ⟨text, later, lines_eq, isLine, continues⟩ := printable.lines
  intro line member
  rw [print_of_lines lines_eq] at member
  rcases List.mem_cons.mp member with rfl | member
  · have name : IsLine ('@' :: tag.name.toList) := by
      apply isLine_of_visible
      intro c found
      rcases List.mem_cons.mp found with rfl | found
      · decide
      · exact isBlank_of_mem_tagName printable.isName c found
    have whole : IsLine (Text.phrase ['@' :: tag.name.toList, text]) := by
      apply isLine_phrase
      simpa using ⟨name, isLine⟩
    exact ⟨whole.trimmed.2, whole.noBreak⟩
  · exact (continues line member).1

end Tag

/-! ## Parts of a comment -/

theorem CommentParts.ofLines_print {description : List Line} {tags : List Tag}
    (describes : ∀ line ∈ description, Tag.opens false line = false) (nonempty : tags ≠ [])
    (printable : ∀ tag ∈ tags, tag.Printable) :
    ofLines ([] :: (description ++ tags.flatMap Tag.print ++ [[]])) =
      ⟨[] :: description, Tag.listOfLines (tags.flatMap Tag.print ++ [[]])⟩ := by
  have all : ∀ line ∈ [] :: description, (!Tag.opens false line) = true := by
    intro line member
    rcases List.mem_cons.mp member with rfl | member
    · rfl
    · rw [describes line member]
      rfl
  have stops : ∀ line ∈ (tags.flatMap Tag.print ++ [[]]).head?, (!Tag.opens false line) = false :=
    Tag.continuesTag_of_head? printable "" nonempty
  rw [List.append_assoc, ← List.cons_append, ofLines]
  simp only [Text.takeWhile_append_of_head? all stops, Text.dropWhile_append_of_head? all stops]

theorem TagFields.foldlM_add_congr {a b : List Tag} (same : a.map Tag.gist = b.map Tag.gist)
    (fields : TagFields) : a.foldlM add fields = b.foldlM add fields := by
  induction a generalizing b fields with
  | nil =>
      cases b with
      | nil => rfl
      | cons tag b => cases same
  | cons tag a ih =>
      cases b with
      | nil => cases same
      | cons other b =>
          rw [List.map_cons, List.map_cons, List.cons.injEq] at same
          obtain ⟨first, later⟩ := same
          simp only [Tag.gist, Prod.mk.injEq] at first
          have added : add fields tag = add fields other := by
            rw [add, add, first.1, first.2.1, first.2.2]
          rw [List.foldlM_cons, List.foldlM_cons, added]
          cases add fields other with
          | error fault => rfl
          | ok next => exact ih later next

theorem kindOfTags_congr {a b : List Tag} (same : a.map Tag.name = b.map Tag.name) :
    kindOfTags a = kindOfTags b := by
  have kinds (tags : List Tag) : kindTags tags = (tags.map Tag.name).filterMap fun name =>
      (ConstructKind.ofTag? name).map fun kind => (name, kind) := by
    rw [kindTags, List.filterMap_map]
    rfl
  have implied (tags : List Tag) : tags.any Tag.impliesCallable =
      (tags.map Tag.name).any fun name => Tag.impliesCallable ⟨name, []⟩ := by
    rw [List.any_map]
    rfl
  rw [kindOfTags, kindOfTags, kinds a, kinds b, implied a, implied b, same]

theorem CommentParts.draft_congr {a b : CommentParts} (description : a.description = b.description)
    (tags : a.tags.map Tag.gist = b.tags.map Tag.gist) : a.draft = b.draft := by
  have names : a.tags.map Tag.name = b.tags.map Tag.name := by
    have first := congrArg (List.map Prod.fst) tags
    simpa [Tag.gist, Function.comp_def] using first
  rw [draft, draft, kindOfTags_congr names, TagFields.ofTags, TagFields.ofTags, description,
    TagFields.foldlM_add_congr tags]

/-- A written comment says what its description and its tags say. -/
theorem Draft.ofComment_renderLines {description : List Line} {tags : List Tag}
    (describes : ∀ line ∈ description, IsNeat line ∧ Tag.opens false line = false)
    (nonempty : tags ≠ []) (printable : ∀ tag ∈ tags, tag.Printable) :
    Draft.ofComment (String.ofList (renderLines (description ++ tags.flatMap Tag.print))) =
      CommentParts.draft ⟨[] :: description, tags⟩ := by
  have neat : ∀ line ∈ description ++ tags.flatMap Tag.print, IsNeat line := by
    intro line member
    rcases List.mem_append.mp member with member | member
    · exact (describes line member).1
    · obtain ⟨tag, among, found⟩ := List.mem_flatMap.mp member
      exact Tag.isNeat_of_mem_print (printable tag among) line found
  have flush : ∃ line ∈ description ++ tags.flatMap Tag.print,
      line ≠ [] ∧ indentation line = 0 := by
    obtain ⟨tag, others, rfl⟩ := List.exists_cons_of_ne_nil nonempty
    obtain ⟨rest, later, first⟩ := Tag.print_eq_cons (printable tag List.mem_cons_self)
    exact ⟨'@' :: rest, by simp [first], by simp, by simp [indentation]⟩
  have cut := CommentParts.ofLines_print (fun line member => (describes line member).2) nonempty
    printable
  simp only [Draft.ofComment, String.toList_ofList, commentBody?_renderLines, CommentParts.ofBody,
    commentLines_renderBody neat flush, cut]
  exact CommentParts.draft_congr rfl (Tag.gist_listOfLines printable)

end StyleDoc
