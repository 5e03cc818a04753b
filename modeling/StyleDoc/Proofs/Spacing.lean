import Mathlib.Data.List.TakeWhile
import StyleDoc.Proofs.Slices
import StyleDoc.Proofs.Tiling

/-!
# Blanks between statements

Blanks can be inserted wherever a node starts or stops, after an opening brace and before a closing
one: the tree says the same, and so the same documentation is extracted.  The token in front of the
place may take some of the blanks, and the token behind it the others; what tokens other than
blanks stand for stays the same, and this is all that a tree says.
-/

namespace StyleDoc

/-! ## Parts other than blanks -/

def Part.isBlank : Part → Bool
  | leaf .blank => true
  | _ => false

/-- What the tokens stand for, runs of blanks left out. -/
def visibleParts (tokens : List Token) : List Part :=
  (tokens.filter fun token => !token.part.isBlank).map Token.part

theorem visibleParts_append (a b : List Token) :
    visibleParts (a ++ b) = visibleParts a ++ visibleParts b := by
  simp [visibleParts]

theorem visibleParts_cons_of_isBlank {token : Token} (blank : token.part.isBlank = true)
    (tokens : List Token) : visibleParts (token :: tokens) = visibleParts tokens := by
  simp [visibleParts, blank]

theorem visibleParts_cons_of_visible {token : Token} (visible : token.part.isBlank = false)
    (tokens : List Token) : visibleParts (token :: tokens) = token.part :: visibleParts tokens := by
  simp [visibleParts, visible]

theorem visibleParts_singleton {token token' : Token} (same : token'.part = token.part) :
    visibleParts [token'] = visibleParts [token] := by
  cases blank : token.part.isBlank with
  | true =>
      rw [visibleParts_cons_of_isBlank blank, visibleParts_cons_of_isBlank (by rw [same, blank])]
  | false =>
      rw [visibleParts_cons_of_visible blank, visibleParts_cons_of_visible (by rw [same, blank]),
        same]

theorem visibleParts_eq_cons {tokens : List Token} {part : Part} {parts : List Part}
    (h : visibleParts tokens = part :: parts) :
    ∃ blanks token later, tokens = blanks ++ token :: later ∧
      (∀ blank ∈ blanks, blank.part.isBlank = true) ∧ token.part = part ∧
      visibleParts later = parts := by
  obtain ⟨token, rest, found, isPart, rfl⟩ := List.map_eq_cons_iff.mp h
  obtain ⟨blanks, later, rfl, dropped, _, kept⟩ := List.filter_eq_cons_iff.mp found
  exact ⟨blanks, token, later, rfl, by simpa using dropped, isPart, by rw [visibleParts, kept]⟩

theorem visibleParts_eq_append {tokens : List Token} {a b : List Part}
    (h : visibleParts tokens = a ++ b) :
    ∃ before after, tokens = before ++ after ∧ visibleParts before = a ∧
      visibleParts after = b := by
  obtain ⟨first, second, found, rfl, rfl⟩ := List.map_eq_append_iff.mp h
  obtain ⟨before, after, rfl, rfl, rfl⟩ := List.filter_eq_append_iff.mp found
  exact ⟨before, after, rfl, rfl, rfl⟩

theorem visibleParts_of_blanks {blanks : List Token}
    (blank : ∀ token ∈ blanks, token.part.isBlank = true) : visibleParts blanks = [] := by
  simpa [visibleParts] using blank

theorem Token.leaf?_of_isBlank {token : Token} (blank : token.part.isBlank = true) :
    token.leaf? = some .blank := by
  unfold Part.isBlank at blank
  split at blank
  · next isBlank => exact part_eq_leaf_iff.mp isBlank
  · cases blank

/-- The tokens derive nodes of the given outline and height, wherever they stand. -/
def Means (tokens : List Token) (items : List Outline) (height : Nat) : Prop :=
  ∀ offset, ∃ nodes, Derives offset tokens nodes ∧ Outline.ofNodes nodes = items ∧
    Node.heightOfList nodes = height

namespace Means

variable {tokens : List Token} {items : List Outline} {height : Nat}

theorem blanks_append {blanks : List Token} (blank : ∀ token ∈ blanks, token.part.isBlank = true)
    (means : Means tokens items height) : Means (blanks ++ tokens) items height := by
  induction blanks with
  | nil => exact means
  | cons token blanks ih =>
      rw [List.forall_mem_cons] at blank
      intro offset
      obtain ⟨nodes, derived, said, tall⟩ := ih blank.2 (offset + token.width)
      refine ⟨_, .leaf (Token.leaf?_of_isBlank blank.1) derived, said, ?_⟩
      simp [Node.heightOfList, Node.height, tall]

theorem leaf {token : Token} {content : Leaf} (stands : token.leaf? = some content)
    (span : ByteRange) (means : Means tokens items height) :
    Means (token :: tokens) (Outline.ofNode (.leaf content span) ++ items) height := by
  intro offset
  obtain ⟨nodes, derived, rfl, rfl⟩ := means (offset + token.width)
  refine ⟨_, .leaf stands derived, ?_, by simp [Node.heightOfList, Node.height]⟩
  cases content <;> rfl

theorem block {pieces : List Piece} {head : Head} {inner : List Token} {body : List Outline}
    {depth : Nat} (read : Head.ofText (statementText pieces) = .ok head)
    (inside : Means inner body depth) (means : Means tokens items height) :
    Means (.header pieces :: inner ++ .close :: tokens) (.block head body :: items)
      (max (depth + 1) height) := by
  intro offset
  obtain ⟨nodesInside, derivedInside, rfl, rfl⟩ := inside (offset + (Token.header pieces).width)
  obtain ⟨nodes, derived, rfl, rfl⟩ :=
    means (offset + (Token.header pieces).width + tokensWidth inner + 1)
  exact ⟨_, .block read derivedInside rfl derived, rfl, rfl⟩

end Means

/-- Tokens that stand for the same, apart from blanks, derive trees that say the same. -/
theorem Derives.means {offset : Nat} {tokens tokens' : List Token} {nodes : List Node}
    (derived : Derives offset tokens nodes) (same : visibleParts tokens' = visibleParts tokens) :
    Means tokens' (Outline.ofNodes nodes) (Node.heightOfList nodes) := by
  induction derived generalizing tokens' with
  | nil =>
      have blank : ∀ token ∈ tokens', token.part.isBlank = true := by
        simpa [visibleParts] using same
      have means : Means [] [] 0 := fun _ => ⟨[], .nil, rfl, rfl⟩
      simpa [Outline.ofNodes, Node.heightOfList] using means.blanks_append blank
  | @leaf offset token content tokens nodes stands _ ih =>
      have height : Node.heightOfList (.leaf content ⟨offset, offset + token.width⟩ :: nodes) =
          Node.heightOfList nodes := by
        simp [Node.heightOfList, Node.height]
      rw [height, Outline.ofNodes]
      cases blank : token.part.isBlank with
      | true =>
          rw [Token.leaf?_of_isBlank blank] at stands
          cases stands
          rw [visibleParts_cons_of_isBlank blank] at same
          exact ih same
      | false =>
          rw [visibleParts_cons_of_visible blank] at same
          obtain ⟨blanks, token', later, rfl, areBlank, part, sameLater⟩ :=
            visibleParts_eq_cons same
          rw [Token.part_eq_leaf_iff.mpr stands, Token.part_eq_leaf_iff] at part
          exact ((ih sameLater).leaf part _).blanks_append areBlank
  | @block offset stop pieces head inner tokens body nodes read _ _ _ ihInside ihLater =>
      rw [List.cons_append, visibleParts_cons_of_visible rfl, visibleParts_append,
        visibleParts_cons_of_visible rfl] at same
      obtain ⟨blanks, header', more, rfl, areBlank, headerPart, same⟩ := visibleParts_eq_cons same
      obtain ⟨inner', more, rfl, sameInside, same⟩ := visibleParts_eq_append same
      obtain ⟨blanks', close', later, rfl, areBlank', closePart, sameLater⟩ :=
        visibleParts_eq_cons same
      obtain ⟨pieces', rfl, readAgain⟩ := Token.part_eq_header headerPart
      cases Token.part_eq_close closePart
      rw [read] at readAgain
      have inside : Means (inner' ++ blanks') (Outline.ofNodes body) (Node.heightOfList body) := by
        apply ihInside
        rw [visibleParts_append, visibleParts_of_blanks areBlank', List.append_nil, sameInside]
      have whole := (Means.block readAgain inside (ihLater sameLater)).blanks_append areBlank
      simpa [Outline.ofNodes, Outline.ofNode, Node.heightOfList, Node.height] using whole

/-! ## Trailing blanks -/

namespace Text

theorem isBlank_of_isAsciiBlank {c : Char} (blank : isAsciiBlank c = true) : isBlank c = true := by
  cases visible : isBlank c with
  | true => rfl
  | false =>
      rw [isAsciiBlank_of_isBlank visible] at blank
      cases blank

end Text

theorem lineRest_append_of_afterLine {text : List Char} (ends : afterLine text = [])
    (more : List Char) :
    lineRest (text ++ more) = text ++ lineRest more ∧
      afterLine (text ++ more) = afterLine more := by
  have all : ∀ c ∈ text, (c != '\n') = true := List.dropWhile_eq_nil_iff.mp ends
  exact ⟨List.takeWhile_append_of_pos all, List.dropWhile_append_of_pos all⟩

namespace Readable

theorem append_blanks {pieces : List Piece} {blanks rest : List Char}
    (readable : Readable pieces (blanks ++ rest))
    (blank : ∀ c ∈ blanks, Text.isAsciiBlank c = true) :
    Readable (pieces ++ blanks.map .char) rest := by
  obtain ⟨last, steps, flat, rfl⟩ := readable
  have whole := steps.trans (Reading.Steps.blanks blank last rest)
  refine ⟨last.pushAll (blanks.map .char), ?_, flat, by simp [Reading.pushAll]⟩
  simpa using whole

/-- A line comment at the end of a statement takes the blanks up to a line feed. -/
theorem lengthen_lineRemark {before : List Piece} {body : List Char}
    (readable : Readable (before ++ [.remark .line body]) []) (more : List Char) :
    Readable (before ++ [.remark .line (body ++ lineRest more)]) (afterLine more) := by
  obtain ⟨middle, last, c, tail, upTo, first, split, stepped, later, flat, _⟩ :=
    readable.split_remark
  obtain ⟨allowed, line, starts, body_eq, ends⟩ := Reading.lineRemark_of_step stepped
  rw [rawText_nil, List.append_nil] at ends later
  obtain ⟨longer, rest_eq⟩ := lineRest_append_of_afterLine ends.symm more
  have body_eq : body = '/' :: '/' :: line := by
    have whole := lineRest_append_afterLine ('/' :: line)
    rw [← ends, List.append_nil] at whole
    rw [body_eq, whole]
  have text_eq : rawText before ++ '/' :: '/' :: (line ++ more) =
      rawText (before ++ [.remark .line (body ++ lineRest more)]) ++ afterLine more := by
    simp [body_eq, Piece.raw, lineRest_append_afterLine]
  cases later
  refine ⟨middle.push (.remark .line (body ++ lineRest more)), ?_, flat,
    by simp [Reading.push, upTo]⟩
  rw [← text_eq]
  have upToComment := first ('/' :: '/' :: (line ++ more)) (.inl ?_)
  · have stepped := Reading.step_lineRemark allowed (line ++ more)
    rw [← List.cons_append, longer, rest_eq] at stepped
    rw [body_eq]
    exact upToComment.trans (.step stepped .refl)
  · cases starts
    rfl

/-- Blanks after a statement belong to it. -/
theorem exists_spaced {pieces : List Piece} {blanks : List Char} (readable : Readable pieces [])
    (nonempty : pieces ≠ []) (starts : ∀ piece ∈ pieces.head?, piece.startsStatement = true)
    (blank : ∀ c ∈ blanks, Text.isAsciiBlank c = true) :
    ∃ pieces', Readable pieces' [] ∧ pieces'.head? = pieces.head? ∧
      rawText pieces' = rawText pieces ++ blanks ∧
      Text.trim (statementText pieces') = Text.trim (statementText pieces) ∧
      (fillsLine pieces' = true → fillsLine pieces = true) := by
  by_cases fills : fillsLine pieces = true
  · obtain ⟨before, last, rfl⟩ := (List.eq_nil_or_concat' pieces).resolve_left nonempty
    match last with
    | .remark .line body =>
        have blankLater : ∀ c ∈ afterLine blanks, Text.isAsciiBlank c = true :=
          fun c member => blank c ((List.dropWhile_suffix _).mem member)
        have readable' : Readable (before ++ [.remark .line (body ++ lineRest blanks)])
            (afterLine blanks ++ []) := by
          simpa using readable.lengthen_lineRemark blanks
        refine ⟨_, readable'.append_blanks blankLater, ?_, ?_, ?_, fun _ => fills⟩
        · cases before with
          | nil => cases starts _ rfl
          | cons piece before => rfl
        · simp [Piece.raw, lineRest_append_afterLine]
        · have trimmed := @Text.trim_append_blanks (statementText before) (afterLine blanks)
            fun c member => Text.isBlank_of_isAsciiBlank (blankLater c member)
          simpa [Piece.text] using trimmed
    | .char _ | .quoted _ | .remark .block _ => simp [fillsLine, Piece.fillsLine] at fills
  · have follows : Reading.Follows blanks :=
      Reading.follows_of_blank fun c head => blank c (List.mem_of_mem_head? head)
    have readable' : Readable pieces (blanks ++ []) := by
      rw [List.append_nil]
      exact readable.admits (.inr ⟨follows, fun fills' => (fills fills').elim⟩)
    refine ⟨_, readable'.append_blanks blank, ?_, by simp, ?_, ?_⟩
    · rw [List.head?_append_of_ne_nil _ nonempty]
    · rw [statementText_append, statementText_map_char]
      exact Text.trim_append_blanks fun c member => Text.isBlank_of_isAsciiBlank (blank c member)
    · intro fills'
      rcases List.eq_nil_or_concat' blanks with rfl | ⟨run, c, rfl⟩
      · simpa using fills'
      · simp [fillsLine, Piece.fillsLine] at fills'

end Readable

/-! ## Blanks at the end of tokens -/

namespace Token

theorem Alone.head?_of_visible {token : Token} (alone : token.Alone)
    (visible : ∀ run, token ≠ blank run) :
    ∀ c ∈ token.raw.head?, Text.isAsciiBlank c = false := by
  obtain ⟨c, tail, whole, next⟩ := alone.exists_next
  rw [whole]
  rintro _ ⟨⟩
  cases blank : Text.isAsciiBlank c with
  | false => rfl
  | true =>
      rw [Token.next, if_pos blank, Except.ok.injEq, Prod.mk.injEq] at next
      exact (visible _ next.1.symm).elim

/-- A token takes the blanks after it as far as it can, and fits those that are left. -/
theorem Alone.exists_spaced {token : Token} {rest blanks : List Char} (alone : token.Alone)
    (fits : token.Fits rest) (blank : ∀ c ∈ blanks, Text.isAsciiBlank c = true) :
    ∃ (token' : Token) (left : List Char), token'.raw ++ left = token.raw ++ blanks ∧
      (∀ c ∈ left, Text.isAsciiBlank c = true) ∧ token'.Alone ∧ token'.Fits (left ++ rest) ∧
      token'.part = token.part := by
  obtain ⟨text, begins⟩ : ∃ text, Begins text token [] := ⟨_, alone⟩
  cases begins with
  | @blank run _ nonempty all _ =>
      have alone' : (Token.blank (run ++ blanks)).Alone :=
        alone_blank_iff.mpr ⟨by simp [nonempty], List.forall_mem_append.mpr ⟨all, blank⟩⟩
      exact ⟨.blank (run ++ blanks), [], by simp [raw], by simp, alone', fits, rfl⟩
  | @lineComment line _ noBreak _ =>
      have noBreak' : ∀ c ∈ line ++ lineRest blanks, c ≠ '\n' := by
        intro c member
        rcases List.mem_append.mp member with inLine | inBlanks
        · exact noBreak c inLine
        · simpa using List.all_eq_true.mp List.all_takeWhile c inBlanks
      have alone' : Begins ('/' :: '/' :: (line ++ lineRest blanks ++ []))
          (.comment .line ('/' :: '/' :: (line ++ lineRest blanks))) [] :=
        .lineComment noBreak' (by simp)
      refine ⟨_, afterLine blanks, ?_, ?_, alone'.alone, ?_, ?_⟩
      · simp [raw, lineRest_append_afterLine]
      · exact fun c member => blank c ((List.dropWhile_suffix _).mem member)
      · intro c head
        rw [Option.mem_def, List.head?_append, Option.or_eq_some_iff] at head
        rcases head with inBlanks | ⟨_, inRest⟩
        · exact head?_afterLine blanks c inBlanks
        · exact fits c inRest
      · have blankLine : ∀ c ∈ lineRest blanks, Text.isBlank c = true := by
          intro c member
          exact Text.isBlank_of_isAsciiBlank (blank c ((List.takeWhile_prefix _).mem member))
        have trimmed := @Text.trimEnd_append_blanks ('/' :: '/' :: line) _ blankLine
        simp only [List.cons_append] at trimmed
        simp only [part, Leaf.ofComment, trimmed]
  | @statement pieces _ nonempty starts readable _ =>
      obtain ⟨pieces', readable', head, raw_eq, said, fills⟩ :=
        readable.exists_spaced nonempty starts blank
      have alone' := alone.statement_of_head? head readable'
      have part_eq : (statement pieces').part = (statement pieces).part := by
        simp only [part, Leaf.ofText, said]
      exact ⟨.statement pieces', [], by simp [raw, raw_eq], by simp, alone',
        fits_statement fits fills, part_eq⟩
  | blockComment | semicolon | close | header => exact ⟨_, blanks, rfl, blank, alone, trivial, rfl⟩

end Token

/-! ## Blanks between tokens -/

namespace WellCut

variable {tokens : List Token} {blanks : List Char}

/-- Blanks after well-cut tokens: the last token takes some, and the others are left. -/
theorem append_blanks {rest : List Char} (cut : WellCut tokens)
    (fits : ∀ token ∈ tokens.getLast?, token.Fits rest)
    (blank : ∀ c ∈ blanks, Text.isAsciiBlank c = true) :
    ∃ tokens' left, rawTokens tokens' ++ left = rawTokens tokens ++ blanks ∧
      (∀ c ∈ left, Text.isAsciiBlank c = true) ∧ WellCut tokens' ∧
      (∀ token ∈ tokens'.getLast?, token.Fits (left ++ rest)) ∧
      visibleParts tokens' = visibleParts tokens := by
  rcases List.eq_nil_or_concat' tokens with rfl | ⟨earlier, token, rfl⟩
  · exact ⟨[], blanks, rfl, blank, trivial, by simp, rfl⟩
  · have alone : token.Alone := cut.alone_of_mem token (by simp)
    obtain ⟨token', left, raw, blankLeft, alone', fits', part⟩ :=
      alone.exists_spaced (fits token (by simp)) blank
    have head : token'.raw.head? = token.raw.head? := by
      have both := congrArg List.head? raw
      rwa [List.head?_append_of_ne_nil _ alone'.raw_ne_nil,
        List.head?_append_of_ne_nil _ alone.raw_ne_nil] at both
    refine ⟨earlier ++ [token'], left, ?_, blankLeft,
      cut.replace alone' head trivial token'.fits_nil, by simpa using fits', ?_⟩
    · simp [raw]
    · rw [visibleParts_append, visibleParts_append, visibleParts_singleton part]

/-- Blanks before well-cut tokens belong to the first of them or are a token of their own. -/
theorem blanks_append (cut : WellCut tokens) (blank : ∀ c ∈ blanks, Text.isAsciiBlank c = true) :
    ∃ tokens', rawTokens tokens' = blanks ++ rawTokens tokens ∧ WellCut tokens' ∧
      visibleParts tokens' = visibleParts tokens := by
  by_cases none : blanks = []
  · exact ⟨tokens, by simp [none], cut, rfl⟩
  have apart (visible : ∀ c ∈ (rawTokens tokens).head?, Text.isAsciiBlank c = false) :
      ∃ tokens', rawTokens tokens' = blanks ++ rawTokens tokens ∧ WellCut tokens' ∧
        visibleParts tokens' = visibleParts tokens :=
    ⟨.blank blanks :: tokens, rfl, ⟨Token.alone_blank_iff.mpr ⟨none, blank⟩, visible, cut⟩,
      visibleParts_cons_of_isBlank rfl tokens⟩
  cases tokens with
  | nil => exact apart (by simp)
  | cons token later =>
      obtain ⟨alone, fits, cutLater⟩ := cut
      by_cases isBlank : ∃ run, token = .blank run
      · obtain ⟨run, rfl⟩ := isBlank
        have all := (Token.alone_blank_iff.mp alone).2
        have alone' : (Token.blank (blanks ++ run)).Alone :=
          Token.alone_blank_iff.mpr ⟨by simp [none], List.forall_mem_append.mpr ⟨blank, all⟩⟩
        exact ⟨.blank (blanks ++ run) :: later, by simp [Token.raw], ⟨alone', fits, cutLater⟩, rfl⟩
      · apply apart
        rw [rawTokens_cons, List.head?_append_of_ne_nil _ alone.raw_ne_nil]
        exact alone.head?_of_visible fun run same => isBlank ⟨run, same⟩

end WellCut

/-- Well-cut tokens stay so with blanks between them, and their visible parts stay the same. -/
theorem WellCut.exists_spaced {before after : List Token} {blanks : List Char}
    (cut : WellCut (before ++ after)) (blank : ∀ c ∈ blanks, Text.isAsciiBlank c = true) :
    ∃ tokens', rawTokens tokens' = rawTokens before ++ blanks ++ rawTokens after ∧
      WellCut tokens' ∧ visibleParts tokens' = visibleParts (before ++ after) := by
  obtain ⟨cutBefore, cutAfter, seam⟩ := append_iff.mp cut
  obtain ⟨before', left, raw, blankLeft, cutBefore', seam', partsBefore⟩ :=
    cutBefore.append_blanks seam blank
  obtain ⟨after', raw', cutAfter', partsAfter⟩ := cutAfter.blanks_append blankLeft
  refine ⟨before' ++ after', ?_, append_iff.mpr ⟨cutBefore', cutAfter', ?_⟩, ?_⟩
  · rw [rawTokens_append, raw', ← List.append_assoc, raw]
  · rw [raw']
    exact seam'
  · rw [visibleParts_append, visibleParts_append, partsBefore, partsAfter]

/-! ## Seams -/

theorem Node.Braced.eq_braceOffset {source : List Char} {span : ByteRange} {body : List Node}
    {brace : Nat} (braced : Braced source span body brace) : brace = braceOffset body span := by
  have tile := braced.tile
  have lt_stop := braced.lt_stop
  cases body with
  | nil =>
      simp only [Tile, List.map_nil, RangesTile] at tile
      simp only [braceOffset]
      omega
  | cons first body =>
      simp only [Tile, List.map_cons, RangesTile] at tile
      simp only [braceOffset]
      omega

/-- A place between statements: where a node starts or stops, at any depth, right after the opening
brace of a body or right before its closing brace. -/
inductive Seam (source : List Char) (nodes : List Node) : Nat → Prop
  | start {node : Node} (occurs : Occurs node nodes) : Seam source nodes node.span.start
  | stop {node : Node} (occurs : Occurs node nodes) : Seam source nodes node.span.stop
  | opened {head : Head} {body : List Node} {span : ByteRange} {brace : Nat}
      (occurs : Occurs (.block head body span) nodes)
      (braced : Node.Braced source span body brace) : Seam source nodes (brace + 1)
  | closing {head : Head} {body : List Node} {span : ByteRange}
      (occurs : Occurs (.block head body span) nodes) : Seam source nodes (span.stop - 1)

/-- Every seam lies between tokens. -/
theorem Seam.exists_split {source : List Char} {offset place : Nat} {tokens : List Token}
    {nodes : List Node} (seam : Seam source nodes place) (derived : Derives offset tokens nodes) :
    ∃ before after, tokens = before ++ after ∧ place = offset + tokensWidth before := by
  cases seam with
  | start occurs =>
      obtain ⟨before, middle, after, rfl, found⟩ := derived.of_occurs occurs
      exact ⟨before, middle ++ after, by simp, by rw [found.span_eq]⟩
  | stop occurs =>
      obtain ⟨before, middle, after, rfl, found⟩ := derived.of_occurs occurs
      refine ⟨before ++ middle, after, rfl, ?_⟩
      rw [found.span_eq, tokensWidth_append, Nat.add_assoc]
  | opened occurs braced =>
      obtain ⟨before, middle, after, rfl, found⟩ := derived.of_occurs occurs
      obtain ⟨pieces, inner, rfl, _, inside, rfl⟩ := found.block_inv
      refine ⟨before ++ [.header pieces], inner ++ .close :: after, by simp, ?_⟩
      rw [braced.eq_braceOffset, inside.braceOffset_eq]
      simp [Token.width_header]
      omega
  | closing occurs =>
      obtain ⟨before, middle, after, rfl, found⟩ := derived.of_occurs occurs
      obtain ⟨pieces, inner, rfl, _, _, rfl⟩ := found.block_inv
      refine ⟨before ++ .header pieces :: inner, .close :: after, by simp, ?_⟩
      simp
      omega

/-! ## The statement -/

theorem Stylesheet.IsMark.insert_blanks {mark before after blanks : List Char}
    (isMark : IsMark mark (before ++ after)) (blank : ∀ c ∈ blanks, Text.isAsciiBlank c = true) :
    IsMark mark (before ++ blanks ++ after) := by
  rcases isMark with marked | ⟨unmarked, noMark⟩
  · exact .inl marked
  · refine .inr ⟨unmarked, ?_⟩
    cases before with
    | cons c before => exact noMark
    | nil =>
        cases blanks with
        | nil => exact noMark
        | cons c blanks =>
            intro head
            cases head
            cases blank _ List.mem_cons_self

/-- Extraction depends on a text only through its tree and on whether the text is blank. -/
theorem Extraction.ofText_eq_of_read {ε : Type} (reader : CommentReader ε) (labels : Labels)
    {source source' : String} {nodes nodes' : List Node}
    (accepted : Stylesheet.read source = .ok nodes)
    (accepted' : Stylesheet.read source' = .ok nodes')
    (same : Outline.ofNodes nodes' = Outline.ofNodes nodes)
    (blank : source'.toList.all Text.isBlank = source.toList.all Text.isBlank) :
    ofText readTree reader labels source' = ofText readTree reader labels source := by
  have tree {text : String} {found : List Node} (read : Stylesheet.read text = .ok found) :
      readTree text = .ok found := by
    rw [readTree, read]
    rfl
  rw [ofText, ofText, blank, tree accepted, tree accepted']
  simp only [Outline.ofNodes_extraction reader labels same]

/--
Blanks between statements do not matter.  With blanks inserted at any seam, an accepted text is
accepted again, its tree says the same, and extraction gives the same: the entities, or the refusal
of a comment, and with them the comments that were read and the notices.
-/
theorem read_spaced_at_seam {source : String} {nodes : List Node} {place : Nat}
    {blanks : List Char} (accepted : Stylesheet.read source = .ok nodes)
    (seam : Seam source.toList nodes place)
    (blank : ∀ c ∈ blanks, Text.isAsciiBlank c = true) :
    let spaced := String.ofList (Text.splice source.toList ⟨place, place⟩ blanks)
    (∃ nodes', Stylesheet.read spaced = .ok nodes' ∧
        Outline.ofNodes nodes' = Outline.ofNodes nodes) ∧
      ∀ {ε : Type} (reader : CommentReader ε) (labels : Labels),
        Extraction.ofText readTree reader labels spaced =
          Extraction.ofText readTree reader labels source := by
  obtain ⟨mark, tokens, whole, isMark, _, cut, derived, room⟩ :=
    Stylesheet.exists_tokens_of_read accepted
  obtain ⟨before, after, rfl, place_eq⟩ := seam.exists_split derived
  obtain ⟨tokens', raw, cut', same⟩ := cut.exists_spaced blank
  obtain ⟨nodes', derived', said, tall⟩ := derived.means same (Text.byteSize mark)
  have spliced : Text.splice source.toList ⟨place, place⟩ blanks = mark ++ rawTokens tokens' := by
    have edit := Text.splice_append (mark ++ rawTokens before) [] (rawTokens after) blanks
    rw [raw, whole, place_eq, tokensWidth]
    simpa using edit
  have isMark' : Stylesheet.IsMark mark (rawTokens tokens') := by
    rw [raw]
    rw [rawTokens_append] at isMark
    exact isMark.insert_blanks blank
  have read : Stylesheet.read (String.ofList (mark ++ rawTokens tokens')) = .ok nodes' :=
    Stylesheet.read_of_tokens isMark' cut' derived' (tall ▸ room)
  have blankAlike : (mark ++ rawTokens tokens').all Text.isBlank =
      source.toList.all Text.isBlank := by
    have all : blanks.all Text.isBlank = true :=
      List.all_eq_true.mpr fun c member => Text.isBlank_of_isAsciiBlank (blank c member)
    simp [raw, whole, all]
  simp only [spliced]
  refine ⟨⟨nodes', read, said⟩, ?_⟩
  intro ε reader labels
  exact Extraction.ofText_eq_of_read reader labels accepted read said (by simpa using blankAlike)

/-- A blank and a line feed right after a line comment in a block: the comment takes the first, and
the second joins the blanks after the comment. -/
theorem read_spaced_at_seam_lineComment :
    ∃ nodes, Stylesheet.read "@if x\x7b//a\n$é:1\x7d" = .ok nodes ∧
      ∃ nodes', Stylesheet.read "@if x\x7b//a \n\n$é:1\x7d" = .ok nodes' ∧
        Outline.ofNodes nodes' = Outline.ofNodes nodes := by
  have accepted : Stylesheet.read "@if x\x7b//a\n$é:1\x7d" = .ok
      [.block (.nesting "if" "x")
        [.leaf (.comment .line "//a") ⟨6, 9⟩, .leaf .blank ⟨9, 10⟩,
          .leaf (.declaration "é" "1") ⟨10, 15⟩] ⟨0, 16⟩] :=
    Stylesheet.read_eq_ok_of_toOption (by decide +kernel)
  have occurs : Occurs (.leaf (.comment .line "//a") ⟨6, 9⟩)
      [.block (.nesting "if" "x")
        [.leaf (.comment .line "//a") ⟨6, 9⟩, .leaf .blank ⟨9, 10⟩,
          .leaf (.declaration "é" "1") ⟨10, 15⟩] ⟨0, 16⟩] :=
    .deeper List.mem_cons_self (.here List.mem_cons_self)
  have blank : ∀ c ∈ [' ', '\n'], Text.isAsciiBlank c = true := by simp [Text.isAsciiBlank]
  exact ⟨_, accepted, (read_spaced_at_seam accepted (.stop occurs) blank).1⟩

end StyleDoc
