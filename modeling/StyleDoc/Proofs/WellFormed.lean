import StyleDoc.Proofs.Bodies
import StyleDoc.Proofs.Pieces

/-!
# Well-formed trees

What holds of every node of a tree that was read: its names and texts by themselves, its text
against the slice of the source that it covers, and what may stand next to it.  The first two come
from the token or header that the node was read from; the last from how tokens are cut off from
each other.
-/

namespace StyleDoc

/-! ## Selectors and arguments -/

theorem leadingClass_isPrefix (text : List Char) : leadingClass text <+: text := by
  fun_induction leadingClass text with
  | case1 => exact List.prefix_rfl
  | case2 c text ih => exact (List.prefix_cons_inj _).mpr ((List.prefix_cons_inj _).mpr ih)
  | case3 text inner rest found shorter ih =>
      obtain ⟨c, isClose, rfl⟩ := Text.cut?_eq_some found
      rw [beq_iff_eq] at isClose
      subst isClose
      simpa using ih
  | case4 => exact List.nil_prefix
  | case5 c text _ _ _ ih => exact (List.prefix_cons_inj _).mpr ih
  | case6 => exact List.nil_prefix

theorem leadingClass_cons {c : Char} (isName : Text.isNameChar c = true) (text : List Char) :
    leadingClass (c :: text) = c :: leadingClass text := by
  rw [leadingClass, if_pos isName]
  · rintro _ _ rfl
    exact (Text.ne_of_isNameChar isName (by decide) rfl).elim
  · rintro _ rfl
    exact (Text.ne_of_isNameChar isName (by decide) rfl).elim

theorem leadingClass_interpolation {inner : List Char} (absent : '}' ∉ inner) (rest : List Char) :
    leadingClass ('#' :: '{' :: (inner ++ '}' :: rest)) =
      '#' :: '{' :: (inner ++ '}' :: leadingClass rest) := by
  have cut := @Text.cut?_append (fun c => c == '}') inner rest '}'
    (Text.beq_eq_false_of_notMem absent) rfl
  rw [leadingClass]
  split
  · next found =>
      rw [cut] at found
      cases found
      rfl
  · next found =>
      rw [cut] at found
      cases found

/-- The first class of a selector stands in it, after a dot. -/
theorem firstClassFrom_eq_some {depth : Nat} {quote : Option Char} {text name : List Char}
    (found : firstClassFrom depth quote text = some name) :
    isClassName name = true ∧ '.' :: name <:+: text := by
  have later {c : Char} {text : List Char}
      (inside : isClassName name = true ∧ '.' :: name <:+: text) :
      isClassName name = true ∧ '.' :: name <:+: c :: text :=
    ⟨inside.1, List.infix_cons inside.2⟩
  fun_induction firstClassFrom depth quote text with
  | case1 => cases found
  | case2 => cases found
  | case3 _ _ c text ih => exact later (later (ih found))
  | case8 depth c text _ _ _ _ _ here =>
      obtain ⟨rfl, _, isName⟩ := here
      cases found
      have starts : '.' :: leadingClass text <+: '.' :: text :=
        (List.prefix_cons_inj _).mpr (leadingClass_isPrefix text)
      exact ⟨isName, starts.isInfix⟩
  | case4 _ _ _ _ _ _ ih | case5 _ _ _ _ _ _ ih | case6 _ _ _ _ _ _ _ ih
  | case7 _ _ _ _ _ _ _ _ ih | case9 _ _ _ _ _ _ _ _ _ ih => exact later (ih found)

/-- The text is trimmed, and the class is a name that follows a dot in the text. -/
structure Selector.WellFormed (selector : Selector) : Prop where
  nonempty : selector.text.toList ≠ []
  trimmed : Text.Trimmed selector.text.toList
  className : ∀ name ∈ selector.className, name.toList ≠ [] ∧
    (∀ c ∈ name.toList.head?, c.isDigit = false) ∧ '.' :: name.toList <:+: selector.text.toList

theorem Selector.wellFormed_of_mem {text : List Char} {selector : Selector}
    (member : selector ∈ listOfText text) : selector.WellFormed := by
  unfold listOfText at member
  obtain ⟨part, kept, rfl⟩ := List.mem_map.mp member
  obtain ⟨found, nonempty⟩ := List.mem_filter.mp kept
  obtain ⟨untrimmed, _, rfl⟩ := List.mem_map.mp found
  refine ⟨by simpa [ofText] using nonempty, ?_, ?_⟩
  · simpa [ofText] using Text.trimmed_trim untrimmed
  · intro name isClass
    obtain ⟨word, first, rfl⟩ := Option.map_eq_some_iff.mp isClass
    obtain ⟨isName, inside⟩ := firstClassFrom_eq_some first
    cases word with
    | nil => cases isName
    | cons c word => simpa [isClassName, ofText] using And.intro isName inside

/-- The name is an identifier, and a default value is trimmed and not empty. -/
structure Argument.WellFormed (argument : Argument) : Prop where
  name : Text.isName argument.name.toList = true
  value : ∀ value ∈ argument.defaultValue, value.toList ≠ [] ∧ Text.Trimmed value.toList

namespace Argument

theorem ofDeclaration?_eq_some {declaration : List Char} {defaultValue : Option (List Char)}
    {argument : Argument} (read : ofDeclaration? declaration defaultValue = some argument) :
    Text.isName argument.name.toList = true ∧
      argument.defaultValue = defaultValue.map String.ofList := by
  unfold ofDeclaration? at read
  split at read
  · split at read
    · next isName =>
        cases read
        exact ⟨by simpa using isName, rfl⟩
    · cases read
  · cases read

theorem wellFormed_of_ofText? {text : List Char} {argument : Argument}
    (read : ofText? text = some argument) : argument.WellFormed := by
  unfold ofText? at read
  split at read
  · next declaration value _ =>
      obtain ⟨isName, value_eq⟩ := ofDeclaration?_eq_some read
      refine ⟨isName, ?_⟩
      rw [value_eq]
      split
      · simp
      · next nonempty =>
          rintro _ ⟨⟩
          exact ⟨by simpa using nonempty, by simpa using Text.trimmed_trim value⟩
  · obtain ⟨isName, value_eq⟩ := ofDeclaration?_eq_some read
    exact ⟨isName, by simp [value_eq]⟩

end Argument

/-! ## Headers -/

namespace Head

/-- Names are identifiers and texts are trimmed; an at-rule that is read as nothing in particular
is neither a definition nor a nesting one. -/
def WellFormed : Head → Prop
  | rule selectors => ∀ selector ∈ selectors, selector.WellFormed
  | callable _ name arguments =>
      Text.isName name.toList = true ∧
        ∀ list ∈ arguments, ∀ argument ∈ list, argument.WellFormed
  | nesting keyword prelude => keyword ∈ nestingKeywords ∧ Text.Trimmed prelude.toList
  | other text =>
      Text.Trimmed text.toList ∧ ∀ atRule, text.toList = '@' :: atRule →
        String.ofList (atRule.takeWhile Text.isKeywordChar) ∉
          "mixin" :: "function" :: nestingKeywords

theorem wellFormed_argumentList? (text : List Char) :
    ∀ list ∈ argumentList? text, ∀ argument ∈ list, argument.WellFormed := by
  unfold argumentList?
  split
  · rintro list isList argument member
    obtain ⟨inner, _, rfl⟩ := Option.map_eq_some_iff.mp isList
    obtain ⟨part, _, read⟩ := List.mem_filterMap.mp member
    exact Argument.wellFormed_of_ofText? read
  · simp

theorem wellFormed_of_ofSignature {kind : DefinitionKind} {text : List Char} {head : Head}
    (read : ofSignature kind text = .ok head) : head.WellFormed := by
  unfold ofSignature at read
  simp only at read
  split at read
  · cases read
  · next nonempty =>
      cases read
      refine ⟨?_, wellFormed_argumentList? _⟩
      rw [String.toList_ofList, Text.isName, Bool.and_eq_true]
      exact ⟨by simpa using nonempty, List.all_takeWhile⟩

theorem wellFormed_of_ofAtRule {atRule : List Char} {head : Head}
    (trimmed : Text.Trimmed ('@' :: atRule))
    (read : ofAtRule atRule ('@' :: atRule) = .ok head) : head.WellFormed := by
  unfold ofAtRule at read
  simp only at read
  split at read
  · exact wellFormed_of_ofSignature read
  · next noDefinition =>
      split at read
      · next isNesting =>
          cases read
          exact ⟨by simpa using isNesting, by simpa using Text.trimmed_trim _⟩
      · next notNesting =>
          cases read
          refine ⟨by simpa using trimmed, ?_⟩
          intro atRule' same
          rw [String.toList_ofList, List.cons.injEq] at same
          rw [← same.2, List.mem_cons, List.mem_cons, not_or, not_or]
          refine ⟨?_, ?_, by simpa using notNesting⟩
          · intro isMixin
            rw [isMixin] at noDefinition
            cases noDefinition
          · intro isFunction
            rw [isFunction] at noDefinition
            cases noDefinition

theorem wellFormed_of_ofText {text : List Char} {head : Head} (read : ofText text = .ok head) :
    head.WellFormed := by
  have trimmed := Text.trimmed_trim text
  unfold ofText ofTrimmed at read
  split at read
  · cases read
  · next atRule isAtRule =>
      rw [isAtRule] at trimmed read
      exact wellFormed_of_ofAtRule trimmed read
  · next notAtRule =>
      split at read
      · cases read
        refine ⟨by simpa using trimmed, ?_⟩
        intro atRule isAtRule
        rw [String.toList_ofList] at isAtRule
        exact (notAtRule _ isAtRule).elim
      · cases read
        intro selector member
        exact Selector.wellFormed_of_mem member

end Head

/-! ## Nodes without a block -/

theorem Text.prefix_trimEnd {word : List Char}
    (visible : ∀ c ∈ word.getLast?, isBlank c = false) (rest : List Char) :
    word <+: trimEnd (word ++ rest) := by
  obtain ⟨blanks, whole, blank⟩ := exists_trimEnd_append (word ++ rest)
  rcases List.append_eq_append_iff.mp whole with ⟨more, kept, _⟩ | ⟨more, kept, blanks_eq⟩
  · exact ⟨more, kept.symm⟩
  · -- The last character of the word would be one of the blanks.
    cases last : more.getLast? with
    | none =>
        rw [List.getLast?_eq_none_iff.mp last, List.append_nil] at kept
        exact ⟨[], by rw [List.append_nil, ← kept]⟩
    | some c =>
        have isLast : c ∈ word.getLast? := by
          rw [kept, List.getLast?_append, last]
          rfl
        have isBlank := blank c (by
          rw [blanks_eq]
          exact List.mem_append_left _ (List.mem_of_getLast? last))
        rw [visible c isLast] at isBlank
        cases isBlank

namespace Leaf

/-- What a node without a block holds, in view of the slice that it covers.  The end of a block
comment is the first one after its opening; names are identifiers and texts are trimmed. -/
def WellFormed (slice : List Char) : Leaf → Prop
  | blank => slice ≠ [] ∧ ∀ c ∈ slice, Text.isAsciiBlank c = true
  | terminator => slice = [';']
  | comment .block text => text.toList = slice ∧ IsBlockComment slice
  | comment .line text =>
      text.toList = Text.trimEnd slice ∧ ['/', '/'] <+: text.toList ∧ '\n' ∉ text.toList
  | declaration name value => Text.isName name.toList = true ∧ Text.Trimmed value.toList
  | statement text => Text.Trimmed text.toList

theorem wellFormed_of_declaration? {text : List Char} {content : Leaf}
    (read : declaration? text = some content) (slice : List Char) :
    content.WellFormed slice := by
  unfold declaration? at read
  split at read
  · split at read
    · split at read
      · next value _ isName =>
          cases read
          exact ⟨by simpa using isName, by simpa using Text.trimmed_trim value⟩
      · cases read
    · cases read
  · cases read

theorem wellFormed_ofText (text slice : List Char) : (ofText text).WellFormed slice := by
  have unfolded : ofText text =
      (declaration? (Text.trim text)).getD (statement (String.ofList (Text.trim text))) := rfl
  rw [unfolded]
  cases found : declaration? (Text.trim text) with
  | some content => exact wellFormed_of_declaration? found slice
  | none => simpa [WellFormed] using Text.trimmed_trim text

end Leaf

namespace Token

theorem Alone.isBlockComment {text : List Char} (alone : (comment .block text).Alone) :
    IsBlockComment text := by
  unfold Alone at alone
  generalize (comment .block text).raw = whole at alone
  cases alone with
  | blockComment closed => exact isBlockComment_of_closeComment closed

theorem Alone.exists_line {text : List Char} (alone : (comment .line text).Alone) :
    ∃ line, text = ['/', '/'] ++ line ∧ '\n' ∉ text := by
  unfold Alone at alone
  generalize (comment .line text).raw = whole at alone
  cases alone with
  | @lineComment line _ noBreak _ =>
      refine ⟨line, rfl, ?_⟩
      simpa using fun member => noBreak _ member rfl

theorem Alone.wellFormed_leaf {token : Token} {content : Leaf} (alone : token.Alone)
    (stands : token.leaf? = some content) : content.WellFormed token.raw := by
  cases token with
  | blank run =>
      cases stands
      exact alone_blank_iff.mp alone
  | comment form text =>
      cases form with
      | block =>
          cases stands
          exact ⟨String.toList_ofList, alone.isBlockComment⟩
      | line =>
          cases stands
          obtain ⟨line, text_eq, noBreak⟩ := alone.exists_line
          obtain ⟨blanks, whole, _⟩ := Text.exists_trimEnd_append text
          have starts : ['/', '/'] <+: Text.trimEnd text := by
            rw [text_eq]
            apply Text.prefix_trimEnd
            rintro _ ⟨⟩
            decide
          refine ⟨String.toList_ofList, by simpa using starts, ?_⟩
          rw [String.toList_ofList]
          intro member
          rw [whole] at noBreak
          exact noBreak (List.mem_append_left _ member)
  | semicolon =>
      cases stands
      rfl
  | statement pieces =>
      cases stands
      exact Leaf.wellFormed_ofText _ _
  | header pieces => cases stands
  | close => cases stands

end Token

/-! ## Nodes by themselves -/

/-- What a node holds, in view of the text that it was read from. -/
def Node.WellFormed (source : List Char) : Node → Prop
  | leaf content span => content.WellFormed (span.slice source)
  | block head _ _ => head.WellFormed

namespace Derives

theorem slice_eq {mark : List Char} {before middle : List Token} {node : Node}
    (found : Derives (Text.byteSize mark + tokensWidth before) middle [node])
    (after : List Token) :
    node.span.slice (mark ++ rawTokens (before ++ middle ++ after)) = rawTokens middle := by
  have sliced := ByteRange.slice_append (mark ++ rawTokens before) (rawTokens middle)
    (rawTokens after)
  rw [found.span_eq]
  simpa [tokensWidth] using sliced

theorem wellFormed_of_occurs {mark : List Char} {tokens : List Token} {nodes : List Node}
    {node : Node} (derived : Derives (Text.byteSize mark) tokens nodes) (cut : WellCut tokens)
    (occurs : Occurs node nodes) : node.WellFormed (mark ++ rawTokens tokens) := by
  obtain ⟨before, middle, after, rfl, found⟩ := derived.of_occurs occurs
  have slice_eq := found.slice_eq after
  cases node with
  | block head body span =>
      obtain ⟨pieces, inner, _, read, _⟩ := found.block_inv
      exact Head.wellFormed_of_ofText read
  | leaf content span =>
      rw [Node.WellFormed, show span = (Node.leaf content span).span from rfl, slice_eq]
      cases found with
      | @leaf _ token _ _ _ stands later =>
          cases later
          have alone := cut.alone_of_mem token (by simp)
          simpa using alone.wellFormed_leaf stands

end Derives

/-! ## Siblings -/

namespace Token

theorem eq_blank_of_leaf? {token : Token} (stands : token.leaf? = some .blank) :
    ∃ run, token = blank run := by
  cases token with
  | blank run => exact ⟨run, rfl⟩
  | comment form text => cases form <;> cases stands
  | statement pieces =>
      rcases Leaf.ofText_cases (statementText pieces) with ⟨name, value, read⟩ | ⟨text, read⟩
      · rw [leaf?, read] at stands
        cases stands
      · rw [leaf?, read] at stands
        cases stands
  | _ => cases stands

theorem not_fits_blank {run run' rest : List Char} (alone : (blank run').Alone) :
    ¬(blank run).Fits (run' ++ rest) := by
  intro fits
  obtain ⟨nonempty, all⟩ := alone_blank_iff.mp alone
  obtain ⟨c, run', rfl⟩ := List.exists_cons_of_ne_nil nonempty
  have visible := fits c rfl
  rw [all c List.mem_cons_self] at visible
  cases visible

/-- Only blanks that start with a line feed follow a line comment. -/
theorem Alone.exists_blank_of_fits {text rest : List Char} {token : Token} (alone : token.Alone)
    (fits : (comment .line text).Fits (token.raw ++ rest)) :
    ∃ run, token = blank ('\n' :: run) := by
  obtain ⟨c, tail, whole, next⟩ := alone.exists_next
  rw [whole] at fits
  obtain rfl : c = '\n' := fits c rfl
  rw [Token.next, if_pos (by decide), Except.ok.injEq, Prod.mk.injEq] at next
  exact ⟨_, next.1.symm⟩

/-- Only a semicolon or a closing brace follows a statement without a block. -/
theorem Alone.eq_of_fits_statement {pieces : List Piece} {rest : List Char} {token : Token}
    (alone : token.Alone) (fits : (statement pieces).Fits (token.raw ++ rest)) :
    token = semicolon ∨ token = close := by
  obtain ⟨c, tail, whole, next⟩ := alone.exists_next
  rw [whole] at fits
  rcases (fits c rfl).1 with rfl | rfl
  · cases next
    exact .inr rfl
  · cases next
    exact .inl rfl

end Token

namespace Node

/-- What may stand behind a node: `next` is the sibling after it, and `outermost` says whether the
text itself ends after the last sibling. -/
def Precedes (source : List Char) (outermost : Bool) (next : Option Node) : Node → Prop
  | leaf .blank _ => ∀ span, next ≠ some (leaf .blank span)
  | leaf (.comment .line _) _ =>
      (next = none ∧ outermost = true) ∨
        ∃ span, next = some (leaf .blank span) ∧ (span.slice source).head? = some '\n'
  | leaf (.declaration _ _) _ => ∀ node ∈ next, ∃ span, node = leaf .terminator span
  | leaf (.statement _) _ => ∀ node ∈ next, ∃ span, node = leaf .terminator span
  | leaf .terminator _ => True
  | leaf (.comment .block _) _ => True
  | block _ _ _ => True

/-- Every node of a list may stand before the one after it. -/
def Ordered (source : List Char) (outermost : Bool) (siblings : List Node) : Prop :=
  ∀ before node after, siblings = before ++ node :: after →
    node.Precedes source outermost after.head?

end Node

namespace Derives

variable {offset : Nat} {tokens rest : List Token} {nodes : List Node}

theorem head?_cases (derived : Derives offset tokens nodes) :
    (tokens = [] ∧ nodes.head? = none) ∨ ∃ token later, tokens = token :: later ∧
      ((∃ pieces head body span, token = .header pieces ∧
          nodes.head? = some (.block head body span)) ∨
        ∃ content, token.leaf? = some content ∧
          nodes.head? = some (.leaf content ⟨offset, offset + token.width⟩)) := by
  cases derived with
  | nil => exact .inl ⟨rfl, rfl⟩
  | leaf stands _ => exact .inr ⟨_, _, rfl, .inr ⟨_, stands, rfl⟩⟩
  | block _ _ _ _ => exact .inr ⟨_, _, rfl, .inl ⟨_, _, _, _, rfl, rfl⟩⟩

theorem head?_of_fits_blank (derived : Derives offset tokens nodes)
    (cut : WellCut (tokens ++ rest)) {run : List Char}
    (fits : (Token.blank run).Fits (rawTokens (tokens ++ rest))) (span : ByteRange) :
    nodes.head? ≠ some (.leaf .blank span) := by
  intro isBlank
  rcases derived.head?_cases with
    ⟨_, head⟩ | ⟨token, later, rfl, ⟨_, _, _, _, _, head⟩ | ⟨content, stands, head⟩⟩
  · rw [head] at isBlank
    cases isBlank
  · rw [head] at isBlank
    cases isBlank
  · rw [head] at isBlank
    cases isBlank
    obtain ⟨run', rfl⟩ := Token.eq_blank_of_leaf? stands
    exact Token.not_fits_blank cut.1 fits

theorem head?_of_fits_line {outermost : Bool} (derived : Derives offset tokens nodes)
    (cut : WellCut (tokens ++ rest)) {text : List Char}
    (fits : (Token.comment .line text).Fits (rawTokens (tokens ++ rest)))
    (ends : rest = [] ∧ outermost = true ∨ ∃ after, rest = .close :: after) :
    (nodes.head? = none ∧ outermost = true) ∨ ∃ run later,
      tokens = .blank ('\n' :: run) :: later ∧ nodes.head? =
        some (.leaf .blank ⟨offset, offset + (Token.blank ('\n' :: run)).width⟩) := by
  rcases derived.head?_cases with ⟨rfl, head⟩ | ⟨token, later, rfl, next⟩
  · rcases ends with ⟨_, isOutermost⟩ | ⟨after, rfl⟩
    · exact .inl ⟨head, isOutermost⟩
    · cases fits '}' rfl
  · obtain ⟨run, rfl⟩ := cut.1.exists_blank_of_fits fits
    rcases next with ⟨_, _, _, _, impossible, _⟩ | ⟨content, stands, head⟩
    · cases impossible
    · cases stands
      exact .inr ⟨run, later, rfl, head⟩

theorem head?_of_fits_statement (derived : Derives offset tokens nodes)
    (cut : WellCut (tokens ++ rest)) {pieces : List Piece}
    (fits : (Token.statement pieces).Fits (rawTokens (tokens ++ rest))) :
    ∀ node ∈ nodes.head?, ∃ span, node = .leaf .terminator span := by
  intro node isNext
  rcases derived.head?_cases with ⟨_, head⟩ | ⟨token, later, rfl, next⟩
  · rw [head] at isNext
    cases isNext
  · rcases cut.1.eq_of_fits_statement fits with rfl | rfl
    · rcases next with ⟨_, _, _, _, impossible, _⟩ | ⟨content, stands, head⟩
      · cases impossible
      · cases stands
        rw [head] at isNext
        cases isNext
        exact ⟨_, rfl⟩
    · -- A closing brace starts no node.
      rcases next with ⟨_, _, _, _, impossible, _⟩ | ⟨content, stands, _⟩
      · cases impossible
      · cases stands

/-- Derived nodes are in order if the text or their block ends after them. -/
theorem ordered {mark : List Char} {before : List Token} {outermost : Bool}
    (derived : Derives (Text.byteSize mark + tokensWidth before) tokens nodes)
    (cut : WellCut (tokens ++ rest))
    (ends : rest = [] ∧ outermost = true ∨ ∃ after, rest = .close :: after) :
    Node.Ordered (mark ++ rawTokens (before ++ tokens ++ rest)) outermost nodes := by
  rintro earlier node later rfl
  obtain ⟨first, second, rfl, _, derivedNode⟩ := derived.of_append
  cases derivedNode with
  | block => trivial
  | @leaf _ token content tokens _ stands derivedLater =>
      rw [List.append_assoc, WellCut.append_iff] at cut
      obtain ⟨_, fits, cutLater⟩ := cut.2.1
      cases token with
      | semicolon =>
          cases stands
          trivial
      | header pieces => cases stands
      | close => cases stands
      | blank run =>
          cases stands
          exact derivedLater.head?_of_fits_blank cutLater fits
      | statement pieces =>
          cases stands
          have next := derivedLater.head?_of_fits_statement cutLater fits
          rcases Leaf.ofText_cases (statementText pieces) with ⟨name, value, read⟩ | ⟨text, read⟩
          · rw [read]
            exact next
          · rw [read]
            exact next
      | comment form text =>
          cases form with
          | block =>
              cases stands
              trivial
          | line =>
              cases stands
              refine (derivedLater.head?_of_fits_line cutLater fits ends).imp_right ?_
              rintro ⟨run, later, rfl, head⟩
              refine ⟨_, head, ?_⟩
              have found := @single
                (Text.byteSize mark + tokensWidth (before ++ first ++ [.comment .line text]))
                (.blank ('\n' :: run)) .blank rfl
              have sliced := congrArg List.head? (found.slice_eq (later ++ rest))
              simpa [Node.span, Token.raw, Nat.add_assoc] using sliced

theorem ordered_body {mark : List Char} {body : List Node} {head : Head} {span : ByteRange}
    (derived : Derives (Text.byteSize mark) tokens nodes) (cut : WellCut tokens)
    (occurs : Occurs (.block head body span) nodes) :
    Node.Ordered (mark ++ rawTokens tokens) false body := by
  obtain ⟨before, middle, after, rfl, found⟩ := derived.of_occurs occurs
  obtain ⟨pieces, inner, rfl, _, inside, _⟩ := found.block_inv
  have whole : before ++ (.header pieces :: inner ++ [.close]) ++ after =
      before ++ [.header pieces] ++ inner ++ .close :: after := by
    simp
  have place : Text.byteSize mark + tokensWidth before + (Token.header pieces).width =
      Text.byteSize mark + tokensWidth (before ++ [.header pieces]) := by
    simp [Nat.add_assoc]
  rw [place] at inside
  rw [whole] at cut ⊢
  rw [List.append_assoc, WellCut.append_iff] at cut
  exact inside.ordered cut.2.1 (.inr ⟨after, rfl⟩)

end Derives

/--
Every node of an accepted text, at any depth, is well formed: names are identifiers, texts are
trimmed, classes and keywords are what their places say, and comments are what their slices say.
And siblings are in order, both at the top and in the body of every block: no blanks follow blanks,
a line comment is followed by a line feed unless the text ends there, and a declaration or other
statement without a block is followed by a semicolon unless it is the last.
-/
theorem read_wellFormed {source : String} {nodes : List Node}
    (accepted : Stylesheet.read source = .ok nodes) :
    (∀ node, Occurs node nodes → node.WellFormed source.toList) ∧
      Node.Ordered source.toList true nodes ∧
      ∀ head body span, Occurs (.block head body span) nodes →
        Node.Ordered source.toList false body := by
  obtain ⟨mark, tokens, whole, _, _, cut, derived, _⟩ := Stylesheet.exists_tokens_of_read accepted
  rw [whole]
  refine ⟨?_, ?_, ?_⟩
  · intro node occurs
    exact derived.wellFormed_of_occurs cut occurs
  · have derived' : Derives (Text.byteSize mark + tokensWidth []) tokens nodes := by
      simpa using derived
    have cut' : WellCut (tokens ++ []) := by simpa using cut
    simpa using derived'.ordered cut' (.inl ⟨rfl, rfl⟩)
  · intro head body span occurs
    exact derived.ordered_body cut occurs

/-- A definition with a line comment, a declaration and a rule in its body: the class of the rule
is not the digit after the first dot, and the default value is trimmed. -/
theorem read_wellFormed_definition :
    ∃ nodes, Stylesheet.read
        "@mixin é( $a : \"x,y\" )\x7b//c \n$v : 1 ;a.2 .-c\x7b\x7d\x7d//" = .ok nodes ∧
      (∀ node, Occurs node nodes → node.WellFormed
        "@mixin é( $a : \"x,y\" )\x7b//c \n$v : 1 ;a.2 .-c\x7b\x7d\x7d//".toList) ∧
      Node.Ordered "@mixin é( $a : \"x,y\" )\x7b//c \n$v : 1 ;a.2 .-c\x7b\x7d\x7d//".toList
        true nodes := by
  have accepted : Stylesheet.read
      "@mixin é( $a : \"x,y\" )\x7b//c \n$v : 1 ;a.2 .-c\x7b\x7d\x7d//" = .ok
      [.block (.callable .mixin "é" (some [⟨"a", some "\"x,y\"", false⟩]))
        [.leaf (.comment .line "//c") ⟨24, 28⟩, .leaf .blank ⟨28, 29⟩,
          .leaf (.declaration "v" "1") ⟨29, 36⟩, .leaf .terminator ⟨36, 37⟩,
          .block (.rule [⟨"a.2 .-c", some "-c"⟩]) [] ⟨37, 46⟩] ⟨0, 47⟩,
        .leaf (.comment .line "//") ⟨47, 49⟩] :=
    Stylesheet.read_eq_ok_of_toOption (by decide +kernel)
  obtain ⟨wellFormed, ordered, _⟩ := read_wellFormed accepted
  exact ⟨_, accepted, wellFormed, ordered⟩

end StyleDoc
