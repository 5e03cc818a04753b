import StyleDoc.Proofs.TopLevelCommas
import StyleDoc.Proofs.WellFormed

/-!
# Nodes and the texts of their headers

The header of a node is its slice up to the opening brace of its body, or all of its slice if it has
no body.  A header without comments is the text that the node was read from, so that the names and
texts of the node are found in it: all of it, what stands around a colon, the longest word at a
place, or the parts between commas.
-/

namespace StyleDoc

/-! ## Longest prefixes -/

/-- The longest of the words that a text starts with and that satisfy `P`. -/
structure IsLongestPrefix (P : List Char → Prop) (word text : List Char) : Prop where
  satisfies : P word
  starts : word <+: text
  longest : ∀ other, P other → other <+: text → other <+: word

theorem isLongestPrefix_takeWhile (p : Char → Bool) (text : List Char) :
    IsLongestPrefix (fun word => ∀ c ∈ word, p c = true) (text.takeWhile p) text := by
  refine ⟨List.all_eq_true.mp List.all_takeWhile, List.takeWhile_prefix _, ?_⟩
  rintro other all ⟨rest, rfl⟩
  rw [List.takeWhile_append_of_pos all]
  exact List.prefix_append _ _

/-! ## Statements without a block -/

theorem Text.mem_trim {text : List Char} {c : Char} (visible : isBlank c = false)
    (member : c ∈ text) : c ∈ trim text := by
  obtain ⟨before, after, whole, blankBefore, blankAfter⟩ := exists_append_trim_append text
  rw [whole, List.mem_append, List.mem_append] at member
  rcases member with (found | found) | found
  · rw [blankBefore c found] at visible
    cases visible
  · exact found
  · rw [blankAfter c found] at visible
    cases visible

namespace Leaf

/-- What a declaration or other statement without a block says, in view of its trimmed text. -/
def Says (text : List Char) : Leaf → Prop
  | declaration name value => ∃ a b, text = '$' :: (a ++ ':' :: b) ∧ ':' ∉ a ∧
      name.toList = Text.trim a ∧ value.toList = Text.trim b
  | statement said => said.toList = text ∧
      ∀ a b, text = '$' :: (a ++ ':' :: b) → Text.isName (Text.trim a) = false
  | _ => True

theorem says_of_declaration? {text : List Char} {content : Leaf}
    (read : declaration? text = some content) : content.Says text := by
  unfold declaration? at read
  split at read
  · split at read
    · next name value cut =>
        split at read
        · cases read
          obtain ⟨c, isColon, whole⟩ := Text.cut?_eq_some cut
          rw [beq_iff_eq] at isColon
          subst isColon
          refine ⟨name, value, by rw [whole], ?_, by simp, by simp⟩
          intro member
          cases Text.absent_of_cut? cut ':' member
        · cases read
    · cases read
  · cases read

/-- A text that declares nothing has no name between a dollar sign and a colon.  If it has several
colons, only the name in front of the first one could be an identifier. -/
theorem isName_of_declaration?_eq_none {a b : List Char}
    (read : declaration? ('$' :: (a ++ ':' :: b)) = none) : Text.isName (Text.trim a) = false := by
  by_cases colon : ':' ∈ a
  · cases isName : Text.isName (Text.trim a) with
    | false => rfl
    | true =>
        have inName := Text.isNameChar_of_isName isName ':' (Text.mem_trim (by decide) colon)
        revert inName
        decide +kernel
  · have cut : Text.cut? (fun c => c == ':') (a ++ ':' :: b) = some (a, b) := by
      exact Text.cut?_append (Text.beq_eq_false_of_notMem colon) rfl
    simp only [declaration?, cut] at read
    split at read
    · cases read
    · next other => simpa using other

theorem says_ofText (text : List Char) : (ofText text).Says (Text.trim text) := by
  have unfolded : ofText text =
      (declaration? (Text.trim text)).getD (statement (String.ofList (Text.trim text))) := rfl
  rw [unfolded]
  cases found : declaration? (Text.trim text) with
  | some content => exact says_of_declaration? found
  | none =>
      refine ⟨String.toList_ofList, ?_⟩
      intro a b split
      rw [split] at found
      exact isName_of_declaration?_eq_none found

end Leaf

/-! ## Headers of blocks -/

namespace Head

/-- What the head of a block says, in view of its trimmed text. -/
def Says (text : List Char) : Head → Prop
  | rule selectors => ∃ parts, IsCutAtCommas text parts ∧
      selectors.map (fun selector => selector.text.toList) =
        (parts.map Text.trim).filter fun part => part ≠ []
  | callable kind name _ => ∃ rest, text = '@' :: (kind.keyword.toList ++ rest) ∧
      IsLongestPrefix (fun word => Text.isName word = true) name.toList (Text.trim rest)
  | nesting keyword prelude => ∃ rest, text = '@' :: (keyword.toList ++ rest) ∧
      IsLongestPrefix (fun word => ∀ c ∈ word, c.isAlphanum ∨ c = '-' ∨ c = '_') keyword.toList
        (keyword.toList ++ rest) ∧
      prelude.toList = Text.trim rest
  | other said => said.toList = text

theorem says_of_listOfText (text : List Char) : (rule (Selector.listOfText text)).Says text := by
  refine ⟨commaParts text, isCutAtCommas_commaParts text, ?_⟩
  have kept (part : List Char) : (!part.isEmpty) = decide (part ≠ []) := by
    cases part <;> simp
  have same (parts : List (List Char)) :
      (parts.map Selector.ofText).map (fun selector => selector.text.toList) = parts := by
    rw [List.map_map]
    exact (List.map_congr_left fun part _ => String.toList_ofList).trans (List.map_id parts)
  rw [Selector.listOfText, same]
  exact List.filter_congr fun part _ => kept part

theorem says_of_ofSignature {kind : DefinitionKind} {rest : List Char} {head : Head}
    (read : ofSignature kind rest = .ok head) :
    head.Says ('@' :: (kind.keyword.toList ++ rest)) := by
  unfold ofSignature at read
  simp only at read
  split at read
  · cases read
  · next nonempty =>
      cases read
      have run := isLongestPrefix_takeWhile Text.isNameChar (Text.trim rest)
      refine ⟨rest, rfl, ?_⟩
      rw [String.toList_ofList]
      refine ⟨?_, run.starts, ?_⟩
      · rw [Text.isName, Bool.and_eq_true]
        exact ⟨by simpa using nonempty, List.all_takeWhile⟩
      · intro other isName starts
        exact run.longest other (Text.isNameChar_of_isName isName) starts

theorem says_of_ofAtRule {atRule : List Char} {head : Head}
    (read : ofAtRule atRule ('@' :: atRule) = .ok head) : head.Says ('@' :: atRule) := by
  have whole : atRule.takeWhile Text.isKeywordChar ++ atRule.dropWhile Text.isKeywordChar =
      atRule := List.takeWhile_append_dropWhile
  unfold ofAtRule at read
  simp only at read
  split at read
  · next kind isKind =>
      have keyword : kind.keyword.toList = atRule.takeWhile Text.isKeywordChar := by
        rw [DefinitionKind.keyword_of_ofKeyword? isKind, String.toList_ofList]
      rw [← whole, ← keyword]
      exact says_of_ofSignature read
  · split at read
    · cases read
      refine ⟨atRule.dropWhile Text.isKeywordChar, ?_, ?_, String.toList_ofList⟩
      · rw [String.toList_ofList, whole]
      · rw [String.toList_ofList, whole]
        simpa [Text.isKeywordChar, or_assoc] using
          isLongestPrefix_takeWhile Text.isKeywordChar atRule
    · cases read
      exact String.toList_ofList

theorem says_of_ofText {text : List Char} {head : Head} (read : ofText text = .ok head) :
    head.Says (Text.trim text) := by
  unfold ofText ofTrimmed at read
  split at read
  · cases read
  · next atRule isAtRule =>
      rw [isAtRule] at read ⊢
      exact says_of_ofAtRule read
  · split at read
    · cases read
      exact String.toList_ofList
    · cases read
      exact says_of_listOfText _

end Head

/-! ## Headers without comments -/

/-- Pieces whose source has no comment in it say what their source says. -/
theorem Written.statementText_eq {pieces : List Piece} {rest : List Char}
    (written : Written rest pieces) (noLine : ¬['/', '/'] <:+: rawText pieces)
    (noBlock : ¬['/', '*'] <:+: rawText pieces) : statementText pieces = rawText pieces := by
  induction written with
  | nil => rfl
  | char _ ih | quoted _ _ _ ih =>
      rw [statementText_cons, rawText_cons, ih]
      · rfl
      · exact fun inside => noLine (inside.trans (List.suffix_append _ _).isInfix)
      · exact fun inside => noBlock (inside.trans (List.suffix_append _ _).isInfix)
  | @blockRemark _ pieces isComment _ _ =>
      obtain ⟨inner, rfl, _⟩ := isComment
      exact (noBlock ⟨[], inner ++ ['*', '/'] ++ rawText pieces, by simp [Piece.raw]⟩).elim
  | @lineRemark line pieces _ _ _ _ =>
      exact (noLine ⟨[], line ++ rawText pieces, by simp [Piece.raw]⟩).elim

namespace Node

def header (source : List Char) : Node → List Char
  | leaf _ span => span.slice source
  | block _ body span => ByteRange.slice source ⟨span.start, braceOffset body span⟩

def Says (text : List Char) : Node → Prop
  | leaf content _ => content.Says text
  | block head _ _ => head.Says text

end Node

namespace Derives

theorem header_eq {mark : List Char} {before inner : List Token} {pieces : List Piece}
    {head : Head} {body : List Node} (after : List Token)
    (inside : Derives (Text.byteSize mark + tokensWidth before + (Token.header pieces).width)
      inner body) :
    Node.header (mark ++ rawTokens (before ++ (.header pieces :: inner ++ [.close]) ++ after))
      (.block head body ⟨Text.byteSize mark + tokensWidth before, Text.byteSize mark +
        tokensWidth before + (Token.header pieces).width + tokensWidth inner + 1⟩) =
      rawText pieces := by
  have sliced := ByteRange.slice_append (mark ++ rawTokens before) (rawText pieces)
    ('{' :: (rawTokens inner ++ '}' :: rawTokens after))
  rw [Node.header, inside.braceOffset_eq]
  simpa [tokensWidth, Token.raw] using sliced

theorem says_of_occurs {mark : List Char} {tokens : List Token} {nodes : List Node}
    {node : Node} (derived : Derives (Text.byteSize mark) tokens nodes) (cut : WellCut tokens)
    (occurs : Occurs node nodes)
    (noLine : ¬['/', '/'] <:+: node.header (mark ++ rawTokens tokens))
    (noBlock : ¬['/', '*'] <:+: node.header (mark ++ rawTokens tokens)) :
    node.Says (Text.trim (node.header (mark ++ rawTokens tokens))) := by
  obtain ⟨before, middle, after, rfl, found⟩ := derived.of_occurs occurs
  cases node with
  | block head body span =>
      obtain ⟨pieces, inner, rfl, read, inside, rfl⟩ := found.block_inv
      have alone := cut.alone_of_mem (.header pieces) (by simp)
      have written := (Token.alone_header_iff.mp alone).2.written
      rw [inside.header_eq after] at noLine noBlock ⊢
      rw [← written.statementText_eq noLine noBlock]
      exact Head.says_of_ofText read
  | leaf content span =>
      have slice_eq : span.slice (mark ++ rawTokens (before ++ middle ++ after)) =
          rawTokens middle := found.slice_eq after
      rw [Node.header, slice_eq] at noLine noBlock ⊢
      cases found with
      | @leaf _ token _ _ _ stands later =>
          cases later
          rw [rawTokens_cons, rawTokens_nil, List.append_nil] at noLine noBlock ⊢
          cases token with
          | statement pieces =>
              cases stands
              have alone := cut.alone_of_mem (.statement pieces) (by simp)
              have written := (Token.alone_statement_iff.mp alone).2.2.written
              have same := written.statementText_eq noLine noBlock
              rw [Token.raw, ← same]
              exact Leaf.says_ofText _
          | comment form text =>
              cases stands
              cases form <;> trivial
          | blank text =>
              cases stands
              trivial
          | semicolon =>
              cases stands
              trivial
          | header pieces => cases stands
          | close => cases stands

end Derives

/-! ## The statement -/

/-- The names and texts of every node of an accepted text, at any depth, are what stands in its
header, if there are no comments in it.  The header of a block stops at the opening brace of its
body. -/
theorem read_says_headers {source : String} {nodes : List Node}
    (accepted : Stylesheet.read source = .ok nodes) :
    (∀ head body span, Occurs (.block head body span) nodes →
      Node.Braced source.toList span body (Node.braceOffset body span)) ∧
    ∀ node, Occurs node nodes → ¬['/', '/'] <:+: node.header source.toList →
      ¬['/', '*'] <:+: node.header source.toList →
        node.Says (Text.trim (node.header source.toList)) := by
  obtain ⟨mark, tokens, whole, _, _, cut, derived, _⟩ := Stylesheet.exists_tokens_of_read accepted
  rw [whole]
  constructor
  · intro head body span occurs
    have nonempty : ∀ token ∈ tokens, token.raw ≠ [] :=
      fun token member => (cut.alone_of_mem token member).raw_ne_nil
    obtain ⟨brace, braced⟩ := derived.braced_of_occurs nonempty rfl occurs
    rwa [braced.eq_braceOffset] at braced
  · intro node occurs noLine noBlock
    exact derived.says_of_occurs cut occurs noLine noBlock

/-- In the body of an at-rule, a declaration with two colons and a rule with a comma in a string
literal. -/
theorem read_says_headers_nested :
    ∃ nodes, Stylesheet.read "@media x\x7b$ v : a:b;p\",\",q\x7b\x7d\x7d" = .ok nodes ∧
      Occurs (.leaf (.declaration "v" "a:b") ⟨9, 18⟩) nodes ∧
      Occurs (.block (.rule [⟨"p\",\"", none⟩, ⟨"q", none⟩]) [] ⟨19, 27⟩) nodes ∧
      Node.Says "$ v : a:b".toList (.leaf (.declaration "v" "a:b") ⟨9, 18⟩) ∧
      Node.Says "p\",\",q".toList
        (.block (.rule [⟨"p\",\"", none⟩, ⟨"q", none⟩]) [] ⟨19, 27⟩) := by
  obtain ⟨nodes, accepted, first, last⟩ : ∃ nodes,
      Stylesheet.read "@media x\x7b$ v : a:b;p\",\",q\x7b\x7d\x7d" = .ok nodes ∧
        Occurs (.leaf (.declaration "v" "a:b") ⟨9, 18⟩) nodes ∧
        Occurs (.block (.rule [⟨"p\",\"", none⟩, ⟨"q", none⟩]) [] ⟨19, 27⟩) nodes :=
    ⟨[.block (.nesting "media" "x")
        [.leaf (.declaration "v" "a:b") ⟨9, 18⟩, .leaf .terminator ⟨18, 19⟩,
          .block (.rule [⟨"p\",\"", none⟩, ⟨"q", none⟩]) [] ⟨19, 27⟩] ⟨0, 28⟩],
      Stylesheet.read_eq_ok_of_toOption (by decide +kernel),
      .deeper List.mem_cons_self (.here (by simp)), .deeper List.mem_cons_self (.here (by simp))⟩
  have told := (read_says_headers accepted).2
  refine ⟨nodes, accepted, first, last, ?_, ?_⟩
  · exact told _ first (by decide +kernel) (by decide +kernel)
  · exact told _ last (by decide +kernel) (by decide +kernel)

end StyleDoc
