import StyleDoc.Proofs.Grammar
import StyleDoc.Proofs.Headers

/-!
# Printing and reading back

An outline is a forest of statements without spans.  It is printed with any blanks before its items
and closing braces, and reading the printed text gives the outline back.
-/

namespace StyleDoc

inductive Outline
  | leaf (content : Leaf)
  | block (head : Head) (body : List Outline)

namespace Outline

mutual

/-- What a node says; a run of blanks says nothing. -/
def ofNode : Node → List Outline
  | .leaf .blank _ => []
  | .leaf content _ => [leaf content]
  | .block head body _ => [block head (ofNodes body)]

def ofNodes : List Node → List Outline
  | [] => []
  | node :: nodes => ofNode node ++ ofNodes nodes

end

mutual

/-- The text of an item, with `layout` before each closing brace and before each item of a block.
Only a comment or a block ends without a semicolon. -/
def print (layout : Nat → List Char) (depth : Nat) : Outline → List Char
  | leaf (.comment form text) => Leaf.print (.comment form text)
  | leaf content => content.print ++ [';']
  | block head body =>
      head.print ++ ' ' :: '{' :: (printList layout (depth + 1) body ++ (layout depth ++ ['}']))

/-- The text of a list of items, with `layout` before each of them. -/
def printList (layout : Nat → List Char) (depth : Nat) : List Outline → List Char
  | [] => []
  | item :: items => layout depth ++ print layout depth item ++ printList layout depth items

end

mutual

/-- What is read back for an item: the item, and the semicolon printed after it. -/
def terminated : Outline → List Outline
  | leaf (.comment form text) => [leaf (.comment form text)]
  | leaf content => [leaf content, leaf .terminator]
  | block head body => [block head (terminatedList body)]

def terminatedList : List Outline → List Outline
  | [] => []
  | item :: items => terminated item ++ terminatedList items

end

mutual

def Printable : Outline → Prop
  | leaf content => content.Printable
  | block head body => head.Printable ∧ PrintableList body

def PrintableList : List Outline → Prop
  | [] => True
  | item :: items => Printable item ∧ PrintableList items

end

mutual

def height : Outline → Nat
  | leaf _ => 0
  | block _ body => heightOfList body + 1

def heightOfList : List Outline → Nat
  | [] => 0
  | item :: items => max (height item) (heightOfList items)

end

theorem ofNode_leaf {content : Leaf} {span : ByteRange} (visible : content ≠ .blank) :
    ofNode (.leaf content span) = [leaf content] := by
  cases content <;> first | rfl | exact (visible rfl).elim

theorem ofNodes_append (a b : List Node) : ofNodes (a ++ b) = ofNodes a ++ ofNodes b := by
  induction a with
  | nil => rfl
  | cons node a ih => rw [List.cons_append, ofNodes, ofNodes, ih, List.append_assoc]

end Outline

theorem Node.heightOfList_append (a b : List Node) :
    Node.heightOfList (a ++ b) = max (Node.heightOfList a) (Node.heightOfList b) := by
  induction a with
  | nil => simp [Node.heightOfList]
  | cons node a ih => rw [List.cons_append, heightOfList, heightOfList, ih, Nat.max_assoc]

/-! ## Cutting printed text -/

/-- A text is cut into the given tokens, whatever follows it. -/
def Cuts (text : List Char) (tokens : List Token) : Prop :=
  ∀ rest, TokenStream.ofText (text ++ rest) =
    ⟨tokens ++ (TokenStream.ofText rest).tokens, (TokenStream.ofText rest).fault⟩

def spacing (blanks : List Char) : List Token :=
  if blanks = [] then [] else [.blank blanks]

theorem closeCommentAux_body {body : List Char} (noEnd : ¬['*', '/'] <:+: body)
    (read rest : List Char) :
    closeCommentAux read (body ++ '*' :: '/' :: rest) =
      some (read.reverse ++ body ++ ['*', '/'], rest) := by
  induction body generalizing read with
  | nil => simp [closeCommentAux]
  | cons c body ih =>
      have later : ¬['*', '/'] <:+: body := fun h => noEnd (h.trans (List.infix_cons_iff.mpr
        (.inr (List.infix_refl _))))
      have stepped : closeCommentAux read (c :: (body ++ '*' :: '/' :: rest)) =
          closeCommentAux (c :: read) (body ++ '*' :: '/' :: rest) := by
        rw [closeCommentAux]
        rintro text rfl starts
        cases body with
        | nil => simp at starts
        | cons d body =>
            simp only [List.cons_append, List.cons.injEq] at starts
            obtain ⟨rfl, _⟩ := starts
            exact noEnd ⟨[], body, rfl⟩
      rw [List.cons_append, stepped, ih later]
      simp

namespace Cuts

open Reading (Follows)

theorem nil : Cuts [] [] := fun _ => rfl

theorem append {a b : List Char} {first second : List Token} (cutsFirst : Cuts a first)
    (cutsSecond : Cuts b second) : Cuts (a ++ b) (first ++ second) := by
  intro rest
  rw [List.append_assoc, cutsFirst, cutsSecond, List.append_assoc]

theorem single {c : Char} {text : List Char} {token : Token}
    (next : ∀ rest, Token.next c (text ++ rest) = .ok (token, rest)) :
    Cuts (c :: text) [token] := by
  intro rest
  rw [List.cons_append, TokenStream.ofText_of_next (next rest)]
  rfl

theorem semicolon : Cuts [';'] [.semicolon] := single fun _ => rfl

theorem close : Cuts ['}'] [.close] := single fun _ => rfl

/-- A run of blanks is one token, if there are any and no blank follows. -/
theorem blanks {blanks text : List Char} {tokens : List Token}
    (blank : ∀ c ∈ blanks, Text.isAsciiBlank c = true)
    (first : ∃ c, text.head? = some c ∧ Text.isAsciiBlank c = false) (cuts : Cuts text tokens) :
    Cuts (blanks ++ text) (spacing blanks ++ tokens) := by
  obtain ⟨d, head, visible⟩ := first
  obtain ⟨text, rfl⟩ := List.head?_eq_some_iff.mp head
  cases blanks with
  | nil => exact cuts
  | cons c blanks =>
      intro rest
      have blankLater : ∀ e ∈ blanks, Text.isAsciiBlank e = true :=
        fun e member => blank e (List.mem_cons_of_mem _ member)
      have stops : ∀ e ∈ (d :: text ++ rest).head?, Text.isAsciiBlank e = false := by
        simpa using visible
      have next : Token.next c (blanks ++ (d :: text ++ rest)) =
          .ok (.blank (c :: blanks), d :: text ++ rest) := by
        rw [Token.next, if_pos (blank c List.mem_cons_self),
          Text.takeWhile_append_of_head? blankLater stops,
          Text.dropWhile_append_of_head? blankLater stops]
      rw [List.append_assoc, List.cons_append, TokenStream.ofText_of_next next, cuts rest]
      rfl

theorem comment {body : List Char} (noEnd : ¬['*', '/'] <:+: body) :
    Cuts ('/' :: '*' :: (body ++ ['*', '/']))
      [.comment .block ('/' :: '*' :: (body ++ ['*', '/']))] := by
  apply single
  intro rest
  have closed := closeCommentAux_body noEnd [] rest
  simp only [List.cons_append, List.append_assoc, List.nil_append, List.reverse_nil] at closed ⊢
  simp [Token.next, Text.isAsciiBlank, closeComment, closed]

/-- The first character of a balanced text starts a statement. -/
theorem next_balanced {c : Char} {text rest : List Char} (balanced : Balanced isPlain (c :: text))
    (visible : Text.isAsciiBlank c = false) (after : Follows rest) :
    Token.next c (text ++ rest) = Token.nextStatement (c :: text ++ rest) := by
  have notSemicolon : c ≠ ';' := by
    rintro rfl
    exact balanced.head?_ne rfl (by decide) rfl
  have notBrace : c ≠ '}' := by
    rintro rfl
    exact balanced.head?_ne rfl (by decide) rfl
  have noComment : c = '/' → (text ++ rest).head? ≠ some '/' ∧ (text ++ rest).head? ≠ some '*' := by
    rintro rfl
    cases balanced with
    | char isAllowed noComment later =>
        cases text with
        | nil => exact ⟨after.1, after.2.1⟩
        | cons d text => exact noComment rfl
    | literal isQuote => cases isQuote
    | group pair => rcases pair with ⟨h, _⟩ | ⟨h, _⟩ <;> cases h
  rw [Token.next, if_neg (by simp [visible]), if_neg fun h => (noComment h.1).2 h.2,
    if_neg fun h => (noComment h.1).1 h.2, if_neg notSemicolon, if_neg notBrace]
  rfl

theorem statement {text : List Char} (balanced : Balanced isPlain text)
    (first : ∃ c, text.head? = some c ∧ Text.isAsciiBlank c = false) :
    ∃ pieces, statementText pieces = text ∧
      Cuts (text ++ [';']) [.statement pieces, .semicolon] := by
  obtain ⟨pieces, _, said, goesOn⟩ := Reading.run_balanced balanced isEnclosed_of_isPlain
  obtain ⟨c, head, visible⟩ := first
  obtain ⟨text, rfl⟩ := List.head?_eq_some_iff.mp head
  refine ⟨pieces, said, ?_⟩
  intro rest
  have after : Follows (';' :: rest) := by simp [Follows]
  have stopped : (Reading.start.pushAll pieces).run (';' :: rest) = .ok (pieces, ';' :: rest) := by
    rw [Reading.run_of_stop (.inr (.inr rfl)) rfl]
    simp [Reading.pushAll, Reading.start]
  have next : Token.next c (text ++ ';' :: rest) = .ok (.statement pieces, ';' :: rest) := by
    rw [next_balanced balanced visible after, Token.nextStatement, statementPieces,
      goesOn .start _ (fun _ => rfl) after, stopped]
    rfl
  have cut := semicolon rest
  rw [List.singleton_append] at cut
  rw [List.append_assoc, List.singleton_append, List.cons_append, TokenStream.ofText_of_next next,
    cut]
  rfl

theorem header {text : List Char} (balanced : Balanced isPlain text)
    (first : ∃ c, text.head? = some c ∧ Text.isAsciiBlank c = false) :
    ∃ pieces, statementText pieces = text ++ [' '] ∧
      Cuts (text ++ [' ', '{']) [.header pieces] := by
  obtain ⟨pieces, _, said, goesOn⟩ := Reading.run_balanced balanced isEnclosed_of_isPlain
  obtain ⟨c, head, visible⟩ := first
  obtain ⟨text, rfl⟩ := List.head?_eq_some_iff.mp head
  refine ⟨pieces ++ [.char ' '], by simp [said, Piece.text], ?_⟩
  rw [List.cons_append]
  apply single
  intro rest
  have after : Follows (' ' :: '{' :: rest) := by simp [Follows]
  have space : (Reading.start.pushAll pieces).step ' ' ('{' :: rest) =
      .read (Reading.start.pushAll (pieces ++ [.char ' '])) ('{' :: rest) := by
    rw [Reading.pushAll_append, Reading.pushAll_cons, Reading.pushAll_nil]
    simp [Reading.step, Text.isQuote]
  have stopped : (Reading.start.pushAll (pieces ++ [.char ' '])).run ('{' :: rest) =
      .ok (pieces ++ [.char ' '], '{' :: rest) := by
    rw [Reading.run_of_stop (.inl rfl) rfl]
    simp [Reading.pushAll, Reading.start]
  rw [List.append_assoc, List.cons_append, List.singleton_append,
    next_balanced balanced visible after, Token.nextStatement, statementPieces,
    goesOn .start _ (fun _ => rfl) after, Reading.run_of_step space, stopped]
  rfl

end Cuts

/-! ## Printed text is read back -/

/-- A text is cut into tokens that derive nodes of the given outline and height, wherever the text
stands. -/
def ReadsAs (text : List Char) (items : List Outline) (height : Nat) : Prop :=
  ∃ tokens, Cuts text tokens ∧ ∀ offset, ∃ nodes, Derives offset tokens nodes ∧
    Outline.ofNodes nodes = items ∧ Node.heightOfList nodes = height

namespace ReadsAs

theorem nil : ReadsAs [] [] 0 := ⟨[], .nil, fun _ => ⟨[], .nil, rfl, rfl⟩⟩

theorem append {a b : List Char} {first second : List Outline} {m n : Nat}
    (readsFirst : ReadsAs a first m) (readsSecond : ReadsAs b second n) :
    ReadsAs (a ++ b) (first ++ second) (max m n) := by
  obtain ⟨tokens, cuts, derives⟩ := readsFirst
  obtain ⟨more, cutsMore, derivesMore⟩ := readsSecond
  refine ⟨tokens ++ more, cuts.append cutsMore, ?_⟩
  intro offset
  obtain ⟨nodes, derived, said, tall⟩ := derives offset
  obtain ⟨moreNodes, derivedMore, saidMore, tallMore⟩ := derivesMore (offset + tokensWidth tokens)
  refine ⟨nodes ++ moreNodes, derived.append derivedMore, ?_, ?_⟩
  · rw [Outline.ofNodes_append, said, saidMore]
  · rw [Node.heightOfList_append, tall, tallMore]

/-- Blanks are read as one node at most, which says nothing. -/
theorem derives_spacing (blanks : List Char) (offset : Nat) :
    ∃ nodes, Derives offset (spacing blanks) nodes ∧ Outline.ofNodes nodes = [] ∧
      Node.heightOfList nodes = 0 := by
  by_cases none : blanks = []
  · exact ⟨[], by simpa [spacing, none] using .nil, rfl, rfl⟩
  · have one : spacing blanks = [.blank blanks] := by simp [spacing, none]
    rw [one]
    exact ⟨_, .single rfl, rfl, rfl⟩

theorem blanks {blanks text : List Char} {items : List Outline} {height : Nat}
    (blank : ∀ c ∈ blanks, Text.isAsciiBlank c = true)
    (first : ∃ c, text.head? = some c ∧ Text.isAsciiBlank c = false)
    (reads : ReadsAs text items height) : ReadsAs (blanks ++ text) items height := by
  obtain ⟨tokens, cuts, derives⟩ := reads
  refine ⟨spacing blanks ++ tokens, cuts.blanks blank first, ?_⟩
  intro offset
  obtain ⟨nodes, derived, said, tall⟩ := derives_spacing blanks offset
  obtain ⟨more, derivedMore, saidMore, tallMore⟩ :=
    derives (offset + tokensWidth (spacing blanks))
  refine ⟨nodes ++ more, derived.append derivedMore, ?_, ?_⟩
  · rw [Outline.ofNodes_append, said, saidMore, List.nil_append]
  · rw [Node.heightOfList_append, tall, tallMore, Nat.zero_max]

theorem comment {form : CommentForm} {text : String}
    (printable : (Leaf.comment form text).Printable) :
    ReadsAs text.toList [.leaf (.comment form text)] 0 := by
  cases form with
  | line => exact printable.elim
  | block =>
      obtain ⟨body, whole, noEnd⟩ := printable
      have cuts := Cuts.comment noEnd
      rw [← whole] at cuts
      refine ⟨_, cuts, ?_⟩
      intro offset
      have stands : (Token.comment .block text.toList).leaf? = some (.comment .block text) := by
        simp [Token.leaf?, Leaf.ofComment]
      exact ⟨_, .single stands, rfl, rfl⟩

theorem statement {text : List Char} {content : Leaf} (balanced : Balanced isPlain text)
    (first : ∃ c, text.head? = some c ∧ Text.isAsciiBlank c = false)
    (read : Leaf.ofText text = content) (visible : content ≠ .blank) :
    ReadsAs (text ++ [';']) [.leaf content, .leaf .terminator] 0 := by
  obtain ⟨pieces, said, cuts⟩ := Cuts.statement balanced first
  refine ⟨_, cuts, ?_⟩
  intro offset
  have stands : (Token.statement pieces).leaf? = some content := by
    rw [Token.leaf?, said, read]
  refine ⟨_, .leaf stands (.single rfl), ?_, rfl⟩
  rw [Outline.ofNodes, Outline.ofNode_leaf visible]
  rfl

theorem block {head : Head} {body blanks : List Char} {items : List Outline} {height : Nat}
    (printable : head.Printable) (blank : ∀ c ∈ blanks, Text.isAsciiBlank c = true)
    (inside : ReadsAs body items height) :
    ReadsAs (head.print ++ ' ' :: '{' :: (body ++ (blanks ++ ['}']))) [.block head items]
      (height + 1) := by
  have first : ∃ c, head.print.head? = some c ∧ Text.isAsciiBlank c = false := by
    obtain ⟨c, found, visible⟩ := Head.head?_print printable
    exact ⟨c, found, Text.isAsciiBlank_of_isBlank visible⟩
  obtain ⟨pieces, said, cutsHeader⟩ := Cuts.header (Head.balanced_print printable) first
  obtain ⟨tokens, cuts, derives⟩ := inside
  have cutsEnd := Cuts.close.blanks blank ⟨'}', rfl, rfl⟩
  have cutsAll := (cutsHeader.append cuts).append cutsEnd
  refine ⟨.header pieces :: (tokens ++ spacing blanks) ++ [.close], by simpa using cutsAll, ?_⟩
  intro offset
  obtain ⟨nodes, derived, saidInside, tall⟩ := derives (offset + (Token.header pieces).width)
  obtain ⟨spaces, derivedSpaces, saidSpaces, tallSpaces⟩ := derives_spacing blanks
    (offset + (Token.header pieces).width + tokensWidth tokens)
  have read : Head.ofText (statementText pieces) = .ok head := by
    rw [said, Head.ofText_print printable]
  refine ⟨_, .singleBlock read (derived.append derivedSpaces) rfl, ?_, ?_⟩
  · simp [Outline.ofNodes, Outline.ofNode, Outline.ofNodes_append, saidInside, saidSpaces]
  · simp [Node.heightOfList, Node.height, Node.heightOfList_append, tall, tallSpaces]

end ReadsAs

namespace Outline

theorem head?_print {layout : Nat → List Char} {depth : Nat} {item : Outline}
    (printable : item.Printable) :
    ∃ c, (item.print layout depth).head? = some c ∧ Text.isAsciiBlank c = false := by
  cases item with
  | leaf content =>
      cases content with
      | blank => exact printable.elim
      | terminator => exact printable.elim
      | comment form text =>
          cases form with
          | line => exact printable.elim
          | block =>
              obtain ⟨body, whole, _⟩ := printable
              refine ⟨'/', ?_, rfl⟩
              rw [print, Leaf.print, whole]
              rfl
      | declaration name value => exact ⟨'$', rfl, rfl⟩
      | statement text =>
          obtain ⟨nonempty, value, _⟩ := printable
          obtain ⟨c, found, visible⟩ := value.trimmed.exists_head? nonempty
          refine ⟨c, ?_, Text.isAsciiBlank_of_isBlank visible⟩
          rw [print, Leaf.print, List.head?_append, found, Option.some_or]
          simp
  | block head body =>
      obtain ⟨c, found, visible⟩ := Head.head?_print printable.1
      refine ⟨c, ?_, Text.isAsciiBlank_of_isBlank visible⟩
      rw [print, List.head?_append, found, Option.some_or]

theorem readsAs_leaf {layout : Nat → List Char} {depth : Nat} {content : Leaf}
    (printable : content.Printable) :
    ReadsAs (print layout depth (leaf content)) (terminated (leaf content)) 0 := by
  cases content with
  | blank => exact printable.elim
  | terminator => exact printable.elim
  | comment form text => exact .comment printable
  | declaration name value =>
      have balanced := Leaf.balanced_declaration printable.1 printable.2.balanced
      have read := Leaf.ofText_declaration printable.1 printable.2.trimmed
      exact .statement balanced ⟨'$', rfl, rfl⟩ read (by simp)
  | statement text =>
      obtain ⟨nonempty, value, other⟩ := printable
      obtain ⟨c, found, visible⟩ := value.trimmed.exists_head? nonempty
      have first := Text.isAsciiBlank_of_isBlank visible
      have read := Leaf.ofText_statement value.trimmed other
      exact .statement value.balanced ⟨c, found, first⟩ read (by simp)

mutual

/-- An item is read back from its text. -/
theorem readsAs_print {layout : Nat → List Char}
    (blank : ∀ depth, ∀ c ∈ layout depth, Text.isAsciiBlank c = true) (depth : Nat) :
    (item : Outline) → item.Printable →
      ReadsAs (item.print layout depth) item.terminated item.height
  | leaf _, printable => readsAs_leaf printable
  | block _ body, printable =>
      .block printable.1 (blank depth) (readsAs_printList blank (depth + 1) body printable.2)

theorem readsAs_printList {layout : Nat → List Char}
    (blank : ∀ depth, ∀ c ∈ layout depth, Text.isAsciiBlank c = true) (depth : Nat) :
    (items : List Outline) → PrintableList items →
      ReadsAs (printList layout depth items) (terminatedList items) (heightOfList items)
  | [], _ => .nil
  | item :: items, printable =>
      ((readsAs_print blank depth item printable.1).blanks (blank depth)
        (head?_print printable.1)).append (readsAs_printList blank depth items printable.2)

end

end Outline

/--
Printing an outline and reading the text gives the outline back, with the semicolons that were
printed after statements.  The text must not start with a byte order mark, which reading skips.
-/
theorem read_printed_outline {layout : Nat → List Char} {forest : List Outline}
    (blank : ∀ depth, ∀ c ∈ layout depth, Text.isAsciiBlank c = true)
    (printable : Outline.PrintableList forest)
    (room : Outline.heightOfList forest ≤ Stylesheet.maxDepth)
    (noMark : (Outline.printList layout 0 forest).head? ≠ some '\ufeff') :
    ∃ nodes, Stylesheet.read (String.ofList (Outline.printList layout 0 forest)) = .ok nodes ∧
      Outline.ofNodes nodes = Outline.terminatedList forest := by
  obtain ⟨tokens, cuts, derives⟩ := Outline.readsAs_printList blank 0 forest printable
  obtain ⟨nodes, derived, said, tall⟩ := derives 0
  refine ⟨nodes, ?_, said⟩
  rcases Stylesheet.withoutMark_cases (Outline.printList layout 0 forest) with
    ⟨text, marked, _⟩ | ⟨_, whole, start⟩
  · rw [marked] at noMark
    exact (noMark rfl).elim
  · have stream : Stylesheet.tokenStream (Outline.printList layout 0 forest) = ⟨tokens, none⟩ := by
      have cut := cuts []
      rw [List.append_nil, TokenStream.ofText_nil, List.append_nil] at cut
      rw [Stylesheet.tokenStream, whole, cut]
    rw [Stylesheet.read_eq_ok_iff, String.toList_ofList, Stylesheet.nodesWithin_eq_ok_iff, stream,
      start]
    exact ⟨rfl, derived, tall.symm ▸ room⟩

/-- A mixin with two arguments, and in it a declaration and a conditional statement. -/
def sampleOutline : List Outline :=
  [.leaf (.comment .block "/* a */"),
    .block (.callable .mixin "m" (some [⟨"x", some "\"; \\\"\"", false⟩, ⟨"rest", none, true⟩]))
      [.leaf (.declaration "y" "url(a;b)"),
        .block (.nesting "if" "$x") [.leaf (.statement "color: red")]]]

theorem printableList_sampleOutline : Outline.PrintableList sampleOutline := by
  have comment : (Leaf.comment .block "/* a */").Printable :=
    ⟨[' ', 'a', ' '], by decide, by decide⟩
  have literal : IsValue isListed "\"; \\\"\"".toList :=
    ⟨by decide, .literal rfl (.char (by decide) (.char (by decide) (.escape .close))) .nil⟩
  have first : Argument.Printable ⟨"x", some "\"; \\\"\"", false⟩ := by
    refine ⟨by decide, ?_⟩
    rintro value ⟨⟩
    exact ⟨by decide, literal⟩
  have second : Argument.Printable ⟨"rest", none, true⟩ := ⟨by decide, by simp⟩
  have mixin : (Head.callable .mixin "m"
      (some [⟨"x", some "\"; \\\"\"", false⟩, ⟨"rest", none, true⟩])).Printable := by
    refine ⟨by decide, ?_⟩
    rintro list ⟨⟩
    simpa using ⟨first, second⟩
  have inside : Balanced isEnclosed ['a', ';', 'b'] := .ofRun (by decide)
  have call : Balanced isPlain (['u', 'r', 'l'] ++ '(' :: (['a', ';', 'b'] ++ [')'])) :=
    (Balanced.ofRun (by decide)).append (.group (.inl ⟨rfl, rfl⟩) inside .nil) (by decide)
  have declaration : (Leaf.declaration "y" "url(a;b)").Printable :=
    ⟨by decide, by decide, by simpa using call⟩
  have conditional : (Head.nesting "if" "$x").Printable :=
    ⟨by decide, by decide, .ofRun (by decide)⟩
  have statement : (Leaf.statement "color: red").Printable := by
    refine ⟨by decide, ⟨by decide, .ofRun (by decide)⟩, ?_⟩
    rintro ⟨name, value, whole, _⟩
    cases whole
  exact ⟨comment, ⟨mixin, declaration, ⟨conditional, statement, trivial⟩, trivial⟩, trivial⟩

theorem read_printed_outline_sample :
    ∃ nodes, Stylesheet.read (String.ofList
        (Outline.printList (fun depth => '\n' :: List.replicate (2 * depth) ' ') 0 sampleOutline)) =
          .ok nodes ∧ Outline.ofNodes nodes = Outline.terminatedList sampleOutline := by
  apply read_printed_outline
  · intro depth c member
    rcases List.mem_cons.mp member with rfl | member
    · rfl
    · rw [List.eq_of_mem_replicate member]
      rfl
  · exact printableList_sampleOutline
  · decide
  · decide

/-- A statement that starts with a byte order mark loses it, if nothing is printed before it. -/
theorem read_printed_outline_marked :
    ¬∀ (layout : Nat → List Char) (forest : List Outline),
      (∀ depth, ∀ c ∈ layout depth, Text.isAsciiBlank c = true) → Outline.PrintableList forest →
      Outline.heightOfList forest ≤ Stylesheet.maxDepth →
      ∃ nodes, Stylesheet.read (String.ofList (Outline.printList layout 0 forest)) = .ok nodes ∧
        Outline.ofNodes nodes = Outline.terminatedList forest := by
  intro all
  have statement : (Leaf.statement "\ufeffa").Printable := by
    refine ⟨by decide, ⟨by decide, .ofRun (by decide)⟩, ?_⟩
    rintro ⟨name, value, whole, _⟩
    cases whole
  obtain ⟨nodes, read, said⟩ := all (fun _ => []) [.leaf (.statement "\ufeffa")] (by simp)
    ⟨statement, trivial⟩ (by decide)
  have unmarked : Stylesheet.read (String.ofList
      (Outline.printList (fun _ => []) 0 [.leaf (.statement "\ufeffa")])) =
        .ok [.leaf (.statement "a") ⟨3, 4⟩, .leaf .terminator ⟨4, 5⟩] :=
    Stylesheet.read_eq_ok_of_toOption (by decide +kernel)
  rw [unmarked] at read
  cases read
  simp only [Outline.ofNodes, Outline.ofNode, Outline.terminatedList, Outline.terminated,
    List.append_nil, List.cons_append, List.nil_append, List.cons.injEq, Outline.leaf.injEq,
    Leaf.statement.injEq] at said
  exact absurd said.1 (by decide)

end StyleDoc
