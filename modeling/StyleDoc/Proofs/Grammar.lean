import StyleDoc.Proofs.RawText
import StyleDoc.Syntax.Stylesheet

/-!
# A grammar of statement trees

`Derives` relates a list of tokens to the nodes they stand for, by the structure of the nodes and
without a stack: a leaf is one token, and a block is a header, the tokens of its body, and a
closing brace.  The builder accepts exactly the token lists that have a derivation in which blocks
are not nested too deep, and gives the derived nodes.
-/

namespace StyleDoc

/-! ## Nesting depth -/

namespace Node

mutual

/-- The number of blocks that a node has inside each other. -/
def height : Node → Nat
  | leaf _ _ => 0
  | block _ body _ => heightOfList body + 1

def heightOfList : List Node → Nat
  | [] => 0
  | node :: nodes => max (height node) (heightOfList nodes)

end

theorem heightOfList_le_iff {nodes : List Node} {bound : Nat} :
    heightOfList nodes ≤ bound ↔ ∀ node ∈ nodes, node.height ≤ bound := by
  induction nodes with
  | nil => simp [heightOfList]
  | cons node nodes ih => rw [heightOfList, Nat.max_le, ih, List.forall_mem_cons]

theorem heightOfList_reverse_le {nodes : List Node} {bound : Nat} :
    heightOfList nodes.reverse ≤ bound ↔ heightOfList nodes ≤ bound := by
  simp [heightOfList_le_iff]

end Node

/-- A node stands in a list of nodes or, at any depth, in a block of one of them. -/
inductive Occurs (node : Node) : List Node → Prop
  | here {nodes : List Node} (member : node ∈ nodes) : Occurs node nodes
  | deeper {head : Head} {body : List Node} {span : ByteRange} {nodes : List Node}
      (member : .block head body span ∈ nodes) (inside : Occurs node body) : Occurs node nodes

/-! ## Derivations -/

namespace Token

/-- What a token stands for alone; a header and a closing brace stand for nothing alone. -/
def leaf? : Token → Option Leaf
  | blank _ => some .blank
  | comment form text => some (Leaf.ofComment form text)
  | semicolon => some .terminator
  | statement pieces => some (Leaf.ofText (statementText pieces))
  | header _ => none
  | close => none

end Token

def tokensWidth (tokens : List Token) : Nat := Text.byteSize (rawTokens tokens)

@[simp] theorem tokensWidth_nil : tokensWidth [] = 0 := rfl

@[simp] theorem tokensWidth_cons (token : Token) (tokens : List Token) :
    tokensWidth (token :: tokens) = token.width + tokensWidth tokens := by
  simp [tokensWidth, Token.width]

@[simp] theorem tokensWidth_append (a b : List Token) :
    tokensWidth (a ++ b) = tokensWidth a + tokensWidth b := by
  simp [tokensWidth]

@[simp] theorem Token.width_close : Token.close.width = 1 := by decide

theorem Token.width_header (pieces : List Piece) :
    (Token.header pieces).width = Text.byteSize (rawText pieces) + 1 := by
  rw [Token.width, Token.raw, Text.byteSize_append]
  rfl

/-- The nodes that a list of tokens stands for, when its first byte is at the given offset. -/
inductive Derives : Nat → List Token → List Node → Prop
  | nil {offset : Nat} : Derives offset [] []
  | leaf {offset : Nat} {token : Token} {content : Leaf} {tokens : List Token}
      {nodes : List Node} (stands : token.leaf? = some content)
      (later : Derives (offset + token.width) tokens nodes) :
      Derives offset (token :: tokens)
        (.leaf content ⟨offset, offset + token.width⟩ :: nodes)
  | block {offset stop : Nat} {pieces : List Piece} {head : Head} {inner tokens : List Token}
      {body nodes : List Node} (read : Head.ofText (statementText pieces) = .ok head)
      (inside : Derives (offset + (Token.header pieces).width) inner body)
      (stop_eq : stop = offset + (Token.header pieces).width + tokensWidth inner + 1)
      (later : Derives stop tokens nodes) :
      Derives offset (.header pieces :: inner ++ .close :: tokens)
        (.block head body ⟨offset, stop⟩ :: nodes)

namespace Derives

theorem append {offset : Nat} {tokens later : List Token} {nodes more : List Node}
    (first : Derives offset tokens nodes)
    (second : Derives (offset + tokensWidth tokens) later more) :
    Derives offset (tokens ++ later) (nodes ++ more) := by
  induction first with
  | nil => exact second
  | leaf stands _ ih =>
      refine .leaf stands (ih ?_)
      simpa [Nat.add_assoc] using second
  | @block offset stop pieces head inner tokens body nodes read inside stop_eq _ _ ih =>
      have rest : Derives stop (tokens ++ later) (nodes ++ more) := by
        apply ih
        simpa [stop_eq, Nat.add_assoc] using second
      simpa using block read inside stop_eq rest

theorem single {offset : Nat} {token : Token} {content : Leaf}
    (stands : token.leaf? = some content) :
    Derives offset [token] [.leaf content ⟨offset, offset + token.width⟩] :=
  .leaf stands .nil

theorem singleBlock {offset stop : Nat} {pieces : List Piece} {head : Head}
    {inner : List Token} {body : List Node} (read : Head.ofText (statementText pieces) = .ok head)
    (inside : Derives (offset + (Token.header pieces).width) inner body)
    (stop_eq : stop = offset + (Token.header pieces).width + tokensWidth inner + 1) :
    Derives offset (.header pieces :: inner ++ [.close]) [.block head body ⟨offset, stop⟩] :=
  .block read inside stop_eq .nil

theorem of_mem {offset : Nat} {tokens : List Token} {nodes : List Node} {node : Node}
    (derived : Derives offset tokens nodes) (member : node ∈ nodes) :
    ∃ before middle after, tokens = before ++ middle ++ after ∧
      Derives (offset + tokensWidth before) middle [node] := by
  induction derived with
  | nil => cases member
  | @leaf offset token content tokens nodes stands _ ih =>
      rcases List.mem_cons.mp member with rfl | member
      · exact ⟨[], [token], tokens, rfl, by simpa using single stands⟩
      · obtain ⟨before, middle, after, split, found⟩ := ih member
        refine ⟨token :: before, middle, after, by simp [split], ?_⟩
        simpa [Nat.add_assoc] using found
  | @block offset stop pieces head inner tokens body nodes read inside stop_eq _ _ ih =>
      rcases List.mem_cons.mp member with rfl | member
      · refine ⟨[], .header pieces :: inner ++ [.close], tokens, by simp, ?_⟩
        simpa using singleBlock read inside stop_eq
      · obtain ⟨before, middle, after, split, found⟩ := ih member
        refine ⟨.header pieces :: inner ++ .close :: before, middle, after, by simp [split], ?_⟩
        simpa [stop_eq, Nat.add_assoc] using found

theorem block_inv {offset : Nat} {tokens : List Token} {head : Head} {body : List Node}
    {span : ByteRange} (derived : Derives offset tokens [.block head body span]) :
    ∃ pieces inner, tokens = .header pieces :: inner ++ [.close] ∧
      Head.ofText (statementText pieces) = .ok head ∧
      Derives (offset + (Token.header pieces).width) inner body ∧
      span = ⟨offset, offset + (Token.header pieces).width + tokensWidth inner + 1⟩ := by
  cases derived with
  | block read inside stop_eq later =>
      cases later
      exact ⟨_, _, rfl, read, inside, by rw [stop_eq]⟩

/-- A node at any depth is derived from some of the tokens. -/
theorem of_occurs {offset : Nat} {tokens : List Token} {nodes : List Node} {node : Node}
    (derived : Derives offset tokens nodes) (occurs : Occurs node nodes) :
    ∃ before middle after, tokens = before ++ middle ++ after ∧
      Derives (offset + tokensWidth before) middle [node] := by
  induction occurs generalizing offset tokens with
  | here member => exact derived.of_mem member
  | deeper member _ ih =>
      obtain ⟨before, middle, after, split, block⟩ := derived.of_mem member
      obtain ⟨pieces, inner, rfl, _, inside, _⟩ := block.block_inv
      obtain ⟨before', middle', after', rfl, found⟩ := ih inside
      refine ⟨before ++ .header pieces :: before', middle', after' ++ .close :: after, ?_, ?_⟩
      · simp [split]
      · simpa [Nat.add_assoc] using found

/-- The span of a node is the bytes of its tokens. -/
theorem span_eq {offset : Nat} {tokens : List Token} {node : Node}
    (derived : Derives offset tokens [node]) :
    node.span = ⟨offset, offset + tokensWidth tokens⟩ := by
  cases derived with
  | leaf stands later =>
      cases later
      simp [Node.span]
  | block read inside stop_eq later =>
      cases later
      simp [Node.span, stop_eq, Nat.add_assoc]

end Derives

/-! ## The builder follows derivations -/

namespace Construction

theorem add_of_leaf? {limit : Nat} {tree : Construction} {token : Token} {content : Leaf}
    (stands : token.leaf? = some content) :
    tree.add limit token = .ok (tree.addLeaf token content) := by
  cases token <;> cases stands <;> rfl

/-- The ways in which a token can be added. -/
theorem add_cases {limit : Nat} {tree next : Construction} {token : Token}
    (h : tree.add limit token = .ok next) :
    (∃ content, token.leaf? = some content ∧ next = tree.addLeaf token content) ∨
      (∃ pieces, token = .header pieces ∧ tree.openBlock limit pieces = .ok next) ∨
      (token = .close ∧ tree.closeBlock = .ok next) := by
  cases token with
  | header pieces => exact .inr (.inl ⟨pieces, rfl, h⟩)
  | close => exact .inr (.inr ⟨rfl, h⟩)
  | blank text => exact .inl ⟨_, rfl, (Except.ok.inj h).symm⟩
  | comment form text => exact .inl ⟨_, rfl, (Except.ok.inj h).symm⟩
  | semicolon => exact .inl ⟨_, rfl, (Except.ok.inj h).symm⟩
  | statement pieces => exact .inl ⟨_, rfl, (Except.ok.inj h).symm⟩

/-- What adding a token does to the open blocks: nothing, or it opens one, or it closes one. -/
theorem blocks_of_add {limit : Nat} {tree next : Construction} {token : Token}
    (h : tree.add limit token = .ok next) :
    next.blocks = tree.blocks ∨
      (∃ pieces, next.blocks =
        ⟨tree.offset, tree.offset + Text.byteSize (rawText pieces), pieces, tree.nodes⟩ ::
          tree.blocks) ∨
      ∃ block, tree.blocks = block :: next.blocks := by
  rcases add_cases h with ⟨content, _, rfl⟩ | ⟨pieces, rfl, opened⟩ | ⟨rfl, closed⟩
  · exact .inl rfl
  · unfold openBlock at opened
    simp only at opened
    split at opened
    · cases opened
    · cases opened
      exact .inr (.inl ⟨pieces, rfl⟩)
  · unfold closeBlock at closed
    split at closed
    · cases closed
    · next block blocks isOpen =>
        split at closed
        · cases closed
        · cases closed
          exact .inr (.inr ⟨block, isOpen⟩)

theorem openBlock_eq_ok {limit : Nat} (tree : Construction) (pieces : List Piece)
    (room : tree.blocks.length < limit) :
    tree.openBlock limit pieces = .ok
      ⟨tree.offset + (Token.header pieces).width,
        ⟨tree.offset, tree.offset + Text.byteSize (rawText pieces), pieces, tree.nodes⟩ ::
          tree.blocks, []⟩ := by
  rw [openBlock, if_neg (Nat.not_le_of_lt room), Token.width_header]
  rfl

/-- Adding the tokens of a derivation adds its nodes. -/
theorem foldlM_add_of_derives {limit offset : Nat} {tokens : List Token} {nodes : List Node}
    (derived : Derives offset tokens nodes) (blocks : List OpenBlock) (earlier : List Node)
    (room : blocks.length + Node.heightOfList nodes ≤ limit) :
    tokens.foldlM (add limit) ⟨offset, blocks, earlier⟩ =
      .ok ⟨offset + tokensWidth tokens, blocks, nodes.reverse ++ earlier⟩ := by
  induction derived generalizing blocks earlier with
  | nil => rfl
  | @leaf offset token content tokens nodes stands _ ih =>
      have roomLater : blocks.length + Node.heightOfList nodes ≤ limit := by
        simpa [Node.heightOfList, Node.height] using room
      rw [List.foldlM_cons, add_of_leaf? stands]
      simp only [bind, Except.bind, addLeaf]
      rw [ih blocks _ roomLater]
      simp [Nat.add_assoc]
  | @block offset stop pieces head inner tokens body nodes read _ stop_eq _ ihInside ihLater =>
      simp only [Node.heightOfList, Node.height] at room
      have roomInside :
          blocks.length + 1 + Node.heightOfList body ≤ limit := by omega
      have roomLater : blocks.length + Node.heightOfList nodes ≤ limit := by omega
      have opened := openBlock_eq_ok ⟨offset, blocks, earlier⟩ pieces
        (show blocks.length < limit by omega)
      rw [List.cons_append, List.foldlM_cons, add, opened]
      simp only [bind, Except.bind]
      rw [List.foldlM_append, ihInside _ [] (by simpa using roomInside), List.append_nil]
      simp only [bind, Except.bind]
      rw [List.foldlM_cons, add]
      simp only [closeBlock, read, bind, Except.bind, List.reverse_reverse]
      rw [← stop_eq, ihLater blocks _ roomLater, stop_eq]
      simp [Nat.add_assoc, Nat.add_comm 1]

end Construction

/-! ## Derivations follow the builder -/

/--
A tree under construction stands for the tokens added so far, from the offset `start` on: the
nodes before each open block are derived, and so are those inside the innermost.  No block is
nested deeper than `limit`.
-/
inductive Covers (limit start : Nat) : Construction → List Token → Prop
  | flat {tokens : List Token} {nodes : List Node}
      (derived : Derives start tokens nodes.reverse)
      (room : Node.heightOfList nodes ≤ limit) :
      Covers limit start ⟨start + tokensWidth tokens, [], nodes⟩ tokens
  | inside (brace : Nat) {offset : Nat} {pieces : List Piece} {earlier nodes : List Node}
      {blocks : List OpenBlock} {tokens inner : List Token}
      (outer : Covers limit start ⟨offset, blocks, earlier⟩ tokens)
      (derived : Derives (offset + (Token.header pieces).width) inner nodes.reverse)
      (room : blocks.length + 1 + Node.heightOfList nodes ≤ limit) :
      Covers limit start
        ⟨offset + (Token.header pieces).width + tokensWidth inner,
          ⟨offset, brace, pieces, earlier⟩ :: blocks, nodes⟩
        (tokens ++ .header pieces :: inner)

namespace Covers

theorem empty (limit start : Nat) : Covers limit start ⟨start, [], []⟩ [] := by
  have nothing : Derives start [] ([] : List Node).reverse := .nil
  exact flat nothing (Nat.zero_le limit)

theorem extend {limit start offset : Nat} {blocks : List OpenBlock} {earlier nodes : List Node}
    {tokens more : List Token} (covers : Covers limit start ⟨offset, blocks, earlier⟩ tokens)
    (derived : Derives offset more nodes)
    (room : blocks.length + Node.heightOfList nodes ≤ limit) :
    Covers limit start ⟨offset + tokensWidth more, blocks, nodes.reverse ++ earlier⟩
      (tokens ++ more) := by
  have joined (bound : Nat) (before : Node.heightOfList earlier ≤ bound)
      (after : Node.heightOfList nodes ≤ bound) :
      Node.heightOfList (nodes.reverse ++ earlier) ≤ bound := by
    rw [Node.heightOfList_le_iff] at *
    intro node member
    rcases List.mem_append.mp member with member | member
    · exact after node (List.mem_reverse.mp member)
    · exact before node member
  cases covers with
  | flat first roomFirst =>
      have both : Derives start (tokens ++ more) (nodes.reverse ++ earlier).reverse := by
        simpa using first.append derived
      have roomBoth := joined limit roomFirst (by simpa using room)
      simpa [Nat.add_assoc] using flat both roomBoth
  | @inside brace offset pieces outerNodes _ blocks tokens inner outer first roomFirst =>
      have both : Derives (offset + (Token.header pieces).width) (inner ++ more)
          (nodes.reverse ++ earlier).reverse := by
        simpa using first.append derived
      have roomBoth : blocks.length + 1 + Node.heightOfList (nodes.reverse ++ earlier) ≤ limit := by
        simp only [List.length_cons] at room
        have := joined (limit - (blocks.length + 1)) (by omega) (by omega)
        omega
      simpa [Nat.add_assoc] using inside brace outer both roomBoth

/-- Adding a token keeps what a tree under construction stands for. -/
theorem add {limit start : Nat} {tree next : Construction} {tokens : List Token} {token : Token}
    (covers : Covers limit start tree tokens) (h : tree.add limit token = .ok next) :
    Covers limit start next (tokens ++ [token]) := by
  obtain ⟨offset, blocks, nodes⟩ := tree
  rcases Construction.add_cases h with
    ⟨content, stands, rfl⟩ | ⟨pieces, rfl, opened⟩ | ⟨rfl, closed⟩
  · have shallow : blocks.length ≤ limit := by
      cases covers with
      | flat => exact Nat.zero_le _
      | inside _ _ _ room => exact Nat.le_trans (Nat.le_add_right _ _) room
    simpa [Construction.addLeaf] using
      covers.extend (Derives.single stands)
        (by simpa [Node.heightOfList, Node.height] using shallow)
  · unfold Construction.openBlock at opened
    simp only at opened
    split at opened
    · cases opened
    · next room =>
        have nothing : Derives (offset + (Token.header pieces).width) []
            ([] : List Node).reverse := .nil
        have roomInside : blocks.length + 1 + Node.heightOfList [] ≤ limit := by
          simp only [Node.heightOfList]
          omega
        have entered := inside (offset + Text.byteSize (rawText pieces)) covers nothing roomInside
        cases opened
        simpa [Token.width_header, Nat.add_assoc] using entered
  · cases covers with
    | flat => cases closed
    | @inside brace offset pieces earlier _ blocks tokens inner outer derived room =>
        unfold Construction.closeBlock at closed
        simp only at closed
        split at closed
        · cases closed
        · next head read =>
            cases closed
            have block := Derives.singleBlock read derived rfl
            have roomBlock : blocks.length + Node.heightOfList
                [.block head nodes.reverse ⟨offset, offset + (Token.header pieces).width +
                  tokensWidth inner + 1⟩] ≤ limit := by
              have := Node.heightOfList_reverse_le.mpr (Nat.le_refl (Node.heightOfList nodes))
              simp only [Node.heightOfList, Node.height]
              omega
            simpa [Nat.add_assoc] using outer.extend block roomBlock

theorem foldlM_add {limit start : Nat} {tree next : Construction} {tokens more : List Token}
    (covers : Covers limit start tree tokens)
    (h : more.foldlM (Construction.add limit) tree = .ok next) :
    Covers limit start next (tokens ++ more) := by
  induction more generalizing tree tokens with
  | nil =>
      cases h
      simpa using covers
  | cons token more ih =>
      rw [List.foldlM_cons] at h
      cases added : tree.add limit token with
      | error fault => simp [added, bind, Except.bind] at h
      | ok tree' =>
          simp only [added, bind, Except.bind] at h
          simpa using ih (covers.add added) h

theorem finish {limit start : Nat} {tree : Construction} {tokens : List Token} {nodes : List Node}
    (covers : Covers limit start tree tokens) (h : tree.finish = .ok nodes) :
    Derives start tokens nodes ∧ Node.heightOfList nodes ≤ limit := by
  cases covers with
  | flat derived room =>
      cases h
      exact ⟨derived, Node.heightOfList_reverse_le.mpr room⟩
  | inside => cases h

end Covers

/-! ## Accepted texts -/

@[simp] theorem mapError_ok {ε ε' α : Type} (f : ε → ε') (a : α) :
    (Except.ok a).mapError f = .ok a := rfl

@[simp] theorem mapError_error {ε ε' α : Type} (f : ε → ε') (fault : ε) :
    (Except.error fault : Except ε α).mapError f = .error (f fault) := rfl

namespace Stylesheet

/-- The offset of the first token: right after the byte order mark, if there is one. -/
def bodyStart (source : List Char) : Nat :=
  Text.byteSize source - Text.byteSize (withoutMark source)

def tokenStream (source : List Char) : TokenStream := TokenStream.ofText (withoutMark source)

theorem withoutMark_cases (source : List Char) :
    (∃ text, source = '\ufeff' :: text ∧ withoutMark source = text ∧ bodyStart source = 3) ∨
      (source.head? ≠ some '\ufeff' ∧ withoutMark source = source ∧ bodyStart source = 0) := by
  unfold bodyStart
  unfold withoutMark
  split
  · next text =>
      refine .inl ⟨text, rfl, rfl, ?_⟩
      rw [Text.byteSize_cons, Nat.add_sub_cancel]
      decide
  · next text noMark =>
      refine .inr ⟨?_, rfl, Nat.sub_self _⟩
      intro head
      obtain ⟨rest, rfl⟩ := List.head?_eq_some_iff.mp head
      exact noMark rest rfl

/-- A text without a fault is its byte order mark, if any, and its tokens. -/
theorem source_eq_of_faultless {source : List Char}
    (faultless : (tokenStream source).fault = none) :
    ∃ mark, source = mark ++ rawTokens (tokenStream source).tokens ∧
      Text.byteSize mark = bodyStart source := by
  have tokens := TokenStream.rawTokens_ofText (withoutMark source) faultless
  rw [tokenStream, tokens]
  rcases withoutMark_cases source with ⟨text, whole, without, start⟩ | ⟨_, without, start⟩
  · refine ⟨['\ufeff'], by rw [without, whole]; rfl, ?_⟩
    rw [start]
    decide
  · exact ⟨[], by rw [without]; rfl, by rw [start]; rfl⟩

/-- A text is accepted exactly if it can be cut into tokens that have a derivation in which blocks
are not nested too deep; its tree is what they derive. -/
theorem nodesWithin_eq_ok_iff {limit : Nat} {source : List Char} {nodes : List Node} :
    nodesWithin limit source = .ok nodes ↔
      (tokenStream source).fault = none ∧
        Derives (bodyStart source) (tokenStream source).tokens nodes ∧
        Node.heightOfList nodes ≤ limit := by
  have unfolded : nodesWithin limit source =
      Construction.build limit ⟨bodyStart source, [], []⟩ (tokenStream source) := rfl
  rw [unfolded, Construction.build]
  constructor
  · intro h
    cases built : (tokenStream source).tokens.foldlM (Construction.add limit)
        ⟨bodyStart source, [], []⟩ with
    | error fault => simp [built, bind, Except.bind] at h
    | ok tree =>
        simp only [built, bind, Except.bind] at h
        split at h
        · cases h
        · next faultless =>
            have covers := (Covers.empty limit (bodyStart source)).foldlM_add built
            exact ⟨faultless, covers.finish h⟩
  · rintro ⟨faultless, derived, room⟩
    have room : ([] : List OpenBlock).length + Node.heightOfList nodes ≤ limit := by
      simpa using room
    have built := Construction.foldlM_add_of_derives derived [] [] room
    simp only [built, bind, Except.bind, faultless, Construction.finish, List.append_nil,
      List.reverse_reverse]

theorem read_eq_ok_iff {source : String} {nodes : List Node} :
    read source = .ok nodes ↔ nodesWithin maxDepth source.toList = .ok nodes := by
  unfold read
  cases nodesWithin maxDepth source.toList <;> simp

theorem read_eq_ok_of_toOption {source : String} {nodes : List Node}
    (h : (nodesWithin maxDepth source.toList).toOption = some nodes) : read source = .ok nodes := by
  rw [read_eq_ok_iff]
  cases result : nodesWithin maxDepth source.toList with
  | error fault => simp [result, Except.toOption] at h
  | ok found =>
      simp only [result, Except.toOption, Option.some.injEq] at h
      rw [h]

end Stylesheet

end StyleDoc
