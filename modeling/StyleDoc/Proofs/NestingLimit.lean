import StyleDoc.Proofs.Bodies

/-!
# The nesting limit

Adding a token looks at the limit only where a block is opened, and there only at the number of
blocks that are open.  So a tree is built alike under every limit that is not below its height, and
also without a limit; under a lower one the first block that is too deep is refused.
-/

namespace StyleDoc

/-! ## Building without a limit -/

namespace Construction

/-- Adds a token, however many blocks are open: there is always room for one more. -/
def addFreely (tree : Construction) (token : Token) : Except Fault Construction :=
  tree.add (tree.blocks.length + 1) token

def buildFreely (tree : Construction) (stream : TokenStream) : Except Fault (List Node) := do
  let tree ← stream.tokens.foldlM addFreely tree
  match stream.fault with
  | some fault => .error { fault with offset := tree.offset + fault.offset }
  | none => tree.finish

theorem addFreely_eq_add {limit : Nat} {tree : Construction} (room : tree.blocks.length < limit)
    (token : Token) : tree.addFreely token = tree.add limit token := by
  cases token with
  | header pieces =>
      have free := openBlock_eq_ok tree pieces (Nat.lt_succ_self tree.blocks.length)
      have within := openBlock_eq_ok tree pieces room
      rw [addFreely, add, free, add, within]
  | _ => rfl

theorem length_blocks_of_add {limit : Nat} {tree next : Construction} {token : Token}
    (h : tree.add limit token = .ok next) : next.blocks.length ≤ tree.blocks.length + 1 := by
  rcases blocks_of_add h with same | ⟨pieces, opened⟩ | ⟨block, closed⟩
  · rw [same]
    omega
  · rw [opened, List.length_cons]
  · rw [closed, List.length_cons]
    omega

theorem foldlM_addFreely_eq {limit : Nat} {tree : Construction} {tokens : List Token}
    (room : tree.blocks.length + tokens.length ≤ limit) :
    tokens.foldlM addFreely tree = tokens.foldlM (add limit) tree := by
  induction tokens generalizing tree with
  | nil => rfl
  | cons token tokens ih =>
      rw [List.length_cons] at room
      have roomHere : tree.blocks.length < limit := by omega
      rw [List.foldlM_cons, List.foldlM_cons, addFreely_eq_add roomHere]
      cases added : tree.add limit token with
      | error fault => rfl
      | ok next =>
          have grown := length_blocks_of_add added
          have roomLater : next.blocks.length + tokens.length ≤ limit := by omega
          exact ih roomLater

theorem buildFreely_eq_build {limit : Nat} {tree : Construction} {stream : TokenStream}
    (room : tree.blocks.length + stream.tokens.length ≤ limit) :
    tree.buildFreely stream = tree.build limit stream := by
  have same := foldlM_addFreely_eq room
  cases ends : stream.fault with
  | none => simp only [buildFreely, build, same, ends]
  | some fault => simp only [buildFreely, build, same, ends]

end Construction

namespace Stylesheet

def nodesFreely (source : List Char) : Except Fault (List Node) :=
  let body := withoutMark source
  let start := Text.byteSize source - Text.byteSize body
  Construction.buildFreely ⟨start, [], []⟩ (TokenStream.ofText body)

/-- No text has more blocks inside each other than it has tokens. -/
theorem nodesFreely_eq_nodesWithin {limit : Nat} {source : List Char}
    (room : (tokenStream source).tokens.length ≤ limit) :
    nodesFreely source = nodesWithin limit source := by
  have roomThere : (⟨bodyStart source, [], []⟩ : Construction).blocks.length +
      (tokenStream source).tokens.length ≤ limit := by
    simpa using room
  exact Construction.buildFreely_eq_build roomThere

theorem nodesFreely_eq_ok_iff {source : List Char} {nodes : List Node} :
    nodesFreely source = .ok nodes ↔ ∃ limit, nodesWithin limit source = .ok nodes := by
  constructor
  · intro free
    exact ⟨_, by rw [← nodesFreely_eq_nodesWithin (Nat.le_refl _), free]⟩
  · rintro ⟨limit, within⟩
    obtain ⟨faultless, derived, room⟩ := nodesWithin_eq_ok_iff.mp within
    rw [nodesFreely_eq_nodesWithin (Nat.le_max_left _ limit), nodesWithin_eq_ok_iff]
    exact ⟨faultless, derived, Nat.le_trans room (Nat.le_max_right _ limit)⟩

end Stylesheet

/-! ## Blocks by their depth -/

namespace OccursAt

theorem cons {node first : Node} {depth : Nat} {nodes : List Node}
    (occurs : OccursAt node depth nodes) : OccursAt node depth (first :: nodes) := by
  cases occurs with
  | here member => exact .here (List.mem_cons_of_mem _ member)
  | deeper member inside => exact .deeper (List.mem_cons_of_mem _ member) inside

theorem cases_cons {node first : Node} {depth : Nat} {nodes : List Node}
    (occurs : OccursAt node depth (first :: nodes)) :
    (depth = 0 ∧ node = first) ∨
      (∃ inner head body span, depth = inner + 1 ∧ first = .block head body span ∧
        OccursAt node inner body) ∨
      OccursAt node depth nodes := by
  cases occurs with
  | here member =>
      rcases List.mem_cons.mp member with same | member
      · exact .inl ⟨rfl, same⟩
      · exact .inr (.inr (.here member))
  | deeper member inside =>
      rcases List.mem_cons.mp member with same | member
      · exact .inr (.inl ⟨_, _, _, _, rfl, same.symm, inside⟩)
      · exact .inr (.inr (.deeper member inside))

theorem lt_heightOfList {head : Head} {body : List Node} {span : ByteRange} {depth : Nat}
    {nodes : List Node} (occurs : OccursAt (.block head body span) depth nodes) :
    depth < Node.heightOfList nodes := by
  have of_mem {node : Node} {nodes : List Node} (member : node ∈ nodes) :
      node.height ≤ Node.heightOfList nodes :=
    Node.heightOfList_le_iff.mp (Nat.le_refl _) node member
  induction occurs with
  | here member =>
      have := of_mem member
      rw [Node.height] at this
      omega
  | deeper member _ ih =>
      have := of_mem member
      rw [Node.height] at this
      omega

end OccursAt

/-! ## The first block at a depth -/

namespace Node

/-- Of the blocks that have `depth` others around them, the first opens at the given offset. -/
structure FirstAt (depth : Nat) (nodes : List Node) (brace : Nat) : Prop where
  opens : ∃ head body span, OccursAt (.block head body span) depth nodes ∧
    brace = braceOffset body span
  first : ∀ head body span, OccursAt (.block head body span) depth nodes →
    brace ≤ braceOffset body span

namespace FirstAt

variable {depth brace stop : Nat} {nodes body : List Node} {head : Head} {span : ByteRange}

theorem leaf_cons (found : FirstAt depth nodes brace) (content : Leaf) (span : ByteRange) :
    FirstAt depth (.leaf content span :: nodes) brace := by
  obtain ⟨⟨head, body, place, occurs, brace_eq⟩, first⟩ := found
  refine ⟨⟨head, body, place, occurs.cons, brace_eq⟩, ?_⟩
  intro head' body' span' other
  rcases other.cases_cons with ⟨_, same⟩ | ⟨_, _, _, _, _, same, _⟩ | later
  · cases same
  · cases same
  · exact first head' body' span' later

theorem here (before : braceOffset body span ≤ stop)
    (later : ∀ head' body' span', OccursAt (.block head' body' span') 0 nodes →
      stop ≤ braceOffset body' span') :
    FirstAt 0 (.block head body span :: nodes) (braceOffset body span) := by
  refine ⟨⟨head, body, span, .here List.mem_cons_self, rfl⟩, ?_⟩
  intro head' body' span' other
  rcases other.cases_cons with ⟨_, same⟩ | ⟨_, _, _, _, impossible, _⟩ | other
  · cases same
    exact Nat.le_refl _
  · cases impossible
  · exact Nat.le_trans before (later head' body' span' other)

theorem inside (found : FirstAt depth body brace) (before : brace ≤ stop)
    (later : ∀ head' body' span', OccursAt (.block head' body' span') (depth + 1) nodes →
      stop ≤ braceOffset body' span') :
    FirstAt (depth + 1) (.block head body span :: nodes) brace := by
  obtain ⟨⟨head₁, body₁, span₁, occurs, brace_eq⟩, first⟩ := found
  refine ⟨⟨head₁, body₁, span₁, .deeper List.mem_cons_self occurs, brace_eq⟩, ?_⟩
  intro head' body' span' other
  rcases other.cases_cons with ⟨impossible, _⟩ | ⟨_, _, _, _, same, isBlock, other⟩ | other
  · cases impossible
  · cases same
    cases isBlock
    exact first head' body' span' other
  · exact Nat.le_trans before (later head' body' span' other)

theorem behind (found : FirstAt (depth + 1) nodes brace) (low : heightOfList body ≤ depth) :
    FirstAt (depth + 1) (.block head body span :: nodes) brace := by
  obtain ⟨⟨head₁, body₁, span₁, occurs, brace_eq⟩, first⟩ := found
  refine ⟨⟨head₁, body₁, span₁, occurs.cons, brace_eq⟩, ?_⟩
  intro head' body' span' other
  rcases other.cases_cons with ⟨impossible, _⟩ | ⟨_, _, _, _, same, isBlock, other⟩ | other
  · cases impossible
  · cases same
    cases isBlock
    have := other.lt_heightOfList
    omega
  · exact first head' body' span' other

end FirstAt

end Node

/-- The opening braces of derived nodes lie between the ends of their tokens. -/
theorem Derives.braceOffset_bounds {offset : Nat} {tokens : List Token} {nodes body : List Node}
    {head : Head} {span : ByteRange} (derived : Derives offset tokens nodes)
    (occurs : Occurs (.block head body span) nodes) :
    offset ≤ Node.braceOffset body span ∧
      Node.braceOffset body span < offset + tokensWidth tokens := by
  obtain ⟨before, middle, after, rfl, found⟩ := derived.of_occurs occurs
  obtain ⟨pieces, inner, rfl, _, inside, rfl⟩ := found.block_inv
  rw [inside.braceOffset_eq]
  simp only [tokensWidth_append, tokensWidth_cons, List.cons_append, Token.width_header]
  omega

/-! ## Refusing the first block that is too deep -/

namespace Construction

theorem openBlock_eq_error {tree : Construction} {limit : Nat} (full : limit ≤ tree.blocks.length)
    (pieces : List Piece) :
    tree.openBlock limit pieces =
      .error ⟨.tooDeep limit, tree.offset + Text.byteSize (rawText pieces)⟩ := by
  rw [openBlock, if_pos full]

/-- Nodes that are higher than the open blocks leave room for are refused at the first block that
has too many around it. -/
theorem foldlM_add_of_high {limit offset depth : Nat} {tokens : List Token} {nodes : List Node}
    (derived : Derives offset tokens nodes) (blocks : List OpenBlock) (earlier : List Node)
    (room : blocks.length + depth = limit) (high : depth < Node.heightOfList nodes) :
    ∃ brace, Node.FirstAt depth nodes brace ∧
      tokens.foldlM (add limit) ⟨offset, blocks, earlier⟩ = .error ⟨.tooDeep limit, brace⟩ := by
  induction derived generalizing depth blocks earlier with
  | nil => cases high
  | @leaf offset token content tokens nodes stands _ ih =>
      have highLater : depth < Node.heightOfList nodes := by
        simpa [Node.heightOfList, Node.height] using high
      obtain ⟨brace, first, failed⟩ := ih blocks _ room highLater
      refine ⟨brace, first.leaf_cons _ _, ?_⟩
      rw [List.foldlM_cons, add_of_leaf? stands]
      exact failed
  | @block offset stop pieces head inner tokens body nodes read inside stop_eq later ihInside
      ihLater =>
      have afterBlock (depth' : Nat) : ∀ head' body' span',
          OccursAt (.block head' body' span') depth' nodes →
            stop ≤ Node.braceOffset body' span' :=
        fun _ _ _ other => (later.braceOffset_bounds other.occurs).1
      cases depth with
      | zero =>
          have full : limit ≤ blocks.length := by omega
          have brace_eq : Node.braceOffset body ⟨offset, stop⟩ =
              offset + Text.byteSize (rawText pieces) := by
            rw [stop_eq]
            exact inside.braceOffset_eq
          have before : Node.braceOffset body ⟨offset, stop⟩ ≤ stop := by
            rw [Token.width_header] at stop_eq
            omega
          refine ⟨_, .here before (afterBlock 0), ?_⟩
          rw [List.cons_append, List.foldlM_cons, add, openBlock_eq_error full, brace_eq]
          rfl
      | succ depth =>
          have opened := openBlock_eq_ok ⟨offset, blocks, earlier⟩ pieces
            (show blocks.length < limit by omega)
          by_cases highInside : depth < Node.heightOfList body
          · obtain ⟨brace, first, failed⟩ := ihInside (_ :: blocks) []
              (show blocks.length + 1 + depth = limit by omega) highInside
            have before : brace ≤ stop := by
              obtain ⟨_, _, _, occurs, brace_eq⟩ := first.opens
              have bounds := inside.braceOffset_bounds occurs.occurs
              omega
            refine ⟨brace, first.inside before (afterBlock _), ?_⟩
            rw [List.cons_append, List.foldlM_cons, add, opened]
            simp only [bind, Except.bind]
            rw [List.foldlM_append, failed]
            rfl
          · have low : Node.heightOfList body ≤ depth := Nat.le_of_not_lt highInside
            have lowBlock : blocks.length +
                Node.heightOfList [.block head body ⟨offset, stop⟩] ≤ limit := by
              simp only [Node.heightOfList, Node.height]
              omega
            have built := foldlM_add_of_derives (.block read inside stop_eq .nil) blocks earlier
              lowBlock
            have highLater : depth + 1 < Node.heightOfList nodes := by
              simp only [Node.heightOfList, Node.height] at high
              omega
            obtain ⟨brace, first, failed⟩ := ihLater blocks
              (.block head body ⟨offset, stop⟩ :: earlier) room highLater
            refine ⟨brace, first.behind low, ?_⟩
            have stop_eq' : offset + tokensWidth (.header pieces :: inner ++ [.close]) = stop := by
              rw [stop_eq]
              simp [tokensWidth_append, Nat.add_assoc]
            rw [stop_eq'] at built
            have split : Token.header pieces :: inner ++ Token.close :: tokens =
                (.header pieces :: inner ++ [.close]) ++ tokens := by simp
            rw [split, List.foldlM_append, built]
            exact failed

end Construction

namespace Stylesheet

theorem nodesWithin_of_high {limit : Nat} {source : List Char} {nodes : List Node}
    (derived : Derives (bodyStart source) (tokenStream source).tokens nodes)
    (high : limit < Node.heightOfList nodes) :
    ∃ brace, Node.FirstAt limit nodes brace ∧
      nodesWithin limit source = .error ⟨.tooDeep limit, brace⟩ := by
  obtain ⟨brace, first, failed⟩ := Construction.foldlM_add_of_high derived [] []
    (show 0 + limit = limit by omega) high
  refine ⟨brace, first, ?_⟩
  have unfolded : nodesWithin limit source =
      Construction.build limit ⟨bodyStart source, [], []⟩ (tokenStream source) := rfl
  rw [unfolded, Construction.build, failed]
  rfl

end Stylesheet

/-! ## The limit is exact -/

/-- A block of a tree with `depth` others around it has its opening brace at the offset `brace`. -/
def Node.OpensAt (source : List Char) (nodes : List Node) (depth brace : Nat) : Prop :=
  ∃ head body span, OccursAt (.block head body span) depth nodes ∧
    Braced source span body brace

theorem Node.FirstAt.opensAt {source : List Char} {nodes : List Node} {depth brace : Nat}
    (found : FirstAt depth nodes brace)
    (braces : ∀ head body span, Occurs (.block head body span) nodes →
      ∃ brace, Braced source span body brace) :
    OpensAt source nodes depth brace ∧
      ∀ brace', OpensAt source nodes depth brace' → brace ≤ brace' := by
  constructor
  · obtain ⟨head, body, span, occurs, rfl⟩ := found.opens
    obtain ⟨brace, braced⟩ := braces head body span occurs.occurs
    refine ⟨head, body, span, occurs, ?_⟩
    rw [← braced.eq_braceOffset]
    exact braced
  · rintro brace' ⟨head, body, span, occurs, braced⟩
    rw [braced.eq_braceOffset]
    exact found.first head body span occurs

/--
The limit on nested blocks is exact and changes nothing else.  A tree that is built under some
limit is not higher than it, and the same tree is built under every limit that its height does not
exceed.  Under a lower limit the text is refused, at the first opening brace that has as many
blocks around it as the limit allows.  So the texts that are read are those that have a tree
without any limit and whose tree is at most 256 blocks high.
-/
theorem nesting_limit_exact (source : String) (nodes : List Node) :
    (∀ limit, Stylesheet.nodesWithin limit source.toList = .ok nodes →
      Node.heightOfList nodes ≤ limit ∧
        (∀ other, Node.heightOfList nodes ≤ other →
          Stylesheet.nodesWithin other source.toList = .ok nodes) ∧
        ∀ other, other < Node.heightOfList nodes → ∃ brace,
          Node.OpensAt source.toList nodes other brace ∧
            (∀ brace', Node.OpensAt source.toList nodes other brace' → brace ≤ brace') ∧
            Stylesheet.nodesWithin other source.toList = .error ⟨.tooDeep other, brace⟩) ∧
      (Stylesheet.read source = .ok nodes ↔
        Stylesheet.nodesFreely source.toList = .ok nodes ∧ Node.heightOfList nodes ≤ 256) := by
  have alike {limit other : Nat}
      (built : Stylesheet.nodesWithin limit source.toList = .ok nodes)
      (room : Node.heightOfList nodes ≤ other) :
      Stylesheet.nodesWithin other source.toList = .ok nodes := by
    obtain ⟨faultless, derived, _⟩ := Stylesheet.nodesWithin_eq_ok_iff.mp built
    exact Stylesheet.nodesWithin_eq_ok_iff.mpr ⟨faultless, derived, room⟩
  refine ⟨?_, ?_⟩
  · intro limit built
    obtain ⟨faultless, derived, within⟩ := Stylesheet.nodesWithin_eq_ok_iff.mp built
    refine ⟨within, fun other room => alike built room, ?_⟩
    intro other high
    obtain ⟨brace, first, refused⟩ := Stylesheet.nodesWithin_of_high derived high
    obtain ⟨mark, whole, mark_eq⟩ := Stylesheet.source_eq_of_faultless faultless
    have braces : ∀ head body span, Occurs (.block head body span) nodes →
        ∃ brace, Node.Braced source.toList span body brace := by
      intro head body span occurs
      rw [whole]
      exact derived.braced_of_occurs (TokenStream.raw_ne_nil_of_mem_ofText _) mark_eq occurs
    obtain ⟨opens, least⟩ := first.opensAt braces
    exact ⟨brace, opens, least, refused⟩
  · rw [Stylesheet.read_eq_ok_iff, Stylesheet.nodesFreely_eq_ok_iff]
    constructor
    · intro accepted
      exact ⟨⟨_, accepted⟩, (Stylesheet.nodesWithin_eq_ok_iff.mp accepted).2.2⟩
    · rintro ⟨⟨limit, built⟩, low⟩
      exact alike built low

/-- A tree of height 3: under the limit 1 its text is refused at the brace of `b`, the first of two
blocks that have one around them. -/
theorem nesting_limit_exact_nested :
    ∃ nodes, Stylesheet.nodesWithin 3 "a\x7bb\x7b\x7dc\x7bd\x7b\x7d\x7d\x7d".toList = .ok nodes ∧
      Node.OpensAt "a\x7bb\x7b\x7dc\x7bd\x7b\x7d\x7d\x7d".toList nodes 1 3 ∧
      Stylesheet.nodesWithin 1 "a\x7bb\x7b\x7dc\x7bd\x7b\x7d\x7d\x7d".toList =
        .error ⟨.tooDeep 1, 3⟩ := by
  have built : Stylesheet.nodesWithin 3 "a\x7bb\x7b\x7dc\x7bd\x7b\x7d\x7d\x7d".toList = .ok
      [.block (.rule [⟨"a", none⟩])
        [.block (.rule [⟨"b", none⟩]) [] ⟨2, 5⟩,
          .block (.rule [⟨"c", none⟩])
            [.block (.rule [⟨"d", none⟩]) [] ⟨7, 10⟩] ⟨5, 11⟩] ⟨0, 12⟩] := by
    decide +kernel
  have evaluated : Stylesheet.nodesWithin 1 "a\x7bb\x7b\x7dc\x7bd\x7b\x7d\x7d\x7d".toList =
      .error ⟨.tooDeep 1, 3⟩ := by
    decide +kernel
  obtain ⟨_, _, lower⟩ := (nesting_limit_exact _ _).1 3 built
  obtain ⟨brace, opens, _, refused⟩ := lower 1 (by decide)
  rw [evaluated] at refused
  cases refused
  exact ⟨_, built, opens, evaluated⟩

end StyleDoc
