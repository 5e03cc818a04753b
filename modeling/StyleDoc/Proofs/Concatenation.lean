import StyleDoc.Proofs.Relocation
import StyleDoc.Proofs.TokenSeams

/-!
# Texts one after another

A text that ends with a semicolon, a block comment or a block can be followed by any other text:
reading both is reading each, with the offsets of the second moved behind the first, be they those
of its tree or that of its fault.  If no comment waits at the end of the first text, the
documentation of both is that of each as well.
-/

namespace StyleDoc

/-! ## Building behind other nodes -/

def Fault.moved (shift : Nat) (fault : Fault) : Fault :=
  { fault with offset := shift + fault.offset }

namespace Construction

/-- The nodes before those of the list under construction: `base`, if no block is open. -/
def floor (base : List Node) : List OpenBlock → List Node
  | [] => base
  | _ :: _ => []

def movedBlocks (shift : Nat) (base : List Node) : List OpenBlock → List OpenBlock
  | [] => []
  | block :: blocks =>
      ⟨shift + block.start, shift + block.brace, block.header,
        Node.relocateList (shift + ·) block.earlier ++ floor base blocks⟩ ::
          movedBlocks shift base blocks

/-- The same tree under construction further on, behind the nodes `base` (latest first). -/
def moved (shift : Nat) (base : List Node) (tree : Construction) : Construction :=
  ⟨shift + tree.offset, movedBlocks shift base tree.blocks,
    Node.relocateList (shift + ·) tree.nodes ++ floor base tree.blocks⟩

theorem length_movedBlocks (shift : Nat) (base : List Node) (blocks : List OpenBlock) :
    (movedBlocks shift base blocks).length = blocks.length := by
  induction blocks with
  | nil => rfl
  | cons block blocks ih => rw [movedBlocks, List.length_cons, ih, List.length_cons]

theorem addLeaf_moved (shift : Nat) (base : List Node) (tree : Construction) (token : Token)
    (content : Leaf) :
    (tree.moved shift base).addLeaf token content =
      (tree.addLeaf token content).moved shift base := by
  simp [addLeaf, moved, Node.relocateList, Node.relocate, Nat.add_assoc]

theorem openBlock_moved (limit shift : Nat) (base : List Node) (tree : Construction)
    (pieces : List Piece) :
    (tree.moved shift base).openBlock limit pieces =
      ((tree.openBlock limit pieces).map (moved shift base)).mapError (Fault.moved shift) := by
  unfold openBlock
  simp only [moved, length_movedBlocks]
  by_cases full : limit ≤ tree.blocks.length
  · simp [full, Except.map, Fault.moved, Nat.add_assoc]
  · simp [full, Except.map, moved, movedBlocks, floor, Node.relocateList,
      Nat.add_assoc]

theorem closeBlock_moved (shift : Nat) (base : List Node) (tree : Construction) :
    (tree.moved shift base).closeBlock =
      (tree.closeBlock.map (moved shift base)).mapError (Fault.moved shift) := by
  obtain ⟨offset, blocks, nodes⟩ := tree
  cases blocks with
  | nil => rfl
  | cons block blocks =>
      cases read : Head.ofText (statementText block.header) with
      | error cause =>
          simp [closeBlock, moved, movedBlocks, read, Except.map, Fault.moved]
      | ok head =>
          simp [closeBlock, moved, movedBlocks, floor, read, Except.map,
            Node.relocateList, Node.relocate, Node.relocateList_reverse, Nat.add_assoc]

theorem add_moved (limit shift : Nat) (base : List Node) (tree : Construction) (token : Token) :
    (tree.moved shift base).add limit token =
      ((tree.add limit token).map (moved shift base)).mapError (Fault.moved shift) := by
  cases token with
  | header pieces => exact openBlock_moved limit shift base tree pieces
  | close => exact closeBlock_moved shift base tree
  | blank text => exact congrArg Except.ok (addLeaf_moved shift base tree _ _)
  | comment form text => exact congrArg Except.ok (addLeaf_moved shift base tree _ _)
  | semicolon => exact congrArg Except.ok (addLeaf_moved shift base tree _ _)
  | statement pieces => exact congrArg Except.ok (addLeaf_moved shift base tree _ _)

theorem foldlM_add_moved (limit shift : Nat) (base : List Node) (tree : Construction)
    (tokens : List Token) :
    tokens.foldlM (add limit) (tree.moved shift base) =
      ((tokens.foldlM (add limit) tree).map (moved shift base)).mapError (Fault.moved shift) := by
  induction tokens generalizing tree with
  | nil => rfl
  | cons token tokens ih =>
      rw [List.foldlM_cons, List.foldlM_cons, add_moved]
      cases added : tree.add limit token with
      | error fault => rfl
      | ok next => exact ih next

/-- A tree is built further on, behind the nodes `base`, as it is built here. -/
theorem build_moved (limit shift : Nat) (base : List Node) (tree : Construction)
    (stream : TokenStream) :
    build limit (tree.moved shift base) stream =
      ((build limit tree stream).map fun nodes =>
        base.reverse ++ Node.relocateList (shift + ·) nodes).mapError (Fault.moved shift) := by
  unfold build
  rw [foldlM_add_moved]
  cases built : stream.tokens.foldlM (add limit) tree with
  | error fault => rfl
  | ok last =>
      obtain ⟨offset, blocks, nodes⟩ := last
      cases faulty : stream.fault with
      | some fault =>
          simp [Except.map, bind, Except.bind, moved, Fault.moved, Nat.add_assoc]
      | none =>
          cases blocks with
          | nil =>
              simp [Except.map, bind, Except.bind, moved, movedBlocks, floor,
                finish, Node.relocateList_reverse]
          | cons block blocks =>
              simp [Except.map, bind, Except.bind, moved, movedBlocks, finish,
                Fault.moved]

end Construction

/-! ## The seam -/

/-- A node that ends by itself: a semicolon, a block comment, or a node with a block. -/
def Node.isClosed : Node → Bool
  | leaf .terminator _ => true
  | leaf (.comment .block _) _ => true
  | block _ _ _ => true
  | leaf _ _ => false

theorem Leaf.declaration?_cases {text : List Char} {leaf : Leaf}
    (h : declaration? text = some leaf) :
    ∃ name value, leaf = declaration name value := by
  unfold declaration? at h
  split at h
  · split at h
    · split at h
      · cases h
        exact ⟨_, _, rfl⟩
      · cases h
    · cases h
  · cases h

theorem Leaf.ofText_cases (text : List Char) :
    (∃ name value, ofText text = declaration name value) ∨
      ∃ trimmed, ofText text = statement trimmed := by
  have unfolded : ofText text =
      (declaration? (Text.trim text)).getD (statement (String.ofList (Text.trim text))) := rfl
  rw [unfolded]
  cases found : declaration? (Text.trim text) with
  | some leaf => exact .inl (declaration?_cases found)
  | none => exact .inr ⟨_, rfl⟩

theorem Token.fits_of_isClosed {token : Token} {content : Leaf} {span : ByteRange}
    (stands : token.leaf? = some content) (closed : (Node.leaf content span).isClosed = true)
    (rest : List Char) : token.Fits rest := by
  cases token with
  | comment form text =>
      cases form with
      | block => trivial
      | line =>
          cases stands
          cases closed
  | blank text =>
      cases stands
      cases closed
  | statement pieces =>
      cases stands
      rcases Leaf.ofText_cases (statementText pieces) with ⟨name, value, read⟩ | ⟨trimmed, read⟩
      · rw [read] at closed
        cases closed
      · rw [read] at closed
        cases closed
  | semicolon => trivial
  | header pieces => trivial
  | close => trivial

theorem Derives.ne_nil {offset : Nat} {tokens : List Token} {nodes : List Node}
    (derived : Derives offset tokens nodes) (nonempty : tokens ≠ []) : nodes ≠ [] := by
  cases derived with
  | nil => exact (nonempty rfl).elim
  | leaf => simp
  | block => simp

/-- Anything fits after the tokens of nodes of which the last ends by itself. -/
theorem Derives.fits_of_isClosed {offset : Nat} {tokens : List Token} {nodes : List Node}
    (derived : Derives offset tokens nodes)
    (closed : ∀ node ∈ nodes.getLast?, node.isClosed = true) (rest : List Char) :
    ∀ token ∈ tokens.getLast?, token.Fits rest := by
  induction derived with
  | nil => simp
  | @leaf offset token content tokens nodes stands later ih =>
      by_cases last : tokens = []
      · subst last
        cases later
        rintro _ ⟨⟩
        exact Token.fits_of_isClosed stands (closed _ rfl) rest
      · have more := later.ne_nil last
        rw [← List.singleton_append, List.getLast?_append_of_ne_nil _ more] at closed
        rw [← List.singleton_append, List.getLast?_append_of_ne_nil _ last]
        exact ih closed
  | @block offset stop pieces head inner tokens body nodes read inside stop_eq later _ ih =>
      by_cases last : tokens = []
      · subst last
        rw [List.getLast?_append_of_ne_nil _ (by simp)]
        rintro _ ⟨⟩
        trivial
      · have more := later.ne_nil last
        rw [← List.singleton_append, List.getLast?_append_of_ne_nil _ more] at closed
        rw [← List.singleton_append (x := Token.close), ← List.append_assoc,
          List.getLast?_append_of_ne_nil _ last]
        exact ih closed

namespace Stylesheet

theorem isMark_append {mark body more : List Char} (isMark : IsMark mark body)
    (noMark : more.head? ≠ some '\ufeff') : IsMark mark (body ++ more) := by
  rcases isMark with marked | ⟨unmarked, first⟩
  · exact .inl marked
  · refine .inr ⟨unmarked, ?_⟩
    cases body with
    | nil => exact noMark
    | cons c body => exact first

theorem nodesWithin_of_isMark {limit : Nat} {mark body : List Char} (isMark : IsMark mark body) :
    nodesWithin limit (mark ++ body) =
      Construction.build limit ⟨Text.byteSize mark, [], []⟩ (TokenStream.ofText body) := by
  calc nodesWithin limit (mark ++ body)
      = Construction.build limit ⟨bodyStart (mark ++ body), [], []⟩
          (TokenStream.ofText (withoutMark (mark ++ body))) := rfl
    _ = Construction.build limit ⟨Text.byteSize mark, [], []⟩ (TokenStream.ofText body) := by
        rw [bodyStart_of_isMark isMark, withoutMark_of_isMark isMark]

/-- The first text is read as it is, and the second as if it stood alone, but further on. -/
theorem nodesWithin_append {a : String} {b : List Char} {first : List Node}
    (accepted : read a = .ok first) (noMark : b.head? ≠ some '\ufeff')
    (closed : ∀ node ∈ first.getLast?, node.isClosed = true) :
    nodesWithin maxDepth (a.toList ++ b) =
      ((nodesWithin maxDepth b).map fun second =>
        first ++ Node.relocateList (Text.byteSize a.toList + ·) second).mapError
          (Fault.moved (Text.byteSize a.toList)) := by
  obtain ⟨mark, tokens, whole, isMark, _, cut, derived, room⟩ := exists_tokens_of_read accepted
  have size : Text.byteSize a.toList = Text.byteSize mark + tokensWidth tokens := by
    rw [whole, Text.byteSize_append, tokensWidth]
  have isMarkOfBoth := isMark_append isMark noMark
  have isMarkOfSecond : IsMark [] b := .inr ⟨rfl, noMark⟩
  have built : tokens.foldlM (Construction.add maxDepth) ⟨Text.byteSize mark, [], []⟩ =
      .ok ((⟨0, [], []⟩ : Construction).moved (Text.byteSize a.toList) first.reverse) := by
    rw [Construction.foldlM_add_of_derives derived [] [] (by simpa using room), ← size]
    simp [Construction.moved, Construction.movedBlocks, Construction.floor, Node.relocateList]
  have second := Construction.build_moved maxDepth (Text.byteSize a.toList) first.reverse
    ⟨0, [], []⟩ (TokenStream.ofText b)
  have alone : nodesWithin maxDepth b =
      Construction.build maxDepth ⟨0, [], []⟩ (TokenStream.ofText b) :=
    nodesWithin_of_isMark isMarkOfSecond
  rw [List.reverse_reverse, ← alone] at second
  rw [← second, whole, List.append_assoc, nodesWithin_of_isMark isMarkOfBoth,
    TokenStream.ofText_rawTokens_append cut (derived.fits_of_isClosed closed b),
    Construction.build, List.foldlM_append, built, ← whole]
  rfl

end Stylesheet

/-! ## Documentation -/

/-- A node after which a comment can wait: a block comment or a nesting at-rule. -/
def Node.holdsComment : Node → Bool
  | leaf (.comment .block _) _ => true
  | block (.nesting _ _) _ _ => true
  | _ => false

theorem Node.foldl_pendingAfter {nodes : List Node}
    (closed : ∀ node ∈ nodes.getLast?, node.isClosed = true)
    (drops : ∀ node ∈ nodes.getLast?, node.holdsComment = false) :
    nodes.foldl pendingAfter none = none := by
  rcases List.eq_nil_or_concat nodes with rfl | ⟨earlier, node, rfl⟩
  · rfl
  · have isClosed := closed node (by simp)
    have isDropping := drops node (by simp)
    rw [List.concat_eq_append, List.foldl_append, List.foldl_cons, List.foldl_nil]
    rcases node with ⟨content, span⟩ | ⟨head, body, span⟩
    · rcases content with _ | _ | ⟨form, text⟩ | _ | _
      case comment => cases form <;> simp_all [pendingAfter, holdsComment]
      all_goals simp_all [pendingAfter, Node.isClosed]
    · cases head <;> simp_all [pendingAfter, holdsComment]

theorem Token.Begins.head?_of_comment {text whole rest : List Char} {form : CommentForm}
    (begins : Begins whole (.comment form text) rest) : whole.head? = some '/' := by
  cases begins <;> rfl

namespace Extraction

/-- Extraction from events that follow one another: the first refusal ends it. -/
theorem result_ofEvents_append {ε : Type} (reader : CommentReader ε) (labels : Labels)
    (a b : List Event) :
    (ofEvents reader labels (a ++ b)).result = do
      let first ← (ofEvents reader labels a).result
      let second ← (ofEvents reader labels b).result
      return first ++ second := by
  induction a with
  | nil =>
      rw [List.nil_append]
      cases (ofEvents reader labels b).result <;> rfl
  | cons event a ih =>
      cases event with
      | discard kindWord => exact ih
      | consult comment target =>
          cases answer : reader comment labels.contentType with
          | error error => simp [ofEvents, answer, bind, Except.bind]
          | ok draft =>
              simp only [List.cons_append, ofEvents, answer, consult, ih]
              cases (ofEvents reader labels a).result with
              | error error => rfl
              | ok first =>
                  cases (ofEvents reader labels b).result with
                  | error error => rfl
                  | ok second => simp [bind, Except.bind, Except.map, pure, Except.pure]

theorem eventsOfList_of_blank {offset : Nat} {tokens : List Token} {nodes : List Node}
    (derived : Derives offset tokens nodes) (alone : ∀ token ∈ tokens, token.Alone)
    (blank : ∀ token ∈ tokens, ∀ c ∈ token.raw, Text.isBlank c = true) :
    Node.eventsOfList none nodes = [] := by
  induction derived with
  | nil => rfl
  | @leaf offset token content tokens nodes stands _ ih =>
      rw [List.forall_mem_cons] at alone blank
      have later := ih alone.2 blank.2
      have waits : (Node.leaf content ⟨offset, offset + token.width⟩).pendingAfter none = none := by
        cases token with
        | comment form text =>
            cases blank.1 '/' (List.mem_of_mem_head? (Token.Begins.head?_of_comment alone.1))
        | statement pieces =>
            cases stands
            rcases Leaf.ofText_cases (statementText pieces) with
              ⟨name, value, read⟩ | ⟨trimmed, read⟩
            · rw [read]
              rfl
            · rw [read]
              rfl
        | blank text =>
            cases stands
            rfl
        | semicolon =>
            cases stands
            rfl
        | header pieces => cases stands
        | close => cases stands
      rw [Node.eventsOfList, waits, later, List.append_nil]
      rfl
  | @block offset stop pieces head inner tokens body nodes =>
      have visible : '{' ∈ (Token.header pieces).raw := by simp [Token.raw]
      cases blank _ List.mem_cons_self '{' visible

/-- The tree of a blank text asks for no comment and discards none. -/
theorem ofNodes_of_blank {ε : Type} (reader : CommentReader ε) (labels : Labels) {source : String}
    {nodes : List Node} (blank : ∀ c ∈ source.toList, Text.isBlank c = true)
    (accepted : Stylesheet.read source = .ok nodes) : ofNodes reader labels nodes = empty := by
  obtain ⟨mark, tokens, whole, _, _, cut, derived, _⟩ := Stylesheet.exists_tokens_of_read accepted
  rw [whole] at blank
  have nothing := eventsOfList_of_blank derived cut.alone_of_mem fun token member c inToken =>
    blank c (List.mem_append_right _ (List.mem_flatMap.mpr ⟨token, member, inToken⟩))
  rw [ofNodes, nothing]
  rfl

/-- The entities of an accepted text are those of its tree, also if the text is blank. -/
theorem result_ofText_of_read {ε : Type} (reader : CommentReader ε) (labels : Labels)
    {source : String} {nodes : List Node} (accepted : Stylesheet.read source = .ok nodes) :
    (ofText readTree reader labels source).result = (ofNodes reader labels nodes).result := by
  unfold ofText
  split
  · next blank => rw [ofNodes_of_blank reader labels (List.all_eq_true.mp blank) accepted]
  · have tree : readTree source = .ok nodes := by
      rw [readTree, accepted]
      rfl
    simp only [tree, counted]
    split <;> rfl

end Extraction

/-! ## The statement -/

theorem Stylesheet.eq_nil_iff_of_read {source : String} {nodes : List Node}
    (accepted : read source = .ok nodes) : nodes = [] ↔ source = "" ∨ source = "\ufeff" := by
  constructor
  · rintro rfl
    obtain ⟨mark, tokens, whole, isMark, _, _, derived, _⟩ := exists_tokens_of_read accepted
    have noTokens : tokens = [] := by
      by_contra some
      exact derived.ne_nil some rfl
    rw [noTokens, rawTokens_nil, List.append_nil] at whole
    rw [← String.toList_inj, ← String.toList_inj, whole]
    rcases isMark with rfl | ⟨rfl, _⟩
    · exact .inr rfl
    · exact .inl rfl
  · intro trivial
    have nothing : read source = .ok [] := by
      rcases trivial with rfl | rfl
      · exact read_eq_ok_of_toOption (by decide +kernel)
      · exact read_eq_ok_of_toOption (by decide +kernel)
    rw [nothing] at accepted
    exact (Except.ok.inj accepted).symm

/--
Reading goes on behind a text that ends by itself as if it started there.  The first text must be
accepted, and end with a semicolon, a block comment or a block, or have no nodes, in which case it
is empty or a byte order mark; the second must not start with such a mark.  The tree of both texts
is the tree of the first and that of the second, moved; a fault of the second text is reported at
its own place, moved.  If the first text leaves no comment waiting, extraction from both is
extraction from each: entities follow one another, and the first refusal is the result.
-/
theorem read_append_of_closed {a b : String} {first : List Node}
    (accepted : Stylesheet.read a = .ok first) (noMark : b.toList.head? ≠ some '\ufeff')
    (closed : ∀ node ∈ first.getLast?, node.isClosed = true) :
    (first = [] ↔ a = "" ∨ a = "\ufeff") ∧
      (∀ second, Stylesheet.read b = .ok second → Stylesheet.read (a ++ b) = .ok
        (first ++ Node.relocateList (Text.byteSize a.toList + ·) second)) ∧
      (∀ fault, Stylesheet.nodesWithin Stylesheet.maxDepth b.toList = .error fault →
        Stylesheet.read b = .error (Located.ofOffset b.toList fault.offset fault.cause) ∧
        Stylesheet.read (a ++ b) = .error (Located.ofOffset (a ++ b).toList
          (Text.byteSize a.toList + fault.offset) fault.cause)) ∧
      ∀ second, Stylesheet.read b = .ok second →
        (∀ node ∈ first.getLast?, node.holdsComment = false) →
        ∀ {ε : Type} (reader : CommentReader ε) (labels : Labels),
          (Extraction.ofText readTree reader labels (a ++ b)).result = do
            let entities ← (Extraction.ofText readTree reader labels a).result
            let more ← (Extraction.ofText readTree reader labels b).result
            return entities ++ more := by
  have joined := Stylesheet.nodesWithin_append accepted noMark closed
  have tree : ∀ second, Stylesheet.read b = .ok second → Stylesheet.read (a ++ b) = .ok
      (first ++ Node.relocateList (Text.byteSize a.toList + ·) second) := by
    intro second read
    rw [Stylesheet.read_eq_ok_iff, String.toList_append, joined,
      Stylesheet.read_eq_ok_iff.mp read]
    rfl
  refine ⟨Stylesheet.eq_nil_iff_of_read accepted, tree, ?_, ?_⟩
  · intro fault refused
    constructor
    · rw [Stylesheet.read, refused]
      rfl
    · rw [Stylesheet.read, String.toList_append, joined, refused]
      rfl
  · intro second read drops ε reader labels
    have same : Extraction.ofNodes reader labels
        (Node.relocateList (Text.byteSize a.toList + ·) second) =
          Extraction.ofNodes reader labels second :=
      Outline.ofNodes_extraction reader labels (Outline.ofNodes_relocateList _ second)
    rw [Extraction.result_ofText_of_read reader labels accepted,
      Extraction.result_ofText_of_read reader labels read,
      Extraction.result_ofText_of_read reader labels (tree second read), ← same,
      Extraction.ofNodes, Node.eventsOfList_append, Node.foldl_pendingAfter closed drops,
      Extraction.result_ofEvents_append]
    rfl

/-- A rule, and behind it a declaration or a bracket that is not closed. -/
theorem read_append_of_closed_rule :
    Stylesheet.read ("é\x7b\x7d" ++ "$b:1") = .ok
        [.block (.rule [⟨"é", none⟩]) [] ⟨0, 4⟩, .leaf (.declaration "b" "1") ⟨4, 8⟩] ∧
      Stylesheet.read ("é\x7b\x7d" ++ "\n (") = .error ⟨.unclosedGroup, ⟨2, 2⟩⟩ := by
  have accepted : Stylesheet.read "é\x7b\x7d" = .ok [.block (.rule [⟨"é", none⟩]) [] ⟨0, 4⟩] :=
    Stylesheet.read_eq_ok_of_toOption (by decide +kernel)
  have second : Stylesheet.read "$b:1" = .ok [.leaf (.declaration "b" "1") ⟨0, 4⟩] :=
    Stylesheet.read_eq_ok_of_toOption (by decide +kernel)
  have refused : Stylesheet.nodesWithin Stylesheet.maxDepth "\n (".toList =
      .error ⟨.unclosedGroup, 2⟩ := by
    decide +kernel
  constructor
  · exact (read_append_of_closed accepted (by decide) (by simp [Node.isClosed])).2.1 _ second
  · exact ((read_append_of_closed accepted (by decide) (by simp [Node.isClosed])).2.2.1 _
      refused).2

end StyleDoc
