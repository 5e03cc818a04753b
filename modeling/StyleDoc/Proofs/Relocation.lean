import StyleDoc.Doc.Extraction
import StyleDoc.Proofs.Printing

/-!
# Trees in other places

`Node.relocate` gives a tree other offsets and leaves the rest as it is.  The tokens that derive a
tree derive it at every other place too, moved along.  What a tree says, and what happens to the
comments in it, does not depend on its offsets, nor on the blanks between its statements.
-/

namespace StyleDoc

namespace Node

mutual

/-- The node with other offsets, at every depth. -/
def relocate (move : Nat → Nat) : Node → Node
  | leaf content span => leaf content ⟨move span.start, move span.stop⟩
  | block head body span =>
      block head (relocateList move body) ⟨move span.start, move span.stop⟩

def relocateList (move : Nat → Nat) : List Node → List Node
  | [] => []
  | node :: nodes => relocate move node :: relocateList move nodes

end

theorem relocateList_eq_map (move : Nat → Nat) (nodes : List Node) :
    relocateList move nodes = nodes.map (relocate move) := by
  induction nodes with
  | nil => rfl
  | cons node nodes ih => rw [relocateList, ih, List.map_cons]

theorem relocateList_reverse (move : Nat → Nat) (nodes : List Node) :
    relocateList move nodes.reverse = (relocateList move nodes).reverse := by
  simp [relocateList_eq_map]

mutual

theorem height_relocate (move : Nat → Nat) : (node : Node) →
    (node.relocate move).height = node.height
  | leaf _ _ => rfl
  | block _ body _ => by rw [relocate, height, height, heightOfList_relocateList]

theorem heightOfList_relocateList (move : Nat → Nat) : (nodes : List Node) →
    heightOfList (relocateList move nodes) = heightOfList nodes
  | [] => rfl
  | node :: nodes => by
      rw [relocateList, heightOfList, heightOfList, height_relocate,
        heightOfList_relocateList move nodes]

end

end Node

/-- Tokens derive the same nodes at another place. -/
theorem Derives.relocate {move : Nat → Nat} {offset : Nat} {tokens : List Token}
    {nodes : List Node} (derived : Derives offset tokens nodes)
    (shifts : ∀ n, move (offset + n) = move offset + n) :
    Derives (move offset) tokens (Node.relocateList move nodes) := by
  have later (offset width : Nat) (shifts : ∀ n, move (offset + n) = move offset + n) :
      ∀ n, move (offset + width + n) = move (offset + width) + n := by
    intro n
    rw [Nat.add_assoc, shifts, shifts, Nat.add_assoc]
  induction derived with
  | nil => exact .nil
  | @leaf offset token content tokens nodes stands _ ih =>
      have rest := ih (later offset token.width shifts)
      rw [shifts] at rest
      simpa [Node.relocateList, Node.relocate, shifts] using Derives.leaf stands rest
  | @block offset stop pieces head inner tokens body nodes read _ stop_eq _ ihInside ihLater =>
      have total : stop = offset + ((Token.header pieces).width + tokensWidth inner + 1) := by
        omega
      have inside := ihInside (later offset _ shifts)
      have rest := ihLater (by rw [total]; exact later offset _ shifts)
      rw [shifts] at inside
      have stop_eq' : move stop =
          move offset + (Token.header pieces).width + tokensWidth inner + 1 := by
        rw [total, shifts]
        omega
      exact .block read inside stop_eq' rest

theorem Derives.atStart {offset : Nat} {tokens : List Token} {nodes : List Node}
    (derived : Derives offset tokens nodes) :
    Derives 0 tokens (Node.relocateList (· - offset) nodes) := by
  have moved := @Derives.relocate (· - offset) offset tokens nodes derived fun n => by omega
  simpa using moved

/-! ## The parts of a tree -/

/-- What a token stands for in a tree. -/
inductive Part
  | leaf (content : Leaf)
  | header (head : Except SyntaxCause Head)
  | close

namespace Token

def part : Token → Part
  | blank _ => .leaf .blank
  | comment form text => .leaf (Leaf.ofComment form text)
  | semicolon => .leaf .terminator
  | statement pieces => .leaf (Leaf.ofText (statementText pieces))
  | header pieces => .header (Head.ofText (statementText pieces))
  | close => .close

theorem part_eq_leaf_iff {token : Token} {content : Leaf} :
    token.part = .leaf content ↔ token.leaf? = some content := by
  cases token <;> simp [part, leaf?]

theorem part_eq_header {token : Token} {head : Except SyntaxCause Head}
    (h : token.part = .header head) :
    ∃ pieces, token = .header pieces ∧ Head.ofText (statementText pieces) = head := by
  cases token with
  | header pieces =>
      cases h
      exact ⟨pieces, rfl, rfl⟩
  | _ => cases h

theorem part_eq_close {token : Token} (h : token.part = .close) : token = .close := by
  cases token with
  | close => rfl
  | _ => cases h

end Token

def Node.unplaced (nodes : List Node) : List Node := relocateList (fun _ => 0) nodes

theorem Node.heightOfList_unplaced (nodes : List Node) :
    heightOfList (unplaced nodes) = heightOfList nodes :=
  heightOfList_relocateList _ nodes

/-- Tokens with the same parts derive the same nodes, apart from their places. -/
theorem Derives.of_parts {offset : Nat} {tokens tokens' : List Token} {nodes : List Node}
    (derived : Derives offset tokens nodes)
    (same : tokens'.map Token.part = tokens.map Token.part) (offset' : Nat) :
    ∃ nodes', Derives offset' tokens' nodes' ∧ Node.unplaced nodes' = Node.unplaced nodes := by
  induction derived generalizing tokens' offset' with
  | nil =>
      rw [List.map_nil, List.map_eq_nil_iff] at same
      subst same
      exact ⟨[], .nil, rfl⟩
  | leaf stands _ ih =>
      rw [List.map_cons, List.map_eq_cons_iff] at same
      obtain ⟨token', later, rfl, part, sameLater⟩ := same
      rw [Token.part_eq_leaf_iff.mpr stands, Token.part_eq_leaf_iff] at part
      obtain ⟨nodes', rest, said⟩ := ih sameLater (offset' + token'.width)
      refine ⟨_, .leaf part rest, ?_⟩
      simp only [Node.unplaced, Node.relocateList, Node.relocate] at said ⊢
      rw [said]
  | block read _ stop_eq _ ihInside ihLater =>
      rw [List.cons_append, List.map_cons, List.map_eq_cons_iff] at same
      obtain ⟨header', more, rfl, headerPart, same⟩ := same
      rw [List.map_append, List.map_cons, List.map_eq_append_iff] at same
      obtain ⟨inner', more, rfl, sameInside, same⟩ := same
      rw [List.map_eq_cons_iff] at same
      obtain ⟨close', later, rfl, closePart, sameLater⟩ := same
      obtain ⟨pieces', rfl, readAgain⟩ := Token.part_eq_header headerPart
      cases Token.part_eq_close closePart
      rw [read] at readAgain
      obtain ⟨body', inside, saidInside⟩ :=
        ihInside sameInside (offset' + (Token.header pieces').width)
      obtain ⟨nodes', rest, said⟩ := ihLater sameLater
        (offset' + (Token.header pieces').width + tokensWidth inner' + 1)
      refine ⟨_, .block readAgain inside rfl rest, ?_⟩
      simp only [Node.unplaced, Node.relocateList, Node.relocate] at saidInside said ⊢
      rw [saidInside, said]

/-! ## What a tree says -/

namespace Outline

mutual

theorem ofNode_relocate (move : Nat → Nat) : (node : Node) →
    ofNode (node.relocate move) = ofNode node
  | .leaf content _ => by cases content <;> rfl
  | .block _ body _ => by rw [Node.relocate, ofNode, ofNode, ofNodes_relocateList move body]

theorem ofNodes_relocateList (move : Nat → Nat) : (nodes : List Node) →
    ofNodes (Node.relocateList move nodes) = ofNodes nodes
  | [] => rfl
  | node :: nodes => by
      rw [Node.relocateList, ofNodes, ofNodes, ofNode_relocate, ofNodes_relocateList move nodes]

end

mutual

/-- A node that says the given, at no particular place. -/
def toNode : Outline → Node
  | leaf content => .leaf content default
  | block head body => .block head (toNodes body) default

def toNodes : List Outline → List Node
  | [] => []
  | item :: items => toNode item :: toNodes items

end

theorem toNodes_append (a b : List Outline) : toNodes (a ++ b) = toNodes a ++ toNodes b := by
  induction a with
  | nil => rfl
  | cons item a ih => rw [List.cons_append, toNodes, toNodes, ih, List.cons_append]

end Outline

/-! ## What happens to comments -/

namespace Node

theorem eventsOfList_append (pending : Option String) (a b : List Node) :
    eventsOfList pending (a ++ b) =
      eventsOfList pending a ++ eventsOfList (a.foldl pendingAfter pending) b := by
  induction a generalizing pending with
  | nil => simp [eventsOfList]
  | cons node a ih => simp [eventsOfList, ih]

theorem pendingAfter_block (pending : Option String) (head : Head) (body body' : List Node)
    (span span' : ByteRange) :
    (block head body span).pendingAfter pending =
      (block head body' span').pendingAfter pending := by
  cases head <;> rfl

theorem pendingAfter_leaf (pending : Option String) (content : Leaf) (span span' : ByteRange) :
    (leaf content span).pendingAfter pending = (leaf content span').pendingAfter pending := by
  rcases content with _ | _ | ⟨form, text⟩ | _ | _
  case comment => cases form <;> rfl
  all_goals rfl

theorem events_leaf (pending : Option String) (content : Leaf) (span span' : ByteRange) :
    (leaf content span).events pending = (leaf content span').events pending := by
  rcases content with _ | _ | ⟨form, text⟩ | _ | _
  case comment => cases form <;> cases pending <;> rfl
  all_goals cases pending <;> rfl

theorem events_blank (pending : Option String) (span : ByteRange) :
    (leaf .blank span).events pending = [] := by
  cases pending <;> rfl

/-- Only a nesting at-rule lets its body meet the comment in front of it. -/
theorem events_block (pending : Option String) (head : Head) {body body' : List Node}
    (same : eventsOfList pending body = eventsOfList pending body') (span span' : ByteRange) :
    (block head body span).events pending = (block head body' span').events pending := by
  cases head with
  | nesting keyword prelude => exact same
  | _ => cases pending <;> rfl

end Node

namespace Outline

open Node (eventsOfList pendingAfter)

theorem foldl_pendingAfter_toNodes_ofNode (pending : Option String) (node : Node) :
    (toNodes (ofNode node)).foldl pendingAfter pending = node.pendingAfter pending := by
  cases node with
  | leaf content span =>
      by_cases blank : content = .blank
      · subst blank
        rfl
      · rw [ofNode_leaf blank]
        exact Node.pendingAfter_leaf pending content _ _
  | block head body span => exact Node.pendingAfter_block pending head _ _ _ _

mutual

theorem eventsOfList_toNodes_ofNode (pending : Option String) : (node : Node) →
    eventsOfList pending (toNodes (ofNode node)) = node.events pending
  | .leaf content span => by
      by_cases blank : content = .blank
      · subst blank
        exact (Node.events_blank pending span).symm
      · rw [ofNode_leaf blank]
        simpa [toNodes, toNode, eventsOfList] using Node.events_leaf pending content _ _
  | .block head body span => by
      have inside := eventsOfList_toNodes_ofNodes pending body
      simpa [ofNode, toNodes, toNode, eventsOfList] using Node.events_block pending head inside _ _

/-- What happens to the comments of a tree depends only on what the tree says. -/
theorem eventsOfList_toNodes_ofNodes (pending : Option String) : (nodes : List Node) →
    eventsOfList pending (toNodes (ofNodes nodes)) = eventsOfList pending nodes
  | [] => rfl
  | node :: nodes => by
      rw [ofNodes, toNodes_append, Node.eventsOfList_append, eventsOfList_toNodes_ofNode,
        foldl_pendingAfter_toNodes_ofNode, eventsOfList_toNodes_ofNodes _ nodes, eventsOfList]

end

/-- Trees that say the same lead to the same extraction. -/
theorem ofNodes_extraction {ε : Type} (reader : CommentReader ε) (labels : Labels)
    {nodes nodes' : List Node} (same : ofNodes nodes' = ofNodes nodes) :
    Extraction.ofNodes reader labels nodes' = Extraction.ofNodes reader labels nodes := by
  rw [Extraction.ofNodes, ← eventsOfList_toNodes_ofNodes, same, eventsOfList_toNodes_ofNodes,
    Extraction.ofNodes]

end Outline

end StyleDoc
