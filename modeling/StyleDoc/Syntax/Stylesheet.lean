import StyleDoc.Syntax.Header
import StyleDoc.Syntax.Token

/-!
# Analysis of a stylesheet

The statement tree of a text.  Tokens are added one by one to a tree under construction, which
keeps the blocks that are still open as a stack.  A block is read when its closing brace comes,
so that what is wrong inside it is reported before what is wrong with its header.
-/

namespace StyleDoc

/-- A block whose closing brace has not come yet. -/
structure OpenBlock where
  start : Nat
  brace : Nat
  header : List Piece
  /-- The nodes beside the block that come before it, latest first. -/
  earlier : List Node

structure Construction where
  offset : Nat
  /-- The blocks that are open, innermost first. -/
  blocks : List OpenBlock
  /-- The nodes of the innermost open block, latest first. -/
  nodes : List Node

namespace Construction

def addLeaf (tree : Construction) (token : Token) (leaf : Leaf) : Construction :=
  { tree with
    offset := tree.offset + token.width
    nodes := .leaf leaf ⟨tree.offset, tree.offset + token.width⟩ :: tree.nodes }

def openBlock (limit : Nat) (tree : Construction) (pieces : List Piece) :
    Except Fault Construction :=
  let brace := tree.offset + Text.byteSize (rawText pieces)
  if limit ≤ tree.blocks.length then .error ⟨.tooDeep limit, brace⟩
  else .ok
    { offset := brace + 1
      blocks := ⟨tree.offset, brace, pieces, tree.nodes⟩ :: tree.blocks
      nodes := [] }

/-- Closes the innermost open block and reads what stands in front of it. -/
def closeBlock (tree : Construction) : Except Fault Construction :=
  match tree.blocks with
  | [] => .error ⟨.unexpectedClose, tree.offset⟩
  | block :: blocks =>
      match Head.ofText (statementText block.header) with
      | .error cause => .error ⟨cause, block.start⟩
      | .ok head => .ok
          { offset := tree.offset + 1
            blocks := blocks
            nodes := .block head tree.nodes.reverse ⟨block.start, tree.offset + 1⟩ ::
              block.earlier }

def add (limit : Nat) (tree : Construction) (token : Token) : Except Fault Construction :=
  match token with
  | .blank _ => .ok (tree.addLeaf token .blank)
  | .comment form text => .ok (tree.addLeaf token (Leaf.ofComment form text))
  | .semicolon => .ok (tree.addLeaf token .terminator)
  | .statement pieces => .ok (tree.addLeaf token (Leaf.ofText (statementText pieces)))
  | .header pieces => tree.openBlock limit pieces
  | .close => tree.closeBlock

def finish (tree : Construction) : Except Fault (List Node) :=
  match tree.blocks with
  | [] => .ok tree.nodes.reverse
  | block :: _ => .error ⟨.unclosedBlock, block.brace⟩

def build (limit : Nat) (tree : Construction) (stream : TokenStream) :
    Except Fault (List Node) := do
  let tree ← stream.tokens.foldlM (add limit) tree
  match stream.fault with
  | some fault => .error { fault with offset := tree.offset + fault.offset }
  | none => tree.finish

end Construction

namespace Stylesheet

def maxDepth : Nat := 256

def withoutMark : List Char → List Char
  | '\ufeff' :: text => text
  | text => text

/--
The statement tree of a text whose blocks are nested at most `limit` deep.  A byte order mark is
skipped, but counts for the offsets.
-/
def nodesWithin (limit : Nat) (source : List Char) : Except Fault (List Node) :=
  let body := withoutMark source
  let start := Text.byteSize source - Text.byteSize body
  Construction.build limit ⟨start, [], []⟩ (TokenStream.ofText body)

def read (source : String) : Except Refusal (List Node) :=
  (nodesWithin maxDepth source.toList).mapError fun fault =>
    Located.ofOffset source.toList fault.offset fault.cause

end Stylesheet

end StyleDoc
