import StyleDoc.Text.Cut

/-!
# Statement trees

A stylesheet as documentation sees it: a list of statements, of which some have a block of
further statements.  Values, selectors and at-rule preludes stay text.  Every node carries its
byte span in the source.
-/

namespace StyleDoc

/-- A byte range of the source: from `start`, up to and without `stop`. -/
structure ByteRange where
  start : Nat
  stop : Nat
deriving DecidableEq, Repr, Inhabited

def ByteRange.slice (source : List Char) (span : ByteRange) : List Char :=
  Text.takeBytes (span.stop - span.start) (Text.dropBytes span.start source)

inductive CommentForm
  | block
  | line
deriving DecidableEq, Repr

inductive DefinitionKind
  | mixin
  | function
deriving DecidableEq, Repr

namespace DefinitionKind

def keyword : DefinitionKind → String
  | mixin => "mixin"
  | function => "function"

end DefinitionKind

structure Selector where
  text : String
  /-- The first class of the selector, without its dot. -/
  className : Option String
deriving DecidableEq, Repr

structure Argument where
  /-- The identifier, without its dollar sign. -/
  name : String
  defaultValue : Option String
  variadic : Bool
deriving DecidableEq, Repr

inductive Leaf
  | blank
  | terminator
  | comment (form : CommentForm) (text : String)
  /-- A variable declaration; the name is without its dollar sign. -/
  | declaration (name value : String)
  | statement (text : String)
deriving DecidableEq, Repr, Inhabited

inductive Head
  | rule (selectors : List Selector)
  /-- A mixin or function definition; `none` if it has no argument list. -/
  | callable (kind : DefinitionKind) (name : String) (arguments : Option (List Argument))
  /-- An at-rule whose block holds statements of the enclosing scope. -/
  | nesting (keyword prelude : String)
  | other (text : String)
deriving DecidableEq, Repr

/-- A statement of a stylesheet, or what stands between statements. -/
inductive Node
  | leaf (content : Leaf) (span : ByteRange)
  | block (head : Head) (body : List Node) (span : ByteRange)
deriving Repr, Inhabited

namespace Node

mutual

def decideEq : (a b : Node) → Decidable (a = b)
  | leaf content span, leaf content' span' =>
      decidable_of_iff (content = content' ∧ span = span') (by simp)
  | block head body span, block head' body' span' =>
      match decideEqList body body' with
      | isTrue h => decidable_of_iff (head = head' ∧ span = span') (by simp [h])
      | isFalse h => isFalse (by simp [h])
  | leaf _ _, block _ _ _ => isFalse (by simp)
  | block _ _ _, leaf _ _ => isFalse (by simp)

def decideEqList : (a b : List Node) → Decidable (a = b)
  | [], [] => isTrue rfl
  | node :: nodes, node' :: nodes' =>
      match decideEq node node', decideEqList nodes nodes' with
      | isTrue h, isTrue h' => isTrue (by rw [h, h'])
      | isFalse h, _ => isFalse (by simp [h])
      | _, isFalse h => isFalse (by simp [h])
  | [], _ :: _ => isFalse (by simp)
  | _ :: _, [] => isFalse (by simp)

end

instance : DecidableEq Node := decideEq

def span : Node → ByteRange
  | leaf _ span => span
  | block _ _ span => span

def body : Node → List Node
  | leaf _ _ => []
  | block _ body _ => body

def kindWord : Node → String
  | leaf .blank _ => "whitespace"
  | leaf .terminator _ => "statement-terminator"
  | leaf (.comment _ _) _ => "comment"
  | leaf (.declaration _ _) _ => "variable-declaration"
  | leaf (.statement _) _ => "other"
  | block (.rule _) _ _ => "rule-block"
  | block (.callable _ _ _) _ _ => "callable-definition"
  | block (.nesting _ _) _ _ => "nested-block"
  | block (.other _) _ _ => "other"

end Node

end StyleDoc
