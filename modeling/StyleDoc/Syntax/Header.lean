import StyleDoc.Fault
import StyleDoc.Syntax.Selector

/-!
# Reading statements

What a statement is, from its text: with a block a rule, a definition, a nesting at-rule or
something else; without one a variable declaration or something else.
-/

namespace StyleDoc

/-- The at-rules whose block holds statements of the enclosing scope. -/
def nestingKeywords : List String :=
  ["media", "supports", "if", "else", "each", "for", "while", "at-root", "layer", "container",
    "document"]

def DefinitionKind.ofKeyword? (keyword : String) : Option DefinitionKind :=
  if keyword = DefinitionKind.mixin.keyword then some .mixin
  else if keyword = DefinitionKind.function.keyword then some .function
  else none

namespace Head

/-- The argument list that follows the name of a definition: what stands between an opening
bracket and the last closing one. -/
def argumentList? (text : List Char) : Option (List Argument) :=
  match text with
  | '(' :: rest => (Text.beforeLast? (fun c => c == ')') rest).map Argument.listOfText
  | _ => none

def ofSignature (kind : DefinitionKind) (text : List Char) : Except SyntaxCause Head :=
  let signature := Text.trim text
  let name := signature.takeWhile Text.isNameChar
  let rest := Text.trimStart (signature.dropWhile Text.isNameChar)
  if name.isEmpty then .error (.missingName kind)
  else .ok (callable kind (String.ofList name) (argumentList? rest))

/-- Reads an at-rule; `atRule` is its text after the at sign, and `text` all of it. -/
def ofAtRule (atRule text : List Char) : Except SyntaxCause Head :=
  let keyword := String.ofList (atRule.takeWhile Text.isKeywordChar)
  let rest := atRule.dropWhile Text.isKeywordChar
  match DefinitionKind.ofKeyword? keyword with
  | some kind => ofSignature kind rest
  | none =>
      if nestingKeywords.contains keyword then
        .ok (nesting keyword (String.ofList (Text.trim rest)))
      else .ok (other (String.ofList text))

/-- Reads the trimmed text in front of a block.  A text that ends with a colon opens a block of
properties. -/
def ofTrimmed (text : List Char) : Except SyntaxCause Head :=
  match text with
  | [] => .error .missingSelector
  | '@' :: atRule => ofAtRule atRule text
  | _ =>
      if text.getLast? = some ':' then .ok (other (String.ofList text))
      else .ok (rule (Selector.listOfText text))

def ofText (text : List Char) : Except SyntaxCause Head := ofTrimmed (Text.trim text)

end Head

namespace Leaf

def declaration? (text : List Char) : Option Leaf :=
  match text with
  | '$' :: rest =>
      match Text.cut? (fun c => c == ':') rest with
      | some (name, value) =>
          if Text.isName (Text.trim name) then
            some (declaration (String.ofList (Text.trim name)) (String.ofList (Text.trim value)))
          else none
      | none => none
  | _ => none

def ofText (text : List Char) : Leaf :=
  let trimmed := Text.trim text
  (declaration? trimmed).getD (statement (String.ofList trimmed))

/-- The comment with the given text; a line comment is kept without trailing blanks. -/
def ofComment (form : CommentForm) (text : List Char) : Leaf :=
  match form with
  | .block => comment .block (String.ofList text)
  | .line => comment .line (String.ofList (Text.trimEnd text))

end Leaf

end StyleDoc
