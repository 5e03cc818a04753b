import StyleDoc.Syntax.Tree
import StyleDoc.Text.Cut

/-!
# Selector and argument lists

Commas separate the selectors of a rule and the arguments of a definition, but not where they
stand inside a string literal or brackets.  A selector is searched for its first class.
-/

namespace StyleDoc

/-- What a comma-separated list has open at some place. -/
structure Nesting where
  /-- Brackets that are open; a closing one without an opening one does not count. -/
  depth : Nat
  quote : Option Char
  escaped : Bool
deriving DecidableEq, Repr

namespace Nesting

def start : Nesting := ⟨0, none, false⟩

def step (nesting : Nesting) (c : Char) : Nesting :=
  match nesting.quote with
  | some quote =>
      if nesting.escaped then { nesting with escaped := false }
      else if c = '\\' then { nesting with escaped := true }
      else if c = quote then { nesting with quote := none }
      else nesting
  | none =>
      if Text.isQuote c then { nesting with quote := some c }
      else if c = '(' ∨ c = '[' ∨ c = '{' then { nesting with depth := nesting.depth + 1 }
      else if c = ')' ∨ c = ']' ∨ c = '}' then { nesting with depth := nesting.depth - 1 }
      else nesting

/-- Whether a comma would separate. -/
def isTop (nesting : Nesting) : Bool := nesting.quote.isNone && nesting.depth == 0

end Nesting

/-- Collects parts; `part` is the current part, latest first, and `nesting` what is open in the text
up to here. -/
def commaPartsAux (nesting : Nesting) (part : List Char) : List Char → List (List Char)
  | [] => [part.reverse]
  | c :: text =>
      if c = ',' ∧ nesting.isTop then part.reverse :: commaPartsAux nesting [] text
      else commaPartsAux (nesting.step c) (c :: part) text

/-- The parts of a text between the commas outside string literals and brackets. -/
def commaParts (text : List Char) : List (List Char) := commaPartsAux .start [] text

/--
The class identifier that a text starts with.  Escapes and interpolations belong to it and are
kept as they are.
-/
def leadingClass : List Char → List Char
  | [] => []
  | '\\' :: c :: text => '\\' :: c :: leadingClass text
  | '#' :: '{' :: text =>
      match h : Text.cut? (fun c => c == '}') text with
      | some (inner, rest) =>
          have : rest.length < text.length := Text.cut?_length h
          '#' :: '{' :: inner ++ '}' :: leadingClass rest
      | none => []
  | c :: text => if Text.isNameChar c then c :: leadingClass text else []
termination_by text => text.length

def isClassName : List Char → Bool
  | [] => false
  | c :: _ => !c.isDigit

/--
The first class of a selector text, outside of string literals and brackets, from a place where
`depth` brackets and the string literal of `quote` are open.  A backslash takes the next character
with it.
-/
def firstClassFrom (depth : Nat) (quote : Option Char) : List Char → Option (List Char)
  | [] => none
  | '\\' :: [] => none
  | '\\' :: _ :: text => firstClassFrom depth quote text
  | c :: text =>
      match quote with
      | some q => firstClassFrom depth (if c = q then none else some q) text
      | none =>
          if Text.isQuote c then firstClassFrom depth (some c) text
          else if c = '(' ∨ c = '[' ∨ c = '{' then firstClassFrom (depth + 1) none text
          else if c = ')' ∨ c = ']' ∨ c = '}' then firstClassFrom (depth - 1) none text
          else if c = '.' ∧ depth = 0 ∧ isClassName (leadingClass text) then
            some (leadingClass text)
          else firstClassFrom depth none text

def firstClass (selector : List Char) : Option (List Char) := firstClassFrom 0 none selector

namespace Selector

def ofText (text : List Char) : Selector :=
  ⟨String.ofList text, (firstClass text).map String.ofList⟩

/-- The selectors of a comma-separated list; blank ones are left out. -/
def listOfText (text : List Char) : List Selector :=
  (((commaParts text).map Text.trim).filter fun part => !part.isEmpty).map ofText

end Selector

namespace Argument

/-- Splits a declaration such as `$name...` into what stands before the dots, and whether there
are dots. -/
def splitDots (declaration : List Char) : List Char × Bool :=
  match List.isSuffixOf? ['.', '.', '.'] declaration with
  | some rest => (Text.trimEnd rest, true)
  | none => (declaration, false)

/-- The argument with the given declaration and default value, if the declaration is a dollar
sign and an identifier, and perhaps dots. -/
def ofDeclaration? (declaration : List Char) (defaultValue : Option (List Char)) :
    Option Argument :=
  match splitDots declaration with
  | ('$' :: name, variadic) =>
      if Text.isName name then
        some ⟨String.ofList name, defaultValue.map String.ofList, variadic⟩
      else none
  | _ => none

def ofText? (text : List Char) : Option Argument :=
  match Text.cut? (fun c => c == ':') text with
  | some (declaration, value) =>
      let value := Text.trim value
      ofDeclaration? (Text.trim declaration) (if value.isEmpty then none else some value)
  | none => ofDeclaration? (Text.trim text) none

/-- The arguments of a comma-separated list; parts that declare none are left out. -/
def listOfText (text : List Char) : List Argument := (commaParts text).filterMap ofText?

end Argument

end StyleDoc
