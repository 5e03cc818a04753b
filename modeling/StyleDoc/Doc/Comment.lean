import StyleDoc.Doc.Entity
import StyleDoc.Text.Cut

/-!
# The parts of a documentation comment

A documentation comment is free text followed by tags, one at the start of a line each.  The lines
after a tag belong to it up to the next one.  Inside an example only known tags end the example,
so that it can show at-rules.
-/

namespace StyleDoc

abbrev Line := List Char

def isBlankLine (line : Line) : Bool := line.all Text.isBlank

/-- The number of spaces and tabs at the start of a line. -/
def indentation (line : Line) : Nat :=
  (line.takeWhile fun c => c == ' ' || c == '\t').length

/-- The indentation that all lines share, blank lines apart; none if all are blank. -/
def commonIndentation (lines : List Line) : Nat :=
  (((lines.filter fun line => !isBlankLine line).map indentation).min?).getD 0

/-- A line without the given number of leading characters and without trailing blanks; a blank
line becomes empty. -/
def outdentLine (width : Nat) (line : Line) : Line :=
  if isBlankLine line then [] else Text.trimEnd (line.drop width)

def outdent (lines : List Line) : List Line := lines.map (outdentLine (commonIndentation lines))

/-- The lines without leading and trailing empty ones. -/
def trimLines (lines : List Line) : List Line :=
  ((lines.dropWhile List.isEmpty).reverse.dropWhile List.isEmpty).reverse

/-- A line without its leading blanks, and without the star that may follow them. -/
def withoutStar (line : Line) : Line :=
  match Text.trimStart line with
  | '*' :: rest => rest
  | rest => rest

/-- The lines of a comment between its delimiters, without stars and common indentation.  The
first line stands beside the opening of the comment, so its indentation means nothing. -/
def commentLines (body : List Char) : List Line :=
  match (Text.lines body).map withoutStar with
  | [] => [[]]
  | first :: others => Text.trim first :: outdent others

/-- The body of a documentation comment: what stands between `/**` and `*/`. -/
def commentBody? (comment : List Char) : Option (List Char) :=
  match List.isPrefixOf? ['/', '*', '*'] (Text.trim comment) with
  | some rest => List.isSuffixOf? ['*', '/'] rest
  | none => none

def ConstructKind.ofTag? (name : String) : Option ConstructKind :=
  if name = "mixin" ∨ name = "function" ∨ name = "callable" then some .callable
  else if name = "class" then some .styleClass
  else if name = "type" ∨ name = "var" ∨ name = "variable" then some .styleVariable
  else none

/-- What the text of a tag is about. -/
inductive TagRole
  | parameter
  | returned
  | types
  | group
  | namespaceName
  | usage
  | reference
  | deprecation
  | visibility (visibility : Visibility)
deriving DecidableEq, Repr

def TagRole.ofTag? (name : String) : Option TagRole :=
  if name = "param" then some .parameter
  else if name = "return" ∨ name = "returns" then some .returned
  else if name = "type" ∨ name = "var" ∨ name = "variable" then some .types
  else if name = "group" then some .group
  else if name = "namespace" then some .namespaceName
  else if name = "example" then some .usage
  else if name = "see" then some .reference
  else if name = "deprecated" then some .deprecation
  else if name = "internal" ∨ name = "private" then some (.visibility .hidden)
  else if name = "protected" then some (.visibility .guarded)
  else if name = "public" then some (.visibility .shown)
  else none

structure Tag where
  name : String
  /-- The text after the name, and then the lines that follow. -/
  lines : List Line
deriving DecidableEq, Repr

namespace Tag

/-- All lines in one, with single spaces between them. -/
def oneLine (tag : Tag) : List Char :=
  [' '].intercalate ((tag.lines.map Text.trim).filter fun line => !line.isEmpty)

/-- The lines as they stand, without common indentation and without blank ends. -/
def verbatim (tag : Tag) : List Char := ['\n'].intercalate (trimLines (outdent tag.lines))

def isKnown (name : String) : Bool :=
  (ConstructKind.ofTag? name).isSome || (TagRole.ofTag? name).isSome

/-- The name and text of the tag that a line opens: an at sign, an ASCII letter, and any number of
word characters and hyphens. -/
def opening? (line : Line) : Option (String × Line) :=
  match line with
  | '@' :: c :: rest =>
      if c.isAlpha then
        let inName := fun d => Text.isWordChar d || d == '-'
        some (String.ofList (c :: rest.takeWhile inName), Text.trimStart (rest.dropWhile inName))
      else none
  | _ => none

/-- Whether a line opens a tag.  In an example, lines that look like unknown tags are text. -/
def opens (inExample : Bool) (line : Line) : Bool :=
  match opening? line with
  | some (name, _) => !inExample || isKnown name
  | none => false

def continuesTag (name : String) (line : Line) : Bool :=
  !opens (decide (TagRole.ofTag? name = some .usage)) line

/-- The tags of a list of lines of which the first opens a tag. -/
def listOfLines : List Line → List Tag
  | [] => []
  | line :: lines =>
      match opening? line with
      | none => listOfLines lines
      | some (name, text) =>
          have : (lines.dropWhile (continuesTag name)).length < lines.length + 1 :=
            Nat.lt_succ_of_le (List.dropWhile_suffix _).length_le
          ⟨name, text :: lines.takeWhile (continuesTag name)⟩ ::
            listOfLines (lines.dropWhile (continuesTag name))
termination_by lines => lines.length

end Tag

structure CommentParts where
  descriptionLines : List Line
  tags : List Tag
deriving DecidableEq, Repr

namespace CommentParts

def description (parts : CommentParts) : List Char :=
  Text.trim (['\n'].intercalate parts.descriptionLines)

def ofLines (lines : List Line) : CommentParts :=
  let describes := fun line => !Tag.opens false line
  ⟨lines.takeWhile describes, Tag.listOfLines (lines.dropWhile describes)⟩

def ofBody (body : List Char) : CommentParts := ofLines (commentLines body)

end CommentParts

end StyleDoc
