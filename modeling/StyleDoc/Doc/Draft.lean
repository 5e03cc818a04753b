import StyleDoc.Doc.Comment
import StyleDoc.Fault

/-!
# What comments say

A documentation comment is turned into a draft by its tags.  Tags such as `@mixin` and `@type`
tell the kind of the documented construct; without them, a documented parameter or return value
makes it a mixin or function.  A comment that tells no kind documents nothing.
-/

namespace StyleDoc

def kindTags (tags : List Tag) : List (String × ConstructKind) :=
  tags.filterMap fun tag => (ConstructKind.ofTag? tag.name).map fun kind => (tag.name, kind)

def Tag.impliesCallable (tag : Tag) : Bool :=
  match TagRole.ofTag? tag.name with
  | some .parameter => true
  | some .returned => true
  | _ => false

/-- The kind that tags tell, if any.  All tags that tell one have to agree with the first. -/
def kindOfTags (tags : List Tag) : Except CommentFault (Option ConstructKind) :=
  match kindTags tags with
  | [] => .ok (if tags.any Tag.impliesCallable then some .callable else none)
  | (first, kind) :: others =>
      match others.find? fun other => other.2 ≠ kind with
      | some (second, _) => .error (.conflictingKinds first second)
      | none => .ok (some kind)

/-- The types of a type expression: what stands between bars. -/
def typesOfText (text : List Char) : List String :=
  (((text.splitOn '|').map Text.trim).filter fun part => !part.isEmpty).map String.ofList

/-- Splits off the type expression in braces that the text of a tag may start with. -/
def takeTypes (tag : String) (text : List Char) :
    Except CommentFault (List String × List Char) :=
  match text with
  | '{' :: rest =>
      match Text.cut? (fun c => c == '}') rest with
      | some (types, after) => .ok (typesOfText types, Text.trimStart after)
      | none => .error (.unterminatedTypes tag)
  | _ => .ok ([], text)

def withoutDash (text : List Char) : List Char :=
  match Text.trim text with
  | '-' :: ' ' :: rest => Text.trim rest
  | trimmed => trimmed

/-- Splits a parameter in square brackets, which is optional, into its declaration and its default
value. -/
def splitOptional (token : List Char) : List Char × Option (List Char) :=
  match token with
  | '[' :: rest =>
      match List.isSuffixOf? [']'] rest with
      | some inner =>
          match Text.cut? (fun c => c == '=') inner with
          | some (declaration, value) => (declaration, some (Text.trim value))
          | none => (inner, none)
      | none => (token, none)
  | _ => (token, none)

def splitVariadic (token : List Char) : List Char × Bool :=
  match List.isSuffixOf? ['.', '.', '.'] token with
  | some rest => (rest, true)
  | none => (token, false)

def withoutDollar : List Char → List Char
  | '$' :: name => name
  | name => name

namespace ParameterDoc

/-- Reads the text of a tag such as `{Type} [$name=default] - description`. -/
def ofText (text : List Char) : Except CommentFault ParameterDoc := do
  let (types, rest) ← takeTypes "param" text
  let (token, description) := (Text.cut? Text.isBlank rest).getD (rest, [])
  let (declaration, defaultValue) := splitOptional token
  let (named, variadic) := splitVariadic declaration
  let name := withoutDollar named
  if name.isEmpty then
    .error .missingParameterName
  else
    .ok
      { name := String.ofList ('$' :: name)
        types := types
        description := String.ofList (withoutDash description)
        defaultValue := defaultValue.map String.ofList
        variadic := variadic }

end ParameterDoc

namespace ReturnDoc

/-- Reads the text of a tag such as `{Type} - description`. -/
def ofText (tag : String) (text : List Char) : Except CommentFault ReturnDoc := do
  let (types, rest) ← takeTypes tag text
  .ok { types := types, description := String.ofList (withoutDash rest) }

end ReturnDoc

/-- What the tags of a comment say, whatever kind they tell. -/
structure TagFields where
  details : Details
  types : List String := []
  parameters : List ParameterDoc := []
  returns : Option ReturnDoc := none
deriving DecidableEq, Repr

namespace TagFields

def add (fields : TagFields) (tag : Tag) : Except CommentFault TagFields :=
  let details := fields.details
  let text := String.ofList tag.oneLine
  match TagRole.ofTag? tag.name with
  | some .parameter => do
      let parameter ← ParameterDoc.ofText tag.oneLine
      .ok { fields with parameters := fields.parameters ++ [parameter] }
  | some .returned => do
      let returns ← ReturnDoc.ofText tag.name tag.oneLine
      .ok { fields with returns := some returns }
  | some .types => do
      let (types, _) ← takeTypes tag.name tag.oneLine
      .ok { fields with types := fields.types ++ types }
  | some .group => .ok { fields with details := { details with group := some text } }
  | some .namespaceName =>
      .ok { fields with details := { details with namespaceName := some text } }
  | some .usage =>
      let usage := String.ofList tag.verbatim
      .ok { fields with details := { details with examples := details.examples ++ [usage] } }
  | some .reference => .ok { fields with details := { details with see := details.see ++ [text] } }
  | some .deprecation => .ok { fields with details := { details with deprecated := some text } }
  | some (.visibility visibility) =>
      .ok { fields with details := { details with visibility := visibility } }
  | none => .ok fields

def ofTags (description : String) (tags : List Tag) : Except CommentFault TagFields :=
  tags.foldlM add { details := { description := description } }

def toDraft (fields : TagFields) : ConstructKind → Draft
  | .styleVariable => ⟨.styleVariable fields.types none, fields.details⟩
  | .styleClass => ⟨.styleClass, fields.details⟩
  | .callable => ⟨.callable fields.parameters fields.returns, fields.details⟩

end TagFields

/-- The draft that the parts of a comment make, if they tell a kind. -/
def CommentParts.draft (parts : CommentParts) : Except CommentFault (Option Draft) := do
  let kind ← kindOfTags parts.tags
  let fields ← TagFields.ofTags (String.ofList parts.description) parts.tags
  .ok (kind.map fields.toDraft)

def Draft.ofComment (comment : String) : Except CommentFault (Option Draft) :=
  match commentBody? comment.toList with
  | some body => (CommentParts.ofBody body).draft
  | none => .ok none

end StyleDoc
