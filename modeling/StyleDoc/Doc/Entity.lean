import StyleDoc.Json.Value

/-!
# Documentation entities

What a documentation comment says about a variable, a class, or a mixin or function.  A draft is
what the comment alone gives; an entity is a draft together with the name of the documented
construct and the labels of the text it was found in.
-/

namespace StyleDoc

inductive Visibility
  | shown
  | guarded
  | hidden
deriving DecidableEq, Repr, Inhabited

namespace Visibility

def word : Visibility → String
  | shown => "public"
  | guarded => "protected"
  | hidden => "private"

end Visibility

structure ParameterDoc where
  /-- The identifier, with its dollar sign. -/
  name : String
  types : List String := []
  description : String := ""
  defaultValue : Option String := none
  variadic : Bool := false
deriving DecidableEq, Repr

structure ReturnDoc where
  types : List String := []
  description : String := ""
deriving DecidableEq, Repr

/-- What is documented of every kind of construct. -/
structure Details where
  description : String := ""
  group : Option String := none
  namespaceName : Option String := none
  examples : List String := []
  see : List String := []
  /-- A note on the deprecation of the construct, which may be empty. -/
  deprecated : Option String := none
  visibility : Visibility := .shown
deriving DecidableEq, Repr, Inhabited

inductive ConstructKind
  | styleVariable
  | styleClass
  | callable
deriving DecidableEq, Repr

namespace ConstructKind

def word : ConstructKind → String
  | styleVariable => "variable"
  | styleClass => "class"
  | callable => "callable"

end ConstructKind

/-- What is documented of one kind of construct only. -/
inductive Construct
  | styleVariable (types : List String) (value : Option String)
  | styleClass
  | callable (parameters : List ParameterDoc) (returns : Option ReturnDoc)
deriving DecidableEq, Repr

namespace Construct

def kind : Construct → ConstructKind
  | styleVariable _ _ => .styleVariable
  | styleClass => .styleClass
  | callable _ _ => .callable

end Construct

/-- What a comment says, before it is known which construct it stands at. -/
structure Draft where
  construct : Construct
  details : Details
deriving DecidableEq, Repr

/-- The labels that the entities of one text share. -/
structure Labels where
  contentType : String := "stylesheet-source"
  contentKind : String := "css"
deriving DecidableEq, Repr, Inhabited

structure Entity where
  /-- The name as stylesheets refer to the construct: with a dollar sign for a variable, with a
  dot for a class. -/
  name : String
  construct : Construct
  details : Details
  labels : Labels
deriving DecidableEq, Repr

/-!
## Documentation as JSON

Fields that have nothing to say are left out: absent texts, empty lists, empty descriptions of
parameters and return values, a parameter that is not variadic, and a construct that everyone may
use.
-/

open JsonValue

def Details.toMembers (details : Details) : List (String × JsonValue) :=
  [("description", string details.description)] ++
    optionalText "group" details.group ++
    optionalText "namespace" details.namespaceName ++
    nonemptyStrings "examples" details.examples ++
    nonemptyStrings "see" details.see ++
    optionalText "deprecated" details.deprecated ++
    (if details.visibility = .shown then []
      else [("visibility", string details.visibility.word)])

def ParameterDoc.toJson (parameter : ParameterDoc) : JsonValue :=
  object <|
    [("name", string parameter.name)] ++
      nonemptyStrings "types" parameter.types ++
      nonemptyText "description" parameter.description ++
      optionalText "defaultValue" parameter.defaultValue ++
      (if parameter.variadic then [("variadic", bool true)] else [])

def ReturnDoc.toJson (returns : ReturnDoc) : JsonValue :=
  object (nonemptyStrings "types" returns.types ++ nonemptyText "description" returns.description)

def Construct.toMembers : Construct → List (String × JsonValue)
  | styleVariable types value => nonemptyStrings "types" types ++ optionalText "value" value
  | styleClass => []
  | callable parameters returns =>
      [("parameters", array (parameters.map ParameterDoc.toJson))] ++
        optional "returns" (returns.map ReturnDoc.toJson)

/-- The members of an entity, its kind apart. -/
def Entity.toMembers (entity : Entity) : List (String × JsonValue) :=
  [("name", string entity.name)] ++
    entity.construct.toMembers ++
    entity.details.toMembers ++
    [("contentType", string entity.labels.contentType),
      ("contentKind", string entity.labels.contentKind)]

def Entity.toJson (entity : Entity) : JsonValue :=
  object (("kind", string entity.construct.kind.word) :: entity.toMembers)

end StyleDoc
