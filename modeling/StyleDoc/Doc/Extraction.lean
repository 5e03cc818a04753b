import StyleDoc.Doc.Draft
import StyleDoc.Syntax.Stylesheet

/-!
# Extraction of documentation

The comments of a stylesheet are read where they meet constructs, and those that speak of the
right kind of construct become entities.  What reads texts and what reads comments are parameters;
`document` takes those of this library.
-/

namespace StyleDoc

/-!
## Where comments meet constructs

A block comment waits for the next statement beside it.  A variable, a rule or a definition takes
the waiting comment; blanks leave it waiting; anything else drops it.  The statements of a nesting
at-rule start with the comment that waits in front of the at-rule, which itself leaves the comment
waiting.  Walking a tree gives the events that happen to comments on the way, in order.
-/

/-- A construct that takes a comment. -/
inductive Target
  | styleVariable (name value : String)
  | styleClass (name : String)
  | callable (name : String) (arguments : List Argument)
deriving DecidableEq, Repr

inductive Event
  | consult (comment : String) (target : Target)
  | discard (kindWord : String)
deriving DecidableEq, Repr

namespace Node

/-- The comment that waits after a node, when `pending` waits in front of it. -/
def pendingAfter (pending : Option String) : Node → Option String
  | leaf (.comment .block text) _ => some text
  | leaf .blank _ => pending
  | block (.nesting _ _) _ _ => pending
  | _ => none

/-- The constructs that a node presents to the comment in front of it; `none` if such a comment is
dropped. -/
def targets? : Node → Option (List Target)
  | leaf (.declaration name value) _ => some [.styleVariable name value]
  | block (.rule selectors) _ _ =>
      some (selectors.filterMap fun selector => selector.className.map .styleClass)
  | block (.callable _ name arguments) _ _ => some [.callable name (arguments.getD [])]
  | _ => none

def meet (comment : String) (node : Node) : List Event :=
  match node with
  | leaf (.comment .block _) _ => []
  | leaf .blank _ => []
  | node =>
      match node.targets? with
      | some targets => targets.map (.consult comment)
      | none => [.discard node.kindWord]

mutual

def events (pending : Option String) : Node → List Event
  | block (.nesting _ _) body _ => eventsOfList pending body
  | node => (pending.map fun comment => node.meet comment).getD []

def eventsOfList (pending : Option String) : List Node → List Event
  | [] => []
  | node :: nodes => node.events pending ++ eventsOfList (node.pendingAfter pending) nodes

end

end Node

/-! ## Notices -/

inductive Severity
  | warning
  | debugging
  | tracing
deriving DecidableEq, Repr

namespace Severity

def word : Severity → String
  | warning => "WARN"
  | debugging => "DEBUG"
  | tracing => "TRACE"

end Severity

inductive Notice
  | refused (error : String)
  | discarded (kindWord : String)
  | extracted (count : Nat)
  | skipped (path error : String)
deriving DecidableEq, Repr

namespace Notice

def severity : Notice → Severity
  | refused _ => .warning
  | discarded _ => .tracing
  | extracted _ => .debugging
  | skipped _ _ => .warning

def message : Notice → String
  | refused _ => "Failed to analyze SCSS, skipping documentation"
  | discarded _ => "Discarding doc-comment not followed by a documentable construct"
  | extracted _ => "Extracted SCSS documentation"
  | skipped _ _ => "Skipping SCSS file"

def fields : Notice → List (String × String)
  | refused error => [("error", error)]
  | discarded kindWord => [("node", kindWord)]
  | extracted count => [("count", toString count)]
  | skipped path error => [("path", path), ("error", error)]

end Notice

/-!
## Parameters of a definition

The signature of a definition says which parameters there are and in which order; the comment in
front of it says what they mean.  Both are merged into one list without repeated names.
-/

namespace ParameterDoc

def hasName (parameters : List ParameterDoc) (name : String) : Bool :=
  parameters.any fun parameter => parameter.name == name

/-- The parameter for an argument of the signature.  A default in the signature wins over a
documented one. -/
def ofArgument (documented : List ParameterDoc) (argument : Argument) : ParameterDoc :=
  let name := "$" ++ argument.name
  let parameter :=
    (documented.find? fun parameter => parameter.name == name).getD { name := name }
  { parameter with
    defaultValue := argument.defaultValue.or parameter.defaultValue
    variadic := parameter.variadic || argument.variadic }

def addArgument (documented parameters : List ParameterDoc) (argument : Argument) :
    List ParameterDoc :=
  if hasName parameters ("$" ++ argument.name) then parameters
  else parameters ++ [ofArgument documented argument]

def addDocumented (parameters : List ParameterDoc) (parameter : ParameterDoc) :
    List ParameterDoc :=
  if hasName parameters parameter.name then parameters else parameters ++ [parameter]

/-- The parameters of a definition: those of its signature in order, and then those that only its
comment has. -/
def merge (arguments : List Argument) (documented : List ParameterDoc) : List ParameterDoc :=
  documented.foldl addDocumented (arguments.foldl (addArgument documented) [])

end ParameterDoc

/-! ## Extraction -/

/-- Tells what a comment says; the second text is the content type of the text it stands in. -/
abbrev CommentReader (ε : Type) := String → String → Except ε (Option Draft)

structure Extraction (ε : Type) where
  /-- The comments that were read, each with the content type, in order. -/
  consulted : List (String × String)
  notices : List Notice
  result : Except ε (List Entity)

namespace Target

/-- The entity for a construct, if the draft speaks of that kind of construct. -/
def entity? (labels : Labels) (target : Target) (draft : Draft) : Option Entity :=
  match target, draft.construct with
  | styleVariable name value, .styleVariable types known =>
      let construct := .styleVariable types (if value.isEmpty then known else some value)
      some ⟨"$" ++ name, construct, draft.details, labels⟩
  | styleClass name, .styleClass => some ⟨"." ++ name, .styleClass, draft.details, labels⟩
  | callable name arguments, .callable documented returns =>
      let construct := .callable (ParameterDoc.merge arguments documented) returns
      some ⟨name, construct, draft.details, labels⟩
  | _, _ => none

end Target

namespace Extraction

def empty {ε : Type} : Extraction ε := ⟨[], [], .ok []⟩

def notice {ε : Type} (notice : Notice) (extraction : Extraction ε) : Extraction ε :=
  { extraction with notices := notice :: extraction.notices }

def consult {ε : Type} (comment contentType : String) (entity : Option Entity)
    (extraction : Extraction ε) : Extraction ε :=
  { extraction with
    consulted := (comment, contentType) :: extraction.consulted
    result := extraction.result.map fun entities => entity.toList ++ entities }

/-- Reads comments as the events ask for it, up to the first that is refused. -/
def ofEvents {ε : Type} (reader : CommentReader ε) (labels : Labels) :
    List Event → Extraction ε
  | [] => empty
  | .discard kindWord :: events => notice (.discarded kindWord) (ofEvents reader labels events)
  | .consult comment target :: events =>
      match reader comment labels.contentType with
      | .error error => ⟨[(comment, labels.contentType)], [], .error error⟩
      | .ok draft =>
          consult comment labels.contentType (draft.bind (target.entity? labels))
            (ofEvents reader labels events)

def ofNodes {ε : Type} (reader : CommentReader ε) (labels : Labels) (nodes : List Node) :
    Extraction ε :=
  ofEvents reader labels (Node.eventsOfList none nodes)

/-- Adds the notice on the number of entities at the end of a successful extraction. -/
def counted {ε : Type} (extraction : Extraction ε) : Extraction ε :=
  match extraction.result with
  | .ok entities =>
      { extraction with notices := extraction.notices ++ [.extracted entities.length] }
  | .error _ => extraction

/--
Extracts the documentation of a text.  `read` gives the tree of a text or a sentence on what is
wrong with it; a text that is refused has no documentation.  A blank text is not even read.
-/
def ofText {ε : Type} (read : String → Except String (List Node)) (reader : CommentReader ε)
    (labels : Labels) (source : String) : Extraction ε :=
  if source.toList.all Text.isBlank then empty
  else
    match read source with
    | .error error => ⟨[], [.refused error], .ok []⟩
    | .ok nodes => (ofNodes reader labels nodes).counted

end Extraction

/-- The tree of a text; what is wrong with it is not recovered from. -/
def analyze (source : String) : Except DocFault (List Node) :=
  (Stylesheet.read source).mapError .unanalyzed

def readTree (source : String) : Except String (List Node) :=
  (Stylesheet.read source).mapError Refusal.describe

/-- Reads a comment by its tags, whatever the content type. -/
def readComment : CommentReader DocFault := fun comment _ =>
  (Draft.ofComment comment).mapError .refused

def document (labels : Labels) (source : String) : Extraction DocFault :=
  Extraction.ofText readTree readComment labels source

def entities (labels : Labels) (source : String) : Except DocFault (List Entity) :=
  (document labels source).result

end StyleDoc
