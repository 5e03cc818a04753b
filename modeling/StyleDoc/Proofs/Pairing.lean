import Mathlib.Algebra.Ring.Nat
import StyleDoc.Doc.Extraction

/-!
# Which comment documents which construct

The comment in effect at a statement is told here from the tree alone: it is the nearest earlier
statement beside it, blanks and nesting at-rules apart, if that is a block comment; where no
statement is left to look at, the search goes on in front of the enclosing at-rule.  The calls of
a tree are its documentable constructs in document order, each with the comment in effect.

Extraction makes exactly these calls, up to the first that is refused.  The same holds of a walk
on an explicit stack of frames, one for each at-rule that is being walked.
-/

namespace StyleDoc

namespace Node

/-- Whether the search for a comment looks past a node: blanks and nesting at-rules. -/
def isTransparent : Node → Bool
  | leaf .blank _ => true
  | block (.nesting _ _) _ _ => true
  | _ => false

def blockComment? : Node → Option String
  | leaf (.comment .block text) _ => some text
  | _ => none

end Node

/-! ## The declarative side -/

structure Place where
  node : Node
  /-- The nodes before it: first those of its own list, then those before each at-rule around it
  from the inside out.  In each list the nearest node comes first. -/
  earlier : List (List Node)

structure Call where
  comment : String
  target : Target
deriving DecidableEq, Repr

/--
The calls of a node at which a comment is in effect: a variable and a definition make one, a rule
one for each selector that has a class, and nothing else makes any.
-/
def Node.callsWith (comment : String) : Node → List Call
  | leaf (.declaration name value) _ => [⟨comment, .styleVariable name value⟩]
  | block (.callable _ name arguments) _ _ => [⟨comment, .callable name (arguments.getD [])⟩]
  | block (.rule selectors) _ _ =>
      selectors.flatMap fun selector =>
        match selector.className with
        | some name => [⟨comment, .styleClass name⟩]
        | none => []
  | leaf .blank _ => []
  | leaf .terminator _ => []
  | leaf (.comment _ _) _ => []
  | leaf (.statement _) _ => []
  | block (.nesting _ _) _ _ => []
  | block (.other _) _ _ => []

namespace Place

/-- The comment in effect after the given nodes. -/
def commentAfter : List (List Node) → Option String
  | [] => none
  | earlier :: outer =>
      match earlier.find? fun node => !node.isTransparent with
      | some node => node.blockComment?
      | none => commentAfter outer

mutual

/-- The places at a node and, for a nesting at-rule, in its body, in document order. -/
def ofNode (earlier : List (List Node)) : Node → List Place
  | .block (.nesting keyword prelude) body span =>
      ⟨.block (.nesting keyword prelude) body span, earlier⟩ :: ofList earlier [] body
  | node => [⟨node, earlier⟩]

def ofList (outer : List (List Node)) (earlier : List Node) : List Node → List Place
  | [] => []
  | node :: nodes => ofNode (earlier :: outer) node ++ ofList outer (node :: earlier) nodes

end

/-- The calls at a place: none where no comment is in effect. -/
def calls (place : Place) : List Call :=
  match commentAfter place.earlier with
  | some comment => place.node.callsWith comment
  | none => []

end Place

def callsOfNodes (nodes : List Node) : List Call := (Place.ofList [] [] nodes).flatMap Place.calls

namespace Target

def kind : Target → ConstructKind
  | styleVariable _ _ => .styleVariable
  | styleClass _ => .styleClass
  | callable _ _ => .callable

def fullName : Target → String
  | styleVariable name _ => "$" ++ name
  | styleClass name => "." ++ name
  | callable name _ => name

/-- What a comment says of a construct, completed by what the construct itself shows. -/
def complete : Target → Construct → Construct
  | styleVariable _ value, .styleVariable types known =>
      .styleVariable types (if value.isEmpty then known else some value)
  | callable _ arguments, .callable documented returns =>
      .callable (ParameterDoc.merge arguments documented) returns
  | _, construct => construct

/-- The entity of a construct: there is one exactly if the comment speaks of its kind. -/
def described (labels : Labels) (target : Target) (draft : Draft) : Option Entity :=
  if draft.construct.kind = target.kind then
    some ⟨target.fullName, target.complete draft.construct, draft.details, labels⟩
  else none

theorem entity?_eq_described (labels : Labels) (target : Target) (draft : Draft) :
    target.entity? labels draft = target.described labels draft := by
  obtain ⟨construct, details⟩ := draft
  cases target <;> cases construct <;> rfl

end Target

/-- What an extraction that makes the given calls comes to. -/
inductive Outcome {ε : Type} (reader : CommentReader ε) (labels : Labels) (calls : List Call)
    (extraction : Extraction ε) : Prop
  | complete (drafts : List (Option Draft))
      (answered : (calls.map fun call => reader call.comment labels.contentType) =
        drafts.map .ok)
      (consulted : extraction.consulted =
        calls.map fun call => (call.comment, labels.contentType))
      (result : extraction.result = .ok ((calls.zip drafts).filterMap fun answer =>
        answer.2.bind (answer.1.target.described labels)))
  | cutShort (before : List Call) (call : Call) (after : List Call)
      (drafts : List (Option Draft)) (error : ε)
      (split : calls = before ++ call :: after)
      (answered : (before.map fun call => reader call.comment labels.contentType) =
        drafts.map .ok)
      (refused : reader call.comment labels.contentType = .error error)
      (consulted : extraction.consulted =
        (before ++ [call]).map fun call => (call.comment, labels.contentType))
      (result : extraction.result = .error error)

/-! ## From events to calls -/

def Event.call? : Event → Option Call
  | .consult comment target => some ⟨comment, target⟩
  | .discard _ => none

namespace Place

/-- One more node changes the comment in effect as it changes the comment that waits. -/
theorem commentAfter_cons (node : Node) (earlier : List Node) (outer : List (List Node)) :
    commentAfter ((node :: earlier) :: outer) =
      node.pendingAfter (commentAfter (earlier :: outer)) := by
  rcases node with ⟨content, span⟩ | ⟨head, body, span⟩
  · rcases content with _ | _ | ⟨form, text⟩ | _ | _
    case comment => cases form <;> rfl
    all_goals rfl
  · cases head <;> rfl

theorem commentAfter_inside (earlier : List (List Node)) :
    commentAfter ([] :: earlier) = commentAfter earlier := rfl

end Place

namespace Node

/-- Each construct that a node presents to a comment is one call, and there are no others. -/
theorem map_targets? (comment : String) (node : Node) :
    (node.targets?.getD []).map (fun target => (⟨comment, target⟩ : Call)) =
      node.callsWith comment := by
  rcases node with ⟨content, span⟩ | ⟨head, body, span⟩
  · cases content <;> rfl
  · cases head with
    | rule selectors =>
        show (selectors.filterMap _).map _ = selectors.flatMap _
        induction selectors with
        | nil => rfl
        | cons selector selectors ih =>
            rcases selector with ⟨text, _ | name⟩
            · simpa using ih
            · simpa using ih
    | callable => rfl
    | nesting => rfl
    | other => rfl

/-- What happens at a node to a comment holds the calls that the node makes with it. -/
theorem filterMap_meet (comment : String) (node : Node) :
    (node.meet comment).filterMap Event.call? = node.callsWith comment := by
  have consults (targets : List Target) :
      (targets.map (Event.consult comment)).filterMap Event.call? =
        targets.map fun target => ⟨comment, target⟩ := by
    rw [List.filterMap_map]
    exact congrFun List.filterMap_eq_map targets
  rw [← map_targets?]
  rcases node with ⟨content, span⟩ | ⟨head, body, span⟩
  · rcases content with _ | _ | ⟨form, text⟩ | _ | _
    case comment => cases form <;> rfl
    all_goals rfl
  · cases head with
    | rule selectors => exact consults _
    | callable => rfl
    | nesting => rfl
    | other => rfl

end Node

theorem Place.calls_eq_meet (node : Node) (earlier : List (List Node)) :
    Place.calls ⟨node, earlier⟩ =
      (((commentAfter earlier).map fun comment => node.meet comment).getD []).filterMap
        Event.call? := by
  cases h : commentAfter earlier with
  | none => simp [calls, h]
  | some comment =>
      simp only [calls, h, Option.map_some, Option.getD_some]
      exact (node.filterMap_meet comment).symm

namespace Node

-- The walk carries the comment that waits; the places carry all nodes before them.  The two
-- agree at every node, because `commentAfter` of those nodes is what waits there.
mutual

theorem filterMap_events (earlier : List (List Node)) : (node : Node) →
    (node.events (Place.commentAfter earlier)).filterMap Event.call? =
      (Place.ofNode earlier node).flatMap Place.calls
  | block (.nesting keyword prelude) body span => by
      have inside := filterMap_eventsOfList earlier [] body
      rw [Place.commentAfter_inside] at inside
      have atRule : Place.calls ⟨block (.nesting keyword prelude) body span, earlier⟩ = [] := by
        unfold Place.calls
        cases Place.commentAfter earlier <;> rfl
      rw [events, inside, Place.ofNode, List.flatMap_cons, atRule, List.nil_append]
  | leaf content span => by
      rw [events, Place.ofNode, List.flatMap_singleton, Place.calls_eq_meet] <;> simp
  | block (.rule selectors) body span => by
      rw [events, Place.ofNode, List.flatMap_singleton, Place.calls_eq_meet] <;> simp
  | block (.callable kind name arguments) body span => by
      rw [events, Place.ofNode, List.flatMap_singleton, Place.calls_eq_meet] <;> simp
  | block (.other text) body span => by
      rw [events, Place.ofNode, List.flatMap_singleton, Place.calls_eq_meet] <;> simp

theorem filterMap_eventsOfList (outer : List (List Node)) (earlier : List Node) :
    (nodes : List Node) →
      (eventsOfList (Place.commentAfter (earlier :: outer)) nodes).filterMap Event.call? =
        (Place.ofList outer earlier nodes).flatMap Place.calls
  | [] => rfl
  | node :: nodes => by
      have later := filterMap_eventsOfList outer (node :: earlier) nodes
      rw [Place.commentAfter_cons] at later
      rw [eventsOfList, Place.ofList, List.filterMap_append, List.flatMap_append, later,
        filterMap_events (earlier :: outer) node]

end

end Node

/-! ## From calls to the result -/

/-- Extraction comes to what the calls among its events come to. -/
theorem Extraction.ofEvents_outcome {ε : Type} (reader : CommentReader ε) (labels : Labels)
    (events : List Event) :
    Outcome reader labels (events.filterMap Event.call?) (ofEvents reader labels events) := by
  induction events with
  | nil => exact .complete [] rfl rfl rfl
  | cons event events ih =>
      cases event with
      | discard kindWord =>
          rcases ih with ⟨drafts, answered, consulted, result⟩ |
            ⟨before, call, after, drafts, error, split, answered, refused, consulted, result⟩
          · exact .complete drafts answered consulted result
          · exact .cutShort before call after drafts error split answered refused consulted result
      | consult comment target =>
          cases answer : reader comment labels.contentType with
          | error error =>
              refine .cutShort [] ⟨comment, target⟩ _ [] error rfl rfl answer ?_ ?_
              · simp [ofEvents, answer]
              · simp [ofEvents, answer]
          | ok draft =>
              have step : ofEvents reader labels (.consult comment target :: events) =
                  consult comment labels.contentType (draft.bind (target.described labels))
                    (ofEvents reader labels events) := by
                have same : target.entity? labels = target.described labels :=
                  funext (target.entity?_eq_described labels)
                simp only [ofEvents, answer, same]
              rw [step]
              rcases ih with ⟨drafts, answered, consulted, result⟩ |
                ⟨before, call, after, drafts, error, split, answered, refused, consulted, result⟩
              · refine .complete (draft :: drafts) ?_ ?_ ?_
                · simp [Event.call?, answer, answered]
                · simp [Event.call?, consult, consulted]
                · simp only [consult, result, Except.map, Event.call?, List.filterMap_cons,
                    List.zip_cons_cons]
                  cases draft.bind (target.described labels) <;> rfl
              · refine .cutShort (⟨comment, target⟩ :: before) call after (draft :: drafts) error
                  ?_ ?_ refused ?_ ?_
                · simp [Event.call?, split]
                · simp [answer, answered]
                · simp [consult, consulted]
                · simp only [consult, result, Except.map]

/-! ## The walk on a stack of frames -/

/-- A list of nodes that is being walked, and the comment that waits in it. -/
structure Frame where
  nodes : List Node
  pending : Option String

namespace Frame

/--
One round of the walk on the innermost frame: the events it gives, and the frames that are left.
The body of a nesting at-rule is walked in a frame of its own, which starts with the comment of
the frame around it; that frame keeps its comment.
-/
def step (frames : List Frame) : Frame → List Event × List Frame
  | ⟨[], _⟩ => ([], frames)
  | ⟨.block (.nesting _ _) body _ :: nodes, pending⟩ =>
      ([], ⟨body, pending⟩ :: ⟨nodes, pending⟩ :: frames)
  | ⟨node :: nodes, pending⟩ =>
      ((pending.map fun comment => node.meet comment).getD [],
        ⟨nodes, node.pendingAfter pending⟩ :: frames)

mutual

def rounds : Node → Nat
  | .block (.nesting _ _) body _ => roundsOfList body + 1
  | _ => 1

def roundsOfList : List Node → Nat
  | [] => 1
  | node :: nodes => rounds node + roundsOfList nodes

end

def roundsLeft (frames : List Frame) : Nat :=
  (frames.map fun frame => roundsOfList frame.nodes).sum

theorem roundsLeft_step (frame : Frame) (frames : List Frame) :
    roundsLeft (frame.step frames).2 + 1 = roundsLeft (frame :: frames) := by
  unfold step
  split
  · simp only [roundsLeft, List.map_cons, List.sum_cons, roundsOfList]
    omega
  · simp only [roundsLeft, List.map_cons, List.sum_cons, roundsOfList, rounds]
    omega
  · next node nodes pending notNesting =>
      have atNode : rounds node = 1 := by
        rw [rounds]
        exact notNesting
      simp only [roundsLeft, List.map_cons, List.sum_cons, roundsOfList, atNode]
      omega

/-- The events of a walk that has the given frames, innermost first. -/
def run : List Frame → List Event
  | [] => []
  | frame :: frames =>
      have : roundsLeft (frame.step frames).2 < roundsLeft (frame :: frames) :=
        Nat.lt_of_succ_le (Nat.le_of_eq (roundsLeft_step frame frames))
      (frame.step frames).1 ++ run (frame.step frames).2
termination_by frames => roundsLeft frames

def remaining (frames : List Frame) : List Event :=
  frames.flatMap fun frame => Node.eventsOfList frame.pending frame.nodes

/-- A round takes the events it gives off those that remain. -/
theorem remaining_step (frame : Frame) (frames : List Frame) :
    remaining (frame :: frames) = (frame.step frames).1 ++ remaining (frame.step frames).2 := by
  unfold step
  split
  · rfl
  · simp [remaining, Node.eventsOfList, Node.events, Node.pendingAfter]
  · next node nodes pending notNesting =>
      have atNode : node.events pending =
          (pending.map fun comment => node.meet comment).getD [] := by
        rw [Node.events]
        exact notNesting
      simp [remaining, Node.eventsOfList, atNode]

/-- Walking on a stack gives the events of the walk over the tree. -/
theorem run_eq_remaining (frames : List Frame) : run frames = remaining frames := by
  fun_induction run frames with
  | case1 => rfl
  | case2 frame frames _ ih => rw [ih, remaining_step]

end Frame

/-! ## The statement -/

/--
Extraction asks, in document order, the comment in effect at each documentable construct about
it, and no other comment; its entities are those that the answers describe.  The first refusal
ends it.  A walk on an explicit stack, from one frame where no comment waits, gives the same
extraction.
-/
theorem ofNodes_asks_comments_in_effect {ε : Type} (reader : CommentReader ε) (labels : Labels)
    (nodes : List Node) :
    Outcome reader labels (callsOfNodes nodes) (Extraction.ofNodes reader labels nodes) ∧
      Extraction.ofEvents reader labels (Frame.run [⟨nodes, none⟩]) =
        Extraction.ofNodes reader labels nodes := by
  constructor
  · have calls : (Node.eventsOfList none nodes).filterMap Event.call? = callsOfNodes nodes :=
      Node.filterMap_eventsOfList [] [] nodes
    rw [← calls]
    exact Extraction.ofEvents_outcome reader labels _
  · have walked : Frame.run [⟨nodes, none⟩] = Node.eventsOfList none nodes := by
      rw [Frame.run_eq_remaining]
      simp [Frame.remaining]
    rw [Extraction.ofNodes, walked]

end StyleDoc
