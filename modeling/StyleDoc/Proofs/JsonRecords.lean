import StyleDoc.Command.Run
import StyleDoc.Proofs.JsonReading

/-!
# Reading documentation from JSON

Entities and files are read back from their JSON form.  A member that is left out has the value
that it was left out for: an absent text, an empty list, an empty description, a parameter that is
not variadic, or a construct that everyone may use.  So the text that a command prints determines
the documentation that it stands for.
-/

namespace StyleDoc

namespace JsonValue

/-! ## Members that may be left out -/

def unlessEmpty (texts : List String) : Option JsonValue :=
  if texts = [] then none else some (strings texts)

def unlessBlank (text : String) : Option JsonValue :=
  if text = "" then none else some (string text)

@[simp] theorem lookup_optional (key other : String) (value : Option JsonValue) :
    (optional key value).lookup other = if other = key then value else none := by
  by_cases same : other = key
  · cases value <;> simp [optional, same]
  · have different : (other == key) = false := by simp [same]
    cases value <;> simp [optional, List.lookup_cons, different, same]

@[simp] theorem lookup_optionalText (key other : String) (text : Option String) :
    (optionalText key text).lookup other = if other = key then text.map string else none :=
  lookup_optional key other (text.map string)

theorem nonemptyText_eq (key text : String) :
    nonemptyText key text = optional key (unlessBlank text) := by
  by_cases empty : text = "" <;> simp [nonemptyText, unlessBlank, optional, empty]

theorem nonemptyStrings_eq (key : String) (texts : List String) :
    nonemptyStrings key texts = optional key (unlessEmpty texts) := by
  by_cases empty : texts = [] <;> simp [nonemptyStrings, unlessEmpty, optional, empty]

/-! ## Reading values -/

def text? : JsonValue → Option String
  | string text => some text
  | _ => none

@[simp] theorem text?_string (text : String) : (string text).text? = some text := rfl

def items? : JsonValue → Option (List JsonValue)
  | array items => some items
  | _ => none

def members? : JsonValue → Option (List (String × JsonValue))
  | object members => some members
  | _ => none

def texts? (value : JsonValue) : Option (List String) := value.items?.bind (·.mapM text?)

def bool? : JsonValue → Option Bool
  | bool value => some value
  | _ => none

/-- Reads the member with the given key; `absent` is what its absence stands for, if it may be
left out. -/
def member? {α : Type} (members : List (String × JsonValue)) (key : String)
    (read : JsonValue → Option α) (absent : Option α) : Option α :=
  match members.lookup key with
  | some value => read value
  | none => absent

def required? {α : Type} (members : List (String × JsonValue)) (key : String)
    (read : JsonValue → Option α) : Option α :=
  member? members key read none

/-- Reads a member whose absence is a value of its own. -/
def optional? {α : Type} (members : List (String × JsonValue)) (key : String)
    (read : JsonValue → Option α) : Option (Option α) :=
  member? members key (fun value => (read value).map some) (some none)

theorem mapM_map_eq_some {α β : Type} {read : β → Option α} {write : α → β}
    (inverse : ∀ a, read (write a) = some a) (items : List α) :
    (items.map write).mapM read = some items := by
  induction items with
  | nil => rfl
  | cons item items ih => simp [inverse, ih]

theorem texts?_strings (texts : List String) : (strings texts).texts? = some texts :=
  mapM_map_eq_some text?_string texts

section

variable {members : List (String × JsonValue)} {key : String}

theorem required?_eq {α : Type} {value : JsonValue} {read : JsonValue → Option α}
    (written : members.lookup key = some value) : required? members key read = read value := by
  rw [required?, member?, written]

theorem optional?_eq {α : Type} {value : Option α} {read : JsonValue → Option α}
    {write : α → JsonValue} (inverse : ∀ a, read (write a) = some a)
    (written : members.lookup key = value.map write) :
    optional? members key read = some value := by
  rw [optional?, member?, written]
  cases value <;> simp [inverse]

theorem member?_texts {texts : List String} (written : members.lookup key = unlessEmpty texts) :
    member? members key texts? (some []) = some texts := by
  rw [member?, written, unlessEmpty]
  by_cases empty : texts = []
  · simp [empty]
  · simp [empty, texts?_strings]

theorem member?_text {text : String} (written : members.lookup key = unlessBlank text) :
    member? members key text? (some "") = some text := by
  rw [member?, written, unlessBlank]
  by_cases empty : text = ""
  · simp [empty]
  · simp [empty]

end

end JsonValue

open JsonValue

/-! ## Parameters and return values -/

structure ParameterDoc.WrittenIn (parameter : ParameterDoc) (members : List (String × JsonValue)) :
    Prop where
  name : members.lookup "name" = some (.string parameter.name)
  types : members.lookup "types" = unlessEmpty parameter.types
  description : members.lookup "description" = unlessBlank parameter.description
  defaultValue : members.lookup "defaultValue" = parameter.defaultValue.map .string
  variadic : members.lookup "variadic" = if parameter.variadic then some (.bool true) else none

structure ReturnDoc.WrittenIn (returns : ReturnDoc) (members : List (String × JsonValue)) :
    Prop where
  types : members.lookup "types" = unlessEmpty returns.types
  description : members.lookup "description" = unlessBlank returns.description

def ParameterDoc.ofJson? (value : JsonValue) : Option ParameterDoc := do
  let members ← value.members?
  let name ← required? members "name" text?
  let types ← member? members "types" texts? (some [])
  let description ← member? members "description" text? (some "")
  let defaultValue ← optional? members "defaultValue" text?
  let variadic ← member? members "variadic" bool? (some false)
  return ⟨name, types, description, defaultValue, variadic⟩

def ReturnDoc.ofJson? (value : JsonValue) : Option ReturnDoc := do
  let members ← value.members?
  let types ← member? members "types" texts? (some [])
  let description ← member? members "description" text? (some "")
  return ⟨types, description⟩

theorem ParameterDoc.exists_writtenIn (parameter : ParameterDoc) :
    ∃ members, parameter.toJson = .object members ∧ parameter.WrittenIn members := by
  refine ⟨_, rfl, ?_, ?_, ?_, ?_, ?_⟩
  all_goals
    cases parameter.variadic <;>
      simp [List.lookup_append, List.lookup_cons, nonemptyText_eq, nonemptyStrings_eq]

theorem ReturnDoc.exists_writtenIn (returns : ReturnDoc) :
    ∃ members, returns.toJson = .object members ∧ returns.WrittenIn members := by
  refine ⟨_, rfl, ?_, ?_⟩
  all_goals simp [List.lookup_append, nonemptyText_eq, nonemptyStrings_eq]

theorem ParameterDoc.ofJson?_toJson (parameter : ParameterDoc) :
    ofJson? parameter.toJson = some parameter := by
  obtain ⟨members, form, written⟩ := parameter.exists_writtenIn
  have variadic : member? members "variadic" bool? (some false) = some parameter.variadic := by
    rw [member?, written.variadic]
    cases parameter.variadic <;> rfl
  simp [ofJson?, form, members?, required?_eq written.name, member?_texts written.types,
    member?_text written.description, optional?_eq text?_string written.defaultValue, variadic]

theorem ReturnDoc.ofJson?_toJson (returns : ReturnDoc) :
    ofJson? returns.toJson = some returns := by
  obtain ⟨members, form, written⟩ := returns.exists_writtenIn
  simp [ofJson?, form, members?, member?_texts written.types, member?_text written.description]

/-! ## Entities -/

def Visibility.ofWord? (word : String) : Option Visibility :=
  [shown, guarded, hidden].find? fun visibility => visibility.word == word

theorem Visibility.ofWord?_word (visibility : Visibility) :
    ofWord? visibility.word = some visibility := by
  cases visibility <;> decide

def ConstructKind.ofWord? (word : String) : Option ConstructKind :=
  [styleVariable, styleClass, callable].find? fun kind => kind.word == word

theorem ConstructKind.ofWord?_word (kind : ConstructKind) : ofWord? kind.word = some kind := by
  cases kind <;> decide

/-- What the members of an entity show of what is documented of every kind of construct. -/
structure Details.WrittenIn (details : Details) (members : List (String × JsonValue)) : Prop where
  description : members.lookup "description" = some (.string details.description)
  group : members.lookup "group" = details.group.map .string
  namespaceName : members.lookup "namespace" = details.namespaceName.map .string
  examples : members.lookup "examples" = unlessEmpty details.examples
  see : members.lookup "see" = unlessEmpty details.see
  deprecated : members.lookup "deprecated" = details.deprecated.map .string
  visibility : members.lookup "visibility" =
    if details.visibility = .shown then none else some (.string details.visibility.word)

/-- What the members of an entity show of what is documented of its kind of construct only. -/
def Construct.WrittenIn (members : List (String × JsonValue)) : Construct → Prop
  | styleVariable types value =>
      members.lookup "types" = unlessEmpty types ∧ members.lookup "value" = value.map .string
  | styleClass => True
  | callable parameters returns =>
      members.lookup "parameters" = some (.array (parameters.map ParameterDoc.toJson)) ∧
        members.lookup "returns" = returns.map ReturnDoc.toJson

structure Entity.WrittenIn (entity : Entity) (members : List (String × JsonValue)) : Prop where
  kind : members.lookup "kind" = some (.string entity.construct.kind.word)
  name : members.lookup "name" = some (.string entity.name)
  construct : entity.construct.WrittenIn members
  details : entity.details.WrittenIn members
  contentType : members.lookup "contentType" = some (.string entity.labels.contentType)
  contentKind : members.lookup "contentKind" = some (.string entity.labels.contentKind)

def Details.ofMembers? (members : List (String × JsonValue)) : Option Details := do
  let description ← required? members "description" text?
  let group ← optional? members "group" text?
  let namespaceName ← optional? members "namespace" text?
  let examples ← member? members "examples" texts? (some [])
  let see ← member? members "see" texts? (some [])
  let deprecated ← optional? members "deprecated" text?
  let visibility ← member? members "visibility" (·.text?.bind Visibility.ofWord?) (some .shown)
  return ⟨description, group, namespaceName, examples, see, deprecated, visibility⟩

def Construct.ofMembers? (members : List (String × JsonValue)) : ConstructKind → Option Construct
  | .styleVariable => do
      let types ← member? members "types" texts? (some [])
      let value ← optional? members "value" text?
      return .styleVariable types value
  | .styleClass => some .styleClass
  | .callable => do
      let parameters ← required? members "parameters"
        (·.items?.bind (·.mapM ParameterDoc.ofJson?))
      let returns ← optional? members "returns" ReturnDoc.ofJson?
      return .callable parameters returns

def Entity.ofJson? (value : JsonValue) : Option Entity := do
  let members ← value.members?
  let kind ← required? members "kind" (·.text?.bind ConstructKind.ofWord?)
  let name ← required? members "name" text?
  let construct ← Construct.ofMembers? members kind
  let details ← Details.ofMembers? members
  let contentType ← required? members "contentType" text?
  let contentKind ← required? members "contentKind" text?
  return ⟨name, construct, details, ⟨contentType, contentKind⟩⟩

theorem Details.ofMembers?_eq {details : Details} {members : List (String × JsonValue)}
    (written : details.WrittenIn members) : ofMembers? members = some details := by
  have visibility : member? members "visibility" (·.text?.bind Visibility.ofWord?) (some .shown) =
      some details.visibility := by
    rw [member?, written.visibility]
    by_cases shown : details.visibility = .shown
    · simp [shown]
    · simp [shown, Visibility.ofWord?_word]
  simp [ofMembers?, required?_eq written.description,
    optional?_eq text?_string written.group, optional?_eq text?_string written.namespaceName,
    member?_texts written.examples, member?_texts written.see,
    optional?_eq text?_string written.deprecated, visibility]

theorem Construct.ofMembers?_eq {construct : Construct} {members : List (String × JsonValue)}
    (written : construct.WrittenIn members) :
    ofMembers? members construct.kind = some construct := by
  cases construct with
  | styleVariable types value =>
      simp [ofMembers?, kind, member?_texts written.1, optional?_eq text?_string written.2]
  | styleClass => rfl
  | callable parameters returns =>
      have read := mapM_map_eq_some ParameterDoc.ofJson?_toJson parameters
      simp [ofMembers?, kind, required?_eq written.1, items?, read,
        optional?_eq ReturnDoc.ofJson?_toJson written.2]

def Details.keys : List String :=
  ["description", "group", "namespace", "examples", "see", "deprecated", "visibility"]

theorem Details.writtenIn_append (details : Details) {before after : List (String × JsonValue)}
    (others : ∀ key ∈ keys, before.lookup key = none ∧ after.lookup key = none) :
    details.WrittenIn (before ++ (details.toMembers ++ after)) := by
  simp only [keys, List.forall_mem_cons] at others
  refine ⟨?_, ?_, ?_, ?_, ?_, ?_, ?_⟩
  all_goals
    by_cases shown : details.visibility = .shown <;>
      simp [toMembers, List.lookup_append, List.lookup_cons, nonemptyStrings_eq, shown, others]

theorem Details.lookup_toMembers_of_other (details : Details) {key : String}
    (other : key ∉ keys) : details.toMembers.lookup key = none := by
  simp only [keys, List.mem_cons, not_or] at other
  have description : (key == "description") = false := beq_eq_false_iff_ne.mpr other.1
  have visibility : (key == "visibility") = false := by simp [other]
  by_cases shown : details.visibility = .shown <;>
    simp [toMembers, List.lookup_append, List.lookup_cons, nonemptyStrings_eq, shown, other,
      description, visibility]

/-- The members of an entity do not hide one another. -/
theorem Entity.exists_writtenIn (entity : Entity) :
    ∃ members, entity.toJson = .object members ∧ entity.WrittenIn members := by
  obtain ⟨name, construct, details, labels⟩ := entity
  have foreign {key : String} (other : key ∉ Details.keys) :=
    details.lookup_toMembers_of_other other
  refine ⟨("kind", .string construct.kind.word) :: ("name", .string name) ::
    construct.toMembers ++ (details.toMembers ++
      [("contentType", .string labels.contentType), ("contentKind", .string labels.contentKind)]),
    by simp [toJson, toMembers], rfl, rfl, ?_, details.writtenIn_append ?_, ?_, ?_⟩
  all_goals
    cases construct <;>
      simp [Construct.WrittenIn, Construct.toMembers, List.lookup_append, List.lookup_cons,
        nonemptyStrings_eq, foreign, Details.keys]

theorem Entity.ofJson?_toJson (entity : Entity) : ofJson? entity.toJson = some entity := by
  obtain ⟨members, form, written⟩ := entity.exists_writtenIn
  simp [ofJson?, form, members?, required?_eq written.kind, ConstructKind.ofWord?_word,
    required?_eq written.name, Construct.ofMembers?_eq written.construct,
    Details.ofMembers?_eq written.details, required?_eq written.contentType,
    required?_eq written.contentKind]

/-! ## Files and lists -/

def FileDoc.ofJson? (value : JsonValue) : Option FileDoc := do
  let members ← value.members?
  let path ← required? members "path" text?
  let contentType ← required? members "contentType" text?
  let contentKind ← required? members "contentKind" text?
  let documentation ← required? members "documentation" (·.items?.bind (·.mapM Entity.ofJson?))
  return ⟨path, ⟨contentType, contentKind⟩, documentation⟩

theorem FileDoc.ofJson?_toJson (doc : FileDoc) : ofJson? doc.toJson = some doc := by
  have read := mapM_map_eq_some Entity.ofJson?_toJson doc.documentation
  simp [ofJson?, toJson, members?, required?, member?, List.lookup_cons, items?, read]

/-- Reads a printed list of which `read` reads the items. -/
def listOfText? {α : Type} (read : JsonValue → Option α) (text : String) : Option (List α) := do
  let value ← JsonValue.ofText? text
  let items ← value.items?
  items.mapM read

/-- A printed list is read back, also with blanks behind it. -/
theorem listOfText?_pretty_append {α : Type} {read : JsonValue → Option α} {write : α → JsonValue}
    (inverse : ∀ a, read (write a) = some a) (items : List α) {blanks : String}
    (blank : symbols blanks.toList = some []) :
    listOfText? read ((JsonValue.array (items.map write)).pretty ++ blanks) = some items := by
  simp [listOfText?, ofText?_pretty_append _ blank, items?, mapM_map_eq_some inverse]

/-! ## Distinct keys -/

inductive JsonValue.KeysDistinct : JsonValue → Prop
  | bool (value : Bool) : KeysDistinct (.bool value)
  | string (text : String) : KeysDistinct (.string text)
  | array {items : List JsonValue} (inside : ∀ item ∈ items, KeysDistinct item) :
      KeysDistinct (.array items)
  | object {members : List (String × JsonValue)} (distinct : (members.map Prod.fst).Nodup)
      (inside : ∀ member ∈ members, KeysDistinct member.2) : KeysDistinct (.object members)

namespace JsonValue

/-- Members with some of the given keys, in their order, and with values in which no object has a
key twice. -/
def KeyedBy (keys : List String) (members : List (String × JsonValue)) : Prop :=
  (members.map Prod.fst).Sublist keys ∧ ∀ member ∈ members, KeysDistinct member.2

namespace KeyedBy

theorem append {keys more : List String} {a b : List (String × JsonValue)}
    (first : KeyedBy keys a) (second : KeyedBy more b) : KeyedBy (keys ++ more) (a ++ b) := by
  refine ⟨?_, List.forall_mem_append.mpr ⟨first.2, second.2⟩⟩
  rw [List.map_append]
  exact first.1.append second.1

theorem optional (key : String) {value : Option JsonValue}
    (inside : ∀ found ∈ value, KeysDistinct found) : KeyedBy [key] (optional key value) := by
  cases value with
  | none => exact ⟨List.nil_sublist _, by simp [JsonValue.optional]⟩
  | some found => exact ⟨List.Sublist.refl _, by simpa [JsonValue.optional] using inside⟩

theorem single (key : String) {value : JsonValue} (inside : KeysDistinct value) :
    KeyedBy [key] [(key, value)] :=
  ⟨List.Sublist.refl _, by simpa using inside⟩

theorem optionalText (key : String) (text : Option String) :
    KeyedBy [key] (optionalText key text) := by
  apply optional key
  intro found member
  obtain ⟨text, _, rfl⟩ := Option.map_eq_some_iff.mp member
  exact .string text

theorem nonemptyText (key text : String) : KeyedBy [key] (nonemptyText key text) := by
  rw [nonemptyText_eq]
  apply optional key
  unfold unlessBlank
  split
  · simp
  · rintro _ ⟨⟩
    exact .string text

theorem nonemptyStrings (key : String) (texts : List String) :
    KeyedBy [key] (nonemptyStrings key texts) := by
  have inside : KeysDistinct (strings texts) := by
    refine .array ?_
    intro item member
    obtain ⟨text, _, rfl⟩ := List.mem_map.mp member
    exact .string text
  rw [nonemptyStrings_eq]
  apply optional key
  unfold unlessEmpty
  split
  · simp
  · rintro _ ⟨⟩
    exact inside

theorem object {keys : List String} {members : List (String × JsonValue)}
    (keyed : KeyedBy keys members) (distinct : keys.Nodup) : KeysDistinct (.object members) :=
  .object (distinct.sublist keyed.1) keyed.2

end KeyedBy

theorem KeysDistinct.array_map {α : Type} {write : α → JsonValue}
    (inside : ∀ a, KeysDistinct (write a)) (items : List α) :
    KeysDistinct (.array (items.map write)) := by
  refine .array ?_
  intro item member
  obtain ⟨a, _, rfl⟩ := List.mem_map.mp member
  exact inside a

end JsonValue

theorem ParameterDoc.keysDistinct_toJson (parameter : ParameterDoc) :
    KeysDistinct parameter.toJson := by
  have variadic : KeyedBy ["variadic"]
      (if parameter.variadic then [("variadic", .bool true)] else []) := by
    split
    · exact .single "variadic" (.bool true)
    · exact ⟨List.nil_sublist _, by simp⟩
  have keyed := ((((KeyedBy.single "name" (.string parameter.name)).append
    (.nonemptyStrings "types" parameter.types)).append
      (.nonemptyText "description" parameter.description)).append
        (.optionalText "defaultValue" parameter.defaultValue)).append variadic
  exact keyed.object (by decide)

theorem ReturnDoc.keysDistinct_toJson (returns : ReturnDoc) : KeysDistinct returns.toJson := by
  have keyed := (KeyedBy.nonemptyStrings "types" returns.types).append
    (.nonemptyText "description" returns.description)
  exact keyed.object (by decide)

theorem Details.keyedBy_toMembers (details : Details) :
    KeyedBy keys details.toMembers := by
  have visibility : KeyedBy ["visibility"] (if details.visibility = .shown then []
      else [("visibility", .string details.visibility.word)]) := by
    split
    · exact ⟨List.nil_sublist _, by simp⟩
    · exact .single "visibility" (.string _)
  exact ((((((KeyedBy.single "description" (.string details.description)).append
    (.optionalText "group" _)).append (.optionalText "namespace" _)).append
      (.nonemptyStrings "examples" _)).append (.nonemptyStrings "see" _)).append
        (.optionalText "deprecated" _)).append visibility

def ConstructKind.keys : ConstructKind → List String
  | styleVariable => ["types", "value"]
  | styleClass => []
  | callable => ["parameters", "returns"]

theorem Construct.keyedBy_toMembers (construct : Construct) :
    KeyedBy construct.kind.keys construct.toMembers := by
  cases construct with
  | styleVariable types value =>
      exact (KeyedBy.nonemptyStrings "types" types).append (.optionalText "value" value)
  | styleClass => exact ⟨List.nil_sublist _, by simp [toMembers]⟩
  | callable parameters returns =>
      refine (KeyedBy.single "parameters"
        (.array_map ParameterDoc.keysDistinct_toJson parameters)).append (.optional "returns" ?_)
      intro found member
      obtain ⟨returned, _, rfl⟩ := Option.map_eq_some_iff.mp member
      exact returned.keysDistinct_toJson

/-- What is documented of every kind of construct shares no key with the rest of an entity. -/
theorem Entity.keysDistinct_toJson (entity : Entity) : KeysDistinct entity.toJson := by
  have labels : KeyedBy ["contentType", "contentKind"]
      [("contentType", .string entity.labels.contentType),
        ("contentKind", .string entity.labels.contentKind)] :=
    (KeyedBy.single "contentType" (.string _)).append (.single "contentKind" (.string _))
  have keyed := (KeyedBy.single "kind" (.string entity.construct.kind.word)).append
    ((((KeyedBy.single "name" (.string entity.name)).append
      entity.construct.keyedBy_toMembers).append entity.details.keyedBy_toMembers).append labels)
  refine keyed.object ?_
  cases entity.construct.kind <;> decide

theorem FileDoc.keysDistinct_toJson (doc : FileDoc) : KeysDistinct doc.toJson := by
  have keyed := (KeyedBy.single "path" (.string doc.path)).append
    ((KeyedBy.single "contentType" (.string doc.labels.contentType)).append
      ((KeyedBy.single "contentKind" (.string doc.labels.contentKind)).append
        (.single "documentation" (.array_map Entity.keysDistinct_toJson doc.documentation))))
  exact keyed.object (by decide)

/-! ## The statement -/

def Command.Outcome.printed? : Outcome → Option String
  | finished 0 output _ => some output
  | _ => none

/-- What was printed for a list is read back; after a failure there is nothing to read. -/
theorem Command.Outcome.printed?_ofResult {α : Type} {read : JsonValue → Option α}
    {write : α → JsonValue} (inverse : ∀ a, read (write a) = some a)
    (result : Except Failure (List α)) :
    (ofResult (result.map fun items => (JsonValue.array (items.map write)).pretty)).printed?.bind
      (listOfText? read) = result.toOption := by
  cases result with
  | error failure => rfl
  | ok items => exact listOfText?_pretty_append inverse items (by decide)

/--
Printed documentation loses nothing.  A printed list of entities or files is read back as it was,
and no object in it has a key twice.  The members of an entity, a parameter and a return value show
all their fields: one is left out only for the value that reading gives it then, so that an empty
text and an empty return value differ from absent ones.  What the commands print, the line feed at
its end included, is read back as the list that they found.
-/
theorem printed_documentation_read_back :
    (∀ entities : List Entity,
        listOfText? Entity.ofJson? (JsonValue.array (entities.map Entity.toJson)).pretty =
            some entities ∧
          KeysDistinct (.array (entities.map Entity.toJson))) ∧
      (∀ docs : List FileDoc,
        listOfText? FileDoc.ofJson? (JsonValue.array (docs.map FileDoc.toJson)).pretty =
            some docs ∧
          KeysDistinct (.array (docs.map FileDoc.toJson))) ∧
      (∀ entity : Entity, ∃ members, entity.toJson = .object members ∧ entity.WrittenIn members) ∧
      (∀ parameter : ParameterDoc, ∃ members,
        parameter.toJson = .object members ∧ parameter.WrittenIn members) ∧
      (∀ returns : ReturnDoc, ∃ members,
        returns.toJson = .object members ∧ returns.WrittenIn members) ∧
      (∀ files file labels strict,
        (Command.perform files (.parse file labels strict)).printed?.bind
            (listOfText? Entity.ofJson?) =
          (Command.parse files file labels strict).toOption) ∧
      ∀ files root globs labels,
        (Command.perform files (.scan root globs labels)).printed?.bind
            (listOfText? FileDoc.ofJson?) =
          (Command.scan files root globs labels).toOption := by
  have alone {α : Type} {read : JsonValue → Option α} {write : α → JsonValue}
      (inverse : ∀ a, read (write a) = some a) (items : List α) :
      listOfText? read (JsonValue.array (items.map write)).pretty = some items := by
    have nothing : symbols "".toList = some [] := by decide
    simpa using listOfText?_pretty_append inverse items nothing
  refine ⟨?_, ?_, Entity.exists_writtenIn, ParameterDoc.exists_writtenIn,
    ReturnDoc.exists_writtenIn, ?_, ?_⟩
  · intro entities
    exact ⟨alone Entity.ofJson?_toJson entities, .array_map Entity.keysDistinct_toJson entities⟩
  · intro docs
    exact ⟨alone FileDoc.ofJson?_toJson docs, .array_map FileDoc.keysDistinct_toJson docs⟩
  · intro files file labels strict
    exact Command.Outcome.printed?_ofResult Entity.ofJson?_toJson _
  · intro files root globs labels
    exact Command.Outcome.printed?_ofResult FileDoc.ofJson?_toJson _

end StyleDoc
