import StyleDoc.Proofs.Classification
import StyleDoc.Proofs.Scanning
import StyleDoc.Proofs.WellFormed

/-!
# Merged parameters

The parameters of a definition are those of its signature, and then those that only its comment
has.  Both lists may repeat names; of equal names the first one counts, so a merge is the list of
first occurrences among all candidates.  A merge that takes the documented parameters off their
list as it uses them comes to the same.
-/

namespace StyleDoc

namespace ParameterDoc

def nameOf (argument : Argument) : String := "$" ++ argument.name

def firstNamed? (parameters : List ParameterDoc) (name : String) : Option ParameterDoc :=
  parameters.find? fun parameter => parameter.name == name

def firstArgument? (arguments : List Argument) (name : String) : Option Argument :=
  arguments.find? fun argument => nameOf argument == name

/-- What a merged list of parameters consists of. -/
structure IsMerged (arguments : List Argument) (documented merged : List ParameterDoc) :
    Prop where
  /-- First the names of the signature and then those that only the comment has, each once and
  where it occurs first. -/
  names : merged.map name = (arguments.map nameOf).eraseDups ++
    ((documented.map name).filter fun name => !(arguments.map nameOf).contains name).eraseDups
  distinct : (merged.map name).Nodup
  signed : ∀ parameter ∈ merged, ∀ argument ∈ firstArgument? arguments parameter.name,
    parameter.types = ((firstNamed? documented parameter.name).map types).getD [] ∧
      parameter.description =
        ((firstNamed? documented parameter.name).map description).getD "" ∧
      parameter.defaultValue =
        argument.defaultValue.or ((firstNamed? documented parameter.name).bind defaultValue) ∧
      (parameter.variadic = true ↔ argument.variadic = true ∨
        ∃ known ∈ firstNamed? documented parameter.name, known.variadic = true)
  unsigned : ∀ parameter ∈ merged, parameter.name ∉ arguments.map nameOf →
    firstNamed? documented parameter.name = some parameter

/-! ## First occurrences -/

theorem hasName_iff {parameters : List ParameterDoc} {name : String} :
    hasName parameters name = true ↔ name ∈ parameters.map ParameterDoc.name := by
  simp [hasName]

theorem name_ofArgument (documented : List ParameterDoc) (argument : Argument) :
    (ofArgument documented argument).name = nameOf argument := by
  unfold ofArgument
  simp only
  cases found : documented.find? fun parameter => parameter.name == "$" ++ argument.name with
  | none => rfl
  | some parameter => simpa [nameOf] using List.find?_some found

theorem merge_eq (arguments : List Argument) (documented : List ParameterDoc) :
    merge arguments documented =
      (arguments.map (ofArgument documented) ++ documented).foldl addDocumented [] := by
  have same : addArgument documented =
      fun parameters argument => addDocumented parameters (ofArgument documented argument) := by
    funext parameters argument
    rw [addArgument, addDocumented, name_ofArgument]
    rfl
  rw [merge, same, List.foldl_append, List.foldl_map]

structure AreFirst (candidates parameters : List ParameterDoc) : Prop where
  names : parameters.map name = (candidates.map name).eraseDups
  distinct : (parameters.map name).Nodup
  first : ∀ parameter ∈ parameters, firstNamed? candidates parameter.name = some parameter

/-- One more candidate is added if its name is new. -/
theorem AreFirst.step {candidates parameters : List ParameterDoc}
    (areFirst : AreFirst candidates parameters) (parameter : ParameterDoc) :
    AreFirst (candidates ++ [parameter]) (addDocumented parameters parameter) := by
  have mem_iff : parameter.name ∈ parameters.map name ↔ parameter.name ∈ candidates.map name := by
    rw [areFirst.names, List.mem_eraseDups]
  have kept : ∀ other ∈ parameters,
      firstNamed? (candidates ++ [parameter]) other.name = some other := by
    intro other member
    have first := areFirst.first other member
    rw [firstNamed?] at first ⊢
    rw [List.find?_append, first, Option.some_or]
  by_cases known : parameter.name ∈ parameters.map name
  · rw [addDocumented, if_pos (hasName_iff.mpr known)]
    refine ⟨?_, areFirst.distinct, kept⟩
    have nothing : [parameter.name].removeAll (candidates.map name) = [] := by
      simpa [List.removeAll] using mem_iff.mp known
    rw [List.map_append, List.map_singleton, List.eraseDups_append, nothing, areFirst.names]
    simp
  · rw [addDocumented, if_neg (fun taken => known (hasName_iff.mp taken))]
    have unknown : parameter.name ∉ candidates.map name := fun member => known (mem_iff.mpr member)
    refine ⟨?_, ?_, ?_⟩
    · have all : [parameter.name].removeAll (candidates.map name) = [parameter.name] := by
        simpa [List.removeAll] using unknown
      rw [List.map_append, List.map_append, List.map_singleton, List.eraseDups_append, all,
        areFirst.names]
      rfl
    · rw [List.map_append, List.map_singleton, List.nodup_append]
      refine ⟨areFirst.distinct, by simp, ?_⟩
      rintro taken member _ same rfl
      exact known (List.mem_singleton.mp same ▸ member)
    · intro other member
      rcases List.mem_append.mp member with member | member
      · exact kept other member
      · rw [List.mem_singleton.mp member]
        have none : candidates.find? (fun c => c.name == parameter.name) = none := by
          rw [List.find?_eq_none]
          intro candidate among same
          exact unknown (List.mem_map.mpr ⟨candidate, among, by simpa using same⟩)
        rw [firstNamed?, List.find?_append, none, Option.none_or]
        simp

theorem AreFirst.run {candidates parameters : List ParameterDoc}
    (areFirst : AreFirst candidates parameters) (more : List ParameterDoc) :
    AreFirst (candidates ++ more) (more.foldl addDocumented parameters) := by
  induction more generalizing candidates parameters with
  | nil => simpa using areFirst
  | cons parameter more ih => simpa using ih (areFirst.step parameter)

theorem areFirst_merge (arguments : List Argument) (documented : List ParameterDoc) :
    AreFirst (arguments.map (ofArgument documented) ++ documented)
      (merge arguments documented) := by
  rw [merge_eq]
  have nothing : AreFirst [] [] := ⟨by simp, by simp, by simp⟩
  simpa using nothing.run (arguments.map (ofArgument documented) ++ documented)

theorem firstNamed?_candidates (arguments : List Argument) (documented : List ParameterDoc)
    (name : String) :
    firstNamed? (arguments.map (ofArgument documented) ++ documented) name =
      ((firstArgument? arguments name).map (ofArgument documented)).or
        (firstNamed? documented name) := by
  have same : ((fun parameter : ParameterDoc => parameter.name == name) ∘ ofArgument documented) =
      fun argument => nameOf argument == name := by
    funext argument
    rw [Function.comp_apply, name_ofArgument]
  rw [firstNamed?, List.find?_append, List.find?_map, same]
  rfl

theorem isMerged_merge (arguments : List Argument) (documented : List ParameterDoc) :
    IsMerged arguments documented (merge arguments documented) := by
  have areFirst := areFirst_merge arguments documented
  have names : (arguments.map (ofArgument documented)).map name = arguments.map nameOf := by
    rw [List.map_map]
    exact List.map_congr_left fun argument _ => name_ofArgument documented argument
  refine ⟨?_, areFirst.distinct, ?_, ?_⟩
  · rw [areFirst.names, List.map_append, names, List.eraseDups_append]
    rfl
  · intro parameter member argument found
    have first := areFirst.first parameter member
    rw [firstNamed?_candidates, Option.mem_def.mp found, Option.map_some, Option.some_or,
      Option.some.injEq] at first
    have name_eq : parameter.name = "$" ++ argument.name := by
      rw [← first, name_ofArgument]
      rfl
    rw [← first, name_ofArgument, nameOf, ofArgument, firstNamed?]
    cases documented.find? fun parameter => parameter.name == "$" ++ argument.name with
    | none => simp
    | some known => simp [or_comm]
  · intro parameter member absent
    have first := areFirst.first parameter member
    have none : firstArgument? arguments parameter.name = none := by
      rw [firstArgument?, List.find?_eq_none]
      intro argument among same
      exact absent (List.mem_map.mpr ⟨argument, among, by simpa using same⟩)
    rwa [firstNamed?_candidates, none, Option.map_none, Option.none_or] at first

/-! ## Taking documented parameters off their list -/

structure Taking where
  parameters : List ParameterDoc
  left : List ParameterDoc

def Taking.add (state : Taking) (argument : Argument) : Taking :=
  if hasName state.parameters (nameOf argument) then state
  else
    ⟨state.parameters ++ [ofArgument state.left argument],
      state.left.eraseP fun parameter => parameter.name == nameOf argument⟩

/-- The merge that takes documented parameters off their list as it uses them. -/
def mergeTaking (arguments : List Argument) (documented : List ParameterDoc) :
    List ParameterDoc :=
  let state := arguments.foldl Taking.add ⟨[], documented⟩
  state.left.foldl addDocumented state.parameters

def untaken (parameters candidates : List ParameterDoc) : List ParameterDoc :=
  candidates.filter fun candidate => !hasName parameters candidate.name

theorem hasName_append (parameters more : List ParameterDoc) (name : String) :
    hasName (parameters ++ more) name = (hasName parameters name || hasName more name) :=
  List.any_append

theorem untaken_append (a b candidates : List ParameterDoc) :
    untaken (a ++ b) candidates = untaken a (untaken b candidates) := by
  rw [untaken, untaken, untaken, List.filter_filter]
  apply List.filter_congr
  intro candidate _
  rw [hasName_append, Bool.not_or]

theorem untaken_comm (a b candidates : List ParameterDoc) :
    untaken a (untaken b candidates) = untaken b (untaken a candidates) := by
  rw [untaken, untaken, untaken, untaken, List.filter_filter, List.filter_filter]
  apply List.filter_congr
  intro candidate _
  rw [Bool.and_comm]

theorem untaken_eraseP (parameter : ParameterDoc) (candidates : List ParameterDoc) :
    untaken [parameter] (candidates.eraseP fun other => other.name == parameter.name) =
      untaken [parameter] candidates := by
  induction candidates with
  | nil => rfl
  | cons candidate candidates ih =>
      by_cases same : candidate.name = parameter.name
      · have taken : untaken [parameter] (candidate :: candidates) =
            untaken [parameter] candidates := by
          rw [untaken, List.filter_cons_of_neg (by simp [hasName, same])]
          rfl
        rw [List.eraseP_cons_of_pos (by simpa using same), taken]
      · rw [List.eraseP_cons_of_neg (by simpa using same), untaken, untaken, List.filter_cons,
          List.filter_cons, ← untaken, ← untaken, ih]

theorem ofArgument_congr {documented left : List ParameterDoc} {argument : Argument}
    (same : firstNamed? left (nameOf argument) = firstNamed? documented (nameOf argument)) :
    ofArgument left argument = ofArgument documented argument := by
  unfold firstNamed? nameOf at same
  rw [ofArgument, ofArgument, same]

theorem firstNamed?_congr {parameters a b : List ParameterDoc} {name : String}
    (same : untaken parameters a = untaken parameters b) (free : hasName parameters name = false) :
    firstNamed? a name = firstNamed? b name := by
  have kept (candidates : List ParameterDoc) :
      firstNamed? candidates name = firstNamed? (untaken parameters candidates) name := by
    rw [firstNamed?, firstNamed?, untaken, List.find?_filter]
    congr 1
    funext candidate
    by_cases found : candidate.name = name
    · simp [found, free]
    · simp [found]
  rw [kept a, kept b, same]

/-- Candidates whose names are taken are never added. -/
theorem foldl_addDocumented_untaken {taken parameters : List ParameterDoc}
    (more : ∀ name, hasName taken name = true → hasName parameters name = true)
    (candidates : List ParameterDoc) :
    candidates.foldl addDocumented parameters =
      (untaken taken candidates).foldl addDocumented parameters := by
  induction candidates generalizing parameters with
  | nil => rfl
  | cons candidate candidates ih =>
      by_cases found : hasName taken candidate.name = true
      · have skipped : addDocumented parameters candidate = parameters :=
          if_pos (more _ found)
        rw [List.foldl_cons, skipped, untaken, List.filter_cons_of_neg (by simp [found])]
        exact ih more
      · rw [List.foldl_cons, untaken, List.filter_cons_of_pos (by simpa using found),
          List.foldl_cons]
        apply ih
        intro name taken
        have already := more name taken
        rw [addDocumented]
        split
        · exact already
        · rw [hasName_append, already, Bool.true_or]

/-- Both merges have the same parameters, and agree on the documented ones whose names are not
taken. -/
def Taking.Agrees (state : Taking) (parameters documented : List ParameterDoc) : Prop :=
  state.parameters = parameters ∧
    untaken parameters state.left = untaken parameters documented

theorem Taking.Agrees.step {documented parameters : List ParameterDoc} {state : Taking}
    (agrees : state.Agrees parameters documented) (argument : Argument) :
    (state.add argument).Agrees (addArgument documented parameters argument) documented := by
  obtain ⟨done, left⟩ := state
  obtain ⟨rfl, same⟩ : done = parameters ∧
      untaken parameters left = untaken parameters documented := agrees
  unfold Taking.add addArgument
  by_cases taken : hasName done (nameOf argument) = true
  · rw [if_pos taken, if_pos (show hasName done ("$" ++ argument.name) = true from taken)]
    exact ⟨rfl, same⟩
  · have free : hasName done (nameOf argument) = false := by simpa using taken
    rw [if_neg taken, if_neg (show ¬hasName done ("$" ++ argument.name) = true from taken)]
    have added : ofArgument left argument = ofArgument documented argument :=
      ofArgument_congr (firstNamed?_congr same free)
    refine ⟨by rw [added], ?_⟩
    have erased := untaken_eraseP (ofArgument documented argument) left
    rw [name_ofArgument] at erased
    rw [untaken_append, erased, untaken_comm, same, untaken_comm, ← untaken_append]

theorem Taking.Agrees.run {documented parameters : List ParameterDoc} {state : Taking}
    (agrees : state.Agrees parameters documented) (arguments : List Argument) :
    (arguments.foldl Taking.add state).Agrees (arguments.foldl (addArgument documented) parameters)
      documented := by
  induction arguments generalizing state parameters with
  | nil => exact agrees
  | cons argument arguments ih => exact ih (agrees.step argument)

theorem mergeTaking_eq_merge (arguments : List Argument) (documented : List ParameterDoc) :
    mergeTaking arguments documented = merge arguments documented := by
  have start : (Taking.mk [] documented).Agrees [] documented := ⟨rfl, rfl⟩
  obtain ⟨same, left⟩ := start.run arguments
  have grows : ∀ parameters name, hasName parameters name = true → hasName parameters name = true :=
    fun _ _ taken => taken
  rw [mergeTaking, merge, same, foldl_addDocumented_untaken (grows _), left,
    ← foldl_addDocumented_untaken (grows _)]

end ParameterDoc

/-! ## Parameters of entities -/

namespace ParameterDoc

/-- The name is a dollar sign and a text that is not empty. -/
def IsNamed (parameter : ParameterDoc) : Prop :=
  ∃ name, name ≠ [] ∧ parameter.name.toList = '$' :: name

theorem isNamed_of_ofText {text : List Char} {parameter : ParameterDoc}
    (read : ofText text = .ok parameter) : parameter.IsNamed := by
  rcases takeTypes_cases "param" text with ⟨opened, unclosed, _⟩ | ⟨_, types, rest, _, taken⟩
  · rw [ofText_eq_error_iff.mpr (.inl ⟨rfl, opened, unclosed⟩)] at read
    cases read
  · rcases ofText_cases taken with ⟨_, failed⟩ | ⟨name, found, same, nonempty, name_eq, _⟩
    · rw [failed] at read
      cases read
    · rw [same] at read
      cases read
      exact ⟨name, nonempty, by rw [name_eq, String.toList_ofList]⟩

theorem isNamed_of_mem_merge {arguments : List Argument} {documented : List ParameterDoc}
    {parameter : ParameterDoc} (wellFormed : ∀ argument ∈ arguments, argument.WellFormed)
    (named : ∀ known ∈ documented, known.IsNamed)
    (member : parameter ∈ merge arguments documented) : parameter.IsNamed := by
  have first := (areFirst_merge arguments documented).first parameter member
  rcases List.mem_append.mp (List.mem_of_find?_eq_some first) with found | found
  · obtain ⟨argument, among, rfl⟩ := List.mem_map.mp found
    refine ⟨argument.name.toList, Text.ne_nil_of_isName (wellFormed argument among).name, ?_⟩
    rw [name_ofArgument, nameOf, String.toList_append]
    rfl
  · exact named parameter found

end ParameterDoc

theorem Tag.isNamed_of_entry {tag : Tag} {parameter : ParameterDoc} :
    tag.entry = .ok (.parameter parameter) → parameter.IsNamed := by
  unfold entry
  rcases TagRole.ofTag? tag.name with _ | role
  · intro read
    cases read
  · cases role with
    | parameter =>
        intro read
        obtain ⟨found, same, ⟨⟩⟩ := exists_of_map_eq_ok read
        exact ParameterDoc.isNamed_of_ofText same
    | returned | types =>
        intro read
        obtain ⟨_, _, impossible⟩ := exists_of_map_eq_ok read
        cases impossible
    | _ =>
        intro read
        cases read

theorem TagFields.isNamed_of_foldlM_add {tags : List Tag} {fields next : TagFields}
    (named : ∀ parameter ∈ fields.parameters, parameter.IsNamed)
    (read : tags.foldlM add fields = .ok next) :
    ∀ parameter ∈ next.parameters, parameter.IsNamed := by
  induction tags generalizing fields with
  | nil =>
      cases read
      exact named
  | cons tag tags ih =>
      rw [List.foldlM_cons, add_eq_enter] at read
      cases said : tag.entry with
      | error fault =>
          rw [said] at read
          cases read
      | ok entry =>
          rw [said] at read
          refine ih ?_ read
          cases entry with
          | parameter added =>
              intro parameter member
              rcases List.mem_append.mp member with member | member
              · exact named parameter member
              · rw [List.mem_singleton.mp member]
                exact Tag.isNamed_of_entry said
          | _ => exact named

theorem Draft.isNamed_of_ofComment {comment : String} {draft : Draft}
    {parameters : List ParameterDoc} {returns : Option ReturnDoc}
    (read : ofComment comment = .ok (some draft))
    (isCallable : draft.construct = .callable parameters returns) :
    ∀ parameter ∈ parameters, parameter.IsNamed := by
  unfold ofComment at read
  split at read
  · obtain ⟨kind, fields, _, said, made⟩ := CommentParts.draft_eq_ok read
    obtain ⟨told, rfl, rfl⟩ := Option.map_eq_some_iff.mp made.symm
    have named := TagFields.isNamed_of_foldlM_add (by simp) said
    cases told with
    | styleVariable => cases isCallable
    | styleClass => cases isCallable
    | callable =>
        cases isCallable
        exact named
  · cases read

/-- An entity comes from a comment that is read at a construct. -/
theorem Extraction.exists_consult_of_mem {ε : Type} {reader : CommentReader ε} {labels : Labels}
    {events : List Event} {found : List Entity} {entity : Entity}
    (result : (ofEvents reader labels events).result = .ok found) (member : entity ∈ found) :
    ∃ comment target draft, .consult comment target ∈ events ∧
      reader comment labels.contentType = .ok (some draft) ∧
      target.entity? labels draft = some entity := by
  induction events generalizing found with
  | nil =>
      cases result
      cases member
  | cons event events ih =>
      cases event with
      | discard kindWord =>
          obtain ⟨comment, target, draft, consulted, read, made⟩ := ih result member
          exact ⟨comment, target, draft, List.mem_cons_of_mem _ consulted, read, made⟩
      | consult comment target =>
          cases read : reader comment labels.contentType with
          | error error =>
              simp only [ofEvents, read] at result
              cases result
          | ok draft =>
              simp only [ofEvents, read, consult] at result
              obtain ⟨later, laterResult, rfl⟩ := exists_of_map_eq_ok result
              rcases List.mem_append.mp member with here | member
              · obtain ⟨known, rfl, made⟩ :=
                  Option.bind_eq_some_iff.mp (Option.mem_toList.mp here)
                exact ⟨comment, target, known, List.mem_cons_self, read, made⟩
              · obtain ⟨comment, target, draft, consulted, read, made⟩ := ih laterResult member
                exact ⟨comment, target, draft, List.mem_cons_of_mem _ consulted, read, made⟩

theorem Occurs.mono {node : Node} {nodes more : List Node} (occurs : Occurs node nodes)
    (sub : nodes ⊆ more) : Occurs node more := by
  cases occurs with
  | here member => exact .here (sub member)
  | deeper member inside => exact .deeper (sub member) inside

namespace Node

theorem exists_targets_of_meet {comment other : String} {target : Target} {node : Node}
    (member : .consult comment target ∈ node.meet other) :
    ∃ targets, node.targets? = some targets ∧ target ∈ targets := by
  unfold meet at member
  split at member
  · cases member
  · cases member
  · split at member
    · next targets presents =>
        obtain ⟨found, among, same⟩ := List.mem_map.mp member
        cases same
        exact ⟨targets, presents, among⟩
    · cases List.mem_singleton.mp member

theorem exists_targets_of_pending {pending : Option String} {comment : String} {target : Target}
    {node : Node}
    (member : .consult comment target ∈ (pending.map fun other => node.meet other).getD []) :
    ∃ targets, node.targets? = some targets ∧ target ∈ targets := by
  cases pending with
  | none => cases member
  | some other => exact exists_targets_of_meet member

mutual

theorem exists_occurs_of_events {pending : Option String} {comment : String} {target : Target} :
    (node : Node) → .consult comment target ∈ node.events pending →
      ∃ found targets, Occurs found [node] ∧ found.targets? = some targets ∧ target ∈ targets
  | block (.nesting keyword prelude) body span, member => by
      obtain ⟨found, targets, occurs, presents⟩ := exists_occurs_of_eventsOfList body member
      exact ⟨found, targets, .deeper List.mem_cons_self occurs, presents⟩
  | leaf content span, member => by
      obtain ⟨targets, presents⟩ := exists_targets_of_pending member
      exact ⟨_, targets, .here List.mem_cons_self, presents⟩
  | block (.rule selectors) body span, member => by
      obtain ⟨targets, presents⟩ := exists_targets_of_pending member
      exact ⟨_, targets, .here List.mem_cons_self, presents⟩
  | block (.callable kind name arguments) body span, member => by
      obtain ⟨targets, presents⟩ := exists_targets_of_pending member
      exact ⟨_, targets, .here List.mem_cons_self, presents⟩
  | block (.other text) body span, member => by
      obtain ⟨targets, presents⟩ := exists_targets_of_pending member
      exact ⟨_, targets, .here List.mem_cons_self, presents⟩

theorem exists_occurs_of_eventsOfList {pending : Option String} {comment : String}
    {target : Target} : (nodes : List Node) → .consult comment target ∈ eventsOfList pending nodes →
      ∃ found targets, Occurs found nodes ∧ found.targets? = some targets ∧ target ∈ targets
  | [], member => by cases member
  | node :: nodes, member => by
      rw [eventsOfList, List.mem_append] at member
      rcases member with here | later
      · obtain ⟨found, targets, occurs, presents⟩ := exists_occurs_of_events node here
        exact ⟨found, targets, occurs.mono (by simp), presents⟩
      · obtain ⟨found, targets, occurs, presents⟩ := exists_occurs_of_eventsOfList nodes later
        exact ⟨found, targets, occurs.mono (by simp), presents⟩

end

theorem wellFormed_of_targets {source : List Char} {node : Node} {targets : List Target}
    {name : String} {arguments : List Argument} (wellFormed : node.WellFormed source)
    (presents : node.targets? = some targets) (member : .callable name arguments ∈ targets) :
    ∀ argument ∈ arguments, argument.WellFormed := by
  unfold targets? at presents
  split at presents
  · cases presents
    cases List.mem_singleton.mp member
  · cases presents
    obtain ⟨_, _, isClass⟩ := List.mem_filterMap.mp member
    obtain ⟨_, _, impossible⟩ := Option.map_eq_some_iff.mp isClass
    cases impossible
  · next kind found listed body span =>
      cases presents
      cases List.mem_singleton.mp member
      intro argument among
      cases listed with
      | none => cases among
      | some list => exact wellFormed.2 list rfl argument among
  · cases presents

end Node

/-- A mixin or function in the documentation of a text comes from a definition in the text and a
comment. -/
theorem exists_merge_of_mem_entities {labels : Labels} {source : String} {found : List Entity}
    {entity : Entity} {parameters : List ParameterDoc} {returns : Option ReturnDoc}
    (result : entities labels source = .ok found) (member : entity ∈ found)
    (isCallable : entity.construct = .callable parameters returns) :
    ∃ arguments documented, parameters = ParameterDoc.merge arguments documented ∧
      (∀ argument ∈ arguments, argument.WellFormed) ∧ ∀ known ∈ documented, known.IsNamed := by
  cases accepted : Stylesheet.read source with
  | error refusal =>
      rw [entities_of_refused accepted] at result
      cases result
      cases member
  | ok nodes =>
      rw [entities, document, Extraction.result_ofText_of_read _ _ accepted] at result
      obtain ⟨comment, target, draft, consulted, read, made⟩ :=
        Extraction.exists_consult_of_mem result member
      obtain ⟨node, targets, occurs, presents, among⟩ :=
        Node.exists_occurs_of_eventsOfList nodes consulted
      obtain ⟨mark, tokens, _, _, _, cut, derived, _⟩ := Stylesheet.exists_tokens_of_read accepted
      unfold Target.entity? at made
      split at made
      · cases made
        cases isCallable
      · cases made
        cases isCallable
      · next name arguments documented returned told =>
          cases made
          cases isCallable
          have wellFormed := derived.wellFormed_of_occurs cut occurs
          exact ⟨arguments, documented, rfl, Node.wellFormed_of_targets wellFormed presents among,
            Draft.isNamed_of_ofComment (readComment_eq_ok_iff.mp read) told⟩
      · cases made

/-- A definition has each parameter of its signature and of its comment once.  In the
documentation of a text all parameters have names, too. -/
theorem definition_has_each_parameter_once :
    (∀ (kind : DefinitionKind) (name : String) (arguments : Option (List Argument))
      (body : List Node) (span : ByteRange) (documented : List ParameterDoc)
      (returns : Option ReturnDoc) (details : Details) (labels : Labels),
      ∃ target parameters,
        (Node.block (.callable kind name arguments) body span).targets? = some [target] ∧
          target.entity? labels ⟨.callable documented returns, details⟩ =
            some ⟨name, .callable parameters returns, details, labels⟩ ∧
          ParameterDoc.IsMerged (arguments.getD []) documented parameters ∧
          parameters = ParameterDoc.mergeTaking (arguments.getD []) documented) ∧
      ∀ (labels : Labels) (source : String) (found : List Entity),
        entities labels source = .ok found → ∀ entity ∈ found, ∀ parameters returns,
          entity.construct = .callable parameters returns →
            (parameters.map ParameterDoc.name).Nodup ∧
              ∀ parameter ∈ parameters, parameter.IsNamed := by
  refine ⟨?_, ?_⟩
  · intro kind name arguments body span documented returns details labels
    exact ⟨_, _, rfl, rfl, ParameterDoc.isMerged_merge _ _,
      (ParameterDoc.mergeTaking_eq_merge _ _).symm⟩
  · intro labels source found result entity member parameters returns isCallable
    obtain ⟨arguments, documented, rfl, wellFormed, named⟩ :=
      exists_merge_of_mem_entities result member isCallable
    refine ⟨(ParameterDoc.isMerged_merge arguments documented).distinct, ?_⟩
    intro parameter among
    exact ParameterDoc.isNamed_of_mem_merge wellFormed named among

/-- The comment tells of one argument twice and of a parameter that the signature lacks; the
signature has one argument twice. -/
theorem definition_has_each_parameter_once_repeated :
    ∃ entity parameters,
      entities {} "/** @param a - x\n@param b\n@param a - y */@mixin m($a: 1, $a...)\x7b\x7d" =
          .ok [entity] ∧
        entity.construct = .callable parameters none ∧
        parameters = [⟨"$a", [], "x", some "1", false⟩, ⟨"$b", [], "", none, false⟩] ∧
        (parameters.map ParameterDoc.name).Nodup ∧
        ∀ parameter ∈ parameters, parameter.IsNamed := by
  have result : entities {}
      "/** @param a - x\n@param b\n@param a - y */@mixin m($a: 1, $a...)\x7b\x7d" =
      .ok [⟨"m", .callable [⟨"$a", [], "x", some "1", false⟩, ⟨"$b", [], "", none, false⟩] none,
        { description := "" }, {}⟩] :=
    eq_ok_of_toOption (by decide +kernel)
  exact ⟨_, _, result, rfl, rfl, definition_has_each_parameter_once.2 _ _ _ result _
    List.mem_cons_self _ _ rfl⟩

end StyleDoc
