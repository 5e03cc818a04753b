import StyleDoc.Proofs.TagTexts

/-!
# Rendering and reading back documentation

The comment that documents a construct, from the draft that it should make.  Reading the comment
gives the draft back: no field is damaged by the lines of another.
-/

namespace StyleDoc

/-! ## Tags of a draft -/

def Tag.ofText (name : String) (text : List Char) : Tag := ⟨name, [text]⟩

theorem Tag.oneLine_ofText {name : String} {text : List Char} (trimmed : Text.Trimmed text) :
    (Tag.ofText name text).oneLine = text := by
  have phrase : (Tag.ofText name text).oneLine = Text.phrase [Text.trim text] := rfl
  rw [phrase, Text.phrase_singleton, Text.trim_eq_self trimmed]

/-- The tags that tell the kind of a construct and what is documented of that kind only.  A draft
does not know a mixin from a function. -/
def Construct.tags : Construct → List Tag
  | styleVariable types _ => [.ofText "type" (printTypes types)]
  | styleClass => [.ofText "class" []]
  | callable parameters returns =>
      .ofText "callable" [] ::
        (parameters.map (fun parameter => .ofText "param" parameter.print) ++
          returns.toList.map fun returned => .ofText "return" returned.print)

/-- The tag that tells a visibility; what is not marked is public. -/
def Visibility.tags : Visibility → List Tag
  | shown => []
  | guarded => [.ofText "protected" []]
  | hidden => [.ofText "private" []]

def Details.tags (details : Details) : List Tag :=
  details.group.toList.map (fun text => .ofText "group" text.toList) ++
    (details.namespaceName.toList.map (fun text => .ofText "namespace" text.toList) ++
    (details.examples.map (fun usage => ⟨"example", [] :: textLines usage.toList⟩) ++
    (details.see.map (fun text => .ofText "see" text.toList) ++
    (details.deprecated.toList.map (fun text => .ofText "deprecated" text.toList) ++
    details.visibility.tags))))

def Draft.render (draft : Draft) : List Char :=
  renderLines (textLines draft.details.description.toList ++
    (draft.construct.tags ++ draft.details.tags).flatMap Tag.print)

def Construct.Printable : Construct → Prop
  | styleVariable types value => (∀ type ∈ types, IsType type) ∧ value = none
  | styleClass => True
  | callable parameters returns =>
      (∀ parameter ∈ parameters, parameter.Printable) ∧ ∀ returned ∈ returns, returned.Printable

/-- The description is trimmed and no line of it looks like a tag; the other texts are lines. -/
structure Details.Printable (details : Details) : Prop where
  description : Text.Trimmed details.description.toList
  descriptionLines : ∀ line ∈ textLines details.description.toList,
    (∀ c ∈ line.getLast?, Text.isBlank c = false) ∧
      ∀ c rest, line = '@' :: c :: rest → c.isAlpha = false
  group : ∀ text ∈ details.group, IsLine text.toList
  namespaceName : ∀ text ∈ details.namespaceName, IsLine text.toList
  examples : ∀ usage ∈ details.examples, IsUsage (textLines usage.toList)
  see : ∀ text ∈ details.see, IsLine text.toList
  deprecated : ∀ text ∈ details.deprecated, IsLine text.toList

/-! ## Written tags can be printed -/

def Tag.writtenNames : List String :=
  ["type", "class", "callable", "param", "return", "group", "namespace", "example", "see",
    "deprecated", "protected", "private"]

theorem Tag.isKnown_of_written :
    ∀ name ∈ writtenNames, isTagName name.toList = true ∧ isKnown name = true := by
  decide +kernel

theorem Tag.printable_ofText {name : String} {text : List Char} (written : name ∈ writtenNames)
    (isLine : IsLine text) : (Tag.ofText name text).Printable := by
  obtain ⟨isName, known⟩ := isKnown_of_written name written
  exact ⟨isName, known, text, [], rfl, isLine, by simp⟩

theorem Tag.printable_usage {lines : List Line} (isUsage : IsUsage lines)
    (noBreak : ∀ line ∈ lines, '\n' ∉ line) : Tag.Printable ⟨"example", [] :: lines⟩ := by
  obtain ⟨isName, known⟩ := isKnown_of_written "example" (by decide)
  refine ⟨isName, known, [], lines, rfl, isLine_of_visible (by simp), ?_⟩
  intro line member
  refine ⟨⟨isUsage.neat line member, noBreak line member⟩, ?_⟩
  have role : TagRole.ofTag? "example" = some .usage := by decide
  have quiet : Tag.opens true line = false := by
    rw [opens]
    split
    · next name text opened => exact isUsage.unknown line member name text opened
    · rfl
  rw [continuesTag, role, decide_eq_true rfl, quiet]
  rfl

theorem Construct.printable_tags {construct : Construct} (printable : construct.Printable) :
    ∀ tag ∈ construct.tags, tag.Printable := by
  have empty : IsLine [] := isLine_of_visible (by simp)
  intro tag member
  cases construct with
  | styleVariable types value =>
      rw [List.mem_singleton.mp member]
      exact Tag.printable_ofText (by decide) (isLine_printTypes printable.1)
  | styleClass =>
      rw [List.mem_singleton.mp member]
      exact Tag.printable_ofText (by decide) empty
  | callable parameters returns =>
      rw [tags, List.mem_cons, List.mem_append] at member
      rcases member with rfl | member | member
      · exact Tag.printable_ofText (by decide) empty
      · obtain ⟨parameter, found, rfl⟩ := List.mem_map.mp member
        have isLine := ParameterDoc.isLine_print (printable.1 parameter found)
        exact Tag.printable_ofText (by decide) isLine
      · obtain ⟨returned, found, rfl⟩ := List.mem_map.mp member
        have isLine := ReturnDoc.isLine_print (printable.2 returned (Option.mem_toList.mp found))
        exact Tag.printable_ofText (by decide) isLine

/-- The tags of the details can be printed, and none of them tells a kind. -/
theorem Details.tags_spec {details : Details} (printable : details.Printable) :
    ∀ tag ∈ details.tags, tag.Printable ∧ ConstructKind.ofTag? tag.name = none := by
  have empty : IsLine [] := isLine_of_visible (by simp)
  intro tag member
  simp only [tags, List.mem_append, List.mem_map, Option.mem_toList] at member
  rcases member with ⟨text, found, rfl⟩ | ⟨text, found, rfl⟩ | ⟨usage, found, rfl⟩ |
    ⟨text, found, rfl⟩ | ⟨text, found, rfl⟩ | member
  · exact ⟨Tag.printable_ofText (by decide) (printable.group text found), rfl⟩
  · exact ⟨Tag.printable_ofText (by decide) (printable.namespaceName text found), rfl⟩
  · exact ⟨Tag.printable_usage (printable.examples usage found) not_mem_of_mem_textLines, rfl⟩
  · exact ⟨Tag.printable_ofText (by decide) (printable.see text found), rfl⟩
  · exact ⟨Tag.printable_ofText (by decide) (printable.deprecated text found), rfl⟩
  · cases visibility : details.visibility with
    | shown =>
        rw [visibility] at member
        cases member
    | guarded =>
        rw [visibility] at member
        rw [List.mem_singleton.mp member]
        exact ⟨Tag.printable_ofText (by decide) empty, rfl⟩
    | hidden =>
        rw [visibility] at member
        rw [List.mem_singleton.mp member]
        exact ⟨Tag.printable_ofText (by decide) empty, rfl⟩

/-! ## What the tags say -/

namespace TagFields

theorem foldlM_append_of_ok {a b : List Tag} {fields next : TagFields}
    (first : a.foldlM add fields = .ok next) :
    (a ++ b).foldlM add fields = b.foldlM add next := by
  rw [List.foldlM_append, first]
  rfl

/-- Tags of one name, of which each adds an item to a list. -/
theorem foldlM_add_map {α : Type} {items : List α} {tag : α → Tag} {grown : List α → TagFields}
    (step : ∀ done, ∀ item ∈ items, add (grown done) (tag item) = .ok (grown (done ++ [item])))
    (done : List α) : (items.map tag).foldlM add (grown done) = .ok (grown (done ++ items)) := by
  induction items generalizing done with
  | nil =>
      rw [List.append_nil]
      rfl
  | cons item items ih =>
      have first := step done item List.mem_cons_self
      have later := ih (fun done other member => step done other (List.mem_cons_of_mem _ member))
        (done ++ [item])
      rw [List.map_cons, List.foldlM_cons, first]
      simpa [bind, Except.bind] using later

theorem foldlM_add_option {α : Type} {item : Option α} {tag : α → Tag}
    {grown : Option α → TagFields}
    (step : ∀ found ∈ item, add (grown none) (tag found) = .ok (grown (some found))) :
    (item.toList.map tag).foldlM add (grown none) = .ok (grown item) := by
  cases item with
  | none => rfl
  | some found =>
      have added := step found rfl
      rw [Option.toList_some, List.map_singleton, List.foldlM_cons, added]
      rfl

/-- The fields that only the tags of a construct set. -/
def ofConstruct (details : Details) : Construct → TagFields
  | .styleVariable types _ => { details := details, types := types }
  | .styleClass => { details := details }
  | .callable parameters returns =>
      { details := details, parameters := parameters, returns := returns }

theorem toDraft_ofConstruct {construct : Construct} (printable : construct.Printable)
    (details : Details) :
    (ofConstruct details construct).toDraft construct.kind = ⟨construct, details⟩ := by
  cases construct with
  | styleVariable types value =>
      rw [printable.2]
      rfl
  | styleClass => rfl
  | callable parameters returns => rfl

variable {fields : TagFields}

theorem add_types {types : List String} (isType : ∀ type ∈ types, IsType type) :
    add fields (.ofText "type" (printTypes types)) =
      .ok { fields with types := fields.types ++ types } := by
  have role : TagRole.ofTag? "type" = some .types := by decide
  have text := @Tag.oneLine_ofText "type" _ (isLine_printTypes isType).trimmed
  have nothing : Text.phrase [] = [] := rfl
  have taken := @takeTypes_phrase "type" types [] isType (by simp) (by simp [nothing])
  rw [Text.phrase_singleton] at taken
  rw [add, text]
  simp only [Tag.ofText, role, taken, bind, Except.bind]

theorem add_parameter {parameter : ParameterDoc} (printable : parameter.Printable) :
    add fields (.ofText "param" parameter.print) =
      .ok { fields with parameters := fields.parameters ++ [parameter] } := by
  have role : TagRole.ofTag? "param" = some .parameter := by decide
  have text := @Tag.oneLine_ofText "param" _ (ParameterDoc.isLine_print printable).trimmed
  rw [add, text]
  simp only [Tag.ofText, role, ParameterDoc.ofText_print printable, bind, Except.bind]

theorem add_returned {returned : ReturnDoc} (printable : returned.Printable) :
    add fields (.ofText "return" returned.print) =
      .ok { fields with returns := some returned } := by
  have role : TagRole.ofTag? "return" = some .returned := by decide
  have text := @Tag.oneLine_ofText "return" _ (ReturnDoc.isLine_print printable).trimmed
  rw [add, text]
  simp only [Tag.ofText, role, ReturnDoc.ofText_print "return" printable, bind, Except.bind]

theorem foldlM_add_construct {construct : Construct} (printable : construct.Printable)
    (details : Details) :
    construct.tags.foldlM add { details := details } = .ok (ofConstruct details construct) := by
  cases construct with
  | styleVariable types value =>
      rw [Construct.tags, List.foldlM_cons, add_types printable.1]
      rfl
  | styleClass => rfl
  | callable parameters returns =>
      have kind : add { details := details } (.ofText "callable" []) =
          .ok { details := details } := by
        rfl
      have first : (parameters.map fun parameter => Tag.ofText "param" parameter.print).foldlM add
          { details := details } = .ok { details := details, parameters := parameters } :=
        @foldlM_add_map _ parameters _ (fun done => { details := details, parameters := done })
          (fun _ parameter member => add_parameter (printable.1 parameter member)) []
      have second := @foldlM_add_option _ returns (fun returned => .ofText "return" returned.print)
        (fun found => { details := details, parameters := parameters, returns := found })
        (fun returned found => add_returned (printable.2 returned found))
      rw [Construct.tags, List.foldlM_cons, kind]
      exact (foldlM_append_of_ok first).trans second

theorem oneLine_eq {name : String} {text : String} (isLine : IsLine text.toList) :
    String.ofList (Tag.ofText name text.toList).oneLine = text := by
  rw [Tag.oneLine_ofText isLine.trimmed, String.ofList_toList]

theorem add_usage {usage : String} (isUsage : IsUsage (textLines usage.toList)) :
    add fields ⟨"example", [] :: textLines usage.toList⟩ = .ok
      { fields with
        details := { fields.details with examples := fields.details.examples ++ [usage] } } := by
  have role : TagRole.ofTag? "example" = some .usage := by decide
  simp only [add, role, Tag.verbatim_usage isUsage, join_textLines, String.ofList_toList]

theorem add_reference {text : String} (isLine : IsLine text.toList) :
    add fields (.ofText "see" text.toList) = .ok
      { fields with details := { fields.details with see := fields.details.see ++ [text] } } := by
  have role : TagRole.ofTag? "see" = some .reference := by decide
  rw [add, oneLine_eq isLine]
  simp only [Tag.ofText, role]

theorem foldlM_add_visibility {visibility : Visibility}
    (shown : fields.details.visibility = .shown) :
    visibility.tags.foldlM add fields =
      .ok { fields with details := { fields.details with visibility := visibility } } := by
  cases visibility with
  | shown =>
      have same : { fields.details with visibility := .shown } = fields.details := by rw [← shown]
      rw [same]
      rfl
  | guarded => rfl
  | hidden => rfl

/-- The tags of a draft set all its details, one field after the other. -/
theorem foldlM_add_details {details : Details} (printable : details.Printable)
    (start : fields.details = { description := details.description }) :
    details.tags.foldlM add fields = .ok { fields with details := details } := by
  obtain ⟨_, types, parameters, returns⟩ := fields
  subst start
  have groupRole : TagRole.ofTag? "group" = some .group := by decide
  have namespaceRole : TagRole.ofTag? "namespace" = some .namespaceName := by decide
  have deprecationRole : TagRole.ofTag? "deprecated" = some .deprecation := by decide
  have group := @foldlM_add_option _ details.group (fun text => .ofText "group" text.toList)
    (fun found =>
      ⟨⟨details.description, found, none, [], [], none, .shown⟩, types, parameters, returns⟩)
    (by
      intro text found
      rw [add, oneLine_eq (printable.group text found)]
      simp only [Tag.ofText, groupRole])
  have namespaceName := @foldlM_add_option _ details.namespaceName
    (fun text => .ofText "namespace" text.toList)
    (fun found =>
      ⟨⟨details.description, details.group, found, [], [], none, .shown⟩, types, parameters,
        returns⟩)
    (by
      intro text found
      rw [add, oneLine_eq (printable.namespaceName text found)]
      simp only [Tag.ofText, namespaceRole])
  have examples := @foldlM_add_map _ details.examples
    (fun usage => ⟨"example", [] :: textLines usage.toList⟩)
    (fun done =>
      ⟨⟨details.description, details.group, details.namespaceName, done, [], none, .shown⟩, types,
        parameters, returns⟩)
    (fun _ usage member => add_usage (printable.examples usage member)) []
  have see := @foldlM_add_map _ details.see (fun text => .ofText "see" text.toList)
    (fun done =>
      ⟨⟨details.description, details.group, details.namespaceName, details.examples, done, none,
        .shown⟩, types, parameters, returns⟩)
    (fun _ text member => add_reference (printable.see text member)) []
  have deprecated := @foldlM_add_option _ details.deprecated
    (fun text => .ofText "deprecated" text.toList)
    (fun found =>
      ⟨⟨details.description, details.group, details.namespaceName, details.examples, details.see,
        found, .shown⟩, types, parameters, returns⟩)
    (by
      intro text found
      rw [add, oneLine_eq (printable.deprecated text found)]
      simp only [Tag.ofText, deprecationRole])
  rw [Details.tags, foldlM_append_of_ok group, foldlM_append_of_ok namespaceName,
    foldlM_append_of_ok examples, List.nil_append, foldlM_append_of_ok see, List.nil_append,
    foldlM_append_of_ok deprecated, foldlM_add_visibility rfl]

end TagFields

/-! ## The kind that the tags tell -/

theorem kindTags_eq_nil {tags : List Tag}
    (silent : ∀ tag ∈ tags, ConstructKind.ofTag? tag.name = none) : kindTags tags = [] := by
  rw [kindTags, List.filterMap_eq_nil_iff]
  intro tag member
  rw [silent tag member, Option.map_none]

theorem kindTags_append (a b : List Tag) : kindTags (a ++ b) = kindTags a ++ kindTags b :=
  List.filterMap_append

theorem Construct.kindTags_tags (construct : Construct) :
    ∃ name, kindTags construct.tags = [(name, construct.kind)] := by
  cases construct with
  | styleVariable types value => exact ⟨"type", rfl⟩
  | styleClass => exact ⟨"class", rfl⟩
  | callable parameters returns =>
      have silent : kindTags (parameters.map (fun parameter => .ofText "param" parameter.print) ++
          returns.toList.map fun returned => .ofText "return" returned.print) = [] := by
        apply kindTags_eq_nil
        intro tag member
        rw [List.mem_append, List.mem_map, List.mem_map] at member
        rcases member with ⟨parameter, _, rfl⟩ | ⟨returned, _, rfl⟩
        · rfl
        · rfl
      refine ⟨"callable", ?_⟩
      rw [tags, ← List.singleton_append, kindTags_append, silent, List.append_nil]
      rfl

theorem Draft.kindOfTags_tags {draft : Draft} (printable : draft.details.Printable) :
    kindOfTags (draft.construct.tags ++ draft.details.tags) = .ok (some draft.construct.kind) := by
  obtain ⟨name, kinds⟩ := draft.construct.kindTags_tags
  have silent : kindTags draft.details.tags = [] :=
    kindTags_eq_nil fun tag member => (Details.tags_spec printable tag member).2
  have all : kindTags (draft.construct.tags ++ draft.details.tags) =
      [(name, draft.construct.kind)] := by
    rw [kindTags_append, kinds, silent, List.append_nil]
  simp only [kindOfTags, all, List.find?_nil]

/-! ## Rendered comments -/

theorem CommentParts.description_textLines {description : List Char} {tags : List Tag}
    (trimmed : Text.Trimmed description) :
    CommentParts.description ⟨[] :: textLines description, tags⟩ = description := by
  have joined := join_textLines description
  cases lines : textLines description with
  | nil =>
      rw [lines] at joined
      rw [← joined]
      rfl
  | cons first later =>
      have blank : ∀ c ∈ ['\n'], Text.isBlank c = true := by simpa using by decide
      have whole : ['\n'].intercalate ([] :: first :: later) = '\n' :: description := by
        rw [lines] at joined
        rw [List.intercalate_cons_cons, joined]
        rfl
      have kept := @Text.trim_append_append ['\n'] description [] trimmed blank (by simp)
      rw [List.append_nil] at kept
      simp only [CommentParts.description, whole]
      exact kept

theorem Tag.opens_of_text {line : Line}
    (text : ∀ c rest, line = '@' :: c :: rest → c.isAlpha = false) :
    Tag.opens false line = false := by
  have closed : Tag.opening? line = none := by
    unfold opening?
    split
    · next c rest => rw [text c rest rfl, if_neg (by simp)]
    · rfl
  rw [opens, closed]

/--
Rendering a draft as a comment and reading the comment gives the draft back: its kind, description,
types, parameters, return value, group, namespace, examples, references, deprecation and visibility.
-/
theorem ofComment_render {draft : Draft} (construct : draft.construct.Printable)
    (details : draft.details.Printable) :
    Draft.ofComment (String.ofList draft.render) = .ok (some draft) := by
  have describes : ∀ line ∈ textLines draft.details.description.toList,
      IsNeat line ∧ Tag.opens false line = false := by
    intro line member
    obtain ⟨last, text⟩ := details.descriptionLines line member
    exact ⟨⟨last, not_mem_of_mem_textLines line member⟩, Tag.opens_of_text text⟩
  have nonempty : draft.construct.tags ++ draft.details.tags ≠ [] := by
    cases draft.construct <;> simp [Construct.tags]
  have printable : ∀ tag ∈ draft.construct.tags ++ draft.details.tags, tag.Printable := by
    intro tag member
    rcases List.mem_append.mp member with member | member
    · exact Construct.printable_tags construct tag member
    · exact (Details.tags_spec details tag member).1
  have fields : TagFields.ofTags draft.details.description
      (draft.construct.tags ++ draft.details.tags) =
        .ok (TagFields.ofConstruct draft.details draft.construct) := by
    rw [TagFields.ofTags,
      TagFields.foldlM_append_of_ok (TagFields.foldlM_add_construct construct _)]
    cases draft.construct with
    | styleVariable types value => exact TagFields.foldlM_add_details details rfl
    | styleClass => exact TagFields.foldlM_add_details details rfl
    | callable parameters returns => exact TagFields.foldlM_add_details details rfl
  rw [Draft.render, Draft.ofComment_renderLines describes nonempty printable, CommentParts.draft,
    Draft.kindOfTags_tags details, CommentParts.description_textLines details.description,
    String.ofList_toList, fields]
  simp only [bind, Except.bind, Option.map_some, TagFields.toDraft_ofConstruct construct]

/-- A documented function with an example that shows an at-rule. -/
def sampleDraft : Draft where
  construct := .callable
    [⟨"$w", ["Number", "List"], "Width", some "1", false⟩, ⟨"$r", [], "", none, true⟩]
    (some ⟨["Number"], "- a"⟩)
  details :=
    { description := "Scales.\n\n  More."
      group := some "math"
      examples := ["@include a;\n  b"]
      see := ["other"]
      deprecated := some ""
      visibility := .hidden }

theorem printable_sampleConstruct : sampleDraft.construct.Printable := by
  have number : IsType "Number" := ⟨by decide, ⟨by decide, by decide⟩, by decide, by decide⟩
  have list : IsType "List" := ⟨by decide, ⟨by decide, by decide⟩, by decide, by decide⟩
  have first : ParameterDoc.Printable ⟨"$w", ["Number", "List"], "Width", some "1", false⟩ := by
    refine ⟨by simpa using ⟨number, list⟩, ?_, by simpa using by decide, by decide, by decide⟩
    exact ⟨['w'], by decide, by decide, by simpa using by decide, by decide⟩
  have second : ParameterDoc.Printable ⟨"$r", [], "", none, true⟩ := by
    refine ⟨by simp, ?_, by simp, by decide, by decide⟩
    exact ⟨['r'], by decide, by decide, by simpa using by decide, by decide⟩
  have returned : ReturnDoc.Printable ⟨["Number"], "- a"⟩ :=
    ⟨by simpa using number, ⟨by decide, by decide⟩⟩
  constructor
  · simpa using ⟨first, second⟩
  · rintro other ⟨⟩
    exact returned

theorem printable_sampleDetails : sampleDraft.details.Printable where
  description := by decide
  descriptionLines := by
    have lines : textLines "Scales.\n\n  More.".toList =
        ["Scales.".toList, [], "  More.".toList] := by decide
    have visible : Text.isBlank '.' = false := by decide
    simp only [sampleDraft, lines]
    simp [visible]
  group := by
    rintro text ⟨⟩
    exact ⟨by decide, by decide⟩
  namespaceName := by simp [sampleDraft]
  examples := by
    have lines : textLines "@include a;\n  b".toList =
        ["@include a;".toList, "  b".toList] := by decide
    have visible : Text.isBlank ';' = false ∧ Text.isBlank 'b' = false := by decide
    have first : Tag.opening? "@include a;".toList = some ("include", "a;".toList) := by
      decide +kernel
    have second : Tag.opening? "  b".toList = none := by decide
    simp only [sampleDraft, List.mem_singleton, forall_eq, lines]
    constructor
    · simp [visible]
    · simp
    · simp
    · intro _
      exact ⟨"@include a;".toList, by simp, by simp, by simp, by simp⟩
    · intro line member name text opened
      rcases List.mem_cons.mp member with rfl | member
      · rw [first] at opened
        cases opened
        decide
      · rw [List.mem_singleton.mp member, second] at opened
        cases opened
  see := by
    simp only [sampleDraft, List.mem_singleton, forall_eq]
    exact ⟨by decide, by decide⟩
  deprecated := by
    rintro text ⟨⟩
    exact ⟨by decide, by decide⟩

theorem ofComment_render_sample :
    Draft.ofComment (String.ofList sampleDraft.render) = .ok (some sampleDraft) :=
  ofComment_render printable_sampleConstruct printable_sampleDetails

end StyleDoc
