import StyleDoc.Doc.Draft
import StyleDoc.Proofs.Texts

/-!
# What single tags say

The tags of a comment are read one after the other.  Reading a tag can fail, but does not depend on
the tags before it; what it says is then entered into the fields, which cannot fail.  A tag fails
if its type expression is not closed or if it documents a parameter without a name.  Entries into
different fields can be made in either order.
-/

namespace StyleDoc

theorem exists_of_map_eq_ok {ε α β : Type} {f : α → β} {result : Except ε α} {b : β}
    (mapped : result.map f = .ok b) : ∃ a, result = .ok a ∧ f a = b := by
  cases result with
  | error error => cases mapped
  | ok a =>
      cases mapped
      exact ⟨a, rfl, rfl⟩

theorem map_eq_error_iff {ε α β : Type} {f : α → β} {result : Except ε α} {error : ε} :
    result.map f = .error error ↔ result = .error error := by
  cases result <;> simp [Except.map]

theorem eq_ok_of_toOption {ε α : Type} {result : Except ε α} {a : α}
    (read : result.toOption = some a) : result = .ok a := by
  cases result with
  | error error => cases read
  | ok found =>
      cases read
      rfl

/-! ## Reading and entering -/

/-- What a tag says, once it is read. -/
inductive TagEntry
  | parameter (parameter : ParameterDoc)
  | returned (returned : ReturnDoc)
  | types (types : List String)
  | group (text : String)
  | namespaceName (text : String)
  | usage (text : String)
  | reference (text : String)
  | deprecation (text : String)
  | visibility (visibility : Visibility)
  | nothing

def Tag.entry (tag : Tag) : Except CommentFault TagEntry :=
  match TagRole.ofTag? tag.name with
  | some .parameter => (ParameterDoc.ofText tag.oneLine).map .parameter
  | some .returned => (ReturnDoc.ofText tag.name tag.oneLine).map .returned
  | some .types => (takeTypes tag.name tag.oneLine).map fun taken => .types taken.1
  | some .group => .ok (.group (String.ofList tag.oneLine))
  | some .namespaceName => .ok (.namespaceName (String.ofList tag.oneLine))
  | some .usage => .ok (.usage (String.ofList tag.verbatim))
  | some .reference => .ok (.reference (String.ofList tag.oneLine))
  | some .deprecation => .ok (.deprecation (String.ofList tag.oneLine))
  | some (.visibility visibility) => .ok (.visibility visibility)
  | none => .ok .nothing

namespace TagFields

def enter (fields : TagFields) : TagEntry → TagFields
  | .parameter parameter => { fields with parameters := fields.parameters ++ [parameter] }
  | .returned returned => { fields with returns := some returned }
  | .types types => { fields with types := fields.types ++ types }
  | .group text => { fields with details := { fields.details with group := some text } }
  | .namespaceName text =>
      { fields with details := { fields.details with namespaceName := some text } }
  | .usage text =>
      { fields with
        details := { fields.details with examples := fields.details.examples ++ [text] } }
  | .reference text =>
      { fields with details := { fields.details with see := fields.details.see ++ [text] } }
  | .deprecation text =>
      { fields with details := { fields.details with deprecated := some text } }
  | .visibility visibility =>
      { fields with details := { fields.details with visibility := visibility } }
  | .nothing => fields

theorem add_eq_enter (fields : TagFields) (tag : Tag) :
    fields.add tag = tag.entry.map fields.enter := by
  unfold add Tag.entry
  rcases TagRole.ofTag? tag.name with _ | role
  · rfl
  · cases role with
    | parameter => cases ParameterDoc.ofText tag.oneLine <;> rfl
    | returned => cases ReturnDoc.ofText tag.name tag.oneLine <;> rfl
    | types => cases takeTypes tag.name tag.oneLine <;> rfl
    | _ => rfl

end TagFields

/-! ## Groups of tags -/

/-- The names of the tags that write to the same field as those of the given role. -/
def TagRole.names : TagRole → List String
  | parameter => ["param"]
  | returned => ["return", "returns"]
  | types => ["type", "var", "variable"]
  | group => ["group"]
  | namespaceName => ["namespace"]
  | usage => ["example"]
  | reference => ["see"]
  | deprecation => ["deprecated"]
  | visibility _ => ["internal", "private", "protected", "public"]

/-- The names of tags, those that write to the same field together. -/
def tagGroups : List (List String) :=
  [["param"], ["return", "returns"], ["type", "var", "variable"], ["group"], ["namespace"],
    ["example"], ["see"], ["deprecated"], ["internal", "private", "protected", "public"]]

/-- The names of the tags that write to the same field as the given one; none if it writes to no
field. -/
def Tag.group (tag : Tag) : List String :=
  ((TagRole.ofTag? tag.name).map TagRole.names).getD []

theorem TagRole.mem_names_of_ofTag? {name : String} {role : TagRole}
    (found : ofTag? name = some role) : name ∈ role.names := by
  unfold ofTag? at found
  repeat' split at found
  all_goals cases found
  all_goals grind [names]

theorem TagRole.names_mem_tagGroups (role : TagRole) : role.names ∈ tagGroups := by
  cases role <;> simp [names, tagGroups]

theorem Tag.mem_iff_group {names : List String} (isGroup : names ∈ tagGroups) (tag : Tag) :
    tag.name ∈ names ↔ tag.group = names := by
  have listed : ∀ names ∈ tagGroups, ∀ name ∈ names,
      ((TagRole.ofTag? name).map TagRole.names).getD [] = names := by decide
  constructor
  · exact listed names isGroup tag.name
  · intro same
    cases found : TagRole.ofTag? tag.name with
    | none =>
        rw [group, found] at same
        rw [← same] at isGroup
        exact absurd isGroup (by decide)
    | some role =>
        rw [group, found] at same
        rw [← same]
        exact TagRole.mem_names_of_ofTag? found

theorem Tag.group_cases (tag : Tag) : tag.group ∈ tagGroups ∨ tag.entry = .ok .nothing := by
  cases found : TagRole.ofTag? tag.name with
  | none =>
      right
      simp only [entry, found]
  | some role =>
      left
      simp only [group, found, Option.map_some, Option.getD_some]
      exact role.names_mem_tagGroups

def TagEntry.names : TagEntry → List String
  | parameter _ => TagRole.names .parameter
  | returned _ => TagRole.names .returned
  | types _ => TagRole.names .types
  | group _ => TagRole.names .group
  | namespaceName _ => TagRole.names .namespaceName
  | usage _ => TagRole.names .usage
  | reference _ => TagRole.names .reference
  | deprecation _ => TagRole.names .deprecation
  | visibility given => TagRole.names (.visibility given)
  | nothing => []

theorem Tag.names_of_entry {tag : Tag} {entry : TagEntry} :
    tag.entry = .ok entry → entry.names = tag.group := by
  unfold Tag.entry Tag.group
  rcases TagRole.ofTag? tag.name with _ | role
  · rintro ⟨⟩
    rfl
  · cases role with
    | parameter | returned | types =>
        intro read
        obtain ⟨_, _, rfl⟩ := exists_of_map_eq_ok read
        rfl
    | _ =>
        rintro ⟨⟩
        rfl

/-- Entries into different fields can be made in either order. -/
theorem TagFields.enter_comm {a b : TagEntry} (apart : a.names ≠ b.names) (fields : TagFields) :
    (fields.enter a).enter b = (fields.enter b).enter a := by
  cases a <;> cases b <;> first | rfl | exact (apart rfl).elim

/-! ## Malformed tags -/

/-- What follows the type expression that a text may start with. -/
inductive AfterTypes (text : List Char) : List Char → Prop
  | plain (untyped : text.head? ≠ some '{') : AfterTypes text text
  | typed {types rest : List Char} (whole : text = '{' :: types ++ '}' :: rest)
      (closed : '}' ∉ types) : AfterTypes text (Text.trimStart rest)

/-- A declaration of a parameter that leaves out the name, with or without dollar sign and dots,
brackets and a default value. -/
def IsNameless (word : List Char) : Prop :=
  ∃ sign ∈ ["", "$", "...", "$..."].map String.toList,
    word = sign ∨ word = '[' :: sign ++ [']'] ∨
      ∃ value, word = '[' :: sign ++ '=' :: value ++ [']']

def typedTags : List String := ["param", "return", "returns", "type", "var", "variable"]

inductive Tag.Malformed (tag : Tag) : CommentFault → Prop
  | openTypes (typed : tag.name ∈ typedTags) (opened : tag.oneLine.head? = some '{')
      (unclosed : '}' ∉ tag.oneLine) : Malformed tag (.unterminatedTypes tag.name)
  /-- The first word after the type expression of a parameter gives no name. -/
  | nameless {rest : List Char} (isParameter : tag.name = "param")
      (after : AfterTypes tag.oneLine rest)
      (nameless : IsNameless (rest.takeWhile fun c => !Text.isBlank c)) :
      Malformed tag .missingParameterName

theorem takeTypes_cases (tag : String) (text : List Char) :
    (text.head? = some '{' ∧ '}' ∉ text ∧ takeTypes tag text = .error (.unterminatedTypes tag)) ∨
      (¬(text.head? = some '{' ∧ '}' ∉ text) ∧
        ∃ types rest, AfterTypes text rest ∧ takeTypes tag text = .ok (types, rest)) := by
  unfold takeTypes
  split
  · next rest =>
      cases found : Text.cut? (fun c => c == '}') rest with
      | some parts =>
          obtain ⟨types, after⟩ := parts
          obtain ⟨c, isClose, rfl⟩ := Text.cut?_eq_some found
          rw [beq_iff_eq] at isClose
          subst isClose
          have closed : '}' ∉ types := by
            intro member
            simpa using Text.absent_of_cut? found _ member
          exact .inr ⟨by simp, _, _, .typed rfl closed, rfl⟩
      | none =>
          refine .inl ⟨rfl, ?_, rfl⟩
          intro member
          rcases List.mem_cons.mp member with same | member
          · cases same
          · simpa using Text.absent_of_uncut found _ member
  · next untyped =>
      have plain : text.head? ≠ some '{' := by
        intro opened
        obtain ⟨rest, whole⟩ := List.head?_eq_some_iff.mp opened
        exact untyped rest whole
      exact .inr ⟨fun opened => plain opened.1, _, _, .plain plain, rfl⟩

theorem takeTypes_of_after {text rest : List Char} (after : AfterTypes text rest) (tag : String) :
    ∃ types, takeTypes tag text = .ok (types, rest) := by
  cases after with
  | plain untyped =>
      refine ⟨[], ?_⟩
      unfold takeTypes
      split
      · exact (untyped rfl).elim
      · rfl
  | @typed types rest whole closed =>
      have cut := @Text.cut?_append (fun c => c == '}') types rest '}'
        (Text.beq_eq_false_of_notMem closed) (by simp)
      refine ⟨typesOfText types, ?_⟩
      simp only [whole, takeTypes, List.cons_append, cut]

namespace ParameterDoc

/-- The name in a declaration, without brackets, default value, dots and dollar sign. -/
def bareName (word : List Char) : List Char :=
  withoutDollar (splitVariadic (splitOptional word).1).1

theorem withoutDollar_eq_nil {name : List Char} (empty : withoutDollar name = []) :
    name = [] ∨ name = ['$'] := by
  unfold withoutDollar at empty
  split at empty
  · exact .inr (by rw [empty])
  · exact .inl empty

theorem bare_eq_nil_iff {declaration : List Char} :
    withoutDollar (splitVariadic declaration).1 = [] ↔
      declaration ∈ ["", "$", "...", "$..."].map String.toList := by
  constructor
  · intro empty
    unfold splitVariadic at empty
    cases dotted : List.isSuffixOf? ['.', '.', '.'] declaration with
    | none =>
        rw [dotted] at empty
        rcases withoutDollar_eq_nil empty with rfl | rfl
        · decide
        · decide
    | some rest =>
        rw [dotted] at empty
        rw [← List.append_eq_of_isSuffixOf?_eq_some dotted]
        rcases withoutDollar_eq_nil empty with rfl | rfl
        · decide
        · decide
  · have bare : ∀ sign ∈ ["", "$", "...", "$..."].map String.toList,
        withoutDollar (splitVariadic sign).1 = [] := by decide
    exact bare declaration

theorem splitOptional_cases (word : List Char) :
    word = (splitOptional word).1 ∨ word = '[' :: (splitOptional word).1 ++ [']'] ∨
      ∃ value, word = '[' :: (splitOptional word).1 ++ '=' :: value ++ [']'] := by
  unfold splitOptional
  split
  · next rest =>
      cases closed : List.isSuffixOf? [']'] rest with
      | none => exact .inl rfl
      | some inner =>
          have whole := (List.append_eq_of_isSuffixOf?_eq_some closed).symm
          cases found : Text.cut? (fun c => c == '=') inner with
          | none => exact .inr (.inl (by simp [whole, found]))
          | some parts =>
              obtain ⟨c, isEqual, inner_eq⟩ := Text.cut?_eq_some found
              rw [beq_iff_eq] at isEqual
              subst isEqual
              simp only [found]
              exact .inr (.inr ⟨parts.2, by simp [whole, inner_eq]⟩)
  · exact .inl rfl

theorem splitOptional_bracketed {declaration : List Char} (noEqual : '=' ∉ declaration) :
    splitOptional ('[' :: declaration ++ [']']) = (declaration, none) := by
  rw [List.cons_append, splitOptional]
  simp only [Text.isSuffixOf?_append, Text.cut?_eq_none (Text.beq_eq_false_of_notMem noEqual)]

theorem splitOptional_valued {declaration : List Char} (noEqual : '=' ∉ declaration)
    (value : List Char) :
    splitOptional ('[' :: declaration ++ '=' :: value ++ [']']) =
      (declaration, some (Text.trim value)) := by
  rw [List.cons_append, List.cons_append, splitOptional]
  have cut := @Text.cut?_append (fun c => c == '=') declaration value '='
    (Text.beq_eq_false_of_notMem noEqual) (by simp)
  simp only [Text.isSuffixOf?_append, cut]

theorem bareName_eq_nil_iff {word : List Char} : bareName word = [] ↔ IsNameless word := by
  rw [bareName, bare_eq_nil_iff]
  constructor
  · intro isSign
    exact ⟨_, isSign, splitOptional_cases word⟩
  · rintro ⟨sign, isSign, form⟩
    have noEqual : ∀ sign ∈ ["", "$", "...", "$..."].map String.toList, '=' ∉ sign := by decide
    have unbracketed : ∀ sign ∈ ["", "$", "...", "$..."].map String.toList,
        (splitOptional sign).1 = sign := by decide
    rcases form with rfl | rfl | ⟨value, rfl⟩
    · rwa [unbracketed _ isSign]
    · rwa [splitOptional_bracketed (noEqual sign isSign)]
    · rwa [splitOptional_valued (noEqual sign isSign)]

theorem ofText_cases {text rest : List Char} {types : List String}
    (taken : takeTypes "param" text = .ok (types, rest)) :
    (IsNameless (rest.takeWhile fun c => !Text.isBlank c) ∧
        ofText text = .error .missingParameterName) ∨
      ∃ name parameter, ofText text = .ok parameter ∧ name ≠ [] ∧
        parameter.name = String.ofList ('$' :: name) ∧
          ¬IsNameless (rest.takeWhile fun c => !Text.isBlank c) := by
  have word : ((Text.cut? Text.isBlank rest).getD (rest, [])).1 =
      rest.takeWhile fun c => !Text.isBlank c := by
    cases found : Text.cut? Text.isBlank rest with
    | none =>
        have visible := Text.absent_of_uncut found
        have whole := @Text.takeWhile_append_of_head? _ (fun c => !Text.isBlank c) rest []
          (by simpa using visible) (by simp)
        rw [List.append_nil] at whole
        exact whole.symm
    | some parts =>
        obtain ⟨first, second⟩ := parts
        unfold Text.cut? at found
        split at found
        · cases found
        · cases found
          rfl
  rw [← word, ← bareName_eq_nil_iff]
  unfold ofText
  simp only [taken, bind, Except.bind]
  by_cases empty : bareName ((Text.cut? Text.isBlank rest).getD (rest, [])).1 = []
  · exact .inl ⟨empty, if_pos (by simpa [bareName] using empty)⟩
  · exact .inr ⟨_, _, if_neg (by simpa [bareName] using empty), empty, rfl, empty⟩

end ParameterDoc

theorem takeTypes_eq_error_iff {tag : String} {text : List Char} {fault : CommentFault} :
    takeTypes tag text = .error fault ↔
      fault = .unterminatedTypes tag ∧ text.head? = some '{' ∧ '}' ∉ text := by
  rcases takeTypes_cases tag text with ⟨opened, unclosed, taken⟩ | ⟨closed, types, rest, _, taken⟩
  · rw [taken, Except.error.injEq]
    exact ⟨fun same => ⟨same.symm, opened, unclosed⟩, fun found => found.1.symm⟩
  · rw [taken]
    exact ⟨fun failed => (by cases failed), fun found => (closed found.2).elim⟩

theorem ReturnDoc.ofText_eq_error_iff {tag : String} {text : List Char} {fault : CommentFault} :
    ofText tag text = .error fault ↔ takeTypes tag text = .error fault := by
  cases taken : takeTypes tag text with
  | error other => simp [ofText, taken, bind, Except.bind]
  | ok parts => simp [ofText, taken, bind, Except.bind]

theorem ParameterDoc.ofText_eq_error_iff {text : List Char} {fault : CommentFault} :
    ofText text = .error fault ↔
      (fault = .unterminatedTypes "param" ∧ text.head? = some '{' ∧ '}' ∉ text) ∨
        (fault = .missingParameterName ∧ ∃ rest, AfterTypes text rest ∧
          IsNameless (rest.takeWhile fun c => !Text.isBlank c)) := by
  rcases takeTypes_cases "param" text with
    ⟨opened, unclosed, taken⟩ | ⟨closed, types, rest, after, taken⟩
  · have failed : ofText text = .error (.unterminatedTypes "param") := by
      simp [ofText, taken, bind, Except.bind]
    rw [failed, Except.error.injEq]
    constructor
    · intro same
      exact .inl ⟨same.symm, opened, unclosed⟩
    · rintro (⟨same, _⟩ | ⟨_, rest, after, _⟩)
      · exact same.symm
      · obtain ⟨types, other⟩ := takeTypes_of_after after "param"
        rw [taken] at other
        cases other
  · rcases ofText_cases taken with ⟨nameless, failed⟩ | ⟨name, parameter, read, _, _, named⟩
    · rw [failed, Except.error.injEq]
      constructor
      · intro same
        exact .inr ⟨same.symm, rest, after, nameless⟩
      · rintro (⟨_, opened⟩ | ⟨same, _⟩)
        · exact (closed opened).elim
        · exact same.symm
    · rw [read]
      constructor
      · intro failed
        cases failed
      · rintro (⟨_, opened⟩ | ⟨_, other, afterOther, nameless⟩)
        · exact (closed opened).elim
        · obtain ⟨types', again⟩ := takeTypes_of_after afterOther "param"
          rw [taken] at again
          cases again
          exact (named nameless).elim

/-- Reading a tag fails exactly if the tag is malformed. -/
theorem Tag.entry_eq_error_iff {tag : Tag} {fault : CommentFault} :
    tag.entry = .error fault ↔ tag.Malformed fault := by
  constructor
  · intro failed
    unfold entry at failed
    cases role : TagRole.ofTag? tag.name with
    | none =>
        rw [role] at failed
        cases failed
    | some given =>
        have listed := TagRole.mem_names_of_ofTag? role
        cases given with
        | parameter =>
            have isParameter : tag.name = "param" := List.mem_singleton.mp listed
            simp only [role, map_eq_error_iff] at failed
            rcases ParameterDoc.ofText_eq_error_iff.mp failed with
              ⟨rfl, opened, unclosed⟩ | ⟨rfl, rest, after, nameless⟩
            · rw [← isParameter]
              exact .openTypes (by rw [isParameter]; decide) opened unclosed
            · exact .nameless isParameter after nameless
        | returned =>
            simp only [role, map_eq_error_iff, ReturnDoc.ofText_eq_error_iff] at failed
            obtain ⟨rfl, opened, unclosed⟩ := takeTypes_eq_error_iff.mp failed
            have typed : TagRole.names .returned ⊆ typedTags := by decide
            exact .openTypes (typed listed) opened unclosed
        | types =>
            simp only [role, map_eq_error_iff] at failed
            obtain ⟨rfl, opened, unclosed⟩ := takeTypes_eq_error_iff.mp failed
            have typed : TagRole.names .types ⊆ typedTags := by decide
            exact .openTypes (typed listed) opened unclosed
        | _ =>
            rw [role] at failed
            cases failed
  · intro malformed
    cases malformed with
    | openTypes typed opened unclosed =>
        have failed := (@takeTypes_eq_error_iff tag.name _ _).mpr ⟨rfl, opened, unclosed⟩
        have roles : ∀ name ∈ typedTags,
            (TagRole.ofTag? name = some .parameter ∧ name = "param") ∨
              TagRole.ofTag? name = some .returned ∨ TagRole.ofTag? name = some .types := by
          decide
        rcases roles tag.name typed with ⟨role, isParameter⟩ | role | role
        · simp only [entry, role, map_eq_error_iff]
          rw [isParameter]
          exact ParameterDoc.ofText_eq_error_iff.mpr (.inl ⟨rfl, opened, unclosed⟩)
        · simpa only [entry, role, map_eq_error_iff, ReturnDoc.ofText_eq_error_iff] using failed
        · simpa only [entry, role, map_eq_error_iff] using failed
    | nameless isParameter after nameless =>
        have role : TagRole.ofTag? tag.name = some .parameter := by
          rw [isParameter]
          decide
        simp only [entry, role, map_eq_error_iff]
        exact ParameterDoc.ofText_eq_error_iff.mpr (.inr ⟨rfl, _, after, nameless⟩)

/-! ## All tags of a comment -/

def Tag.IsSound (tag : Tag) : Prop := ∀ fault, ¬tag.Malformed fault

def Tag.said (tag : Tag) : TagEntry :=
  match tag.entry with
  | .ok entry => entry
  | .error _ => .nothing

theorem Tag.IsSound.entry_eq {tag : Tag} (sound : tag.IsSound) : tag.entry = .ok tag.said := by
  unfold said
  cases read : tag.entry with
  | ok entry => rfl
  | error fault => exact (sound fault (entry_eq_error_iff.mp read)).elim

theorem Tag.isSound_of_entry {tag : Tag} {entry : TagEntry} (read : tag.entry = .ok entry) :
    tag.IsSound := by
  intro fault malformed
  rw [entry_eq_error_iff.mpr malformed] at read
  cases read

namespace TagFields

def enterAll (fields : TagFields) (tags : List Tag) : TagFields :=
  tags.foldl (fun fields tag => fields.enter tag.said) fields

theorem foldlM_add_of_sound {tags : List Tag} (sound : ∀ tag ∈ tags, tag.IsSound)
    (fields : TagFields) : tags.foldlM add fields = .ok (fields.enterAll tags) := by
  induction tags generalizing fields with
  | nil => rfl
  | cons tag tags ih =>
      have read := (sound tag List.mem_cons_self).entry_eq
      have later := ih fun other member => sound other (List.mem_cons_of_mem _ member)
      rw [List.foldlM_cons, add_eq_enter, read]
      exact later (fields.enter tag.said)

theorem isSound_of_foldlM_add {tags : List Tag} {fields next : TagFields}
    (read : tags.foldlM add fields = .ok next) : ∀ tag ∈ tags, tag.IsSound := by
  induction tags generalizing fields with
  | nil => simp
  | cons tag tags ih =>
      rw [List.foldlM_cons, add_eq_enter] at read
      cases said : tag.entry with
      | error fault =>
          rw [said] at read
          cases read
      | ok entry =>
          rw [said] at read
          simpa using ⟨Tag.isSound_of_entry said, ih read⟩

/-- The first malformed tag is the one that is reported. -/
theorem foldlM_add_eq_error_iff {tags : List Tag} {fields : TagFields} {fault : CommentFault} :
    tags.foldlM add fields = .error fault ↔ ∃ before tag after, tags = before ++ tag :: after ∧
      (∀ other ∈ before, other.IsSound) ∧ tag.Malformed fault := by
  induction tags generalizing fields with
  | nil => simp [pure, Except.pure]
  | cons tag tags ih =>
      rw [List.foldlM_cons, add_eq_enter]
      cases read : tag.entry with
      | error other =>
          have malformed := Tag.entry_eq_error_iff.mp read
          constructor
          · rintro ⟨⟩
            exact ⟨[], tag, tags, rfl, by simp, malformed⟩
          · rintro ⟨before, found, after, whole, sound, same⟩
            cases before with
            | nil =>
                cases whole
                rw [Tag.entry_eq_error_iff.mpr same] at read
                cases read
                rfl
            | cons first before =>
                cases whole
                exact (sound tag List.mem_cons_self other malformed).elim
      | ok entry =>
          have sound := Tag.isSound_of_entry read
          refine ih.trans ?_
          constructor
          · rintro ⟨before, found, after, rfl, soundBefore, malformed⟩
            refine ⟨tag :: before, found, after, rfl, ?_, malformed⟩
            simpa using ⟨sound, soundBefore⟩
          · rintro ⟨before, found, after, whole, soundBefore, malformed⟩
            cases before with
            | nil =>
                cases whole
                exact (sound fault malformed).elim
            | cons first before =>
                cases whole
                exact ⟨before, found, after, rfl,
                  fun other member => soundBefore other (List.mem_cons_of_mem _ member), malformed⟩

/-- What a tag says can be entered before what is said of other fields. -/
theorem enterAll_middle {before : List Tag} {tag : Tag} (after : List Tag)
    (apart : ∀ other ∈ before, tag.said = .nothing ∨ tag.said.names ≠ other.said.names)
    (fields : TagFields) :
    fields.enterAll (before ++ tag :: after) = fields.enterAll (tag :: (before ++ after)) := by
  induction before generalizing fields with
  | nil => rfl
  | cons other before ih =>
      have swapped : (fields.enter other.said).enter tag.said =
          (fields.enter tag.said).enter other.said := by
        rcases apart other List.mem_cons_self with nothing | different
        · rw [nothing]
          rfl
        · exact (enter_comm different fields).symm
      have later := ih (fun other member => apart other (List.mem_cons_of_mem _ member))
        (fields.enter other.said)
      calc fields.enterAll (other :: before ++ tag :: after)
          = (fields.enter other.said).enterAll (tag :: (before ++ after)) := later
        _ = ((fields.enter other.said).enter tag.said).enterAll (before ++ after) := rfl
        _ = ((fields.enter tag.said).enter other.said).enterAll (before ++ after) := by rw [swapped]

/-- A permutation that keeps the order inside each group of tags changes nothing. -/
theorem enterAll_perm {tags tags' : List Tag} (sound : ∀ tag ∈ tags, tag.IsSound)
    (perm : tags'.Perm tags)
    (order : ∀ names ∈ tagGroups, tags'.filter (fun tag => decide (tag.group = names)) =
      tags.filter fun tag => decide (tag.group = names))
    (fields : TagFields) : fields.enterAll tags' = fields.enterAll tags := by
  induction tags generalizing tags' fields with
  | nil => rw [List.perm_nil.mp perm]
  | cons tag tags ih =>
      obtain ⟨before, after, whole, apart, own⟩ : ∃ before after, tags' = before ++ tag :: after ∧
          (∀ other ∈ before, tag.said = .nothing ∨ tag.group ≠ other.group) ∧
          (tag.group ∈ tagGroups →
            (before ++ after).filter (fun other => decide (other.group = tag.group)) =
              tags.filter fun other => decide (other.group = tag.group)) := by
        rcases tag.group_cases with isGroup | nothing
        · have kept := order tag.group isGroup
          rw [List.filter_cons_of_pos (by simp)] at kept
          obtain ⟨before, after, whole, others, _, later⟩ := List.filter_eq_cons_iff.mp kept
          refine ⟨before, after, whole, ?_, ?_⟩
          · intro other member
            exact .inr fun same => others other member (by simpa using same.symm)
          · intro _
            have none : before.filter (fun other => decide (other.group = tag.group)) = [] :=
              List.filter_eq_nil_iff.mpr others
            rw [List.filter_append, none, List.nil_append, later]
        · have member : tag ∈ tags' := perm.mem_iff.mpr List.mem_cons_self
          obtain ⟨before, after, whole⟩ := List.append_of_mem member
          have said : tag.said = .nothing := by simp only [Tag.said, nothing]
          refine ⟨before, after, whole, fun _ _ => .inl said, ?_⟩
          intro isGroup
          rw [← Tag.names_of_entry nothing] at isGroup
          exact absurd isGroup (by decide)
      subst whole
      have soundTag := sound tag List.mem_cons_self
      have soundLater : ∀ other ∈ tags, other.IsSound :=
        fun other member => sound other (List.mem_cons_of_mem _ member)
      have names_eq {other : Tag} (isSound : other.IsSound) : other.said.names = other.group :=
        Tag.names_of_entry isSound.entry_eq
      rw [enterAll_middle after]
      · refine ih soundLater (List.perm_middle.symm.trans perm).cons_inv ?_ (fields.enter tag.said)
        intro names isGroup
        by_cases same : tag.group = names
        · subst same
          exact own isGroup
        · have kept := order names isGroup
          rw [List.filter_append, List.filter_cons_of_neg (by simpa using same),
            List.filter_cons_of_neg (by simpa using same)] at kept
          rw [List.filter_append, kept]
      · intro other member
        have soundOther : other.IsSound :=
          sound other (perm.mem_iff.mp (List.mem_append_left _ member))
        rw [names_eq soundTag, names_eq soundOther]
        exact apart other member

end TagFields

end StyleDoc
