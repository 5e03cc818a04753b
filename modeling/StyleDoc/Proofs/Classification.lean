import StyleDoc.Proofs.Rendering
import StyleDoc.Proofs.TagEntries

/-!
# What the tags of a comment decide

Tags that tell different kinds are reported first, then the first malformed tag.  Otherwise the
tags tell the kind of the draft, or no kind at all.  The order of the tags matters only among those
that write to the same field: any other order gives the same draft.
-/

namespace StyleDoc

/-! ## Kinds -/

def KindsDiffer (tags : List Tag) : Prop :=
  ∃ a ∈ tags, ∃ b ∈ tags, ∃ kind other, ConstructKind.ofTag? a.name = some kind ∧
    ConstructKind.ofTag? b.name = some other ∧ kind ≠ other

/-- The first tag that tells a kind, and the first tag after it that tells another one. -/
def FirstConflict (tags : List Tag) (first second : Tag) : Prop :=
  ∃ before middle after kind other, tags = before ++ first :: (middle ++ second :: after) ∧
    (∀ tag ∈ before, ConstructKind.ofTag? tag.name = none) ∧
    ConstructKind.ofTag? first.name = some kind ∧
    (∀ tag ∈ middle, ∀ told ∈ ConstructKind.ofTag? tag.name, told = kind) ∧
    ConstructKind.ofTag? second.name = some other ∧ other ≠ kind

theorem kindTags_cons_of_kind {tag : Tag} {kind : ConstructKind}
    (tells : ConstructKind.ofTag? tag.name = some kind) (tags : List Tag) :
    kindTags (tag :: tags) = (tag.name, kind) :: kindTags tags := by
  rw [kindTags, List.filterMap_cons, tells]
  rfl

theorem mem_kindTags {tags : List Tag} {told : String × ConstructKind} :
    told ∈ kindTags tags ↔
      ∃ tag ∈ tags, tag.name = told.1 ∧ ConstructKind.ofTag? tag.name = some told.2 := by
  rw [kindTags, List.mem_filterMap]
  constructor
  · rintro ⟨tag, member, found⟩
    obtain ⟨kind, tells, rfl⟩ := Option.map_eq_some_iff.mp found
    exact ⟨tag, member, rfl, tells⟩
  · rintro ⟨tag, member, name, tells⟩
    exact ⟨tag, member, by rw [tells, name]; rfl⟩

theorem kindOfTags_of_firstConflict {tags : List Tag} {first second : Tag}
    (conflict : FirstConflict tags first second) :
    kindOfTags tags = .error (.conflictingKinds first.name second.name) := by
  obtain ⟨before, middle, after, kind, other, rfl, silent, tells, agree, tellsOther, different⟩ :=
    conflict
  have kinds : kindTags (before ++ first :: (middle ++ second :: after)) =
      (first.name, kind) :: (kindTags middle ++ (second.name, other) :: kindTags after) := by
    rw [kindTags_append, kindTags_eq_nil silent, List.nil_append, kindTags_cons_of_kind tells,
      kindTags_append, kindTags_cons_of_kind tellsOther]
  have skipped : (kindTags middle).find? (fun told => decide (told.2 ≠ kind)) = none := by
    rw [List.find?_eq_none]
    intro told member
    obtain ⟨tag, among, _, same⟩ := mem_kindTags.mp member
    simpa using agree tag among told.2 same
  simp only [kindOfTags, kinds, List.find?_append, skipped, Option.none_or]
  rw [List.find?_cons_of_pos (by simpa using different)]

theorem kindOfTags_of_kind {tags : List Tag} {tag : Tag} {kind : ConstructKind}
    (agree : ¬KindsDiffer tags) (member : tag ∈ tags)
    (tells : ConstructKind.ofTag? tag.name = some kind) : kindOfTags tags = .ok (some kind) := by
  have same : ∀ told ∈ kindTags tags, told.2 = kind := by
    intro told found
    obtain ⟨other, among, _, tellsOther⟩ := mem_kindTags.mp found
    by_contra different
    exact agree ⟨other, among, tag, member, _, _, tellsOther, tells, different⟩
  cases kinds : kindTags tags with
  | nil =>
      have listed : (tag.name, kind) ∈ kindTags tags := mem_kindTags.mpr ⟨tag, member, rfl, tells⟩
      rw [kinds] at listed
      cases listed
  | cons told others =>
      obtain ⟨name, first⟩ := told
      rw [kinds] at same
      obtain rfl : first = kind := same (name, first) List.mem_cons_self
      have none : others.find? (fun other => decide (other.2 ≠ first)) = none := by
        rw [List.find?_eq_none]
        intro other among
        simpa using same other (List.mem_cons_of_mem _ among)
      simp only [kindOfTags, kinds, none]

theorem kindOfTags_of_silent {tags : List Tag}
    (silent : ∀ tag ∈ tags, ConstructKind.ofTag? tag.name = none) :
    kindOfTags tags = .ok (if tags.any Tag.impliesCallable then some .callable else none) := by
  simp only [kindOfTags, kindTags_eq_nil silent]

theorem exists_firstConflict {tags : List Tag} (differ : KindsDiffer tags) :
    ∃ first second, FirstConflict tags first second := by
  obtain ⟨a, memberA, b, memberB, kindA, kindB, tellsA, tellsB, different⟩ := differ
  obtain ⟨first, found⟩ : ∃ first,
      tags.find? (fun tag => (ConstructKind.ofTag? tag.name).isSome) = some first := by
    rw [← Option.isSome_iff_exists, List.find?_isSome]
    exact ⟨a, memberA, by rw [tellsA]; rfl⟩
  obtain ⟨tellsSome, before, rest, rfl, silent⟩ := List.find?_eq_some_iff_append.mp found
  obtain ⟨kind, tells⟩ := Option.isSome_iff_exists.mp tellsSome
  have silentBefore : ∀ tag ∈ before, ConstructKind.ofTag? tag.name = none := by
    intro tag member
    simpa using silent tag member
  obtain ⟨tag, other, member, tellsOther, otherKind⟩ : ∃ tag other,
      tag ∈ before ++ first :: rest ∧ ConstructKind.ofTag? tag.name = some other ∧
        other ≠ kind := by
    by_cases same : kindA = kind
    · exact ⟨b, kindB, memberB, tellsB, fun sameB => different (same.trans sameB.symm)⟩
    · exact ⟨a, kindA, memberA, tellsA, same⟩
  have later : tag ∈ rest := by
    rcases List.mem_append.mp member with member | member
    · rw [silentBefore tag member] at tellsOther
      cases tellsOther
    · rcases List.mem_cons.mp member with rfl | member
      · rw [tells] at tellsOther
        cases tellsOther
        exact (otherKind rfl).elim
      · exact member
  let deviates := fun tag : Tag => (ConstructKind.ofTag? tag.name).any fun told => told ≠ kind
  obtain ⟨second, foundSecond⟩ : ∃ second, rest.find? deviates = some second := by
    rw [← Option.isSome_iff_exists, List.find?_isSome]
    exact ⟨tag, later, by simp [deviates, tellsOther, otherKind]⟩
  obtain ⟨deviatesSecond, middle, after, rfl, agree⟩ :=
    List.find?_eq_some_iff_append.mp foundSecond
  cases tellsSecond : ConstructKind.ofTag? second.name with
  | none => simp [deviates, tellsSecond] at deviatesSecond
  | some told =>
      refine ⟨first, second, before, middle, after, kind, told, rfl, silentBefore, tells, ?_,
        tellsSecond, by simpa [deviates, tellsSecond] using deviatesSecond⟩
      intro tag member told tellsTag
      rw [Option.mem_def] at tellsTag
      simpa [deviates, tellsTag] using agree tag member

theorem FirstConflict.differ {tags : List Tag} {first second : Tag}
    (conflict : FirstConflict tags first second) : KindsDiffer tags := by
  obtain ⟨before, middle, after, kind, other, rfl, _, tells, _, tellsOther, different⟩ := conflict
  exact ⟨second, by simp, first, by simp, other, kind, tellsOther, tells, different⟩

theorem KindsDiffer.of_perm {tags tags' : List Tag} (perm : tags'.Perm tags)
    (differ : KindsDiffer tags') : KindsDiffer tags := by
  obtain ⟨a, memberA, b, memberB, kinds⟩ := differ
  exact ⟨a, perm.mem_iff.mp memberA, b, perm.mem_iff.mp memberB, kinds⟩

theorem tells_or_silent (tags : List Tag) :
    (∃ tag ∈ tags, ∃ kind, ConstructKind.ofTag? tag.name = some kind) ∨
      ∀ tag ∈ tags, ConstructKind.ofTag? tag.name = none := by
  by_cases told : ∃ tag ∈ tags, ∃ kind, ConstructKind.ofTag? tag.name = some kind
  · exact .inl told
  · right
    intro tag member
    cases tells : ConstructKind.ofTag? tag.name with
    | none => rfl
    | some kind => exact (told ⟨tag, member, kind, tells⟩).elim

/-- The kind that agreeing tags tell does not depend on their order. -/
theorem kindOfTags_perm {tags tags' : List Tag} (perm : tags'.Perm tags)
    (agree : ¬KindsDiffer tags) : kindOfTags tags' = kindOfTags tags := by
  rcases tells_or_silent tags with ⟨tag, member, kind, tells⟩ | silent
  · rw [kindOfTags_of_kind agree member tells,
      kindOfTags_of_kind (fun differ => agree (.of_perm perm differ)) (perm.mem_iff.mpr member)
        tells]
  · have silent' : ∀ tag ∈ tags', ConstructKind.ofTag? tag.name = none :=
      fun tag member => silent tag (perm.mem_iff.mp member)
    rw [kindOfTags_of_silent silent, kindOfTags_of_silent silent', perm.any_eq]

/-! ## Drafts -/

def callableTags : List String := ["param", "return", "returns"]

theorem Tag.impliesCallable_iff {tag : Tag} :
    tag.impliesCallable = true ↔ tag.name ∈ callableTags := by
  have listed : ∀ name ∈ callableTags,
      TagRole.ofTag? name = some .parameter ∨ TagRole.ofTag? name = some .returned := by decide
  have parameter : TagRole.names .parameter ⊆ callableTags := by decide
  have returned : TagRole.names .returned ⊆ callableTags := by decide
  unfold impliesCallable
  constructor
  · split
    · next role => exact fun _ => parameter (TagRole.mem_names_of_ofTag? role)
    · next role => exact fun _ => returned (TagRole.mem_names_of_ofTag? role)
    · exact fun no => nomatch no
  · intro member
    rcases listed tag.name member with role | role
    · rw [role]
    · rw [role]

theorem TagFields.kind_toDraft (fields : TagFields) (kind : ConstructKind) :
    (fields.toDraft kind).construct.kind = kind := by
  cases kind <;> rfl

/-- What comes of a comment with the given tags. -/
structure DecidedBy (tags : List Tag) (result : Except CommentFault (Option Draft)) : Prop where
  conflicts : (∃ first second, result = .error (.conflictingKinds first second)) ↔ KindsDiffer tags
  /-- It is the first one that is reported, whatever else is wrong. -/
  reported : KindsDiffer tags → ∃ first second fault, FirstConflict tags first second ∧
    result = .error fault ∧ fault = .conflictingKinds first.name second.name ∧
    fault.message =
      "conflicting documentation kinds @" ++ first.name ++ " and @" ++ second.name
  malformed : ¬KindsDiffer tags → ∀ fault, result = .error fault ↔
    ∃ before tag after, tags = before ++ tag :: after ∧ (∀ other ∈ before, other.IsSound) ∧
      tag.Malformed fault
  /-- A comment that tells no kind documents nothing, and only such a one. -/
  unrecognized : result = .ok none ↔
    ∀ tag ∈ tags, ConstructKind.ofTag? tag.name = none ∧ tag.name ∉ callableTags
  told : ¬KindsDiffer tags → (∀ tag ∈ tags, tag.IsSound) → ∀ tag ∈ tags, ∀ kind,
    ConstructKind.ofTag? tag.name = some kind →
      ∃ draft, result = .ok (some draft) ∧ draft.construct.kind = kind
  /-- Without such a tag, parameters and return values are those of a mixin or function. -/
  implied : (∀ tag ∈ tags, tag.IsSound) → (∀ tag ∈ tags, ConstructKind.ofTag? tag.name = none) →
    (∃ tag ∈ tags, tag.name ∈ callableTags) →
      ∃ draft, result = .ok (some draft) ∧ draft.construct.kind = .callable

theorem Tag.Malformed.fault_ne {tag : Tag} {fault : CommentFault} (malformed : tag.Malformed fault)
    (first second : String) : fault ≠ .conflictingKinds first second := by
  cases malformed <;> simp

theorem Tag.isSound_of_silent {tag : Tag} (silent : ConstructKind.ofTag? tag.name = none)
    (noCallable : tag.name ∉ callableTags) : tag.IsSound := by
  have typed : ∀ name ∈ typedTags,
      name ∈ callableTags ∨ ConstructKind.ofTag? name = some .styleVariable := by decide
  intro fault malformed
  cases malformed with
  | openTypes isTyped _ _ =>
      rcases typed tag.name isTyped with callable | tells
      · exact noCallable callable
      · rw [silent] at tells
        cases tells
  | nameless isParameter _ _ => exact noCallable (by rw [isParameter]; decide)

namespace CommentParts

variable {parts : CommentParts}

theorem draft_of_conflict {first second : Tag} (conflict : FirstConflict parts.tags first second) :
    parts.draft = .error (.conflictingKinds first.name second.name) := by
  rw [draft, kindOfTags_of_firstConflict conflict]
  rfl

theorem exists_kind (agree : ¬KindsDiffer parts.tags) :
    ∃ kind, kindOfTags parts.tags = .ok kind := by
  rcases tells_or_silent parts.tags with ⟨tag, member, kind, tells⟩ | silent
  · exact ⟨_, kindOfTags_of_kind agree member tells⟩
  · exact ⟨_, kindOfTags_of_silent silent⟩

/-- Where kinds agree, only malformed tags are reported. -/
theorem draft_eq_error_iff (agree : ¬KindsDiffer parts.tags) {fault : CommentFault} :
    parts.draft = .error fault ↔
      TagFields.ofTags (String.ofList parts.description) parts.tags = .error fault := by
  obtain ⟨kind, tells⟩ := exists_kind agree
  rw [draft, tells]
  cases TagFields.ofTags (String.ofList parts.description) parts.tags with
  | error other =>
      constructor
      · rintro ⟨⟩
        rfl
      · rintro ⟨⟩
        rfl
  | ok fields =>
      constructor
      · intro failed
        cases failed
      · intro failed
        cases failed

theorem draft_eq_ok {result : Option Draft} (read : parts.draft = .ok result) :
    ∃ kind fields, kindOfTags parts.tags = .ok kind ∧
      TagFields.ofTags (String.ofList parts.description) parts.tags = .ok fields ∧
      result = kind.map fields.toDraft := by
  rw [draft] at read
  cases told : kindOfTags parts.tags with
  | error fault =>
      rw [told] at read
      cases read
  | ok kind =>
      rw [told] at read
      cases said : TagFields.ofTags (String.ofList parts.description) parts.tags with
      | error fault =>
          rw [said] at read
          cases read
      | ok fields =>
          rw [said] at read
          cases read
          exact ⟨kind, fields, rfl, rfl, rfl⟩

theorem agree_of_kindOfTags {tags : List Tag} {kind : Option ConstructKind}
    (told : kindOfTags tags = .ok kind) : ¬KindsDiffer tags := by
  intro differ
  obtain ⟨first, second, conflict⟩ := exists_firstConflict differ
  rw [kindOfTags_of_firstConflict conflict] at told
  cases told

theorem draft_of_sound {kind : Option ConstructKind} (tells : kindOfTags parts.tags = .ok kind)
    (sound : ∀ tag ∈ parts.tags, tag.IsSound) :
    parts.draft = .ok (kind.map (TagFields.enterAll
      { details := { description := String.ofList parts.description } } parts.tags).toDraft) := by
  rw [draft, tells, TagFields.ofTags, TagFields.foldlM_add_of_sound sound]
  rfl

theorem decided (parts : CommentParts) : DecidedBy parts.tags parts.draft where
  conflicts := by
    constructor
    · rintro ⟨first, second, failed⟩
      by_contra agree
      rw [draft_eq_error_iff agree] at failed
      obtain ⟨_, tag, _, _, _, malformed⟩ := TagFields.foldlM_add_eq_error_iff.mp failed
      exact malformed.fault_ne first second rfl
    · intro differ
      obtain ⟨first, second, conflict⟩ := exists_firstConflict differ
      exact ⟨_, _, draft_of_conflict conflict⟩
  reported := by
    intro differ
    obtain ⟨first, second, conflict⟩ := exists_firstConflict differ
    exact ⟨first, second, _, conflict, draft_of_conflict conflict, rfl, rfl⟩
  malformed := by
    intro agree fault
    rw [draft_eq_error_iff agree]
    exact TagFields.foldlM_add_eq_error_iff
  unrecognized := by
    constructor
    · intro nothing
      obtain ⟨kind, fields, untold, _, unmapped⟩ := draft_eq_ok nothing
      obtain rfl : kind = none := Option.map_eq_none_iff.mp unmapped.symm
      have agree := agree_of_kindOfTags untold
      have silent : ∀ tag ∈ parts.tags, ConstructKind.ofTag? tag.name = none := by
        intro tag member
        cases tells : ConstructKind.ofTag? tag.name with
        | none => rfl
        | some kind =>
            rw [kindOfTags_of_kind agree member tells] at untold
            cases untold
      intro tag member
      refine ⟨silent tag member, ?_⟩
      intro implies
      rw [kindOfTags_of_silent silent, if_pos (List.any_eq_true.mpr
        ⟨tag, member, Tag.impliesCallable_iff.mpr implies⟩)] at untold
      cases untold
    · intro silent
      have noKind : ∀ tag ∈ parts.tags, ConstructKind.ofTag? tag.name = none :=
        fun tag member => (silent tag member).1
      have noCallable : parts.tags.any Tag.impliesCallable = false := by
        rw [List.any_eq_false]
        intro tag member implied
        exact (silent tag member).2 (Tag.impliesCallable_iff.mp implied)
      have tells := kindOfTags_of_silent noKind
      rw [noCallable] at tells
      exact draft_of_sound tells fun tag member =>
        Tag.isSound_of_silent (silent tag member).1 (silent tag member).2
  told := by
    intro agree sound tag member kind tells
    refine ⟨_, draft_of_sound (kindOfTags_of_kind agree member tells) sound, ?_⟩
    exact TagFields.kind_toDraft _ kind
  implied := by
    rintro sound silent ⟨tag, member, implies⟩
    have tells := kindOfTags_of_silent silent
    rw [if_pos (List.any_eq_true.mpr ⟨tag, member, Tag.impliesCallable_iff.mpr implies⟩)] at tells
    refine ⟨_, draft_of_sound tells sound, ?_⟩
    exact TagFields.kind_toDraft _ .callable

/-- Tags in another order make the same draft, if those that write to the same field keep theirs. -/
theorem draft_of_perm {other : CommentParts} {result : Option Draft}
    (read : parts.draft = .ok result) (description : other.description = parts.description)
    (perm : other.tags.Perm parts.tags)
    (order : ∀ names ∈ tagGroups, other.tags.filter (fun tag => decide (tag.name ∈ names)) =
      parts.tags.filter fun tag => decide (tag.name ∈ names)) :
    other.draft = .ok result := by
  obtain ⟨kind, fields, told, said, rfl⟩ := draft_eq_ok read
  have sound := TagFields.isSound_of_foldlM_add said
  have soundOther : ∀ tag ∈ other.tags, tag.IsSound :=
    fun tag member => sound tag (perm.mem_iff.mp member)
  have toldOther := (kindOfTags_perm perm (agree_of_kindOfTags told)).trans told
  have grouped : ∀ names ∈ tagGroups,
      other.tags.filter (fun tag => decide (tag.group = names)) =
        parts.tags.filter fun tag => decide (tag.group = names) := by
    intro names isGroup
    simpa only [Tag.mem_iff_group isGroup] using order names isGroup
  rw [← read, draft_of_sound toldOther soundOther, draft_of_sound told sound, description,
    TagFields.enterAll_perm sound perm grouped]

end CommentParts

/--
The tags of a documentation comment decide what comes of it: the report of a conflict of kinds, of
the first malformed tag, or the kind of the draft.  Every comment with the same description and the
same tags gives the same draft, if the tags that write to the same field come in the same order.
-/
theorem ofComment_decided_by_tags {comment : String} {body : List Char}
    (isDocumentation : commentBody? comment.toList = some body) :
    DecidedBy (CommentParts.ofBody body).tags (Draft.ofComment comment) ∧
      ∀ (other : String) (otherBody : List Char) (result : Option Draft),
        Draft.ofComment comment = .ok result →
        commentBody? other.toList = some otherBody →
        (CommentParts.ofBody otherBody).description = (CommentParts.ofBody body).description →
        (CommentParts.ofBody otherBody).tags.Perm (CommentParts.ofBody body).tags →
        (∀ names ∈ tagGroups,
          (CommentParts.ofBody otherBody).tags.filter (fun tag => decide (tag.name ∈ names)) =
            (CommentParts.ofBody body).tags.filter fun tag => decide (tag.name ∈ names)) →
        Draft.ofComment other = .ok result := by
  have ofBody_eq {text : String} {inner : List Char}
      (found : commentBody? text.toList = some inner) :
      Draft.ofComment text = (CommentParts.ofBody inner).draft := by
    rw [Draft.ofComment, found]
  rw [ofBody_eq isDocumentation]
  refine ⟨CommentParts.decided _, ?_⟩
  intro other otherBody result read isOther description perm order
  rw [ofBody_eq isOther]
  exact CommentParts.draft_of_perm read description perm order

def sampleTagged : String :=
  "/** D\n * @mixin\n * @param \x7bA\x7d $a x\n * @group g\n * @param [$b=1]\n * @internal*/"

/-- The same tags, of which only those of the parameters keep their order. -/
def sampleReordered : String :=
  "/** D\n * @internal\n * @param \x7bA\x7d $a x\n * @mixin\n * @param [$b=1]\n * @group g*/"

theorem ofComment_decided_by_tags_reordered :
    ∃ draft, Draft.ofComment sampleTagged = .ok (some draft) ∧ draft.construct.kind = .callable ∧
      Draft.ofComment sampleReordered = .ok (some draft) := by
  have isDocumentation : commentBody? sampleTagged.toList =
      some (sampleTagged.toList.drop 3).dropLast.dropLast := by decide +kernel
  have isOther : commentBody? sampleReordered.toList =
      some (sampleReordered.toList.drop 3).dropLast.dropLast := by decide +kernel
  obtain ⟨_, reordered⟩ := ofComment_decided_by_tags isDocumentation
  have read : Draft.ofComment sampleTagged = .ok (some
      ⟨.callable [⟨"$a", ["A"], "x", none, false⟩, ⟨"$b", [], "", some "1", false⟩] none,
        { description := "D", group := some "g", visibility := .hidden }⟩) :=
    eq_ok_of_toOption (by decide +kernel)
  refine ⟨_, read, rfl, reordered _ _ _ read isOther ?_ ?_ ?_⟩
  · decide +kernel
  · decide +kernel
  · decide +kernel

end StyleDoc
