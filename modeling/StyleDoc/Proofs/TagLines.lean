import Mathlib.Data.List.Forall2
import StyleDoc.Proofs.CommentLayout
import StyleDoc.Proofs.TagEntries

/-!
# Lines of tags

The lines of a comment are dealt out to its description and its tags, every line once and in order.
A line opens a tag if it names one; but behind the opening of an example it has to name a known one.
All other lines go on with the tag that was opened last, or with the description if none was.
-/

namespace StyleDoc

namespace Tag

/-! ## Lines that name a tag -/

/-- A line that starts with an at sign and the name of a tag: an ASCII letter, and all the word
characters and hyphens behind it. -/
def NamedIn (line : Line) (name : String) : Prop :=
  ∃ rest, line = '@' :: (name.toList ++ rest) ∧ isTagName name.toList = true ∧
    ∀ c ∈ rest.head?, (Text.isWordChar c || c == '-') = false

/-- A line that opens a tag, if the last tag opened so far is named `recent`. -/
def OpensAfter (recent : Option String) (line : Line) (name : String) : Prop :=
  NamedIn line name ∧ (recent = some "example" → isKnown name = true)

/-- The lines that a tag is read from: its name, blanks and its first text on one line, and then the
lines that go on. -/
def WrittenAs (tag : Tag) (lines : List Line) : Prop :=
  ∃ blanks text later, tag.lines = text :: later ∧
    lines = ('@' :: (tag.name.toList ++ blanks ++ text)) :: later ∧
    (∀ c ∈ blanks, Text.isBlank c = true) ∧ ∀ c ∈ text.head?, Text.isBlank c = false

theorem opening?_eq_some_iff {line text : Line} {name : String} :
    opening? line = some (name, text) ↔ ∃ rest, line = '@' :: (name.toList ++ rest) ∧
      isTagName name.toList = true ∧
      (∀ c ∈ rest.head?, (Text.isWordChar c || c == '-') = false) ∧ Text.trimStart rest = text := by
  constructor
  · intro opened
    unfold opening? at opened
    split at opened
    · next c rest =>
        split at opened
        · next isLetter =>
            cases opened
            refine ⟨rest.dropWhile fun d => Text.isWordChar d || d == '-', ?_, ?_, ?_, rfl⟩
            · rw [String.toList_ofList, List.cons_append, List.takeWhile_append_dropWhile]
            · rw [String.toList_ofList, isTagName, isLetter, List.all_takeWhile]
              rfl
            · exact Text.head?_dropWhile (fun d => Text.isWordChar d || d == '-') rest
        · cases opened
    · cases opened
  · rintro ⟨rest, rfl, isName, stops, rfl⟩
    exact opening?_append isName stops

theorem namedIn_iff {line : Line} {name : String} :
    NamedIn line name ↔ ∃ text, opening? line = some (name, text) := by
  constructor
  · rintro ⟨rest, whole, isName, stops⟩
    exact ⟨_, opening?_eq_some_iff.mpr ⟨rest, whole, isName, stops, rfl⟩⟩
  · rintro ⟨text, opened⟩
    obtain ⟨rest, whole, isName, stops, _⟩ := opening?_eq_some_iff.mp opened
    exact ⟨rest, whole, isName, stops⟩

theorem NamedIn.unique {line : Line} {name name' : String} (first : NamedIn line name)
    (second : NamedIn line name') : name = name' := by
  obtain ⟨text, opened⟩ := namedIn_iff.mp first
  obtain ⟨text', opened'⟩ := namedIn_iff.mp second
  rw [opened] at opened'
  cases opened'
  rfl

theorem writtenAs_of_opening? {line text : Line} {name : String}
    (opened : opening? line = some (name, text)) (later : List Line) :
    WrittenAs ⟨name, text :: later⟩ (line :: later) := by
  obtain ⟨rest, rfl, _, _, rfl⟩ := opening?_eq_some_iff.mp opened
  refine ⟨rest.takeWhile Text.isBlank, Text.trimStart rest, later, rfl, ?_, ?_, ?_⟩
  · rw [List.append_assoc, Text.trimStart, List.takeWhile_append_dropWhile]
  · exact List.all_eq_true.mp List.all_takeWhile
  · exact Text.head?_trimStart rest

theorem opens_iff {inExample : Bool} {recent : Option String} {line : Line}
    (same : inExample = true ↔ recent = some "example") :
    opens inExample line = true ↔ ∃ name, OpensAfter recent line name := by
  unfold opens
  cases opened : opening? line with
  | none =>
      refine iff_of_false (by simp) ?_
      rintro ⟨name, named, _⟩
      obtain ⟨text, opened'⟩ := namedIn_iff.mp named
      rw [opened] at opened'
      cases opened'
  | some found =>
      obtain ⟨name, text⟩ := found
      have named : NamedIn line name := namedIn_iff.mpr ⟨text, opened⟩
      have condition : (!inExample || isKnown name) = true ↔
          (recent = some "example" → isKnown name = true) := by
        rw [← same]
        cases inExample <;> simp
      show (!inExample || isKnown name) = true ↔ _
      rw [condition]
      constructor
      · intro known
        exact ⟨name, named, known⟩
      · rintro ⟨name', named', known⟩
        rw [named.unique named']
        exact known

theorem usage_iff {name : String} :
    decide (TagRole.ofTag? name = some .usage) = true ↔ some name = some "example" := by
  rw [decide_eq_true_iff, Option.some.injEq]
  constructor
  · intro role
    exact List.mem_singleton.mp (TagRole.mem_names_of_ofTag? role)
  · rintro rfl
    decide

theorem continuesTag_iff {name : String} {line : Line} :
    continuesTag name line = true ↔ ∀ other, ¬OpensAfter (some name) line other := by
  rw [continuesTag, Bool.not_eq_true', ← Bool.not_eq_true, opens_iff usage_iff, not_exists]

/-! ## Numbers of lines -/

/-- The numbers of the lines that open tags, with the names of the tags, if line `start` opens the
first of them. -/
def openingsFrom : Nat → List Tag → List (Nat × String)
  | _, [] => []
  | start, tag :: tags => (start, tag.name) :: openingsFrom (start + tag.lines.length) tags

def recent (openings : List (Nat × String)) (number : Nat) : Option String :=
  (openings.filter fun opening => opening.1 < number).getLast?.map Prod.snd

theorem le_of_mem_openingsFrom {start : Nat} {tags : List Tag} {opening : Nat × String}
    (member : opening ∈ openingsFrom start tags) : start ≤ opening.1 := by
  induction tags generalizing start with
  | nil => cases member
  | cons tag tags ih =>
      rcases List.mem_cons.mp member with rfl | later
      · exact Nat.le_refl _
      · have := ih later
        omega

theorem recent_openingsFrom_of_le {start number : Nat} (tags : List Tag) (early : number ≤ start) :
    recent (openingsFrom start tags) number = none := by
  have none : (openingsFrom start tags).filter (fun opening => opening.1 < number) = [] := by
    rw [List.filter_eq_nil_iff]
    intro opening member
    have := le_of_mem_openingsFrom member
    rw [decide_eq_true_iff]
    omega
  rw [recent, none]
  rfl

theorem recent_cons {start number : Nat} {name : String} (openings : List (Nat × String))
    (behind : start < number) :
    recent ((start, name) :: openings) number = (recent openings number).or (some name) := by
  rw [recent, recent, List.filter_cons_of_pos (by simpa using behind), List.getLast?_cons]
  cases (openings.filter fun opening => opening.1 < number).getLast? <;> rfl

/-! ## Dealing out -/

/-- The lines from number `start` on are dealt out to tags; `outer` is the name of the last tag
that was opened in front of them. -/
structure Deals (start : Nat) (outer : Option String) (lines : List Line) (tags : List Tag) :
    Prop where
  written : ∃ stretches, List.Forall₂ WrittenAs tags stretches ∧ lines = stretches.flatten
  opens : ∀ i line name, lines[i]? = some line →
    ((start + i, name) ∈ openingsFrom start tags ↔
      OpensAfter ((recent (openingsFrom start tags) (start + i)).or outer) line name)
  goesOn : ∀ i line, lines[i]? = some line →
    (∀ name, (start + i, name) ∉ openingsFrom start tags) →
      ∃ tag ∈ tags, recent (openingsFrom start tags) (start + i) = some tag.name ∧
        line ∈ tag.lines.tail

namespace Deals

theorem nil (start : Nat) (outer : Option String) : Deals start outer [] [] :=
  ⟨⟨[], .nil, rfl⟩, by simp, by simp⟩

theorem getElem?_cases {first line : Line} {others rest : List Line} {i : Nat}
    (found : (first :: (others ++ rest))[i]? = some line) :
    (i = 0 ∧ line = first) ∨ (0 < i ∧ i ≤ others.length ∧ line ∈ others) ∨
      ∃ j, i = others.length + 1 + j ∧ rest[j]? = some line := by
  cases i with
  | zero =>
      cases found
      exact .inl ⟨rfl, rfl⟩
  | succ i =>
      rw [List.getElem?_cons_succ] at found
      by_cases inside : i < others.length
      · rw [List.getElem?_append_left inside] at found
        exact .inr (.inl ⟨by omega, by omega, List.mem_of_getElem? found⟩)
      · rw [List.getElem?_append_right (by omega)] at found
        exact .inr (.inr ⟨i - others.length, by omega, found⟩)

/-- A line that opens a tag, lines that do not open another, and then other tags. -/
theorem cons {start : Nat} {outer : Option String} {first text : Line} {name : String}
    {others rest : List Line} {tags : List Tag} (opened : opening? first = some (name, text))
    (allowed : OpensAfter outer first name)
    (continues : ∀ line ∈ others, continuesTag name line = true)
    (later : Deals (start + (others.length + 1)) (some name) rest tags) :
    Deals start outer (first :: (others ++ rest)) (⟨name, text :: others⟩ :: tags) := by
  have openings : openingsFrom start (⟨name, text :: others⟩ :: tags) =
      (start, name) :: openingsFrom (start + (others.length + 1)) tags := rfl
  have notInside {i : Nat} {other : String} (inside : i ≤ others.length) :
      (start + i, other) ∉ openingsFrom (start + (others.length + 1)) tags := by
    intro member
    have := le_of_mem_openingsFrom member
    omega
  have recentInside {i : Nat} (pos : 0 < i) (inside : i ≤ others.length) :
      recent (openingsFrom start (⟨name, text :: others⟩ :: tags)) (start + i) = some name := by
    rw [openings, recent_cons _ (by omega), recent_openingsFrom_of_le _ (by omega)]
    rfl
  have recentLater (j : Nat) :
      recent (openingsFrom start (⟨name, text :: others⟩ :: tags))
          (start + (others.length + 1 + j)) =
        (recent (openingsFrom (start + (others.length + 1)) tags)
          (start + (others.length + 1) + j)).or (some name) := by
    rw [openings, recent_cons _ (by omega), Nat.add_assoc start]
  refine ⟨?_, ?_, ?_⟩
  · obtain ⟨stretches, written, rfl⟩ := later.written
    exact ⟨(first :: others) :: stretches, .cons (writtenAs_of_opening? opened others) written, rfl⟩
  · intro i line name' found
    rcases getElem?_cases found with ⟨rfl, rfl⟩ | ⟨pos, inside, member⟩ | ⟨j, rfl, member⟩
    · have recentFirst := recent_openingsFrom_of_le (⟨name, text :: others⟩ :: tags)
        (Nat.le_of_eq (Nat.add_zero start))
      rw [recentFirst, Option.none_or, openings, List.mem_cons,
        or_iff_left (notInside (Nat.zero_le _))]
      constructor
      · rintro ⟨⟩
        exact allowed
      · intro allowed'
        rw [allowed.1.unique allowed'.1]
        rfl
    · rw [recentInside pos inside, Option.some_or, openings, List.mem_cons]
      refine iff_of_false ?_ (continuesTag_iff.mp (continues line member) name')
      rintro (same | isLater)
      · rw [Prod.mk.injEq] at same
        omega
      · exact notInside inside isLater
    · rw [recentLater, openings, List.mem_cons, Option.or_assoc, Option.some_or, ← Nat.add_assoc,
        ← later.opens j line name' member, or_iff_right]
      rw [Prod.mk.injEq]
      omega
  · intro i line found unopened
    rcases getElem?_cases found with ⟨rfl, rfl⟩ | ⟨pos, inside, member⟩ | ⟨j, rfl, member⟩
    · exact (unopened name List.mem_cons_self).elim
    · exact ⟨_, List.mem_cons_self, recentInside pos inside, member⟩
    · have unopenedLater : ∀ other, (start + (others.length + 1) + j, other) ∉
          openingsFrom (start + (others.length + 1)) tags := by
        intro other isLater
        rw [Nat.add_assoc] at isLater
        exact unopened other (List.mem_cons_of_mem _ isLater)
      obtain ⟨tag, among, isRecent, kept⟩ := later.goesOn j line member unopenedLater
      refine ⟨tag, List.mem_cons_of_mem _ among, ?_, kept⟩
      rw [recentLater, isRecent, Option.some_or]

end Deals

theorem deals_listOfLines (start : Nat) {outer : Option String} {lines : List Line}
    (opens : ∀ line ∈ lines.head?, ∃ name, OpensAfter outer line name) :
    Deals start outer lines (listOfLines lines) := by
  fun_induction listOfLines lines generalizing start outer with
  | case1 => exact .nil start outer
  | case2 line lines unopened ih =>
      obtain ⟨name, named, _⟩ := opens line rfl
      obtain ⟨text, opened⟩ := namedIn_iff.mp named
      rw [unopened] at opened
      cases opened
  | case3 line lines name text opened shorter ih =>
      have named : NamedIn line name := namedIn_iff.mpr ⟨text, opened⟩
      have allowed : OpensAfter outer line name := by
        obtain ⟨name', allowed⟩ := opens line rfl
        rw [named.unique allowed.1]
        exact allowed
      have continues : ∀ other ∈ lines.takeWhile (continuesTag name),
          continuesTag name other = true := List.all_eq_true.mp List.all_takeWhile
      have next : ∀ other ∈ (lines.dropWhile (continuesTag name)).head?,
          ∃ name', OpensAfter (some name) other name' := by
        intro other head
        have stopped := Text.head?_dropWhile (continuesTag name) lines other head
        by_contra unopened
        rw [not_exists, ← continuesTag_iff, stopped] at unopened
        cases unopened
      have dealt := Deals.cons opened allowed continues
        (ih (start + ((lines.takeWhile (continuesTag name)).length + 1)) next)
      rw [List.takeWhile_append_dropWhile] at dealt
      exact dealt

end Tag

/-! ## Comments -/

namespace CommentParts

def openings (parts : CommentParts) : List (Nat × String) :=
  Tag.openingsFrom parts.descriptionLines.length parts.tags

structure DealsOut (lines : List Line) (parts : CommentParts) : Prop where
  /-- The lines are those of the description and then those of each tag in turn. -/
  written : ∃ stretches, List.Forall₂ Tag.WrittenAs parts.tags stretches ∧
    lines = parts.descriptionLines ++ stretches.flatten
  /-- A line opens a tag if it names one, and a known one if the last tag is an example. -/
  opens : ∀ i line name, lines[i]? = some line →
    ((i, name) ∈ parts.openings ↔ Tag.OpensAfter (Tag.recent parts.openings i) line name)
  goesOn : ∀ i line, lines[i]? = some line → (∀ name, (i, name) ∉ parts.openings) →
    match Tag.recent parts.openings i with
    | none => parts.descriptionLines[i]? = some line
    | some name => ∃ tag ∈ parts.tags, tag.name = name ∧ line ∈ tag.lines.tail

/-- Lines that name no tag stand in front of the first that does. -/
theorem DealsOut.of_deals {described rest : List Line} {tags : List Tag}
    (unnamed : ∀ line ∈ described, ∀ name, ¬Tag.OpensAfter none line name)
    (dealt : Tag.Deals described.length none rest tags) :
    DealsOut (described ++ rest) ⟨described, tags⟩ := by
  have early {i : Nat} (inside : i < described.length) :
      Tag.recent (openings ⟨described, tags⟩) i = none :=
    Tag.recent_openingsFrom_of_le tags (Nat.le_of_lt inside)
  have late {i : Nat} {line : Line} (outside : ¬i < described.length)
      (found : (described ++ rest)[i]? = some line) :
      described.length + (i - described.length) = i ∧
        rest[i - described.length]? = some line := by
    rw [List.getElem?_append_right (by omega)] at found
    exact ⟨by omega, found⟩
  refine ⟨?_, ?_, ?_⟩
  · obtain ⟨stretches, written, rfl⟩ := dealt.written
    exact ⟨stretches, written, rfl⟩
  · intro i line name found
    by_cases inside : i < described.length
    · rw [List.getElem?_append_left inside] at found
      rw [early inside]
      refine iff_of_false ?_ (unnamed line (List.mem_of_getElem? found) name)
      intro member
      have bound : described.length ≤ i := Tag.le_of_mem_openingsFrom member
      omega
    · obtain ⟨number, found⟩ := late inside found
      have opens := dealt.opens _ line name found
      rw [number, Option.or_none] at opens
      exact opens
  · intro i line found unopened
    by_cases inside : i < described.length
    · rw [List.getElem?_append_left inside] at found
      rw [early inside]
      exact found
    · obtain ⟨number, found⟩ := late inside found
      obtain ⟨tag, among, isRecent, kept⟩ := dealt.goesOn _ line found (by rwa [number])
      rw [number] at isRecent
      have same : Tag.recent (openings ⟨described, tags⟩) i = some tag.name := isRecent
      rw [same]
      exact ⟨tag, among, rfl, kept⟩

theorem dealsOut_ofLines (lines : List Line) : DealsOut lines (ofLines lines) := by
  have opens_iff {line : Line} :
      Tag.opens false line = true ↔ ∃ name, Tag.OpensAfter none line name :=
    Tag.opens_iff (by simp)
  have unnamed : ∀ line ∈ lines.takeWhile (fun line => !Tag.opens false line),
      ∀ name, ¬Tag.OpensAfter none line name := by
    intro line member
    have describes := List.all_eq_true.mp List.all_takeWhile line member
    rw [Bool.not_eq_true', ← Bool.not_eq_true, opens_iff, not_exists] at describes
    exact describes
  have first : ∀ line ∈ (lines.dropWhile fun line => !Tag.opens false line).head?,
      ∃ name, Tag.OpensAfter none line name := by
    intro line head
    have stopped := Text.head?_dropWhile (fun line => !Tag.opens false line) lines line head
    exact opens_iff.mp (by simpa using stopped)
  have dealt := DealsOut.of_deals unnamed (Tag.deals_listOfLines _ first)
  rw [List.takeWhile_append_dropWhile] at dealt
  exact dealt

end CommentParts

/-! ## The statement -/

/-- No line of a comment is lost, repeated or moved: the first line without its star and trimmed,
and the others without their stars and common indentation, are dealt out to the description and the
tags.  The description is put together from its lines and trimmed. -/
theorem ofBody_deals_out_lines (body : List Char) :
    CommentParts.DealsOut
        (match Text.lines body with
          | [] => [[]]
          | first :: others => Text.trim (withoutStar first) :: outdent (others.map withoutStar))
        (CommentParts.ofBody body) ∧
      (CommentParts.ofBody body).description =
        Text.trim (['\n'].intercalate (CommentParts.ofBody body).descriptionLines) := by
  refine ⟨?_, rfl⟩
  rw [CommentParts.ofBody, commentLines]
  cases Text.lines body with
  | nil => exact CommentParts.dealsOut_ofLines _
  | cons first others => exact CommentParts.dealsOut_ofLines _

/-- The first line of a comment loses a star, too: with the star in front of it, it would not open
the tag that it opens. -/
theorem not_dealsOut_starred_opening :
    Text.lines "* @mixin ".toList = ["* @mixin ".toList] ∧
      ¬CommentParts.DealsOut (Text.trim "* @mixin ".toList :: outdent ([].map withoutStar))
        (CommentParts.ofBody "* @mixin ".toList) := by
  refine ⟨by decide, ?_⟩
  intro dealt
  have opened : (0, "mixin") ∈ (CommentParts.ofBody "* @mixin ".toList).openings := by
    decide +kernel
  have first : (Text.trim "* @mixin ".toList :: outdent ([].map withoutStar))[0]? =
      some "* @mixin".toList := by decide
  obtain ⟨⟨rest, whole, _⟩, _⟩ := (dealt.opens 0 _ "mixin" first).mp opened
  cases (List.cons.inj whole).1

-- In an example the at-rule is text; behind it the unknown tag is a tag.
example : CommentParts.ofBody "\n* @example\n* @include a;\n* @group g\n* @todo".toList =
    ⟨[[]], [⟨"example", [[], "@include a;".toList]⟩, ⟨"group", ["g".toList]⟩, ⟨"todo", [[]]⟩]⟩ := by
  decide +kernel

end StyleDoc
