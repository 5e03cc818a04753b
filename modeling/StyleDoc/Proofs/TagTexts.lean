import StyleDoc.Proofs.CommentLayout

/-!
# The texts of tags

How types, parameters, return values and examples are written as the text of a tag, and that reading
the text gives them back.
-/

namespace StyleDoc

/-! ## Types, parameters and return values -/

/-- A type expression in braces; nothing if there are no types. -/
def printTypes (types : List String) : List Char :=
  if types = [] then [] else '{' :: (['|'].intercalate (types.map String.toList) ++ ['}'])

/-- A description with the hyphen that sets it off; nothing if the description is empty. -/
def printDash (description : List Char) : List Char :=
  if description = [] then [] else '-' :: ' ' :: description

structure IsType (type : String) : Prop where
  nonempty : type.toList ≠ []
  isLine : IsLine type.toList
  noMark : '|' ∉ type.toList ∧ '}' ∉ type.toList

theorem not_mem_join_types {types : List String} {c : Char} (notBar : c ≠ '|')
    (absent : ∀ type ∈ types, c ∉ type.toList) :
    c ∉ ['|'].intercalate (types.map String.toList) := by
  intro member
  rcases Text.mem_intercalate member with bar | ⟨part, among, found⟩
  · exact notBar (List.mem_singleton.mp bar)
  · obtain ⟨type, inTypes, rfl⟩ := List.mem_map.mp among
    exact absent type inTypes found

theorem isLine_printTypes {types : List String} (isType : ∀ type ∈ types, IsType type) :
    IsLine (printTypes types) := by
  rw [printTypes]
  split
  · exact isLine_of_visible (by simp)
  · constructor
    · apply Text.trimmed_cons (by decide)
      simpa using by decide
    · have noBreak := @not_mem_join_types types '\n' (by decide) fun type member =>
        (isType type member).isLine.noBreak
      simpa using noBreak

theorem isLine_printDash {description : List Char} (isLine : IsLine description) :
    IsLine (printDash description) := by
  rw [printDash]
  split
  · exact isLine_of_visible (by simp)
  · next nonempty =>
      constructor
      · apply Text.trimmed_cons (by decide)
        rw [List.getLast?_cons_of_ne_nil nonempty]
        exact isLine.trimmed.2
      · simpa using isLine.noBreak

theorem typesOfText_join {types : List String} (nonempty : types ≠ [])
    (isType : ∀ type ∈ types, IsType type) :
    typesOfText (['|'].intercalate (types.map String.toList)) = types := by
  have parts : ∀ part ∈ types.map String.toList,
      part ≠ [] ∧ Text.Trimmed part ∧ '|' ∉ part := by
    intro part member
    obtain ⟨type, among, rfl⟩ := List.mem_map.mp member
    have found := isType type among
    exact ⟨found.nonempty, found.isLine.trimmed, found.noMark.1⟩
  have trimmed : ∀ part ∈ types.map String.toList, Text.trim part = part :=
    fun part member => Text.trim_eq_self (parts part member).2.1
  have kept : ∀ part ∈ types.map String.toList, (!part.isEmpty) = true := by
    intro part member
    simpa using (parts part member).1
  have same : ∀ type ∈ types, (String.ofList ∘ String.toList) type = type :=
    fun type _ => String.ofList_toList
  have split := List.splitOn_intercalate '|' (fun part member => (parts part member).2.2)
    (by simpa using nonempty)
  rw [typesOfText, split, List.map_congr_left trimmed, List.map_id', List.filter_eq_self.mpr kept,
    List.map_map, List.map_congr_left same, List.map_id']

theorem takeTypes_phrase {tag : String} {types : List String} {parts : List (List Char)}
    (isType : ∀ type ∈ types, IsType type) (isLine : ∀ part ∈ parts, IsLine part)
    (noBrace : (Text.phrase parts).head? ≠ some '{') :
    takeTypes tag (Text.phrase (printTypes types :: parts)) = .ok (types, Text.phrase parts) := by
  by_cases none : types = []
  · subst none
    have plain : Text.phrase (printTypes [] :: parts) = Text.phrase parts := rfl
    rw [plain, takeTypes]
    · intro rest braced
      rw [braced] at noBrace
      exact noBrace rfl
  · have noClose := @not_mem_join_types types '}' (by decide) fun type member =>
      (isType type member).noMark.2
    have start : Text.trimStart
        (if Text.phrase parts = [] then [] else ' ' :: Text.phrase parts) = Text.phrase parts := by
      split
      · next empty =>
          rw [empty]
          rfl
      · exact @Text.trimStart_append [' '] _ Text.isBlank_of_mem_space
          (isLine_phrase isLine).trimmed.1
    have cut := @Text.cut?_append (fun c => c == '}') _
      (if Text.phrase parts = [] then [] else ' ' :: Text.phrase parts) '}'
      (Text.beq_eq_false_of_notMem noClose) rfl
    have whole : Text.phrase (printTypes types :: parts) =
        '{' :: (['|'].intercalate (types.map String.toList) ++ '}' ::
          if Text.phrase parts = [] then [] else ' ' :: Text.phrase parts) := by
      rw [Text.phrase_cons _ (by simp [printTypes, none]), printTypes, if_neg none]
      simp
    simp only [whole, takeTypes, cut, typesOfText_join none isType, start]

theorem withoutDash_printDash {description : List Char} (trimmed : Text.Trimmed description) :
    withoutDash (printDash description) = description := by
  rw [printDash]
  split
  · next empty =>
      rw [empty]
      rfl
  · next nonempty =>
      have whole : Text.trim ('-' :: ' ' :: description) = '-' :: ' ' :: description := by
        apply Text.trim_eq_self
        apply Text.trimmed_cons (by decide)
        rw [List.getLast?_cons_of_ne_nil nonempty]
        exact trimmed.2
      simp only [withoutDash, whole, Text.trim_eq_self trimmed]

namespace ParameterDoc

def printNamed (parameter : ParameterDoc) : List Char :=
  parameter.name.toList ++ if parameter.variadic then ['.', '.', '.'] else []

/-- The name of a parameter with its default value, in square brackets if it has one. -/
def printDeclaration (parameter : ParameterDoc) : List Char :=
  match parameter.defaultValue with
  | some value => '[' :: (parameter.printNamed ++ '=' :: value.toList ++ [']'])
  | none => parameter.printNamed

def print (parameter : ParameterDoc) : List Char :=
  Text.phrase [printTypes parameter.types, parameter.printDeclaration,
    printDash parameter.description.toList]

/-- The name is a dollar sign and a bare name, and neither name nor default value has blanks. -/
structure Printable (parameter : ParameterDoc) : Prop where
  types : ∀ type ∈ parameter.types, IsType type
  name : ∃ bare, parameter.name.toList = '$' :: bare ∧ bare ≠ [] ∧
    (∀ c ∈ bare, Text.isBlank c = false ∧ c ≠ '=') ∧ ¬['.', '.', '.'] <:+ bare
  defaultValue : ∀ value ∈ parameter.defaultValue, ∀ c ∈ value.toList, Text.isBlank c = false
  description : IsLine parameter.description.toList

variable {parameter : ParameterDoc}

theorem printNamed_spec (printable : parameter.Printable) :
    ∀ c ∈ parameter.printNamed, Text.isBlank c = false ∧ c ≠ '=' := by
  obtain ⟨bare, name_eq, _, chars, _⟩ := printable.name
  intro c member
  rw [printNamed, name_eq] at member
  rcases List.mem_append.mp member with member | member
  · rcases List.mem_cons.mp member with rfl | member
    · exact ⟨by decide, by decide⟩
    · exact chars c member
  · have dot : c = '.' := by
      cases variadic : parameter.variadic <;> simp_all
    subst dot
    exact ⟨by decide, by decide⟩

theorem isBlank_of_mem_printDeclaration (printable : parameter.Printable) :
    ∀ c ∈ parameter.printDeclaration, Text.isBlank c = false := by
  have named := printNamed_spec printable
  intro c member
  cases found : parameter.defaultValue with
  | none =>
      simp only [printDeclaration, found] at member
      exact (named c member).1
  | some value =>
      have visible := printable.defaultValue value found
      simp only [printDeclaration, found, List.mem_cons, List.mem_append, List.not_mem_nil,
        or_false] at member
      rcases member with rfl | (member | rfl | member) | rfl
      · decide
      · exact (named c member).1
      · decide
      · exact visible c member
      · decide

theorem head?_printDeclaration (printable : parameter.Printable) :
    ∃ c rest, parameter.printDeclaration = c :: rest ∧ c ≠ '{' := by
  obtain ⟨bare, name_eq, _⟩ := printable.name
  cases found : parameter.defaultValue with
  | none =>
      refine ⟨'$', bare ++ if parameter.variadic then ['.', '.', '.'] else [], ?_, by decide⟩
      simp only [printDeclaration, found, printNamed, name_eq, List.cons_append]
  | some value =>
      refine ⟨'[', parameter.printNamed ++ '=' :: value.toList ++ [']'], ?_, by decide⟩
      simp only [printDeclaration, found]

theorem isLine_parts (printable : parameter.Printable) :
    ∀ part ∈ [parameter.printDeclaration, printDash parameter.description.toList], IsLine part := by
  have declaration := isLine_of_visible (isBlank_of_mem_printDeclaration printable)
  have description := isLine_printDash printable.description
  simpa using ⟨declaration, description⟩

theorem isLine_print (printable : parameter.Printable) : IsLine parameter.print := by
  apply isLine_phrase
  intro part member
  rcases List.mem_cons.mp member with rfl | member
  · exact isLine_printTypes printable.types
  · exact isLine_parts printable part member

theorem splitOptional_printDeclaration (printable : parameter.Printable) :
    splitOptional parameter.printDeclaration =
      (parameter.printNamed, parameter.defaultValue.map String.toList) := by
  have named := printNamed_spec printable
  cases found : parameter.defaultValue with
  | none =>
      obtain ⟨bare, name_eq, _⟩ := printable.name
      simp only [printDeclaration, found, printNamed, name_eq]
      rfl
  | some value =>
      have noEquals : ∀ c ∈ parameter.printNamed, (c == '=') = false := by
        intro c member
        simpa using (named c member).2
      have cut := @Text.cut?_append (fun c => c == '=') _ value.toList '=' noEquals rfl
      have dropped := Text.isSuffixOf?_append [']'] (parameter.printNamed ++ '=' :: value.toList)
      have trimmed := Text.trim_eq_self
        (Text.trimmed_of_visible (printable.defaultValue value found))
      simp only [printDeclaration, found, splitOptional, dropped, cut, trimmed, Option.map_some]

theorem splitVariadic_printNamed (printable : parameter.Printable) :
    splitVariadic parameter.printNamed = (parameter.name.toList, parameter.variadic) := by
  cases variadic : parameter.variadic with
  | true =>
      have dropped := Text.isSuffixOf?_append ['.', '.', '.'] parameter.name.toList
      simp [splitVariadic, printNamed, variadic, dropped]
  | false =>
      obtain ⟨bare, name_eq, _, _, noDots⟩ := printable.name
      have kept : ¬['.', '.', '.'] <:+ parameter.name.toList := by
        rw [name_eq, List.suffix_cons_iff]
        rintro (whole | inBare)
        · cases whole
        · exact noDots inBare
      simp [splitVariadic, printNamed, variadic, Text.isSuffixOf?_eq_none kept]

/-- A parameter is read back from the text of its tag. -/
theorem ofText_print (printable : parameter.Printable) :
    ofText parameter.print = .ok parameter := by
  obtain ⟨bare, name_eq, nonempty, _⟩ := printable.name
  obtain ⟨c, rest, declaration_eq, noBrace⟩ := head?_printDeclaration printable
  have declared : parameter.printDeclaration ≠ [] := by simp [declaration_eq]
  have visible := isBlank_of_mem_printDeclaration printable
  have whole : Text.phrase [parameter.printDeclaration, printDash parameter.description.toList] =
      parameter.printDeclaration ++ if printDash parameter.description.toList = [] then []
        else ' ' :: printDash parameter.description.toList := by
    rw [Text.phrase_cons _ declared, Text.phrase_singleton]
  have noType : (Text.phrase [parameter.printDeclaration,
      printDash parameter.description.toList]).head? ≠ some '{' := by
    rw [whole, declaration_eq]
    simpa using noBrace
  have types := @takeTypes_phrase "param" _ _ printable.types (isLine_parts printable) noType
  have cut : (Text.cut? Text.isBlank (Text.phrase [parameter.printDeclaration,
      printDash parameter.description.toList])).getD (Text.phrase [parameter.printDeclaration,
        printDash parameter.description.toList], []) =
      (parameter.printDeclaration, printDash parameter.description.toList) := by
    rw [whole]
    split
    · next empty =>
        rw [List.append_nil, Text.cut?_eq_none visible, empty]
        rfl
    · rw [Text.cut?_append visible (by decide)]
      rfl
  have named : ('$' :: bare).isEmpty = false := rfl
  have bareKept : bare.isEmpty = false := by simpa using nonempty
  have name : String.ofList ('$' :: bare) = parameter.name := by
    rw [← name_eq, String.ofList_toList]
  have same : (parameter.defaultValue.map String.toList).map String.ofList =
      parameter.defaultValue := by
    cases parameter.defaultValue <;> simp
  simp only [ofText, print, types, bind, Except.bind, cut, splitOptional_printDeclaration printable,
    splitVariadic_printNamed printable, name_eq, withoutDollar, bareKept, name, same,
    withoutDash_printDash printable.description.trimmed, String.ofList_toList]
  rfl

end ParameterDoc

namespace ReturnDoc

def print (returned : ReturnDoc) : List Char :=
  Text.phrase [printTypes returned.types, printDash returned.description.toList]

structure Printable (returned : ReturnDoc) : Prop where
  types : ∀ type ∈ returned.types, IsType type
  description : IsLine returned.description.toList

variable {returned : ReturnDoc}

theorem isLine_print (printable : returned.Printable) : IsLine returned.print := by
  apply isLine_phrase
  simpa using ⟨isLine_printTypes printable.types, isLine_printDash printable.description⟩

/-- A returned value is read back from the text of its tag. -/
theorem ofText_print (tag : String) (printable : returned.Printable) :
    ofText tag returned.print = .ok returned := by
  have isLine : ∀ part ∈ [printDash returned.description.toList], IsLine part := by
    simpa using isLine_printDash printable.description
  have noType : (Text.phrase [printDash returned.description.toList]).head? ≠ some '{' := by
    rw [Text.phrase_singleton, printDash]
    split
    · simp
    · simp
  have types := @takeTypes_phrase tag _ _ printable.types isLine noType
  rw [Text.phrase_singleton] at types
  simp only [ofText, print, types, bind, Except.bind,
    withoutDash_printDash printable.description.trimmed, String.ofList_toList]

end ReturnDoc

/-! ## Examples -/

def textLines (text : List Char) : List Line := if text = [] then [] else text.splitOn '\n'

theorem join_textLines (text : List Char) : ['\n'].intercalate (textLines text) = text := by
  rw [textLines]
  split
  · next empty =>
      rw [empty]
      rfl
  · exact List.intercalate_splitOn '\n'

theorem not_mem_of_mem_textLines {text : List Char} :
    ∀ line ∈ textLines text, '\n' ∉ line := by
  intro line member
  rw [textLines] at member
  split at member
  · cases member
  · exact Text.not_mem_of_mem_splitOn member

/-- The lines of an example: no blanks at their ends, no blank line first or last, not all of them
indented, and none that opens a known tag. -/
structure IsUsage (lines : List Line) : Prop where
  neat : ∀ line ∈ lines, ∀ c ∈ line.getLast?, Text.isBlank c = false
  first : ∀ line ∈ lines.head?, line ≠ []
  last : ∀ line ∈ lines.getLast?, line ≠ []
  flush : lines ≠ [] → ∃ line ∈ lines, line ≠ [] ∧ line.head? ≠ some ' ' ∧ line.head? ≠ some '\t'
  unknown : ∀ line ∈ lines, ∀ name text, Tag.opening? line = some (name, text) →
    Tag.isKnown name = false

theorem trimLines_eq_self {lines : List Line} (first : ∀ line ∈ lines.head?, line ≠ [])
    (last : ∀ line ∈ lines.getLast?, line ≠ []) : trimLines lines = lines := by
  have start := @Text.dropWhile_append_of_head? _ List.isEmpty [] lines (by simp)
    (by simpa using first)
  have stop := @Text.dropWhile_append_of_head? _ List.isEmpty [] lines.reverse (by simp)
    (by simpa using last)
  rw [List.nil_append] at start stop
  rw [trimLines, start, stop, List.reverse_reverse]

/-- An example is read back from the lines after its tag. -/
theorem Tag.verbatim_usage {name : String} {lines : List Line} (isUsage : IsUsage lines) :
    Tag.verbatim ⟨name, [] :: lines⟩ = ['\n'].intercalate lines := by
  have width : commonIndentation ([] :: lines) = 0 := by
    by_cases none : lines = []
    · rw [none]
      rfl
    · apply commonIndentation_eq
      · obtain ⟨line, member, nonempty, noSpace, noTab⟩ := isUsage.flush none
        refine ⟨line, List.mem_cons_of_mem _ member, ?_, ?_⟩
        · cases blank : isBlankLine line with
          | false => rfl
          | true => exact (nonempty (eq_nil_of_isBlankLine (isUsage.neat line member) blank)).elim
        · obtain ⟨c, rest, rfl⟩ := List.exists_cons_of_ne_nil nonempty
          have visible : (c == ' ' || c == '\t') = false := by
            simp only [List.head?_cons, ne_eq, Option.some.injEq] at noSpace noTab
            simp [noSpace, noTab]
          simp only [indentation, List.takeWhile_cons, visible]
          rfl
      · intro line _ _
        exact Nat.zero_le _
  have kept : ∀ line ∈ lines, outdentLine 0 line = line :=
    fun line member => outdentLine_zero (isUsage.neat line member)
  have outdented : outdent ([] :: lines) = [] :: lines := by
    rw [outdent, width, List.map_cons, List.map_congr_left kept, List.map_id']
    rfl
  have trimmed : trimLines ([] :: lines) = trimLines lines := by
    rw [trimLines, trimLines, List.dropWhile_cons_of_pos rfl]
  simp only [verbatim, outdented, trimmed, trimLines_eq_self isUsage.first isUsage.last]

end StyleDoc
