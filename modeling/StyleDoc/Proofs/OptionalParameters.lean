import StyleDoc.Proofs.TagEntries
import StyleDoc.Proofs.TagTexts

/-!
# Optional parameters

An optional parameter is documented in square brackets, together with its default value.  What
stands in the brackets is looked at only after the text has been cut at its first blank.  So the
default value is found exactly if it is one word; a list of fonts leaves the opening bracket in the
name, and no default value.  The hyphen that announces a description is taken off only if one
follows.
-/

namespace StyleDoc

structure OptionalParameter where
  types : List String
  name : List Char
  value : List Char
  description : List Char
  isType : ∀ type ∈ types, IsType type
  isName : Text.isName name = true
  isLine_value : IsLine value
  noBracket : '[' ∉ value ∧ ']' ∉ value
  isLine_description : IsLine description

namespace OptionalParameter

def body (parameter : OptionalParameter) : List Char :=
  '[' :: '$' :: parameter.name ++ '=' :: parameter.value ++ [']'] ++
    ' ' :: '-' :: ' ' :: parameter.description

/-- The text `{types} [$name=value] - description`. -/
def print (parameter : OptionalParameter) : List Char :=
  '{' :: (['|'].intercalate (parameter.types.map String.toList) ++ '}' :: ' ' :: parameter.body)

def toDoc (parameter : OptionalParameter) : ParameterDoc :=
  { name := String.ofList ('$' :: parameter.name)
    types := parameter.types
    description := String.ofList parameter.description
    defaultValue := some (String.ofList parameter.value)
    variadic := false }

variable (parameter : OptionalParameter)

theorem takeTypes_print :
    takeTypes "param" parameter.print = .ok (parameter.types, parameter.body) := by
  have noClose := @not_mem_join_types parameter.types '}' (by decide) fun type member =>
    (parameter.isType type member).noMark.2
  have cut := @Text.cut?_append (fun c => c == '}') _ (' ' :: parameter.body) '}'
    (Text.beq_eq_false_of_notMem noClose) rfl
  have types : typesOfText (['|'].intercalate (parameter.types.map String.toList)) =
      parameter.types := by
    by_cases none : parameter.types = []
    · rw [none]
      rfl
    · exact typesOfText_join none parameter.isType
  have start : Text.trimStart (' ' :: parameter.body) = parameter.body := by
    refine @Text.trimStart_append [' '] _ Text.isBlank_of_mem_space ?_
    simpa [body] using by decide
  simp only [print, takeTypes, cut, types, start]

theorem notMem_name {c : Char} (other : Text.isNameChar c = false) : c ∉ parameter.name :=
  fun member =>
    Text.ne_of_isNameChar (Text.isNameChar_of_isName parameter.isName c member) other rfl

theorem visible_declaration {text : List Char} (visible : ∀ c ∈ text, Text.isBlank c = false) :
    ∀ c ∈ '[' :: '$' :: parameter.name ++ '=' :: text, Text.isBlank c = false := by
  intro c member
  simp only [List.cons_append, List.mem_cons, List.mem_append] at member
  rcases member with rfl | rfl | member | rfl | member
  · decide
  · decide
  · exact Text.isBlank_of_isNameChar (Text.isNameChar_of_isName parameter.isName c member)
  · decide
  · exact visible c member

theorem splitVariadic_name :
    splitVariadic ('$' :: parameter.name) = ('$' :: parameter.name, false) := by
  have noDots : ¬['.', '.', '.'] <:+ '$' :: parameter.name := by
    intro dots
    have member := dots.mem (List.mem_cons_self (a := '.'))
    rcases List.mem_cons.mp member with same | member
    · cases same
    · exact parameter.notMem_name (by decide) member
  simp [splitVariadic, Text.isSuffixOf?_eq_none noDots]

/-- A default value of one word is read; of an empty description the hyphen is left. -/
theorem ofText_print_of_word (word : ∀ c ∈ parameter.value, Text.isBlank c = false) :
    ParameterDoc.ofText parameter.print = .ok { parameter.toDoc with
      description := String.ofList (withoutDash ('-' :: ' ' :: parameter.description)) } := by
  have visible : ∀ c ∈ '[' :: '$' :: parameter.name ++ '=' :: parameter.value ++ [']'],
      Text.isBlank c = false := by
    intro c member
    rcases List.mem_append.mp member with member | member
    · exact parameter.visible_declaration word c member
    · rw [List.mem_singleton.mp member]
      decide
  have cut := @Text.cut?_append Text.isBlank _ ('-' :: ' ' :: parameter.description) ' ' visible
    (by decide)
  have declared : splitOptional
      ('[' :: '$' :: parameter.name ++ '=' :: parameter.value ++ [']']) =
      ('$' :: parameter.name, some parameter.value) := by
    have noEqual : '=' ∉ '$' :: parameter.name := by
      simpa using parameter.notMem_name (by decide)
    have valued := ParameterDoc.splitOptional_valued noEqual parameter.value
    rw [Text.trim_eq_self parameter.isLine_value.trimmed] at valued
    exact valued
  have named : parameter.name.isEmpty = false := by
    simpa using Text.ne_nil_of_isName parameter.isName
  simp only [ParameterDoc.ofText, takeTypes_print, bind, Except.bind, body, cut, Option.getD_some,
    declared, splitVariadic_name, withoutDollar, named]
  rfl

/-- With a blank in the default value, there is none. -/
theorem defaultValue_of_blank {doc : ParameterDoc} {c : Char} (member : c ∈ parameter.value)
    (blank : Text.isBlank c = true) (read : ParameterDoc.ofText parameter.print = .ok doc) :
    doc.defaultValue = none := by
  obtain ⟨⟨word, after⟩, found⟩ : ∃ parts, Text.cut? Text.isBlank parameter.value = some parts := by
    rw [← Option.ne_none_iff_exists']
    intro uncut
    rw [Text.absent_of_uncut uncut c member] at blank
    cases blank
  obtain ⟨d, isBlank, whole⟩ := Text.cut?_eq_some found
  have visible := parameter.visible_declaration (Text.absent_of_cut? found)
  have cut : Text.cut? Text.isBlank parameter.body =
      some ('[' :: '$' :: parameter.name ++ '=' :: word,
        after ++ ']' :: ' ' :: '-' :: ' ' :: parameter.description) := by
    rw [← @Text.cut?_append Text.isBlank _ _ d visible isBlank]
    simp [body, whole]
  have unclosed : ¬[']'] <:+ '$' :: parameter.name ++ '=' :: word := by
    intro closed
    have member := closed.mem (List.mem_cons_self (a := ']'))
    have absent : ']' ∉ word := by
      intro member
      apply parameter.noBracket.2
      rw [whole]
      exact List.mem_append_left _ member
    simp [parameter.notMem_name (c := ']') (by decide), absent] at member
  have declared : splitOptional ('[' :: '$' :: parameter.name ++ '=' :: word) =
      ('[' :: '$' :: parameter.name ++ '=' :: word, none) := by
    rw [List.cons_append, splitOptional, Text.isSuffixOf?_eq_none unclosed]
  simp only [ParameterDoc.ofText, takeTypes_print, bind, Except.bind, cut, Option.getD_some,
    declared] at read
  split at read
  · cases read
  · cases read
    rfl

/-- An optional parameter is read back exactly if its default value is one word and it has a
description. -/
theorem ofText_print_iff : ParameterDoc.ofText parameter.print = .ok parameter.toDoc ↔
    (∀ c ∈ parameter.value, Text.isBlank c = false) ∧ parameter.description ≠ [] := by
  constructor
  · intro read
    have word : ∀ c ∈ parameter.value, Text.isBlank c = false := by
      intro c member
      rw [← Bool.not_eq_true]
      intro blank
      cases parameter.defaultValue_of_blank member blank read
    refine ⟨word, ?_⟩
    intro empty
    rw [ofText_print_of_word parameter word] at read
    have same := congrArg ParameterDoc.description (Except.ok.inj read)
    have dash : String.ofList (withoutDash ['-', ' ']) ≠ String.ofList [] := by decide
    exact dash (by simpa [toDoc, empty] using same)
  · rintro ⟨word, nonempty⟩
    have dashed : '-' :: ' ' :: parameter.description = printDash parameter.description := by
      rw [printDash, if_neg nonempty]
    rw [ofText_print_of_word parameter word, dashed,
      withoutDash_printDash parameter.isLine_description.trimmed]
    rfl

def fonts : OptionalParameter where
  types := ["String"]
  name := "font".toList
  value := "Arial, sans-serif".toList
  description := "The font".toList
  isType := by
    rw [List.forall_mem_singleton]
    exact ⟨by decide, ⟨by decide, by decide⟩, by decide⟩
  isName := by decide
  isLine_value := ⟨by decide, by decide⟩
  noBracket := by decide
  isLine_description := ⟨by decide, by decide⟩

/-- The first font becomes part of the name, and the second one of the description. -/
theorem ofText_print_fonts :
    fonts.print = "\x7bString\x7d [$font=Arial, sans-serif] - The font".toList ∧
      ParameterDoc.ofText fonts.print ≠ .ok fonts.toDoc ∧
      ParameterDoc.ofText fonts.print = .ok
        { name := "$[$font=Arial,", types := ["String"],
          description := "sans-serif] - The font" } := by
  have read : ParameterDoc.ofText fonts.print = .ok
      { name := "$[$font=Arial,", types := ["String"],
        description := "sans-serif] - The font" } := by decide +kernel
  refine ⟨by decide, ?_, read⟩
  rw [read]
  intro same
  cases congrArg ParameterDoc.defaultValue (Except.ok.inj same)

end OptionalParameter

end StyleDoc
