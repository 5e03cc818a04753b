import StyleDoc.Proofs.Balanced
import StyleDoc.Proofs.Texts
import StyleDoc.Syntax.Header

/-!
# Written headers

How the text in front of a block and the text of a statement are written, and that reading them
gives back what was written: names, arguments with their default values, selectors, preludes.
-/

namespace StyleDoc

/-- A trimmed balanced text. -/
structure IsValue (allowed : Char → Bool) (text : List Char) : Prop where
  trimmed : Text.Trimmed text
  balanced : Balanced allowed text

theorem isPlain_of_isListed (c : Char) (listed : isListed c = true) : isPlain c = true := by
  simp only [isListed, Bool.and_eq_true] at listed
  exact listed.1

/-- A class of characters without quotes, brackets, semicolons, commas and slashes. -/
def IsHarmless (p : Char → Bool) : Prop :=
  ['"', '\'', '(', ')', '[', ']', '{', '}', ';', ',', '/'].any p = false

theorem isHarmless_isNameChar : IsHarmless Text.isNameChar := by
  unfold IsHarmless
  decide +kernel

theorem isHarmless_isKeywordChar : IsHarmless Text.isKeywordChar := by
  unfold IsHarmless
  decide +kernel

theorem Balanced.ofHarmless {p : Char → Bool} {run : List Char} (harmless : IsHarmless p)
    (all : ∀ c ∈ run, p c = true) : Balanced isListed run := by
  apply Balanced.ofRun
  rw [List.all_eq_true]
  intro c member
  have different (d : Char)
      (mark : d ∈ ['"', '\'', '(', ')', '[', ']', '{', '}', ';', ',', '/']) : c ≠ d := by
    rintro rfl
    exact List.any_eq_false.mp harmless c mark (all c member)
  simp [isListed, isPlain, Text.isQuote, different]

/-! ## Arguments -/

namespace Argument

/-- The dollar sign and the name, with dots for an argument that takes all remaining values. -/
def printDeclaration (argument : Argument) : List Char :=
  '$' :: (argument.name.toList ++ if argument.variadic then ['.', '.', '.'] else [])

def print (argument : Argument) : List Char :=
  match argument.defaultValue with
  | some value => argument.printDeclaration ++ ':' :: ' ' :: value.toList
  | none => argument.printDeclaration

/-- The name is an identifier, and a default value has no comma that would separate. -/
structure Printable (argument : Argument) : Prop where
  name : Text.isName argument.name.toList = true
  value : ∀ value ∈ argument.defaultValue, value.toList ≠ [] ∧ IsValue isListed value.toList

def isDeclarationChar (c : Char) : Bool := c == '$' || c == '.' || Text.isNameChar c

theorem isHarmless_isDeclarationChar : IsHarmless isDeclarationChar := by
  unfold IsHarmless
  decide +kernel

theorem isBlank_of_isDeclarationChar {c : Char} (h : isDeclarationChar c = true) :
    Text.isBlank c = false := by
  simp only [isDeclarationChar, Bool.or_eq_true, beq_iff_eq] at h
  rcases h with (rfl | rfl) | name
  · decide
  · decide
  · exact Text.isBlank_of_isNameChar name

variable {argument : Argument}

theorem isDeclarationChar_of_mem (printable : argument.Printable) :
    ∀ c ∈ argument.printDeclaration, isDeclarationChar c = true := by
  intro c member
  rw [printDeclaration, List.mem_cons, List.mem_append] at member
  rcases member with rfl | member | member
  · rfl
  · simp [isDeclarationChar, Text.isNameChar_of_isName printable.name c member]
  · cases variadic : argument.variadic with
    | false => simp [variadic] at member
    | true =>
        have dot : c = '.' := by simpa [variadic] using member
        subst dot
        rfl

theorem trimmed_printDeclaration (printable : argument.Printable) :
    Text.Trimmed argument.printDeclaration := by
  apply Text.trimmed_of_visible
  intro c member
  exact isBlank_of_isDeclarationChar (isDeclarationChar_of_mem printable c member)

theorem balanced_print (printable : argument.Printable) : Balanced isListed argument.print := by
  have declaration : Balanced isListed argument.printDeclaration :=
    .ofHarmless isHarmless_isDeclarationChar (isDeclarationChar_of_mem printable)
  cases found : argument.defaultValue with
  | none => simpa [print, found] using declaration
  | some value =>
      have balanced := (printable.value value found).2.balanced
      have separated : Balanced isListed (':' :: ' ' :: value.toList) := by
        refine .char (by decide) (by simp) (.char (by decide) (by simp) balanced)
      simpa [print, found] using declaration.append separated (by simp)

theorem splitDots_printDeclaration (printable : argument.Printable) :
    splitDots argument.printDeclaration = ('$' :: argument.name.toList, argument.variadic) := by
  have lastChar : ∀ c ∈ ('$' :: argument.name.toList).getLast?,
      c = '$' ∨ Text.isNameChar c = true := by
    intro c last
    rcases List.mem_cons.mp (List.mem_of_mem_getLast? last) with rfl | member
    · exact .inl rfl
    · exact .inr (Text.isNameChar_of_isName printable.name c member)
  cases variadic : argument.variadic with
  | false =>
      have noDots : ¬['.', '.', '.'] <:+ '$' :: argument.name.toList := by
        rintro ⟨before, whole⟩
        have last : ('$' :: argument.name.toList).getLast? = some '.' := by simp [← whole]
        rcases lastChar '.' last with dollar | name
        · cases dollar
        · exact Text.ne_of_isNameChar name (by decide +kernel) rfl
      simp [splitDots, printDeclaration, variadic, Text.isSuffixOf?_eq_none noDots]
  | true =>
      have dropped := Text.isSuffixOf?_append ['.', '.', '.'] ('$' :: argument.name.toList)
      have visible : Text.trimEnd ('$' :: argument.name.toList) = '$' :: argument.name.toList := by
        have := @Text.trimEnd_append [] ('$' :: argument.name.toList) (by simp) (by
          intro c last
          rcases lastChar c last with rfl | name
          · decide
          · exact Text.isBlank_of_isNameChar name)
        simpa using this
      rw [List.cons_append] at dropped
      simp [splitDots, printDeclaration, variadic, dropped, visible]

theorem ofDeclaration?_printDeclaration (printable : argument.Printable) :
    ofDeclaration? argument.printDeclaration (argument.defaultValue.map String.toList) =
      some argument := by
  have same : (argument.defaultValue.map String.toList).map String.ofList =
      argument.defaultValue := by
    cases argument.defaultValue <;> simp
  rw [ofDeclaration?, splitDots_printDeclaration printable]
  simp only [printable.name, if_true, same, String.ofList_toList]

/-- An argument is read back from its declaration, with blanks in front of it or without. -/
theorem ofText?_print (printable : argument.Printable) {blanks : List Char}
    (blank : ∀ c ∈ blanks, Text.isBlank c = true) :
    ofText? (blanks ++ argument.print) = some argument := by
  have trimmed := trimmed_printDeclaration printable
  have declared := ofDeclaration?_printDeclaration printable
  have visible : Text.trim (blanks ++ argument.printDeclaration) = argument.printDeclaration := by
    simpa using @Text.trim_append_append blanks _ [] trimmed blank (by simp)
  have noColon : ∀ c ∈ blanks ++ argument.printDeclaration, (c == ':') = false := by
    intro c member
    rw [beq_eq_false_iff_ne]
    rintro rfl
    rcases List.mem_append.mp member with member | member
    · have := blank ':' member
      cases this
    · have := isDeclarationChar_of_mem printable ':' member
      revert this
      decide +kernel
  cases found : argument.defaultValue with
  | none =>
      rw [found] at declared
      have whole : Text.cut? (fun c => c == ':') (blanks ++ argument.printDeclaration) = none :=
        Text.cut?_eq_none noColon
      simp only [print, found, ofText?, whole, visible]
      exact declared
  | some value =>
      rw [found] at declared
      obtain ⟨nonempty, isValue⟩ := printable.value value found
      have cut := @Text.cut?_append (fun c => c == ':') _ (' ' :: value.toList) ':' noColon rfl
      have value_eq : Text.trim (' ' :: value.toList) = value.toList := by
        simpa using @Text.trim_append_append [' '] _ [] isValue.trimmed Text.isBlank_of_mem_space
          (by simp)
      rw [List.append_assoc] at cut
      have notEmpty : value.toList.isEmpty = false := by simpa using nonempty
      simp only [print, found, ofText?, cut, visible, value_eq, notEmpty]
      exact declared

theorem listOfText_join {arguments : List Argument}
    (printable : ∀ argument ∈ arguments, argument.Printable) :
    listOfText ([',', ' '].intercalate (arguments.map print)) = arguments := by
  have later (arguments : List Argument) (printable : ∀ argument ∈ arguments, argument.Printable) :
      ((arguments.map print).map (' ' :: ·)).filterMap ofText? = arguments := by
    induction arguments with
    | nil => rfl
    | cons argument arguments ih =>
        have first : ofText? (' ' :: argument.print) = some argument :=
          @ofText?_print _ (printable argument List.mem_cons_self) [' '] Text.isBlank_of_mem_space
        rw [List.map_cons, List.map_cons, List.filterMap_cons_some first,
          ih fun other member => printable other (List.mem_cons_of_mem _ member)]
  cases arguments with
  | nil => decide
  | cons argument arguments =>
      have first : ofText? argument.print = some argument :=
        @ofText?_print _ (printable argument List.mem_cons_self) [] (by simp)
      have balanced : ∀ item ∈ argument.print :: arguments.map print, Balanced isListed item := by
        rw [← List.map_cons]
        intro item member
        obtain ⟨other, found, rfl⟩ := List.mem_map.mp member
        exact balanced_print (printable other found)
      rw [listOfText, List.map_cons, commaParts_join _ balanced, List.filterMap_cons_some first,
        later _ fun other member => printable other (List.mem_cons_of_mem _ member)]

end Argument

/-! ## Selectors -/

/-- The text of a selector has no comma that would separate, and its class is the first one in the
text. -/
structure Selector.Printable (selector : Selector) : Prop where
  nonempty : selector.text.toList ≠ []
  isValue : IsValue isListed selector.text.toList
  className : selector = .ofText selector.text.toList

theorem trim_commaParts_join {items : List (List Char)} (nonempty : items ≠ [])
    (isValue : ∀ item ∈ items, IsValue isListed item) :
    (commaParts ([',', ' '].intercalate items)).map Text.trim = items := by
  obtain ⟨item, items, rfl⟩ := List.exists_cons_of_ne_nil nonempty
  have spaced : ∀ other ∈ items, (Text.trim ∘ (' ' :: ·)) other = other := by
    intro other member
    have trimmed := (isValue other (List.mem_cons_of_mem _ member)).trimmed
    simpa using @Text.trim_append_append [' '] _ [] trimmed Text.isBlank_of_mem_space
      (by simp)
  rw [commaParts_join item fun other member => (isValue other member).balanced, List.map_cons,
    Text.trim_eq_self (isValue item List.mem_cons_self).trimmed, List.map_map,
    List.map_congr_left spaced, List.map_id']

theorem Selector.listOfText_join {selectors : List Selector} (nonempty : selectors ≠ [])
    (printable : ∀ selector ∈ selectors, selector.Printable) :
    listOfText ([',', ' '].intercalate (selectors.map fun selector => selector.text.toList)) =
      selectors := by
  have items : ∀ item ∈ selectors.map (fun selector => selector.text.toList),
      item ≠ [] ∧ IsValue isListed item := by
    intro item member
    obtain ⟨selector, found, rfl⟩ := List.mem_map.mp member
    exact ⟨(printable selector found).nonempty, (printable selector found).isValue⟩
  have same : ∀ selector ∈ selectors,
      (ofText ∘ fun selector => selector.text.toList) selector = selector := by
    intro selector member
    exact (printable selector member).className.symm
  rw [listOfText, trim_commaParts_join (by simpa using nonempty) fun item member =>
    (items item member).2, List.filter_eq_self.mpr, List.map_map, List.map_congr_left same,
    List.map_id']
  intro item member
  simpa using (items item member).1

/-! ## Headers -/

theorem DefinitionKind.keyword_of_ofKeyword? {keyword : String} {kind : DefinitionKind}
    (h : ofKeyword? keyword = some kind) : kind.keyword = keyword := by
  unfold ofKeyword? at h
  split at h
  · next isMixin =>
      cases h
      exact isMixin.symm
  · split at h
    · next isFunction =>
        cases h
        exact isFunction.symm
    · cases h

namespace Head

def printArguments : Option (List Argument) → List Char
  | none => []
  | some arguments => '(' :: ([',', ' '].intercalate (arguments.map Argument.print) ++ [')'])

def print : Head → List Char
  | rule selectors => [',', ' '].intercalate (selectors.map fun selector => selector.text.toList)
  | callable kind name arguments =>
      '@' :: (kind.keyword.toList ++ ' ' :: (name.toList ++ printArguments arguments))
  | nesting keyword prelude => '@' :: (keyword.toList ++ ' ' :: prelude.toList)
  | other text => text.toList

def IsOther : List Char → Prop
  | '@' :: atRule =>
      let keyword := String.ofList (atRule.takeWhile Text.isKeywordChar)
      DefinitionKind.ofKeyword? keyword = none ∧ keyword ∉ nestingKeywords
  | text => text.getLast? = some ':'

/-- Names are identifiers, and values, selectors and preludes are trimmed and balanced. -/
def Printable : Head → Prop
  | rule selectors =>
      selectors ≠ [] ∧ (∀ selector ∈ selectors, selector.Printable) ∧
        (print (rule selectors)).head? ≠ some '@' ∧ (print (rule selectors)).getLast? ≠ some ':'
  | callable _ name arguments =>
      Text.isName name.toList = true ∧
        ∀ list ∈ arguments, ∀ argument ∈ list, argument.Printable
  | nesting keyword prelude => keyword ∈ nestingKeywords ∧ IsValue isPlain prelude.toList
  | other text => IsValue isPlain text.toList ∧ IsOther text.toList

theorem isKeywordChar_of_nesting {keyword : String} (isNesting : keyword ∈ nestingKeywords) :
    ∀ c ∈ keyword.toList, Text.isKeywordChar c = true := by
  have all : (nestingKeywords.all fun keyword => keyword.toList.all Text.isKeywordChar) = true := by
    decide +kernel
  exact List.all_eq_true.mp (List.all_eq_true.mp all keyword isNesting)

theorem isKeywordChar_of_definition (kind : DefinitionKind) :
    ∀ c ∈ kind.keyword.toList, Text.isKeywordChar c = true := by
  rw [← List.all_eq_true]
  cases kind <;> decide +kernel

theorem ofKeyword?_keyword (kind : DefinitionKind) :
    DefinitionKind.ofKeyword? kind.keyword = some kind := by
  cases kind <;> decide

theorem ofKeyword?_of_nesting :
    ∀ keyword ∈ nestingKeywords, DefinitionKind.ofKeyword? keyword = none := by
  decide

theorem head?_print {head : Head} (printable : head.Printable) :
    ∃ c, head.print.head? = some c ∧ Text.isBlank c = false := by
  cases head with
  | rule selectors =>
      obtain ⟨nonempty, all, _⟩ := printable
      obtain ⟨selector, selectors, rfl⟩ := List.exists_cons_of_ne_nil nonempty
      have value := all selector List.mem_cons_self
      rw [print, List.map_cons, Text.head?_intercalate _ _ value.nonempty]
      exact value.isValue.trimmed.exists_head? value.nonempty
  | callable kind name arguments => exact ⟨'@', rfl, by decide⟩
  | nesting keyword prelude => exact ⟨'@', rfl, by decide⟩
  | other text =>
      have nonempty : text.toList ≠ [] := by
        intro empty
        have isOther := printable.2
        rw [empty] at isOther
        cases isOther
      exact printable.1.trimmed.exists_head? nonempty

/-! ### Written headers are balanced -/

theorem balanced_join {items : List (List Char)} {allowed : Char → Bool}
    (sub : ∀ c, isListed c = true ∨ c = ',' → allowed c = true)
    (balanced : ∀ item ∈ items, Balanced isListed item) :
    Balanced allowed ([',', ' '].intercalate items) := by
  induction items with
  | nil => exact .nil
  | cons item items ih =>
      have first := (balanced item List.mem_cons_self).mono fun c listed => sub c (.inl listed)
      have later := ih fun other member => balanced other (List.mem_cons_of_mem _ member)
      cases items with
      | nil =>
          rw [List.intercalate_singleton]
          exact first
      | cons next items =>
          have separated : Balanced allowed
              (',' :: ' ' :: [',', ' '].intercalate (next :: items)) :=
            .char (sub _ (.inr rfl)) (by simp) (.char (sub _ (.inl rfl)) (by simp) later)
          rw [List.intercalate_cons_cons, List.append_assoc]
          exact first.append separated (by simp)

theorem balanced_printArguments {arguments : Option (List Argument)}
    (printable : ∀ list ∈ arguments, ∀ argument ∈ list, argument.Printable) :
    Balanced isPlain (printArguments arguments) := by
  cases arguments with
  | none => exact .nil
  | some list =>
      have inside : Balanced isEnclosed ([',', ' '].intercalate (list.map Argument.print)) := by
        apply balanced_join
        · rintro c (listed | rfl)
          · exact isEnclosed_of_isListed c listed
          · rfl
        · intro item member
          obtain ⟨argument, found, rfl⟩ := List.mem_map.mp member
          exact Argument.balanced_print (printable list rfl argument found)
      exact .group (.inl ⟨rfl, rfl⟩) inside .nil

theorem balanced_atRule {keyword rest : List Char}
    (isKeyword : ∀ c ∈ keyword, Text.isKeywordChar c = true) (balanced : Balanced isPlain rest) :
    Balanced isPlain ('@' :: (keyword ++ ' ' :: rest)) := by
  have word := (Balanced.ofHarmless isHarmless_isKeywordChar isKeyword).mono isPlain_of_isListed
  have spaced : Balanced isPlain (' ' :: rest) := .char (by decide) (by simp) balanced
  exact .char (by decide) (by simp) (word.append spaced (by simp))

theorem balanced_print {head : Head} (printable : head.Printable) :
    Balanced isPlain head.print := by
  cases head with
  | rule selectors =>
      apply balanced_join
      · rintro c (listed | rfl)
        · exact isPlain_of_isListed c listed
        · rfl
      · intro item member
        obtain ⟨selector, found, rfl⟩ := List.mem_map.mp member
        exact (printable.2.1 selector found).isValue.balanced
  | callable kind name arguments =>
      have isName := Text.isNameChar_of_isName printable.1
      have word := (Balanced.ofHarmless isHarmless_isNameChar isName).mono isPlain_of_isListed
      have list := balanced_printArguments printable.2
      apply balanced_atRule (isKeywordChar_of_definition kind)
      apply word.append list
      cases arguments <;> simp [printArguments]
  | nesting keyword prelude =>
      exact balanced_atRule (isKeywordChar_of_nesting printable.1) printable.2.balanced
  | other text => exact printable.1.balanced

/-! ### Written headers are read back -/

theorem ofText_atRule {keyword rest : List Char}
    (isKeyword : ∀ c ∈ keyword, Text.isKeywordChar c = true) (trimmed : Text.Trimmed rest) :
    ∃ tail, Text.trim tail = rest ∧
      (keyword ++ tail).takeWhile Text.isKeywordChar = keyword ∧
      (keyword ++ tail).dropWhile Text.isKeywordChar = tail ∧
      ofText ('@' :: (keyword ++ ' ' :: rest) ++ [' ']) =
        ofAtRule (keyword ++ tail) ('@' :: (keyword ++ tail)) := by
  have word : Text.Trimmed ('@' :: keyword) := by
    apply Text.trimmed_cons (by decide)
    intro c last
    exact Text.isBlank_of_isKeywordChar (isKeyword c (List.mem_of_mem_getLast? last))
  obtain ⟨tail, trimmed_eq, tail_eq, space⟩ :=
    @Text.trim_words _ rest [' '] (List.cons_ne_nil _ _) word trimmed
      Text.isBlank_of_mem_space
  have stops : ∀ c ∈ tail.head?, Text.isKeywordChar c = false := by
    intro c head
    rw [space c head]
    decide
  refine ⟨tail, tail_eq, Text.takeWhile_append_of_head? isKeyword stops,
    Text.dropWhile_append_of_head? isKeyword stops, ?_⟩
  simp only [List.cons_append] at trimmed_eq
  simp only [ofText, List.cons_append, trimmed_eq, ofTrimmed]

theorem argumentList?_printArguments {arguments : Option (List Argument)}
    (printable : ∀ list ∈ arguments, ∀ argument ∈ list, argument.Printable) :
    argumentList? (printArguments arguments) = arguments := by
  cases arguments with
  | none => rfl
  | some list =>
      rw [printArguments, argumentList?, Text.beforeLast?_append (by decide), Option.map_some,
        Argument.listOfText_join (printable list rfl)]

theorem ofSignature_print {kind : DefinitionKind} {name : String}
    {arguments : Option (List Argument)} (isName : Text.isName name.toList = true)
    (printable : ∀ list ∈ arguments, ∀ argument ∈ list, argument.Printable) {tail : List Char}
    (trimmed : Text.trim tail = name.toList ++ printArguments arguments) :
    ofSignature kind tail = .ok (callable kind name arguments) := by
  have chars := Text.isNameChar_of_isName isName
  have bracket : ∀ c ∈ (printArguments arguments).head?, c = '(' := by
    cases arguments <;> simp [printArguments]
  have stops : ∀ c ∈ (printArguments arguments).head?, Text.isNameChar c = false := by
    intro c head
    rw [bracket c head]
    decide +kernel
  have visible : ∀ c ∈ (printArguments arguments).head?, Text.isBlank c = false := by
    intro c head
    rw [bracket c head]
    decide
  have nameKept : name.toList.isEmpty = false := by simpa using Text.ne_nil_of_isName isName
  have start : Text.trimStart (printArguments arguments) = printArguments arguments :=
    @Text.trimStart_append [] _ (by simp) visible
  simp only [ofSignature, trimmed, Text.takeWhile_append_of_head? chars stops,
    Text.dropWhile_append_of_head? chars stops, start, nameKept,
    argumentList?_printArguments printable, String.ofList_toList]
  rfl

theorem trimmed_signature {name : List Char} {arguments : Option (List Argument)}
    (isName : Text.isName name = true) : Text.Trimmed (name ++ printArguments arguments) := by
  have chars := Text.isNameChar_of_isName isName
  obtain ⟨c, rest, rfl⟩ := List.exists_cons_of_ne_nil (Text.ne_nil_of_isName isName)
  apply Text.trimmed_cons (Text.isBlank_of_isNameChar (chars c List.mem_cons_self))
  intro d last
  cases arguments with
  | none =>
      have member : d ∈ rest := List.mem_of_mem_getLast? (by simpa [printArguments] using last)
      exact Text.isBlank_of_isNameChar (chars d (List.mem_cons_of_mem _ member))
  | some list =>
      have bracket : d = ')' := by simpa [printArguments, List.getLast?_cons] using last.symm
      subst bracket
      decide

theorem ofTrimmed_of_head?_ne {text : List Char} (nonempty : text ≠ [])
    (notAt : text.head? ≠ some '@') :
    ofTrimmed text =
      if text.getLast? = some ':' then .ok (other (String.ofList text))
      else .ok (rule (Selector.listOfText text)) := by
  unfold ofTrimmed
  split
  · exact (nonempty rfl).elim
  · exact (notAt rfl).elim
  · rfl

theorem getLast?_of_isOther {text : List Char} (isOther : IsOther text)
    (notAt : text.head? ≠ some '@') : text.getLast? = some ':' := by
  unfold IsOther at isOther
  split at isOther
  · exact (notAt rfl).elim
  · exact isOther

/-- A header is read back from its text, the space after it included. -/
theorem ofText_print {head : Head} (printable : head.Printable) :
    ofText (head.print ++ [' ']) = .ok head := by
  have spaced {text : List Char} (trimmed : Text.Trimmed text) :
      Text.trim (text ++ [' ']) = text := by
    simpa using @Text.trim_append_append [] text [' '] trimmed (by simp)
      Text.isBlank_of_mem_space
  have visible : head.print ≠ [] := by
    obtain ⟨c, first, _⟩ := head?_print printable
    intro empty
    rw [empty] at first
    cases first
  cases head with
  | rule selectors =>
      obtain ⟨nonempty, all, notAt, notColon⟩ := printable
      have trimmed : Text.Trimmed (print (rule selectors)) := by
        apply Text.trimmed_intercalate
        intro item member
        obtain ⟨selector, found, rfl⟩ := List.mem_map.mp member
        exact ⟨(all selector found).nonempty, (all selector found).isValue.trimmed⟩
      have list : Selector.listOfText (print (rule selectors)) = selectors :=
        Selector.listOfText_join nonempty all
      rw [ofText, spaced trimmed, ofTrimmed_of_head?_ne visible notAt, if_neg notColon, list]
  | callable kind name arguments =>
      obtain ⟨isName, list⟩ := printable
      obtain ⟨tail, tail_eq, word, after, read⟩ :=
        ofText_atRule (isKeywordChar_of_definition kind) (trimmed_signature isName)
      have signature := @ofSignature_print kind _ _ isName list _ tail_eq
      simp only [print, read, ofAtRule, word, after, String.ofList_toList, ofKeyword?_keyword,
        signature]
  | nesting keyword prelude =>
      obtain ⟨isNesting, value⟩ := printable
      obtain ⟨tail, tail_eq, word, after, read⟩ :=
        ofText_atRule (isKeywordChar_of_nesting isNesting) value.trimmed
      have contained : nestingKeywords.contains keyword = true := by simpa using isNesting
      simp only [print, read, ofAtRule, word, after, String.ofList_toList,
        ofKeyword?_of_nesting keyword isNesting, contained, if_true, tail_eq]
  | other text =>
      obtain ⟨value, isOther⟩ := printable
      rw [ofText, print, spaced value.trimmed]
      by_cases atRule : text.toList.head? = some '@'
      · obtain ⟨rest, whole⟩ := List.head?_eq_some_iff.mp atRule
        rw [whole, IsOther] at isOther
        have contained : nestingKeywords.contains
            (String.ofList (rest.takeWhile Text.isKeywordChar)) = false := by simpa using isOther.2
        simp only [whole, ofTrimmed, ofAtRule, isOther.1, contained]
        rw [← whole, String.ofList_toList]
        rfl
      · have colon := getLast?_of_isOther isOther atRule
        rw [print] at visible
        rw [ofTrimmed_of_head?_ne visible atRule, if_pos colon, String.ofList_toList]

end Head

/-! ## Statements without a block -/

namespace Leaf

def IsDeclaration (text : List Char) : Prop :=
  ∃ name value, text = '$' :: (name ++ ':' :: value) ∧ Text.isName (Text.trim name) = true

def print : Leaf → List Char
  | blank => []
  | terminator => []
  | comment _ text => text.toList
  | declaration name value => '$' :: (name.toList ++ ':' :: ' ' :: value.toList)
  | statement text => text.toList

/-- Block comments end where they are written to end; names are identifiers; and values and other
statements are trimmed and balanced.  Blanks, semicolons and line comments are not printed. -/
def Printable : Leaf → Prop
  | blank => False
  | terminator => False
  | comment .block text =>
      ∃ body, text.toList = '/' :: '*' :: (body ++ ['*', '/']) ∧ ¬['*', '/'] <:+: body
  | comment .line _ => False
  | declaration name value => Text.isName name.toList = true ∧ IsValue isPlain value.toList
  | statement text =>
      text.toList ≠ [] ∧ IsValue isPlain text.toList ∧ ¬IsDeclaration text.toList

theorem declaration?_eq_none {text : List Char} (other : ¬IsDeclaration text) :
    declaration? text = none := by
  unfold declaration?
  split
  · next rest =>
      split
      · next name value cut =>
          rw [if_neg]
          intro isName
          obtain ⟨c, colon, whole⟩ := Text.cut?_eq_some cut
          rw [beq_iff_eq] at colon
          exact other ⟨name, value, by rw [whole, colon], isName⟩
      · rfl
  · rfl

theorem ofText_declaration {name value : String} (isName : Text.isName name.toList = true)
    (trimmed : Text.Trimmed value.toList) :
    ofText (print (declaration name value)) = declaration name value := by
  have chars := Text.isNameChar_of_isName isName
  have nameTrimmed : Text.trim name.toList = name.toList := by
    apply Text.trim_eq_self
    apply Text.trimmed_of_visible
    intro c member
    exact Text.isBlank_of_isNameChar (chars c member)
  have word : Text.Trimmed ('$' :: (name.toList ++ [':'])) :=
    Text.trimmed_cons (by decide) (by simpa using by decide)
  have noColon : ∀ c ∈ name.toList, (c == ':') = false := by
    intro c member
    rw [beq_eq_false_iff_ne]
    exact Text.ne_of_isNameChar (chars c member) (by decide +kernel)
  obtain ⟨tail, text_eq, tail_eq, _⟩ :=
    @Text.trim_words _ value.toList [] (List.cons_ne_nil _ _) word trimmed (by simp)
  have cut := @Text.cut?_append (fun c => c == ':') _ tail ':' noColon rfl
  have printed : Text.trim (print (declaration name value)) =
      '$' :: (name.toList ++ ':' :: tail) := by
    simpa [print] using text_eq
  simp only [ofText, printed, declaration?, cut, nameTrimmed, isName, tail_eq, if_true,
    Option.getD_some, String.ofList_toList]

theorem ofText_statement {text : String} (trimmed : Text.Trimmed text.toList)
    (other : ¬IsDeclaration text.toList) : ofText text.toList = statement text := by
  simp only [ofText, Text.trim_eq_self trimmed, declaration?_eq_none other, Option.getD_none,
    String.ofList_toList]

theorem balanced_declaration {name value : String} (isName : Text.isName name.toList = true)
    (balanced : Balanced isPlain value.toList) :
    Balanced isPlain (print (declaration name value)) := by
  have chars := Text.isNameChar_of_isName isName
  have word := (Balanced.ofHarmless isHarmless_isNameChar chars).mono isPlain_of_isListed
  have spaced : Balanced isPlain (':' :: ' ' :: value.toList) :=
    .char (by decide) (by simp) (.char (by decide) (by simp) balanced)
  exact .char (by decide) (by simp) (word.append spaced (by simp))

end Leaf

end StyleDoc
