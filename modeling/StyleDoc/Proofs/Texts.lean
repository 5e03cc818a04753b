import Mathlib.Data.List.Basic
import StyleDoc.Text.Cut

/-!
# Trimming and cutting

A text is trimmed if it neither starts nor ends with a blank; trimming takes off exactly the blanks
around such a text.  Cutting a text at a separator, or taking off a fixed end, undoes what put the
parts together.
-/

namespace StyleDoc.Text

/-- A text that neither starts nor ends with a blank. -/
def Trimmed (text : List Char) : Prop :=
  (∀ c ∈ text.head?, isBlank c = false) ∧ ∀ c ∈ text.getLast?, isBlank c = false

instance (text : List Char) : Decidable (Trimmed text) :=
  decidable_of_iff
    ((text.head?.all fun c => !isBlank c) = true ∧ (text.getLast?.all fun c => !isBlank c) = true)
    (by simp [Trimmed, Option.all_eq_true])

theorem trimmed_cons {c : Char} {text : List Char} (visible : isBlank c = false)
    (last : ∀ d ∈ text.getLast?, isBlank d = false) : Trimmed (c :: text) := by
  refine ⟨by simpa using visible, ?_⟩
  cases text with
  | nil => simpa using visible
  | cons d text => simpa using last

theorem trimmed_of_visible {text : List Char} (visible : ∀ c ∈ text, isBlank c = false) :
    Trimmed text := by
  constructor
  · intro c head
    exact visible c (List.mem_of_mem_head? head)
  · intro c last
    exact visible c (List.mem_of_mem_getLast? last)

theorem Trimmed.exists_head? {text : List Char} (trimmed : Trimmed text) (nonempty : text ≠ []) :
    ∃ c, text.head? = some c ∧ isBlank c = false := by
  obtain ⟨c, rest, rfl⟩ := List.exists_cons_of_ne_nil nonempty
  exact ⟨c, rfl, trimmed.1 c rfl⟩

theorem dropWhile_append_of_head? {α : Type} {p : α → Bool} {run text : List α}
    (all : ∀ c ∈ run, p c = true) (head : ∀ c ∈ text.head?, p c = false) :
    (run ++ text).dropWhile p = text := by
  rw [List.dropWhile_append_of_pos all]
  cases text with
  | nil => rfl
  | cons c text => rw [List.dropWhile_cons_of_neg (by simp [head c rfl])]

theorem takeWhile_append_of_head? {α : Type} {p : α → Bool} {run text : List α}
    (all : ∀ c ∈ run, p c = true) (head : ∀ c ∈ text.head?, p c = false) :
    (run ++ text).takeWhile p = run := by
  rw [List.takeWhile_append_of_pos all]
  cases text with
  | nil => simp
  | cons c text => rw [List.takeWhile_cons_of_neg (by simp [head c rfl]), List.append_nil]

theorem head?_dropWhile {α : Type} (p : α → Bool) (list : List α) :
    ∀ a ∈ (list.dropWhile p).head?, p a = false := by
  intro a head
  have stopped := List.head?_dropWhile_not p list
  rw [Option.mem_def.mp head] at stopped
  exact stopped

theorem trimStart_append {blanks text : List Char} (all : ∀ c ∈ blanks, isBlank c = true)
    (head : ∀ c ∈ text.head?, isBlank c = false) : trimStart (blanks ++ text) = text :=
  dropWhile_append_of_head? all head

theorem trimEnd_append {blanks text : List Char} (all : ∀ c ∈ blanks, isBlank c = true)
    (last : ∀ c ∈ text.getLast?, isBlank c = false) : trimEnd (text ++ blanks) = text := by
  have reversed : (blanks.reverse ++ text.reverse).dropWhile isBlank = text.reverse :=
    dropWhile_append_of_head? (by simpa using all) (by simpa using last)
  rw [trimEnd, List.reverse_append, reversed, List.reverse_reverse]

theorem trim_eq_nil {text : List Char} (all : ∀ c ∈ text, isBlank c = true) : trim text = [] := by
  have start : trimStart text = [] := by
    simpa using @trimStart_append text [] all (by simp)
  rw [trim, start]
  rfl

/-- Trimming takes off the blanks around a trimmed text. -/
theorem trim_append_append {before text after : List Char} (trimmed : Trimmed text)
    (blankBefore : ∀ c ∈ before, isBlank c = true) (blankAfter : ∀ c ∈ after, isBlank c = true) :
    trim (before ++ text ++ after) = text := by
  by_cases empty : text = []
  · subst empty
    apply trim_eq_nil
    intro c member
    rcases List.mem_append.mp member with member | member
    · exact blankBefore c (by simpa using member)
    · exact blankAfter c member
  · have head : (text ++ after).head? = text.head? := by
      obtain ⟨c, rest, rfl⟩ := List.exists_cons_of_ne_nil empty
      rfl
    rw [trim, List.append_assoc, trimStart_append blankBefore (by rw [head]; exact trimmed.1),
      trimEnd_append blankAfter trimmed.2]

theorem trimEnd_append_blanks {text blanks : List Char}
    (blank : ∀ c ∈ blanks, isBlank c = true) : trimEnd (text ++ blanks) = trimEnd text := by
  have reversed : ∀ c ∈ blanks.reverse, isBlank c = true := by simpa using blank
  rw [trimEnd, List.reverse_append, List.dropWhile_append_of_pos reversed]
  rfl

theorem trim_append_blanks {text blanks : List Char} (blank : ∀ c ∈ blanks, isBlank c = true) :
    trim (text ++ blanks) = trim text := by
  rw [trim, trimStart, List.dropWhile_append]
  split
  · next none =>
      have start : trimStart text = [] := List.isEmpty_iff.mp none
      have gone : blanks.dropWhile isBlank = [] := by
        simpa [trimStart] using @trimStart_append blanks [] blank (by simp)
      rw [gone, trim, start]
  · rw [trimEnd_append_blanks blank]
    rfl

theorem trim_blanks_append {blanks text : List Char} (blank : ∀ c ∈ blanks, isBlank c = true) :
    trim (blanks ++ text) = trim text := by
  rw [trim, trimStart, List.dropWhile_append_of_pos blank]
  rfl

theorem isBlank_of_mem_space : ∀ c ∈ [' '], isBlank c = true := by simpa using by decide

theorem trim_eq_self {text : List Char} (trimmed : Trimmed text) : trim text = text := by
  simpa using @trim_append_append [] text [] trimmed (by simp) (by simp)

theorem exists_trimEnd_append (text : List Char) :
    ∃ blanks, text = trimEnd text ++ blanks ∧ ∀ c ∈ blanks, isBlank c = true := by
  refine ⟨(text.reverse.takeWhile isBlank).reverse, ?_, ?_⟩
  · rw [trimEnd, ← List.reverse_append, List.takeWhile_append_dropWhile,
      List.reverse_reverse]
  · intro c member
    exact List.all_eq_true.mp List.all_takeWhile c (List.mem_reverse.mp member)

/-- Trimming takes blanks off both ends, and nothing else. -/
theorem exists_append_trim_append (text : List Char) :
    ∃ before after, text = before ++ trim text ++ after ∧ (∀ c ∈ before, isBlank c = true) ∧
      ∀ c ∈ after, isBlank c = true := by
  obtain ⟨after, whole, blankAfter⟩ := exists_trimEnd_append (trimStart text)
  refine ⟨text.takeWhile isBlank, after, ?_, List.all_eq_true.mp List.all_takeWhile, blankAfter⟩
  rw [List.append_assoc, trim, ← whole, trimStart, List.takeWhile_append_dropWhile]

theorem trim_prefix_trimStart (text : List Char) : trim text <+: trimStart text := by
  obtain ⟨blanks, whole, _⟩ := exists_trimEnd_append (trimStart text)
  exact ⟨blanks, whole.symm⟩

theorem getLast?_trimEnd (text : List Char) :
    ∀ c ∈ (trimEnd text).getLast?, isBlank c = false := by
  rw [trimEnd, List.getLast?_reverse]
  exact head?_dropWhile isBlank text.reverse

theorem head?_trimStart (text : List Char) :
    ∀ c ∈ (trimStart text).head?, isBlank c = false :=
  head?_dropWhile isBlank text

theorem trimmed_trim (text : List Char) : Trimmed (trim text) := by
  refine ⟨?_, getLast?_trimEnd (trimStart text)⟩
  intro c head
  obtain ⟨rest, starts⟩ := List.head?_eq_some_iff.mp (Option.mem_def.mp head)
  obtain ⟨more, whole⟩ := trim_prefix_trimStart text
  apply head?_trimStart text
  rw [← whole, starts]
  rfl

theorem isBlank_of_trim_eq_nil {text : List Char} (empty : trim text = []) :
    ∀ c ∈ text, isBlank c = true := by
  obtain ⟨before, after, whole, blankBefore, blankAfter⟩ := exists_append_trim_append text
  rw [empty, List.append_nil] at whole
  rw [whole]
  intro c member
  rcases List.mem_append.mp member with member | member
  · exact blankBefore c member
  · exact blankAfter c member

theorem trimEnd_cons {c : Char} (text : List Char) (visible : isBlank c = false) :
    trimEnd (c :: text) = c :: trimEnd text := by
  obtain ⟨blanks, whole, blank⟩ := exists_trimEnd_append text
  have last : ∀ d ∈ (c :: trimEnd text).getLast?, isBlank d = false :=
    (trimmed_cons visible (getLast?_trimEnd text)).2
  rw [whole, ← List.cons_append, trimEnd_append blank last]
  rw [← whole]

theorem trim_trimStart (text : List Char) : trim (trimStart text) = trim text := by
  rw [trim, trim]
  congr 1
  simpa [trimStart] using @trimStart_append [] (trimStart text) (by simp) (head?_trimStart text)

theorem trim_trimEnd (text : List Char) : trim (trimEnd text) = trim text := by
  obtain ⟨blanks, whole, blank⟩ := exists_trimEnd_append text
  have same := @trim_append_blanks (trimEnd text) blanks blank
  rw [← whole] at same
  exact same.symm

theorem trim_word {before word after : List Char} (nonempty : word ≠ [])
    (visible : ∀ c ∈ word, isBlank c = false) :
    trim (before ++ word ++ after) = trimStart before ++ word ++ trimEnd after := by
  obtain ⟨blanks, whole, blank⟩ := exists_trimEnd_append after
  have trimmed : Trimmed (trimStart before ++ word ++ trimEnd after) := by
    constructor
    · rw [List.append_assoc, List.head?_append]
      intro c head
      cases start : (trimStart before).head? with
      | some d =>
          rw [start] at head
          exact head?_trimStart before c (start.trans head)
      | none =>
          rw [start, Option.none_or, List.head?_append_of_ne_nil _ nonempty] at head
          exact visible c (List.mem_of_mem_head? head)
    · rw [List.getLast?_append]
      intro c last
      cases rest : (trimEnd after).getLast? with
      | some d =>
          rw [rest] at last
          exact getLast?_trimEnd after c (rest.trans last)
      | none =>
          rw [rest, Option.none_or, List.getLast?_append_of_ne_nil _ nonempty] at last
          exact visible c (List.mem_of_mem_getLast? last)
  have start : before = before.takeWhile isBlank ++ trimStart before :=
    List.takeWhile_append_dropWhile.symm
  have parts : before ++ word ++ after =
      before.takeWhile isBlank ++ (trimStart before ++ word ++ trimEnd after) ++ blanks := by
    calc before ++ word ++ after
        = before.takeWhile isBlank ++ trimStart before ++ word ++ (trimEnd after ++ blanks) := by
          rw [← start, ← whole]
      _ = _ := by simp
  rw [parts, trim_append_append trimmed (List.all_eq_true.mp List.all_takeWhile) blank]

/-- A text of two words, of which the second may be empty: the space between them is trimmed off
with an empty second word. -/
theorem trim_words {word rest after : List Char} (nonempty : word ≠ []) (first : Trimmed word)
    (second : Trimmed rest) (blankAfter : ∀ c ∈ after, isBlank c = true) :
    ∃ tail, trim (word ++ ' ' :: rest ++ after) = word ++ tail ∧ trim tail = rest ∧
      ∀ c ∈ tail.head?, c = ' ' := by
  by_cases empty : rest = []
  · subst empty
    have blanks : ∀ c ∈ ' ' :: after, isBlank c = true := by
      simpa using ⟨by decide, blankAfter⟩
    have trimmed := @trim_append_append [] word (' ' :: after) first (by simp) blanks
    exact ⟨[], by simpa using trimmed, rfl, by simp⟩
  · have whole : Trimmed (word ++ ' ' :: rest) := by
      obtain ⟨c, word, rfl⟩ := List.exists_cons_of_ne_nil nonempty
      apply trimmed_cons (first.1 c rfl)
      rw [List.append_eq, ← List.singleton_append, ← List.append_assoc,
        List.getLast?_append_of_ne_nil _ empty]
      exact second.2
    have trimmed := @trim_append_append [] _ after whole (by simp) blankAfter
    have rest_eq := @trim_append_append [' '] rest [] second isBlank_of_mem_space (by simp)
    exact ⟨' ' :: rest, by simpa using trimmed, by simpa using rest_eq, by simp⟩

/-! ## Blanks and names -/

def blankCodes : List Nat :=
  [0x09, 0x0A, 0x0B, 0x0C, 0x0D, 0x20, 0x85, 0xA0, 0x1680, 0x2000, 0x2001, 0x2002, 0x2003, 0x2004,
    0x2005, 0x2006, 0x2007, 0x2008, 0x2009, 0x200A, 0x2028, 0x2029, 0x202F, 0x205F, 0x3000]

theorem toNat_mem_blankCodes {c : Char} (blank : isBlank c = true) : c.toNat ∈ blankCodes := by
  simp only [isBlank, Bool.or_eq_true, Bool.and_eq_true, decide_eq_true_eq, beq_iff_eq] at blank
  simp only [blankCodes, List.mem_cons, List.not_mem_nil, or_false]
  omega

theorem isBlank_of_class {p : Char → Bool}
    (visible : ∀ code ∈ blankCodes, p (Char.ofNat code) = false) {c : Char} (member : p c = true) :
    isBlank c = false := by
  cases blank : isBlank c with
  | false => rfl
  | true =>
      have := visible c.toNat (toNat_mem_blankCodes blank)
      rw [Char.ofNat_toNat, member] at this
      cases this

theorem isBlank_of_isAlphabetic {c : Char} (alphabetic : isAlphabetic c = true) :
    isBlank c = false :=
  isBlank_of_class (by decide +kernel) alphabetic

theorem isBlank_of_isNameChar {c : Char} (name : isNameChar c = true) : isBlank c = false := by
  simp only [isNameChar, Bool.or_eq_true, beq_iff_eq] at name
  rcases name with ((alphabetic | numeric) | rfl) | rfl
  · exact isBlank_of_isAlphabetic alphabetic
  · exact @isBlank_of_class isNumeric (by decide +kernel) c numeric
  · decide
  · decide

theorem isBlank_of_isWordChar {c : Char} (word : isWordChar c = true) : isBlank c = false := by
  simp only [isWordChar, Bool.and_eq_true, Bool.or_eq_true] at word
  rcases word.1 with (((alphabetic | mark) | digit) | connector) | joiner
  · exact isBlank_of_isAlphabetic alphabetic
  · exact @isBlank_of_class isMark (by decide +kernel) c mark
  · exact @isBlank_of_class isDecimalDigit (by decide +kernel) c digit
  · exact @isBlank_of_class isConnector (by decide +kernel) c connector
  · exact @isBlank_of_class isJoinControl (by decide +kernel) c joiner

theorem isBlank_of_isKeywordChar {c : Char} (keyword : isKeywordChar c = true) :
    isBlank c = false :=
  isBlank_of_class (by decide +kernel) keyword

theorem isAsciiBlank_of_isBlank {c : Char} (visible : isBlank c = false) :
    isAsciiBlank c = false := by
  cases blank : isAsciiBlank c with
  | false => rfl
  | true =>
      simp only [isAsciiBlank, Bool.or_eq_true, beq_iff_eq] at blank
      rcases blank with (((rfl | rfl) | rfl) | rfl) | rfl <;> cases visible

theorem isNameChar_of_isName {name : List Char} (isName : Text.isName name = true) :
    ∀ c ∈ name, isNameChar c = true := by
  simp only [Text.isName, Bool.and_eq_true, List.all_eq_true] at isName
  exact isName.2

theorem ne_nil_of_isName {name : List Char} (isName : Text.isName name = true) : name ≠ [] := by
  rintro rfl
  cases isName

/-- A character that is no name character does not occur in a name. -/
theorem ne_of_isNameChar {c d : Char} (name : isNameChar c = true) (other : isNameChar d = false) :
    c ≠ d := by
  rintro rfl
  rw [name] at other
  cases other

/-! ## Separators and ends -/

theorem beq_eq_false_of_notMem {c : Char} {text : List Char} (absent : c ∉ text) :
    ∀ d ∈ text, (d == c) = false := by
  intro d member
  rw [beq_eq_false_iff_ne]
  rintro rfl
  exact absent member

theorem cut?_append {p : Char → Bool} {before after : List Char} {c : Char}
    (absent : ∀ d ∈ before, p d = false) (found : p c = true) :
    cut? p (before ++ c :: after) = some (before, after) := by
  have all : ∀ d ∈ before, (!p d) = true := by simpa using absent
  have head : ∀ d ∈ (c :: after).head?, (!p d) = false := by simpa using found
  rw [cut?, dropWhile_append_of_head? all head, takeWhile_append_of_head? all head]

theorem cut?_eq_none {p : Char → Bool} {text : List Char} (absent : ∀ c ∈ text, p c = false) :
    cut? p text = none := by
  have all : ∀ c ∈ text, (!p c) = true := by simpa using absent
  have rest : text.dropWhile (fun c => !p c) = [] := by
    simpa using @dropWhile_append_of_head? _ _ text [] all (by simp)
  rw [cut?, rest]

theorem cut?_eq_some {p : Char → Bool} {text before after : List Char}
    (h : cut? p text = some (before, after)) : ∃ c, p c = true ∧ text = before ++ c :: after := by
  unfold cut? at h
  split at h
  · cases h
  · next c after rest =>
      cases h
      refine ⟨c, ?_, ?_⟩
      · simpa using head?_dropWhile (fun c => !p c) text c (by rw [rest]; rfl)
      · rw [← rest, List.takeWhile_append_dropWhile]

/-- A text is cut at the first separator. -/
theorem absent_of_cut? {p : Char → Bool} {text before after : List Char}
    (h : cut? p text = some (before, after)) : ∀ c ∈ before, p c = false := by
  unfold cut? at h
  split at h
  · cases h
  · cases h
    intro c member
    simpa using List.all_eq_true.mp List.all_takeWhile c member

theorem absent_of_uncut {p : Char → Bool} {text : List Char} (h : cut? p text = none) :
    ∀ c ∈ text, p c = false := by
  unfold cut? at h
  split at h
  · next nothing =>
      have whole := @List.takeWhile_append_dropWhile _ (fun c => !p c) text
      rw [nothing, List.append_nil] at whole
      intro c member
      rw [← whole] at member
      simpa using List.all_eq_true.mp List.all_takeWhile c member
  · cases h

theorem isPrefixOf?_append (opening text : List Char) :
    opening.isPrefixOf? (opening ++ text) = some text :=
  List.isPrefixOf?_eq_some_iff_append_eq.mpr rfl

theorem isSuffixOf?_append (ending text : List Char) :
    ending.isSuffixOf? (text ++ ending) = some text :=
  List.isSuffixOf?_eq_some_iff_append_eq.mpr rfl

theorem isSuffixOf?_eq_none {ending text : List Char} (h : ¬ending <:+ text) :
    ending.isSuffixOf? text = none := by
  cases dropped : ending.isSuffixOf? text with
  | none => rfl
  | some rest => exact (h ⟨rest, List.append_eq_of_isSuffixOf?_eq_some dropped⟩).elim

theorem beforeLast?_append {p : Char → Bool} {text : List Char} {c : Char} (found : p c = true) :
    beforeLast? p (text ++ [c]) = some text := by
  have stops : (c :: text.reverse).dropWhile (fun d => !p d) = c :: text.reverse :=
    List.dropWhile_cons_of_neg (by simp [found])
  rw [beforeLast?, List.reverse_append, List.reverse_singleton, List.singleton_append, stops]
  simp

/-! ## Joining -/

/-- The last part of one text and the first part of the next become one. -/
theorem intercalate_append_intercalate (separator : List Char) (before after : List (List Char))
    (a b : List Char) :
    separator.intercalate (before ++ [a]) ++ separator.intercalate (b :: after) =
      separator.intercalate (before ++ (a ++ b) :: after) := by
  induction before with
  | nil =>
      cases after with
      | nil => simp
      | cons part after => simp [List.intercalate_cons_cons]
  | cons part before ih =>
      have some : before ++ [a] ≠ [] := by simp
      have some' : before ++ (a ++ b) :: after ≠ [] := by simp
      rw [List.cons_append, List.cons_append, List.intercalate_cons_of_ne_nil some,
        List.intercalate_cons_of_ne_nil some', List.append_assoc, ih]

theorem head?_intercalate (separator : List Char) {part : List Char} (parts : List (List Char))
    (nonempty : part ≠ []) : (separator.intercalate (part :: parts)).head? = part.head? := by
  obtain ⟨c, rest, rfl⟩ := List.exists_cons_of_ne_nil nonempty
  rw [List.intercalate_cons_cons_left]
  rfl

theorem intercalate_ne_nil {separator part : List Char} {parts : List (List Char)}
    (nonempty : part ≠ []) : separator.intercalate (part :: parts) ≠ [] := by
  intro empty
  have head := head?_intercalate separator parts nonempty
  rw [empty, List.head?_nil] at head
  exact nonempty (List.head?_eq_none_iff.mp head.symm)

theorem trimmed_intercalate {separator : List Char} {parts : List (List Char)}
    (trimmed : ∀ part ∈ parts, part ≠ [] ∧ Trimmed part) :
    Trimmed (separator.intercalate parts) := by
  constructor
  · cases parts with
    | nil => simp
    | cons part parts =>
        have first := trimmed part List.mem_cons_self
        rw [head?_intercalate separator parts first.1]
        exact first.2.1
  · induction parts with
    | nil => simp
    | cons part parts ih =>
        cases parts with
        | nil =>
            rw [List.intercalate_singleton]
            exact (trimmed part List.mem_cons_self).2.2
        | cons next parts =>
            have later := ih fun other member => trimmed other (List.mem_cons_of_mem _ member)
            have nonempty := (trimmed next (by simp)).1
            rw [List.intercalate_cons_cons,
              List.getLast?_append_of_ne_nil _ (intercalate_ne_nil nonempty)]
            exact later

theorem mem_intercalate {c : Char} {separator : List Char} {parts : List (List Char)}
    (member : c ∈ separator.intercalate parts) : c ∈ separator ∨ ∃ part ∈ parts, c ∈ part := by
  induction parts with
  | nil => cases member
  | cons part parts ih =>
      cases parts with
      | nil => exact .inr ⟨part, List.mem_cons_self, by simpa using member⟩
      | cons next parts =>
          rw [List.intercalate_cons_cons, List.mem_append, List.mem_append] at member
          rcases member with (found | found) | found
          · exact .inr ⟨part, List.mem_cons_self, found⟩
          · exact .inl found
          · rcases ih found with found | ⟨other, among, found⟩
            · exact .inl found
            · exact .inr ⟨other, List.mem_cons_of_mem _ among, found⟩

theorem mem_intercalate_of_mem {separator part : List Char} {parts : List (List Char)} {c : Char}
    (among : part ∈ parts) (member : c ∈ part) : c ∈ separator.intercalate parts := by
  induction parts with
  | nil => cases among
  | cons first parts ih =>
      cases parts with
      | nil =>
          rw [List.mem_singleton.mp among] at member
          simpa using member
      | cons next parts =>
          rw [List.intercalate_cons_cons, List.mem_append, List.mem_append]
          rcases List.mem_cons.mp among with rfl | later
          · exact .inl (.inl member)
          · exact .inr (ih later)

/-- The parts that are not empty, with single spaces between them. -/
def phrase (parts : List (List Char)) : List Char :=
  [' '].intercalate (parts.filter fun part => !part.isEmpty)

theorem trimmed_phrase {parts : List (List Char)} (trimmed : ∀ part ∈ parts, Trimmed part) :
    Trimmed (phrase parts) := by
  apply trimmed_intercalate
  intro part member
  rw [List.mem_filter] at member
  exact ⟨by simpa using member.2, trimmed part member.1⟩

theorem not_mem_phrase {c : Char} {parts : List (List Char)} (notSpace : c ≠ ' ')
    (absent : ∀ part ∈ parts, c ∉ part) : c ∉ phrase parts := by
  intro member
  rcases mem_intercalate member with space | ⟨part, among, found⟩
  · exact notSpace (List.mem_singleton.mp space)
  · exact absent part (List.mem_filter.mp among).1 found

theorem phrase_singleton (part : List Char) : phrase [part] = part := by
  cases part <;> simp [phrase]

theorem phrase_cons {part : List Char} (parts : List (List Char)) (nonempty : part ≠ []) :
    phrase (part :: parts) =
      part ++ if phrase parts = [] then [] else ' ' :: phrase parts := by
  have kept : phrase (part :: parts) =
      [' '].intercalate (part :: parts.filter fun part => !part.isEmpty) := by
    rw [phrase, List.filter_cons_of_pos (by simpa using nonempty)]
  rw [kept, phrase]
  cases filtered : parts.filter fun part => !part.isEmpty with
  | nil => simp
  | cons next others =>
      have member : next ∈ parts.filter fun part => !part.isEmpty := by simp [filtered]
      have nextNonempty : next ≠ [] := by simpa using (List.mem_filter.mp member).2
      rw [if_neg (intercalate_ne_nil nextNonempty), List.intercalate_cons_cons, List.append_assoc]
      rfl

/-! ## Splitting -/

theorem not_mem_of_mem_splitOn {separator : Char} {text part : List Char}
    (member : part ∈ text.splitOn separator) : separator ∉ part := by
  induction text generalizing part with
  | nil =>
      rw [List.splitOn_nil, List.mem_singleton] at member
      simp [member]
  | cons c text ih =>
      rw [List.splitOn_cons_eq_if_modifyHead] at member
      split at member
      · rcases List.mem_cons.mp member with rfl | later
        · exact List.not_mem_nil
        · exact ih later
      · next different =>
          obtain ⟨first, others, split⟩ :=
            List.exists_cons_of_ne_nil (List.splitOn_ne_nil separator text)
          rw [split] at ih member
          rcases List.mem_cons.mp member with rfl | later
          · rw [List.mem_cons, not_or]
            exact ⟨fun same => different (by simp [same]), ih List.mem_cons_self⟩
          · exact ih (List.mem_cons_of_mem _ later)

theorem splitOn_append {separator : Char} {before after : List (List Char)} {a b : List Char}
    {text rest : List Char} (first : text.splitOn separator = before ++ [a])
    (second : rest.splitOn separator = b :: after) :
    List.splitOn separator (text ++ rest) = before ++ (a ++ b) :: after := by
  have absent : ∀ part ∈ before ++ (a ++ b) :: after, separator ∉ part := by
    have absentFirst : ∀ part ∈ before ++ [a], separator ∉ part := by
      rw [← first]
      exact fun part => not_mem_of_mem_splitOn
    have absentSecond : ∀ part ∈ b :: after, separator ∉ part := by
      rw [← second]
      exact fun part => not_mem_of_mem_splitOn
    simp only [List.mem_append, List.mem_cons, List.not_mem_nil, or_false] at *
    rintro part (among | rfl | among)
    · exact absentFirst part (.inl among)
    · rw [List.mem_append, not_or]
      exact ⟨absentFirst a (.inr rfl), absentSecond b (.inl rfl)⟩
    · exact absentSecond part (.inr among)
  calc (text ++ rest).splitOn separator
      = ([separator].intercalate (before ++ [a]) ++
          [separator].intercalate (b :: after)).splitOn separator := by
        rw [← first, ← second, List.intercalate_splitOn, List.intercalate_splitOn]
    _ = before ++ (a ++ b) :: after := by
        rw [intercalate_append_intercalate, List.splitOn_intercalate _ absent (by simp)]

/-! ## Lines -/

theorem linesAux_append {line text : List Char} (rest : List Char) (noBreak : '\n' ∉ text) :
    linesAux line (text ++ rest) = linesAux (text.reverse ++ line) rest := by
  induction text generalizing line with
  | nil => rfl
  | cons c text ih =>
      rw [List.mem_cons, not_or] at noBreak
      have stepped : linesAux line (c :: (text ++ rest)) = linesAux (c :: line) (text ++ rest) := by
        rw [linesAux.eq_def]
        exact if_neg (Ne.symm noBreak.1)
      rw [List.cons_append, stepped, ih noBreak.2]
      simp

theorem lines_append {line : List Char} (rest : List Char) (noBreak : '\n' ∉ line)
    (noReturn : line.getLast? ≠ some '\r') : lines (line ++ '\n' :: rest) = line :: lines rest := by
  have kept : ∀ before, line.reverse = '\r' :: before → False := by
    intro before reversed
    rw [← List.head?_reverse, reversed] at noReturn
    exact noReturn rfl
  rw [lines, linesAux_append _ noBreak, List.append_nil, linesAux, if_pos rfl, lines,
    List.reverse_reverse]
  exact kept

/-- The lines of lines that each end with a line feed. -/
theorem lines_flatMap {texts : List (List Char)} (rest : List Char)
    (isLine : ∀ line ∈ texts, '\n' ∉ line ∧ line.getLast? ≠ some '\r') :
    lines (texts.flatMap (· ++ ['\n']) ++ rest) = texts ++ lines rest := by
  induction texts with
  | nil => rfl
  | cons line texts ih =>
      have first := isLine line List.mem_cons_self
      have later := ih fun other member => isLine other (List.mem_cons_of_mem _ member)
      rw [List.flatMap_cons, List.append_assoc, List.append_assoc, List.singleton_append,
        lines_append _ first.1 first.2, later, List.cons_append]

end StyleDoc.Text
