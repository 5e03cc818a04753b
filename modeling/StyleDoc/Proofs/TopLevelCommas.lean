import Mathlib.Data.List.Induction
import StyleDoc.Proofs.Texts
import StyleDoc.Syntax.Selector

/-!
# Commas that separate

A comma separates the parts of a list if no string literal and no bracket is open in front of it.
What is open there is said by how the text in front of the comma is made up, and the scan for
separating commas agrees with that.
-/

namespace StyleDoc

/-- What a text leaves open: perhaps a string literal, of which the quote is given, and a number of
brackets.  A closing bracket without an opening one does not count, and brackets in string literals
do not count. -/
inductive LeavesOpen : List Char → Option Char → Nat → Prop
  | nil : LeavesOpen [] none 0
  | char {text : List Char} {depth : Nat} {c : Char} (before : LeavesOpen text none depth)
      (other : c ∉ ['"', '\'', '(', '[', '{', ')', ']', '}']) : LeavesOpen (text ++ [c]) none depth
  | opening {text : List Char} {depth : Nat} {c : Char} (before : LeavesOpen text none depth)
      (isOpening : c ∈ ['(', '[', '{']) : LeavesOpen (text ++ [c]) none (depth + 1)
  | closing {text : List Char} {depth : Nat} {c : Char} (before : LeavesOpen text none depth)
      (isClosing : c ∈ [')', ']', '}']) : LeavesOpen (text ++ [c]) none (depth - 1)
  | quote {text : List Char} {depth : Nat} {c : Char} (before : LeavesOpen text none depth)
      (isQuote : c ∈ ['"', '\'']) : LeavesOpen (text ++ [c]) (some c) depth
  | quoted {text : List Char} {depth : Nat} {c quote : Char}
      (before : LeavesOpen text (some quote) depth) (other : c ≠ '\\' ∧ c ≠ quote) :
      LeavesOpen (text ++ [c]) (some quote) depth
  | escaped {text : List Char} {depth : Nat} {quote : Char} (c : Char)
      (before : LeavesOpen text (some quote) depth) :
      LeavesOpen (text ++ ['\\', c]) (some quote) depth
  | unquote {text : List Char} {depth : Nat} {quote : Char}
      (before : LeavesOpen text (some quote) depth) : LeavesOpen (text ++ [quote]) none depth

/-! ## Scanning -/

namespace Nesting

def after (text : List Char) : Nesting := text.foldl step start

theorem after_append (text : List Char) (c : Char) : after (text ++ [c]) = (after text).step c := by
  rw [after, List.foldl_append]
  rfl

end Nesting

theorem LeavesOpen.ne_backslash {text : List Char} {depth : Nat} {quote : Char}
    (leaves : LeavesOpen text (some quote) depth) : quote ≠ '\\' := by
  generalize open_eq : some quote = isOpen at leaves
  induction leaves with
  | nil | char | opening | closing | unquote => cases open_eq
  | quote _ isQuote =>
      cases open_eq
      rintro rfl
      revert isQuote
      decide
  | quoted _ _ ih => exact ih open_eq
  | escaped _ _ ih => exact ih open_eq

theorem LeavesOpen.after_eq {text : List Char} {isOpen : Option Char} {depth : Nat}
    (leaves : LeavesOpen text isOpen depth) : Nesting.after text = ⟨depth, isOpen, false⟩ := by
  induction leaves with
  | nil => rfl
  | @char text depth c _ other ih =>
      simp only [List.mem_cons, List.not_mem_nil, or_false, not_or] at other
      rw [Nesting.after_append, ih]
      simp [Nesting.step, Text.isQuote, other]
  | @opening text depth c _ isOpening ih =>
      simp only [List.mem_cons, List.not_mem_nil, or_false] at isOpening
      rw [Nesting.after_append, ih]
      rcases isOpening with rfl | rfl | rfl <;> rfl
  | @closing text depth c _ isClosing ih =>
      simp only [List.mem_cons, List.not_mem_nil, or_false] at isClosing
      rw [Nesting.after_append, ih]
      rcases isClosing with rfl | rfl | rfl <;> rfl
  | @quote text depth c _ isQuote ih =>
      simp only [List.mem_cons, List.not_mem_nil, or_false] at isQuote
      rw [Nesting.after_append, ih]
      rcases isQuote with rfl | rfl <;> rfl
  | @quoted text depth c quote _ other ih =>
      rw [Nesting.after_append, ih]
      simp [Nesting.step, other]
  | @escaped text depth quote c _ ih =>
      rw [← List.singleton_append, ← List.append_assoc, Nesting.after_append, Nesting.after_append,
        ih]
      simp [Nesting.step]
  | @unquote text depth quote before ih =>
      rw [Nesting.after_append, ih]
      simp [Nesting.step, before.ne_backslash]

namespace Nesting

/-- The scan knows what a text leaves open or, after a backslash in a literal, what the text in
front of the backslash leaves open. -/
def Knows (nesting : Nesting) (text : List Char) : Prop :=
  (nesting.escaped = false ∧ LeavesOpen text nesting.quote nesting.depth) ∨
    ∃ before quote, text = before ++ ['\\'] ∧ nesting = ⟨nesting.depth, some quote, true⟩ ∧
      LeavesOpen before (some quote) nesting.depth

theorem Knows.step_unquoted {depth : Nat} {text : List Char}
    (leaves : LeavesOpen text none depth) (c : Char) :
    ((⟨depth, none, false⟩ : Nesting).step c).Knows (text ++ [c]) := by
  unfold Nesting.step
  simp only
  split
  · next isQuote => exact .inl ⟨rfl, .quote leaves (by simpa [Text.isQuote] using isQuote)⟩
  · next notQuote =>
      split
      · next isOpening => exact .inl ⟨rfl, .opening leaves (by simpa using isOpening)⟩
      · next notOpening =>
          split
          · next isClosing => exact .inl ⟨rfl, .closing leaves (by simpa using isClosing)⟩
          · next notClosing =>
              refine .inl ⟨rfl, .char leaves ?_⟩
              simp_all [Text.isQuote]

theorem Knows.step_quoted {depth : Nat} {text : List Char} {quote : Char}
    (leaves : LeavesOpen text (some quote) depth) (c : Char) :
    ((⟨depth, some quote, false⟩ : Nesting).step c).Knows (text ++ [c]) := by
  unfold Nesting.step
  simp only [Bool.false_eq_true, if_false]
  split
  · next isBackslash => exact .inr ⟨text, quote, by rw [isBackslash], rfl, leaves⟩
  · next notBackslash =>
      split
      · next closes =>
          subst closes
          exact .inl ⟨rfl, .unquote leaves⟩
      · next other => exact .inl ⟨rfl, .quoted leaves ⟨notBackslash, other⟩⟩

theorem Knows.step {nesting : Nesting} {text : List Char} (knows : nesting.Knows text) (c : Char) :
    (nesting.step c).Knows (text ++ [c]) := by
  obtain ⟨depth, isOpen, escaped⟩ := nesting
  rcases knows with ⟨unescaped, leaves⟩ | ⟨before, quote, rfl, same, leaves⟩
  · cases unescaped
    cases isOpen with
    | none => exact step_unquoted leaves c
    | some quote => exact step_quoted leaves c
  · cases same
    refine .inl ⟨rfl, ?_⟩
    rw [List.append_assoc]
    exact .escaped c leaves

theorem knows_after (text : List Char) : (after text).Knows text := by
  induction text using List.reverseRecOn with
  | nil => exact .inl ⟨rfl, .nil⟩
  | append_singleton text c ih =>
      rw [after_append]
      exact ih.step c

theorem isTop_after_iff (text : List Char) :
    (after text).isTop = true ↔ LeavesOpen text none 0 := by
  constructor
  · intro top
    simp only [isTop, Bool.and_eq_true, Option.isNone_iff_eq_none, beq_iff_eq] at top
    rcases knows_after text with ⟨_, leaves⟩ | ⟨_, quote, _, same, _⟩
    · rwa [top.1, top.2] at leaves
    · rw [same] at top
      cases top.1
  · intro leaves
    rw [leaves.after_eq]
    rfl

end Nesting

/-! ## Parts -/

/-- One of the commas that join the parts stands behind the given text. -/
def JoinedAfter (parts : List (List Char)) (before : List Char) : Prop :=
  ∃ first rest, parts = first ++ rest ∧ first ≠ [] ∧ rest ≠ [] ∧ [','].intercalate first = before

/-- The parts of a text between the commas in front of which it leaves nothing open. -/
structure IsCutAtCommas (text : List Char) (parts : List (List Char)) : Prop where
  joined : [','].intercalate parts = text
  separates : ∀ before after, text = before ++ ',' :: after →
    (LeavesOpen before none 0 ↔ JoinedAfter parts before)

/-- The parts of a text of which `done` is the start of the first one, and holds no comma that
separates. -/
structure IsCutFrom (done text : List Char) (parts : List (List Char)) : Prop where
  starts : ∃ more others, parts = (done ++ more) :: others
  joined : [','].intercalate parts = done ++ text
  separates : ∀ before after, text = before ++ ',' :: after →
    (LeavesOpen (done ++ before) none 0 ↔ JoinedAfter parts (done ++ before))

namespace IsCutFrom

theorem ne_nil {done text : List Char} {parts : List (List Char)}
    (cut : IsCutFrom done text parts) : parts ≠ [] := by
  obtain ⟨more, others, rfl⟩ := cut.starts
  simp

theorem last (done : List Char) : IsCutFrom done [] [done] := by
  refine ⟨⟨[], [], by simp⟩, by simp, ?_⟩
  intro before after split
  simp at split

/-- Behind a comma that separates everything starts anew. -/
theorem leavesOpen_comma {done : List Char} (top : LeavesOpen done none 0) (before : List Char) :
    LeavesOpen (done ++ ',' :: before) none 0 ↔ LeavesOpen before none 0 := by
  have comma : Nesting.start.step ',' = .start := by decide
  have same : Nesting.after (done ++ ',' :: before) = Nesting.after before := by
    have reached : done.foldl Nesting.step .start = .start := top.after_eq
    rw [Nesting.after, List.foldl_append, reached, List.foldl_cons, comma]
    rfl
  rw [← Nesting.isTop_after_iff, same, Nesting.isTop_after_iff]

theorem comma {done text : List Char} {parts : List (List Char)} (top : LeavesOpen done none 0)
    (cut : IsCutFrom [] text parts) : IsCutFrom done (',' :: text) (done :: parts) := by
  refine ⟨⟨[], parts, by simp⟩, ?_, ?_⟩
  · rw [List.intercalate_cons_of_ne_nil cut.ne_nil, cut.joined]
    simp
  · intro before after split
    cases before with
    | nil =>
        rw [List.append_nil]
        exact iff_of_true top ⟨[done], parts, rfl, by simp, cut.ne_nil, by simp⟩
    | cons d before =>
        obtain ⟨rfl, later⟩ := List.cons.inj split
        rw [leavesOpen_comma top, ← List.nil_append before, cut.separates before after later,
          List.nil_append]
        constructor
        · rintro ⟨first, rest, rfl, someFirst, someRest, rfl⟩
          exact ⟨done :: first, rest, rfl, by simp, someRest, by
            rw [List.intercalate_cons_of_ne_nil someFirst]
            simp⟩
        · rintro ⟨first, rest, whole, someFirst, someRest, joined⟩
          cases first with
          | nil => exact (someFirst rfl).elim
          | cons part first =>
              obtain ⟨rfl, rfl⟩ := List.cons.inj whole
              cases first with
              | nil => simp at joined
              | cons next first =>
                  rw [List.intercalate_cons_of_ne_nil (by simp)] at joined
                  exact ⟨next :: first, rest, rfl, by simp, someRest, by simpa using joined⟩

/-- A character that does not separate belongs to the part. -/
theorem char {done text : List Char} {parts : List (List Char)} {c : Char}
    (cut : IsCutFrom (done ++ [c]) text parts) (inside : ¬(c = ',' ∧ LeavesOpen done none 0)) :
    IsCutFrom done (c :: text) parts := by
  obtain ⟨more, others, whole⟩ := cut.starts
  refine ⟨⟨c :: more, others, by simpa using whole⟩, by simpa using cut.joined, ?_⟩
  intro before after split
  cases before with
  | nil =>
      obtain ⟨rfl, _⟩ := List.cons.inj split
      rw [List.append_nil]
      refine iff_of_false (fun top => inside ⟨rfl, top⟩) ?_
      rintro ⟨first, rest, split, someFirst, _, joined⟩
      obtain ⟨part, first, rfl⟩ := List.exists_cons_of_ne_nil someFirst
      rw [whole, List.cons_append, List.cons.injEq] at split
      obtain ⟨rfl, _⟩ := split
      have longer := congrArg List.length joined
      cases first with
      | nil =>
          simp at longer
      | cons next first =>
          rw [List.intercalate_cons_of_ne_nil (by simp)] at longer
          simp at longer
  | cons d before =>
      obtain ⟨rfl, later⟩ := List.cons.inj split
      simpa using cut.separates before after later

end IsCutFrom

/-- Behind a comma that separates, the scan goes on as it started, whatever the part in front of the
comma holds. -/
theorem commaPartsAux_comma {part : List Char} (top : LeavesOpen part.reverse none 0)
    (text : List Char) :
    commaPartsAux (Nesting.after part.reverse) part (',' :: text) =
      part.reverse :: commaParts text := by
  rw [commaPartsAux, if_pos ⟨rfl, (Nesting.isTop_after_iff _).mpr top⟩, top.after_eq]
  rfl

theorem commaPartsAux_char {part : List Char} {c : Char}
    (inside : ¬(c = ',' ∧ LeavesOpen part.reverse none 0)) (text : List Char) :
    commaPartsAux (Nesting.after part.reverse) part (c :: text) =
      commaPartsAux (Nesting.after (c :: part).reverse) (c :: part) text := by
  rw [← Nesting.isTop_after_iff] at inside
  rw [commaPartsAux, if_neg inside, List.reverse_cons, Nesting.after_append]

theorem isCutFrom_commaPartsAux (part text : List Char) :
    IsCutFrom part.reverse text (commaPartsAux (Nesting.after part.reverse) part text) := by
  induction text generalizing part with
  | nil => exact .last part.reverse
  | cons c text ih =>
      by_cases separates : c = ',' ∧ LeavesOpen part.reverse none 0
      · obtain ⟨rfl, top⟩ := separates
        rw [commaPartsAux_comma top]
        exact .comma top (ih [])
      · have grown := ih (c :: part)
        rw [commaPartsAux_char separates]
        rw [List.reverse_cons] at grown ⊢
        exact grown.char separates

theorem isCutAtCommas_commaParts (text : List Char) : IsCutAtCommas text (commaParts text) := by
  have cut := isCutFrom_commaPartsAux [] text
  exact ⟨cut.joined, cut.separates⟩

/-! ## Parts by themselves -/

theorem commaPartsAux_ne_nil (nesting : Nesting) (part text : List Char) :
    commaPartsAux nesting part text ≠ [] := by
  fun_induction commaPartsAux nesting part text with
  | case1 => simp
  | case2 => simp
  | case3 _ _ _ _ _ ih => exact ih

theorem commaPartsAux_eq_singleton_iff {nesting : Nesting} {part text : List Char} {c : Char} :
    commaPartsAux nesting part (c :: text) = [part.reverse ++ c :: text] ↔
      ¬(c = ',' ∧ nesting.isTop = true) ∧
        commaPartsAux (nesting.step c) (c :: part) text = [(c :: part).reverse ++ text] := by
  rw [commaPartsAux]
  split
  · next cut =>
      have later := commaPartsAux_ne_nil nesting [] text
      simp [cut, later]
  · next uncut => simp [uncut]

theorem commaPartsAux_append {nesting : Nesting} {part text : List Char} (rest : List Char)
    (whole : commaPartsAux nesting part text = [part.reverse ++ text]) :
    commaPartsAux nesting part (text ++ rest) =
      commaPartsAux (text.foldl Nesting.step nesting) (text.reverse ++ part) rest := by
  induction text generalizing nesting part with
  | nil => rfl
  | cons c text ih =>
      obtain ⟨uncut, later⟩ := commaPartsAux_eq_singleton_iff.mp whole
      rw [List.cons_append, commaPartsAux, if_neg uncut, ih later]
      simp

theorem commaParts_append {part : List Char} (rest : List Char)
    (whole : commaParts part.reverse = [part.reverse]) :
    commaParts (part.reverse ++ rest) = commaPartsAux (Nesting.after part.reverse) part rest := by
  have through := @commaPartsAux_append .start [] part.reverse rest whole
  rw [List.reverse_reverse, List.append_nil] at through
  exact through

/-- Parts that are joined by commas to a text, none of which is cut again by itself, and of which
each but the last one leaves nothing open. -/
structure IsTopLevelSplit (text : List Char) (parts : List (List Char)) : Prop where
  nonempty : parts ≠ []
  joined : [','].intercalate parts = text
  whole : ∀ part ∈ parts, commaParts part = [part]
  closed : ∀ part ∈ parts.dropLast, LeavesOpen part none 0

/-- A part that leaves nothing open is followed by the parts of what is behind its comma. -/
theorem commaParts_comma {part : List Char} (rest : List Char) (whole : commaParts part = [part])
    (closed : LeavesOpen part none 0) :
    commaParts (part ++ ',' :: rest) = part :: commaParts rest := by
  rw [← part.reverse_reverse] at whole closed ⊢
  rw [commaParts_append _ whole, commaPartsAux_comma closed]

namespace IsTopLevelSplit

theorem singleton {part : List Char} (whole : commaParts part = [part]) :
    IsTopLevelSplit part [part] :=
  ⟨by simp, by simp, by simpa using whole, by simp⟩

theorem cons {part text : List Char} {parts : List (List Char)}
    (whole : commaParts part = [part]) (closed : LeavesOpen part none 0)
    (later : IsTopLevelSplit text parts) :
    IsTopLevelSplit (part ++ ',' :: text) (part :: parts) := by
  refine ⟨by simp, ?_, ?_, ?_⟩
  · rw [List.intercalate_cons_of_ne_nil later.nonempty, later.joined]
    simp
  · rw [List.forall_mem_cons]
    exact ⟨whole, later.whole⟩
  · rw [List.dropLast_cons_of_ne_nil later.nonempty, List.forall_mem_cons]
    exact ⟨closed, later.closed⟩

/-- What follows the first of several parts is split by the others. -/
theorem tail {part text : List Char} {parts : List (List Char)}
    (split : IsTopLevelSplit text (part :: parts)) (more : parts ≠ []) :
    LeavesOpen part none 0 ∧
      ∃ rest, text = part ++ ',' :: rest ∧ IsTopLevelSplit rest parts := by
  have closed := split.closed
  rw [List.dropLast_cons_of_ne_nil more, List.forall_mem_cons] at closed
  refine ⟨closed.1, [','].intercalate parts, ?_, more, rfl, ?_, closed.2⟩
  · rw [← split.joined, List.intercalate_cons_of_ne_nil more]
    simp
  · exact fun other member => split.whole other (List.mem_cons_of_mem _ member)

/-- No comma is missed, and none is taken that does not separate. -/
theorem eq_commaParts {text : List Char} {parts : List (List Char)}
    (split : IsTopLevelSplit text parts) : parts = commaParts text := by
  induction parts generalizing text with
  | nil => exact (split.nonempty rfl).elim
  | cons part parts ih =>
      have whole := split.whole part List.mem_cons_self
      by_cases last : parts = []
      · subst last
        rw [← split.joined, List.intercalate_singleton]
        exact whole.symm
      · obtain ⟨closed, rest, rfl, later⟩ := split.tail last
        rw [commaParts_comma _ whole closed, ← ih later]

end IsTopLevelSplit

theorem isTopLevelSplit_commaPartsAux {part : List Char}
    (whole : commaParts part.reverse = [part.reverse]) (text : List Char) :
    IsTopLevelSplit (part.reverse ++ text)
      (commaPartsAux (Nesting.after part.reverse) part text) := by
  induction text generalizing part with
  | nil =>
      rw [List.append_nil]
      exact .singleton whole
  | cons c text ih =>
      by_cases separates : c = ',' ∧ LeavesOpen part.reverse none 0
      · obtain ⟨rfl, top⟩ := separates
        rw [commaPartsAux_comma top]
        exact .cons whole top (@ih [] rfl)
      · have grown : commaParts (c :: part).reverse = [(c :: part).reverse] := by
          rw [List.reverse_cons, commaParts_append _ whole, commaPartsAux_char separates]
          simp [commaPartsAux]
        have later := ih grown
        rw [commaPartsAux_char separates]
        rw [List.reverse_cons, List.append_assoc] at later
        rw [List.reverse_cons]
        exact later

/-- The parts of a text are the only ones, one at least, that are joined by commas to the text, are
not cut again by themselves, and leave nothing open but for the last one. -/
theorem commaParts_only_split (text : List Char) (parts : List (List Char)) :
    IsTopLevelSplit text parts ↔ parts = commaParts text := by
  constructor
  · exact IsTopLevelSplit.eq_commaParts
  · rintro rfl
    exact @isTopLevelSplit_commaPartsAux [] rfl text

-- A closing bracket without an opening one, an escaped quote, and a literal that is not closed.
example : commaParts "a),b\"\\\",\",\"c,(".toList =
    ["a)".toList, "b\"\\\",\"".toList, "\"c,(".toList] := by decide

end StyleDoc
