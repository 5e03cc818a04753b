import StyleDoc.Proofs.WellFormed

/-!
# The first class of a selector

A dot of a selector starts a class if nothing is open in front of it and a class name follows it.
The search for the first class finds the first of these dots, and finds nothing only if there is
none.
-/

namespace StyleDoc

/-! ## Class names -/

theorem leadingClass_leadingClass (text : List Char) :
    leadingClass (leadingClass text) = leadingClass text := by
  fun_induction leadingClass text with
  | case1 => rw [leadingClass]
  | case2 c text ih => rw [leadingClass, ih]
  | case3 text inner rest found shorter ih =>
      have absent : '}' ∉ inner := by
        intro member
        cases Text.absent_of_cut? found '}' member
      rw [List.cons_append, List.cons_append, leadingClass_interpolation absent, ih]
  | case4 => rw [leadingClass]
  | case5 c text _ _ isName ih => rw [leadingClass_cons isName, ih]
  | case6 => rw [leadingClass]

theorem isClassName_iff {name : List Char} :
    isClassName name = true ↔ name ≠ [] ∧ ∀ c ∈ name.head?, c.isDigit = false := by
  cases name with
  | nil => simp [isClassName]
  | cons c name => simp [isClassName]

/-! ## Candidates -/

namespace Nesting

/-- What is open after one more character of a selector.  In contrast to a list, a backslash takes
the next character with it outside of string literals, too. -/
def stepInSelector (nesting : Nesting) (c : Char) : Nesting :=
  if nesting.escaped then { nesting with escaped := false }
  else if c = '\\' then { nesting with escaped := true }
  else nesting.step c

end Nesting

/-- A class and its place in a selector that is read with `nesting` open: a dot in front of which
nothing is open, and behind it the name and nothing more that could belong to the name. -/
structure IsClassAt (nesting : Nesting) (selector before name after : List Char) : Prop where
  split : selector = before ++ '.' :: (name ++ after)
  top : before.foldl Nesting.stepInSelector nesting = ⟨0, none, false⟩
  nonempty : name ≠ []
  noDigit : ∀ c ∈ name.head?, c.isDigit = false
  whole : leadingClass (name ++ after) = name

/-- The result of a search: the class with the fewest characters in front of it, or none if there is
no class. -/
def IsFirstClass (nesting : Nesting) (selector : List Char) : Option (List Char) → Prop
  | some name => ∃ before after, IsClassAt nesting selector before name after ∧
      ∀ before' name' after', IsClassAt nesting selector before' name' after' →
        before.length ≤ before'.length
  | none => ∀ before name after, ¬IsClassAt nesting selector before name after

namespace IsClassAt

theorem cons_cases {nesting : Nesting} {c : Char} {text before name after : List Char}
    (here : IsClassAt nesting (c :: text) before name after) :
    (before = [] ∧ c = '.' ∧ nesting = .start ∧ isClassName (leadingClass text) = true) ∨
      ∃ later, before = c :: later ∧
        IsClassAt (nesting.stepInSelector c) text later name after := by
  cases before with
  | nil =>
      obtain ⟨rfl, rfl⟩ := List.cons.inj here.split
      refine .inl ⟨rfl, rfl, here.top, ?_⟩
      rw [here.whole]
      exact isClassName_iff.mpr ⟨here.nonempty, here.noDigit⟩
  | cons d later =>
      obtain ⟨rfl, split⟩ := List.cons.inj here.split
      exact .inr ⟨later, rfl, split, here.top, here.nonempty, here.noDigit, here.whole⟩

theorem cons {nesting : Nesting} {c : Char} {text before name after : List Char}
    (later : IsClassAt (nesting.stepInSelector c) text before name after) :
    IsClassAt nesting (c :: text) (c :: before) name after :=
  ⟨by rw [later.split, List.cons_append], later.top, later.nonempty, later.noDigit, later.whole⟩

theorem name_unique {nesting : Nesting} {selector before name after : List Char}
    {before' name' after' : List Char} (first : IsClassAt nesting selector before name after)
    (second : IsClassAt nesting selector before' name' after')
    (same : before.length = before'.length) : name = name' := by
  have split := first.split.symm.trans second.split
  obtain ⟨_, rest⟩ := List.append_inj split same
  rw [← first.whole, ← second.whole, (List.cons.inj rest).2]

end IsClassAt

namespace IsFirstClass

theorem nil (nesting : Nesting) : IsFirstClass nesting [] none := by
  intro before name after here
  have split := here.split
  simp at split

theorem cons {nesting : Nesting} {c : Char} {text : List Char} {result : Option (List Char)}
    (notHere : ¬(c = '.' ∧ nesting = .start ∧ isClassName (leadingClass text) = true))
    (later : IsFirstClass (nesting.stepInSelector c) text result) :
    IsFirstClass nesting (c :: text) result := by
  cases result with
  | none =>
      intro before name after here
      rcases here.cons_cases with ⟨_, starts⟩ | ⟨rest, _, there⟩
      · exact notHere starts
      · exact later rest name after there
  | some name =>
      obtain ⟨before, after, there, first⟩ := later
      refine ⟨c :: before, after, there.cons, ?_⟩
      intro before' name' after' here
      rcases here.cons_cases with ⟨_, starts⟩ | ⟨rest, rfl, there'⟩
      · exact (notHere starts).elim
      · have shorter := first rest name' after' there'
        simp only [List.length_cons]
        omega

theorem dot {text : List Char} (isName : isClassName (leadingClass text) = true) :
    IsFirstClass .start ('.' :: text) (some (leadingClass text)) := by
  obtain ⟨after, whole⟩ := leadingClass_isPrefix text
  obtain ⟨nonempty, noDigit⟩ := isClassName_iff.mp isName
  refine ⟨[], after, ⟨?_, rfl, nonempty, noDigit, ?_⟩, ?_⟩
  · rw [whole]
    rfl
  · rw [whole]
  · intro before' name' after' _
    exact Nat.zero_le _

theorem unique {nesting : Nesting} {selector : List Char} {result result' : Option (List Char)}
    (first : IsFirstClass nesting selector result)
    (second : IsFirstClass nesting selector result') : result = result' := by
  cases result with
  | none =>
      cases result' with
      | none => rfl
      | some name' =>
          obtain ⟨before', after', there, _⟩ := second
          exact (first before' name' after' there).elim
  | some name =>
      obtain ⟨before, after, here, shortest⟩ := first
      cases result' with
      | none => exact (second before name after here).elim
      | some name' =>
          obtain ⟨before', after', there, shortest'⟩ := second
          have same := Nat.le_antisymm (shortest before' name' after' there)
            (shortest' before name after here)
          rw [here.name_unique there same]

end IsFirstClass

/-- A character that is neither escaped nor a backslash counts as in a list. -/
theorem IsFirstClass.unescaped {depth : Nat} {quote : Option Char} {next : Nesting} {c : Char}
    {text : List Char} {result : Option (List Char)} (other : c ≠ '\\')
    (notHere : ¬(c = '.' ∧ depth = 0 ∧ quote = none ∧ isClassName (leadingClass text) = true))
    (step : (⟨depth, quote, false⟩ : Nesting).step c = next)
    (later : IsFirstClass next text result) :
    IsFirstClass ⟨depth, quote, false⟩ (c :: text) result := by
  apply cons
  · rintro ⟨isDot, isStart, isName⟩
    cases isStart
    exact notHere ⟨isDot, rfl, rfl, isName⟩
  · have same : (⟨depth, quote, false⟩ : Nesting).stepInSelector c = next := by
      simp [Nesting.stepInSelector, other, step]
    rw [same]
    exact later

theorem isFirstClass_firstClassFrom (depth : Nat) (quote : Option Char) (text : List Char) :
    IsFirstClass ⟨depth, quote, false⟩ text (firstClassFrom depth quote text) := by
  have notBackslash {c : Char} {text : List Char} (alone : c = '\\' → text = [] → False)
      (escaping : ∀ d rest, c = '\\' → text = d :: rest → False) : c ≠ '\\' := by
    intro isBackslash
    cases text with
    | nil => exact alone isBackslash rfl
    | cons d rest => exact escaping d rest isBackslash rfl
  fun_induction firstClassFrom depth quote text with
  | case1 depth quote => exact .nil _
  | case2 depth quote => exact .cons (by simp) (.nil _)
  | case3 depth quote c text ih =>
      have escaped : (⟨depth, quote, true⟩ : Nesting) ≠ .start := by simp [Nesting.start]
      exact .cons (by simp) (.cons (fun here => escaped here.2.1) ih)
  | case4 depth c text alone escaping quote ih =>
      have other := notBackslash alone escaping
      refine .unescaped other (by simp) ?_ ih
      by_cases closes : c = quote
      · subst closes
        simp [Nesting.step, other]
      · simp [Nesting.step, other, closes]
  | case5 depth c text alone escaping isQuote ih =>
      have notDot : c ≠ '.' := by
        rintro rfl
        cases isQuote
      exact .unescaped (notBackslash alone escaping) (by simp [notDot])
        (by simp [Nesting.step, isQuote]) ih
  | case6 depth c text alone escaping notQuote opens ih =>
      have notDot : c ≠ '.' := by rcases opens with rfl | rfl | rfl <;> decide
      exact .unescaped (notBackslash alone escaping) (by simp [notDot])
        (by simp [Nesting.step, notQuote, opens]) ih
  | case7 depth c text alone escaping notQuote notOpens closes ih =>
      have notDot : c ≠ '.' := by rcases closes with rfl | rfl | rfl <;> decide
      exact .unescaped (notBackslash alone escaping) (by simp [notDot])
        (by simp [Nesting.step, notQuote, notOpens, closes]) ih
  | case8 depth c text alone escaping notQuote notOpens notCloses here =>
      obtain ⟨rfl, rfl, isName⟩ := here
      exact .dot isName
  | case9 depth c text alone escaping notQuote notOpens notCloses notHere ih =>
      refine .unescaped (notBackslash alone escaping) ?_ ?_ ih
      · rintro ⟨isDot, flat, _, isName⟩
        exact notHere ⟨isDot, flat, isName⟩
      · simp [Nesting.step, notQuote, notOpens, notCloses]

theorem firstClass_eq_iff (selector : List Char) (result : Option (List Char)) :
    firstClass selector = result ↔ IsFirstClass .start selector result := by
  have searched : IsFirstClass .start selector (firstClass selector) :=
    isFirstClass_firstClassFrom 0 none selector
  constructor
  · rintro rfl
    exact searched
  · exact searched.unique

/-! ## The statement -/

/-- The first class of a selector is the one with the fewest characters in front of it, of all the
places where nothing is open and a class name follows a dot; without such a place there is none.
A class identifier is a beginning of its text, up to a character boundary, and is its own class
identifier. -/
theorem firstClass_is_first (selector : List Char) :
    (∀ name, firstClass selector = some name ↔
      ∃ before after, IsClassAt .start selector before name after ∧
        ∀ before' name' after', IsClassAt .start selector before' name' after' →
          before.length ≤ before'.length) ∧
    (firstClass selector = none ↔
      ∀ before name after, ¬IsClassAt .start selector before name after) ∧
    ∀ text, leadingClass text <+: text ∧
      Text.IsBoundary text (Text.byteSize (leadingClass text)) ∧
      leadingClass (leadingClass text) = leadingClass text := by
  refine ⟨?_, firstClass_eq_iff selector none, ?_⟩
  · intro name
    exact firstClass_eq_iff selector (some name)
  · intro text
    obtain ⟨rest, whole⟩ := leadingClass_isPrefix text
    refine ⟨⟨rest, whole⟩, ?_, leadingClass_leadingClass text⟩
    exact ⟨leadingClass text, rest, whole.symm, rfl⟩

-- The dots in the literal, in the escape, behind the bracket and in front of the digit are passed.
example : firstClass "[x=\".a\"] \\.b:not(.c) .5 é.d#\x7b.e\x7d\\.f .g".toList =
    some "d#\x7b.e\x7d\\.f".toList := by decide +kernel

end StyleDoc
