import StyleDoc.Proofs.Finality
import StyleDoc.Proofs.Headers

/-!
# Rules of one class

The name of a class may hold escapes: a backslash and a character that stands for itself.  Reading
a statement does not know of them outside string literals, and takes the character after the
backslash as if it were not escaped.  So the statement of a rule goes on up to its body exactly if
no escaped character is a quote, the escaped brackets are closed, and the escaped braces and
semicolons stand inside them (`bracketStep`).
-/

namespace StyleDoc

/-! ## Names of classes -/

def isInterpolated (c : Char) : Bool := c == '$' || c == ' ' || Text.isNameChar c

theorem isHarmless_isInterpolated : IsHarmless isInterpolated := by
  unfold IsHarmless
  decide +kernel

/-- A part of the name of a class. -/
inductive ClassUnit
  | char (c : Char) (isName : Text.isNameChar c = true)
  | escape (c : Char) (noBreak : c ≠ '\n')
  | interpolation (inner : List Char) (inside : ∀ c ∈ inner, isInterpolated c = true)

namespace ClassUnit

def text : ClassUnit → List Char
  | char c _ => [c]
  | escape c _ => ['\\', c]
  | interpolation inner _ => '#' :: '{' :: (inner ++ ['}'])

def escaped : ClassUnit → List Char
  | escape c _ => [c]
  | _ => []

theorem escaped_cases (unit : ClassUnit) :
    unit.escaped = [] ∨ ∃ c, unit.text = ['\\', c] ∧ unit.escaped = [c] := by
  cases unit with
  | escape c => exact .inr ⟨c, rfl, rfl⟩
  | char | interpolation => exact .inl rfl

theorem balanced_text {unit : ClassUnit} (plain : unit.escaped = []) :
    Balanced isListed unit.text := by
  cases unit with
  | char c isName => exact .ofHarmless isHarmless_isNameChar (by simpa [text] using isName)
  | escape => cases plain
  | interpolation inner inside =>
      have within := Balanced.ofHarmless isHarmless_isInterpolated inside
      exact .interpolation (within.mono isEnclosed_of_isListed) .nil

theorem ordinary_of_mem {unit : ClassUnit} {c : Char} (plain : unit.escaped = [])
    (member : c ∈ unit.text) : Text.isQuote c = false ∧ c ≠ '\\' ∧ c ≠ '\n' := by
  have named {c : Char} (isName : Text.isNameChar c = true) :
      Text.isQuote c = false ∧ c ≠ '\\' ∧ c ≠ '\n' := by
    have differs (d : Char) (other : Text.isNameChar d = false) : c ≠ d :=
      Text.ne_of_isNameChar isName other
    refine ⟨?_, differs '\\' (by decide), differs '\n' (by decide)⟩
    simp [Text.isQuote, differs '"' (by decide), differs '\'' (by decide)]
  cases unit with
  | char d isName =>
      rw [text, List.mem_singleton] at member
      exact member ▸ named isName
  | escape => cases plain
  | interpolation inner inside =>
      simp only [text, List.mem_cons, List.mem_append, List.not_mem_nil, or_false] at member
      rcases member with rfl | rfl | member | rfl
      · decide
      · decide
      · have within := inside c member
        simp only [isInterpolated, Bool.or_eq_true, beq_iff_eq] at within
        rcases within with (rfl | rfl) | isName
        · decide
        · decide
        · exact named isName
      · decide

end ClassUnit

def unitsText (units : List ClassUnit) : List Char := units.flatMap ClassUnit.text

def unitsEscaped (units : List ClassUnit) : List Char := units.flatMap ClassUnit.escaped

/-- The name of a class: not empty, and not starting with an ASCII digit. -/
structure ClassText where
  units : List ClassUnit
  nonempty : units ≠ []
  noDigit : ∀ c ∈ (unitsText units).head?, c.isDigit = false

/-- The round and square brackets that are open after a character that is taken as if it were not
escaped, of `count` before it; none if a statement does not go on there, or not with brackets. -/
def bracketStep (count : Nat) (c : Char) : Option Nat :=
  if Text.isQuote c then none
  else if c = '(' ∨ c = '[' then some (count + 1)
  else if c = ')' ∨ c = ']' then (if count = 0 then none else some (count - 1))
  else if (c = '{' ∨ c = '}' ∨ c = ';') ∧ count = 0 then none
  else some count

namespace ClassText

def text (name : ClassText) : List Char := unitsText name.units

def escaped (name : ClassText) : List Char := unitsEscaped name.units

def rule (name : ClassText) : String := String.ofList ('.' :: name.text ++ [' ', '{', ' ', '}'])

end ClassText

/-! ## Cutting off the statement -/

def LeavesUnclosed (rest : List Char) : Prop :=
  ∀ quote read body left, Text.isQuote quote = true →
    closeQuoteAux quote read rest ≠ .ok (body, left)

theorem closeQuoteAux_ordinary {quote : Char} {run : List Char}
    (isQuote : Text.isQuote quote = true)
    (ordinary : ∀ c ∈ run, Text.isQuote c = false ∧ c ≠ '\\' ∧ c ≠ '\n') (read rest : List Char) :
    closeQuoteAux quote read (run ++ rest) = closeQuoteAux quote (run.reverse ++ read) rest := by
  induction run generalizing read with
  | nil => rfl
  | cons c run ih =>
      obtain ⟨⟨notQuote, noEscape, noBreak⟩, later⟩ := List.forall_mem_cons.mp ordinary
      have other : c ≠ quote := by
        rintro rfl
        rw [isQuote] at notQuote
        cases notQuote
      rw [List.cons_append, closeQuoteAux, if_neg noBreak, if_neg other, ih later]
      · simp
      · rintro _ _ rfl
        exact (noEscape rfl).elim

theorem LeavesUnclosed.units {units : List ClassUnit} {rest : List Char}
    (unclosed : LeavesUnclosed rest) : LeavesUnclosed (unitsText units ++ rest) := by
  induction units with
  | nil => exact unclosed
  | cons unit units ih =>
      intro quote read body left isQuote
      rw [unitsText, List.flatMap_cons, List.append_assoc]
      rcases unit.escaped_cases with plain | ⟨c, text, _⟩
      · rw [closeQuoteAux_ordinary isQuote fun c member => ClassUnit.ordinary_of_mem plain member]
        exact ih quote _ body left isQuote
      · rw [text]
        exact ih quote (c :: '\\' :: read) body left isQuote

/-- What follows a part of a name opens no comment and no interpolation with it. -/
theorem follows_units (units : List ClassUnit) {rest : List Char} (follows : Reading.Follows rest) :
    Reading.Follows (unitsText units ++ rest) := by
  cases units with
  | nil => exact follows
  | cons unit units =>
      cases unit with
      | char c isName =>
          have differs (d : Char) (other : Text.isNameChar d = false) : c ≠ d :=
            Text.ne_of_isNameChar isName other
          simp [Reading.Follows, unitsText, ClassUnit.text, differs '/' (by decide),
            differs '*' (by decide), differs '{' (by decide)]
      | escape c => simp [Reading.Follows, unitsText, ClassUnit.text]
      | interpolation inner => simp [Reading.Follows, unitsText, ClassUnit.text]

namespace Reading

def said (reading : Reading) : List Char := statementText reading.pieces.reverse

theorem said_push (reading : Reading) (piece : Piece) :
    (reading.push piece).said = reading.said ++ piece.text := by
  simp [said, push]

/-- Reading goes on behind a text of which it keeps every character. -/
structure Passes (reading next : Reading) (text rest : List Char) : Prop where
  said : next.said = reading.said ++ text
  interpolations : next.interpolations = reading.interpolations
  run : reading.run (text ++ rest) = next.run rest

/-- Reading ends before it has all of a text. -/
def Breaks (reading : Reading) (text rest : List Char) : Prop :=
  ∀ pieces left, reading.run (text ++ rest) = .ok (pieces, left) →
    (statementText pieces).length < reading.said.length + text.length

/-- Reading passes a text and leaves as many brackets open as are told, or ends in it. -/
def Leads (reading : Reading) (text rest : List Char) : Option Nat → Prop
  | some count => ∃ next, reading.Passes next text rest ∧ next.groups.length = count
  | none => reading.Breaks text rest

theorem Passes.trans {first second third : Reading} {text more rest : List Char}
    (passes : first.Passes second text (more ++ rest)) (later : second.Passes third more rest) :
    first.Passes third (text ++ more) rest := by
  refine ⟨?_, ?_, ?_⟩
  · rw [later.said, passes.said, List.append_assoc]
  · rw [later.interpolations, passes.interpolations]
  · rw [List.append_assoc, passes.run, later.run]

theorem Passes.breaks {first second : Reading} {text more rest : List Char}
    (passes : first.Passes second text (more ++ rest)) (breaks : second.Breaks more rest) :
    first.Breaks (text ++ more) rest := by
  intro pieces left read
  rw [List.append_assoc, passes.run] at read
  have short := breaks pieces left read
  rw [passes.said, List.length_append] at short
  rw [List.length_append]
  omega

theorem Breaks.append {reading : Reading} {text more rest : List Char}
    (breaks : reading.Breaks text (more ++ rest)) : reading.Breaks (text ++ more) rest := by
  intro pieces left read
  rw [List.append_assoc] at read
  have short := breaks pieces left read
  rw [List.length_append]
  omega

theorem Passes.leads {first second : Reading} {text more rest : List Char} {count : Option Nat}
    (passes : first.Passes second text (more ++ rest)) (later : second.Leads more rest count) :
    first.Leads (text ++ more) rest count := by
  cases count with
  | none => exact passes.breaks later
  | some count =>
      obtain ⟨third, further, brackets⟩ := later
      exact ⟨third, passes.trans further, brackets⟩

theorem breaks_of_error {reading : Reading} {text rest : List Char} {fault : Fault}
    (fails : reading.run (text ++ rest) = .error fault) : reading.Breaks text rest := by
  intro pieces left read
  rw [fails] at read
  cases read

theorem passes_balanced {reading : Reading} {text rest : List Char}
    (balanced : Balanced isListed text) (follows : Follows rest) :
    ∃ next, reading.Passes next text rest ∧ next.groups = reading.groups := by
  obtain ⟨pieces, _, said, goesOn⟩ := run_balanced balanced isEnclosed_of_isListed
  refine ⟨reading.pushAll pieces, ⟨?_, rfl, goesOn reading rest (fun _ => rfl) follows⟩, rfl⟩
  simp [Reading.said, pushAll, said]

theorem step_backslash (reading : Reading) (text : List Char) :
    reading.step '\\' text = .read (reading.push (.char '\\')) text := by
  simp [step, Text.isQuote]

theorem step_bare {reading : Reading} {c : Char} {text : List Char}
    (closed : reading.interpolations = []) (follows : Follows text)
    (notQuote : Text.isQuote c = false) (noOpener : ¬(c = '(' ∨ c = '['))
    (noCloser : ¬(c = ')' ∨ c = ']'))
    (goesOn : ¬((c = '{' ∨ c = '}' ∨ c = ';') ∧ reading.groups = [])) :
    reading.step c text = .read (reading.push (.char c)) text := by
  have noStop : ¬((c = '{' ∨ c = '}' ∨ c = ';') ∧ reading.isFlat = true) := by
    simpa [isFlat, closed] using goesOn
  rw [step, if_neg (by simp [notQuote]), if_neg fun h => follows.2.1 h.2,
    if_neg fun h => follows.1 h.2.1, if_neg fun h => follows.2.2 h.2,
    if_neg fun h => h.2 closed, if_neg noStop, if_neg noOpener, if_neg noCloser]

/-- After a backslash, the escaped character is read as if it were not escaped. -/
theorem leads_escape {reading : Reading} {c : Char} {rest : List Char}
    (closed : reading.interpolations = []) (follows : Follows rest)
    (unclosed : LeavesUnclosed rest) :
    reading.Leads ['\\', c] rest (bracketStep reading.groups.length c) := by
  have start : reading.run (['\\', c] ++ rest) = (reading.push (.char '\\')).run (c :: rest) :=
    run_of_step (reading.step_backslash (c :: rest))
  have passes {next : Reading} (stepped : (reading.push (.char '\\')).step c rest = .read next rest)
      (said : next.said = (reading.push (.char '\\')).said ++ [c])
      (still : next.interpolations = reading.interpolations) :
      reading.Passes next ['\\', c] rest := by
    refine ⟨?_, still, ?_⟩
    · rw [said, said_push]
      simp [Piece.text]
    · rw [start, run_of_step stepped]
  have fails {fault : Fault} (stepped : (reading.push (.char '\\')).step c rest = .fault fault) :
      reading.Breaks ['\\', c] rest := by
    refine @breaks_of_error reading _ rest fault ?_
    rw [start, run_of_fault stepped]
  unfold bracketStep
  split
  · next isQuote =>
      cases closes : closeQuote c rest with
      | ok found => exact (unclosed c [] found.1 found.2 isQuote closes).elim
      | error stop => exact fails (by rw [step, if_pos isQuote, closes])
  next notQuote =>
  split
  · next isOpener =>
      refine ⟨_, passes (step_openGroup isOpener) ?_ rfl, rfl⟩
      simp [said, openGroup, push, Piece.text]
  next noOpener =>
  split
  · next isCloser =>
      cases groups : reading.groups with
      | nil =>
          have stepped : (reading.push (.char '\\')).step c rest =
              .fault ⟨.unbalanced (if c = ')' then .round else .square),
                (reading.push (.char '\\')).width⟩ := by
            rcases isCloser with rfl | rfl
            · simp [step, Text.isQuote, push, groups]
            · simp [step, Text.isQuote, push, groups]
          exact fails stepped
      | cons group groups =>
          refine ⟨_, passes (step_closeGroup isCloser groups) ?_ rfl, by simp⟩
          simp [said, push, Piece.text]
  next noCloser =>
  split
  · next ends =>
      have flat : (reading.push (.char '\\')).isFlat = true := by
        have none := List.length_eq_zero_iff.mp ends.2
        simp [isFlat, push, none, closed]
      intro pieces left read
      rw [start, run_of_stop ends.1 flat] at read
      cases read
      change (reading.push (.char '\\')).said.length < _
      simp [said_push, Piece.text]
  · next goesOn =>
      have stepped := @step_bare (reading.push (.char '\\')) c rest closed follows
        (by simpa using notQuote) noOpener noCloser
        (by simpa [push, List.length_eq_zero_iff] using goesOn)
      exact ⟨_, passes stepped (said_push _ _) rfl, rfl⟩

/-- Reading the parts of a name leads to what their escaped characters say. -/
theorem leads_units (units : List ClassUnit) {reading : Reading} {rest : List Char}
    (closed : reading.interpolations = []) (follows : Follows rest)
    (unclosed : LeavesUnclosed rest) :
    reading.Leads (unitsText units) rest
      ((unitsEscaped units).foldlM bracketStep reading.groups.length) := by
  induction units generalizing reading with
  | nil => exact ⟨reading, ⟨by simp [unitsText], rfl, rfl⟩, rfl⟩
  | cons unit units ih =>
      have further := follows_units units follows
      rw [unitsText, unitsEscaped, List.flatMap_cons, List.flatMap_cons, List.foldlM_append]
      rcases unit.escaped_cases with plain | ⟨c, text, escaped⟩
      · obtain ⟨next, passes, same⟩ :=
          @passes_balanced reading _ _ (ClassUnit.balanced_text plain) further
        have later := ih (passes.interpolations.trans closed)
        rw [same] at later
        rw [plain]
        exact passes.leads later
      · have first := @leads_escape reading c _ closed further unclosed.units
        rw [text, escaped, List.foldlM_cons]
        cases step : bracketStep reading.groups.length c with
        | none =>
            rw [step] at first
            exact Breaks.append first
        | some count =>
            rw [step] at first
            obtain ⟨next, passes, rfl⟩ := first
            exact passes.leads (ih (passes.interpolations.trans closed))

theorem run_body_of_open {reading : Reading} (closed : reading.interpolations = [])
    (isOpen : reading.groups ≠ []) :
    ∃ fault, reading.run [' ', '{', ' ', '}'] = .error fault := by
  have brace (last : Reading) (c : Char) (text : List Char) (follows : Follows text)
      (isBrace : c = '{' ∨ c = '}') (closed : last.interpolations = [])
      (still : last.groups = reading.groups) :
      last.run (c :: text) = (last.push (.char c)).run text := by
    apply run_of_step
    rcases isBrace with rfl | rfl
    all_goals
      exact step_bare closed follows (by decide) (by decide) (by decide) (by simp [still, isOpen])
  obtain ⟨group, groups, isGroup⟩ := List.exists_cons_of_ne_nil isOpen
  refine ⟨⟨.unclosedGroup, group.offset⟩, ?_⟩
  rw [run_of_step (step_blank (by decide) _ _),
    brace (reading.push _) '{' _ (by simp [Follows]) (.inl rfl) closed rfl,
    run_of_step (step_blank (by decide) _ _),
    brace (((reading.push _).push _).push _) '}' _ (by simp [Follows]) (.inr rfl) closed rfl]
  simp [run, finish, push, isGroup, Except.map]

end Reading

namespace ClassText

variable (name : ClassText)

/-- What reading the rule leads to behind its dot. -/
theorem leads_name : (Reading.start.push (.char '.')).Leads name.text [' ', '{', ' ', '}']
    (name.escaped.foldlM bracketStep 0) := by
  have unclosed : LeavesUnclosed [' ', '{', ' ', '}'] := by
    intro quote read body left isQuote
    rcases Text.eq_of_isQuote isQuote with rfl | rfl <;> simp [closeQuoteAux]
  exact Reading.leads_units name.units rfl (by simp [Reading.Follows]) unclosed

theorem statementPieces_rule : statementPieces name.rule.toList =
    (Reading.start.push (.char '.')).run (name.text ++ [' ', '{', ' ', '}']) := by
  have follows : Reading.Follows (name.text ++ [' ', '{', ' ', '}']) :=
    follows_units name.units (by simp [Reading.Follows])
  rw [rule, String.toList_ofList, List.cons_append, statementPieces]
  exact Reading.run_of_step
    (Reading.step_bare rfl follows (by decide) (by decide) (by decide) (by decide))

/-- A name whose escaped characters close their brackets is read up to the body. -/
theorem exists_statementPieces (balanced : name.escaped.foldlM bracketStep 0 = some 0) :
    ∃ pieces, statementPieces name.rule.toList = .ok (pieces, ['{', ' ', '}']) ∧
      statementText pieces = '.' :: name.text ++ [' '] := by
  have leads := name.leads_name
  rw [balanced] at leads
  obtain ⟨next, passes, none⟩ := leads
  have noGroup := List.length_eq_zero_iff.mp none
  have flat : (next.push (.char ' ')).isFlat = true := by
    simp [Reading.isFlat, Reading.push, noGroup, passes.interpolations, Reading.start]
  refine ⟨(next.push (.char ' ')).pieces.reverse, ?_, ?_⟩
  · rw [statementPieces_rule, passes.run,
      Reading.run_of_step (Reading.step_blank (by decide) _ _), Reading.run_of_stop (.inl rfl) flat]
  · change (next.push (.char ' ')).said = _
    rw [Reading.said_push, passes.said]
    rfl

/-- Otherwise the statement ends before the name does, or not at all. -/
theorem length_statementText_of_unbalanced {pieces : List Piece} {left : List Char}
    (unbalanced : name.escaped.foldlM bracketStep 0 ≠ some 0)
    (read : statementPieces name.rule.toList = .ok (pieces, left)) :
    (statementText pieces).length < name.text.length + 1 := by
  have leads := name.leads_name
  rw [statementPieces_rule] at read
  cases count : name.escaped.foldlM bracketStep 0 with
  | none =>
      rw [count] at leads
      have short := leads pieces left read
      rwa [Nat.add_comm] at short
  | some count =>
      rw [count] at leads unbalanced
      obtain ⟨next, passes, rfl⟩ := leads
      have isOpen : next.groups ≠ [] := by
        rintro none
        exact unbalanced (by rw [none]; rfl)
      obtain ⟨fault, fails⟩ := Reading.run_body_of_open passes.interpolations isOpen
      rw [passes.run, fails] at read
      cases read

end ClassText

end StyleDoc
