import StyleDoc.Proofs.ClassStatements
import StyleDoc.Proofs.TopLevelCommas
import StyleDoc.Proofs.WellFormed

/-!
# Classes with escapes

The search for the class of a selector takes a backslash and the character after it as one.  What
comes before that search does not: the statement is cut off, trimmed and split at its commas as if
the backslash were a character like any other.  So a class is found whole exactly if its escaped
characters do no harm there (`ClassText.Survives`).
-/

namespace StyleDoc

/-! ## Splitting at commas -/

theorem commaPartsAux_cases (nesting : Nesting) (part text : List Char) :
    commaPartsAux nesting part text = [part.reverse ++ text] ∨
      ∀ found ∈ commaPartsAux nesting part text, found.length < part.length + text.length := by
  fun_induction commaPartsAux nesting part text with
  | case1 nesting part => exact .inl (by simp)
  | case2 nesting part c text _ ih =>
      refine .inr (List.forall_mem_cons.mpr ⟨by simp, fun found member => ?_⟩)
      rcases ih with whole | shorter
      · rw [whole, List.mem_singleton] at member
        simp only [member, List.reverse_nil, List.nil_append, List.length_cons]
        omega
      · have short := shorter found member
        simp only [List.length_nil, List.length_cons] at short ⊢
        omega
  | case3 nesting part c text _ ih =>
      rcases ih with whole | shorter
      · exact .inl (by simpa using whole)
      · refine .inr fun found member => ?_
        have short := shorter found member
        simp only [List.length_cons] at short ⊢
        omega

theorem Nesting.exists_step {depth : Nat} {c : Char} (notQuote : Text.isQuote c = false) :
    ∃ depth', (⟨depth, none, false⟩ : Nesting).step c = ⟨depth', none, false⟩ := by
  unfold Nesting.step
  simp only [notQuote, Bool.false_eq_true, if_false]
  split
  · exact ⟨_, rfl⟩
  split
  · exact ⟨_, rfl⟩
  · exact ⟨_, rfl⟩

/-- The parts of a name are not cut exactly if its escaped characters by themselves are not. -/
theorem commaPartsAux_units_iff {units : List ClassUnit}
    (unquoted : ∀ c ∈ unitsEscaped units, Text.isQuote c = false) (depth : Nat)
    (part part' : List Char) :
    commaPartsAux ⟨depth, none, false⟩ part (unitsText units) = [part.reverse ++ unitsText units] ↔
      commaPartsAux ⟨depth, none, false⟩ part' (unitsEscaped units) =
        [part'.reverse ++ unitsEscaped units] := by
  induction units generalizing depth part part' with
  | nil => simp [unitsText, unitsEscaped, commaPartsAux]
  | cons unit units ih =>
      have text_eq : unitsText (unit :: units) = unit.text ++ unitsText units := rfl
      have escaped_eq : unitsEscaped (unit :: units) = unit.escaped ++ unitsEscaped units := rfl
      rw [escaped_eq, List.forall_mem_append] at unquoted
      rw [text_eq, escaped_eq]
      rcases unit.escaped_cases with plain | ⟨c, text, escaped⟩
      · have through := commaPartsAux_balanced (ClassUnit.balanced_text plain)
          isEnclosed_of_isListed depth (fun _ => rfl) part (unitsText units)
        rw [through, plain, List.nil_append,
          ← ih unquoted.2 depth (unit.text.reverse ++ part) part']
        simp
      · have notQuote : Text.isQuote c = false := unquoted.1 c (by simp [escaped])
        obtain ⟨depth', step⟩ := @Nesting.exists_step depth c notQuote
        have backslash : (⟨depth, none, false⟩ : Nesting).step '\\' = ⟨depth, none, false⟩ := by
          simp [Nesting.step, Text.isQuote]
        rw [text, escaped, List.cons_append, List.cons_append, List.cons_append, List.nil_append,
          commaPartsAux_eq_singleton_iff, backslash, commaPartsAux_eq_singleton_iff,
          commaPartsAux_eq_singleton_iff, step, ih unquoted.2 depth' _ (c :: part')]
        simp

/-! ## Finding the class -/

theorem leadingClass_units (units : List ClassUnit) :
    leadingClass (unitsText units) = unitsText units := by
  induction units with
  | nil => simp [unitsText, leadingClass]
  | cons unit units ih =>
      have text_eq : unitsText (unit :: units) = unit.text ++ unitsText units := rfl
      rw [text_eq]
      cases unit with
      | char c isName =>
          rw [ClassUnit.text, List.singleton_append, leadingClass_cons isName, ih]
      | escape c => rw [ClassUnit.text, List.cons_append, List.singleton_append, leadingClass, ih]
      | interpolation inner inside =>
          have absent : '}' ∉ inner := by
            intro member
            have within := inside '}' member
            revert within
            decide
          have whole : (ClassUnit.interpolation inner inside).text ++ unitsText units =
              '#' :: '{' :: (inner ++ '}' :: unitsText units) := by simp [ClassUnit.text]
          rw [whole, leadingClass_interpolation absent, ih]

namespace ClassText

variable (name : ClassText)

theorem text_ne_nil : name.text ≠ [] := by
  obtain ⟨unit, units, whole⟩ := List.exists_cons_of_ne_nil name.nonempty
  rw [text, whole]
  cases unit <;> simp [unitsText, ClassUnit.text]

theorem firstClass_text : firstClass ('.' :: name.text) = some name.text := by
  obtain ⟨c, rest, whole⟩ := List.exists_cons_of_ne_nil name.text_ne_nil
  have isName : isClassName (leadingClass name.text) = true := by
    have noDigit := name.noDigit c (by rw [← text, whole]; rfl)
    rw [text, leadingClass_units, ← text, whole, isClassName, noDigit]
    rfl
  rw [firstClass, firstClassFrom, if_neg (by decide), if_neg (by decide), if_neg (by decide),
    if_pos ⟨rfl, rfl, isName⟩, text, leadingClass_units]
  · simp
  · simp

end ClassText

theorem Head.eq_listOfText_of_rule {text : List Char} {selectors : List Selector}
    (read : Head.ofText text = .ok (.rule selectors)) :
    (Text.trim text).getLast? ≠ some ':' ∧ selectors = Selector.listOfText (Text.trim text) := by
  unfold ofText ofTrimmed at read
  split at read
  · cases read
  · next atRule _ =>
      unfold ofAtRule ofSignature at read
      simp only at read
      split at read
      · split at read <;> cases read
      · split at read <;> cases read
  · split at read
    · cases read
    · next noColon =>
        cases read
        exact ⟨noColon, rfl⟩

theorem Text.length_trim_le (text : List Char) : (trim text).length ≤ text.length := by
  obtain ⟨before, after, whole, _⟩ := exists_append_trim_append text
  have lengths := congrArg List.length whole
  simp only [List.length_append] at lengths
  omega

/-- A class and its dot fit into one part of the list of selectors. -/
theorem Selector.exists_part_of_className {text name : List Char} {selector : Selector}
    (member : selector ∈ listOfText text)
    (isClass : selector.className = some (String.ofList name)) :
    ∃ part ∈ commaParts text, name.length < part.length := by
  unfold listOfText at member
  obtain ⟨_, kept, rfl⟩ := List.mem_map.mp member
  obtain ⟨found, _⟩ := List.mem_filter.mp kept
  obtain ⟨part, known, rfl⟩ := List.mem_map.mp found
  obtain ⟨word, first, same⟩ := Option.map_eq_some_iff.mp isClass
  obtain rfl := String.ofList_injective same
  have inside := (firstClassFrom_eq_some first).2.length_le
  have shorter := Text.length_trim_le part
  rw [List.length_cons] at inside
  exact ⟨part, known, by omega⟩

theorem Head.length_lt_of_className {text name : List Char} {selector : Selector}
    (read : Head.ofText text = .ok (.rule [selector]))
    (isClass : selector.className = some (String.ofList name)) :
    name.length < (Text.trim text).length := by
  obtain ⟨_, selectors⟩ := eq_listOfText_of_rule read
  have member : selector ∈ Selector.listOfText (Text.trim text) := by simp [← selectors]
  obtain ⟨part, known, fits⟩ := Selector.exists_part_of_className member isClass
  rcases commaPartsAux_cases .start [] (Text.trim text) with whole | shorter
  · rw [commaParts, whole, List.mem_singleton] at known
    rw [known] at fits
    simpa using fits
  · have short := shorter part known
    rw [List.length_nil, Nat.zero_add] at short
    omega

namespace ClassText

variable (name : ClassText)

theorem trim_header (visible : ∀ c ∈ name.text.getLast?, Text.isBlank c = false) :
    Text.trim ('.' :: name.text ++ [' ']) = '.' :: name.text := by
  rw [Text.trim_append_blanks Text.isBlank_of_mem_space]
  exact Text.trim_eq_self (Text.trimmed_cons (by decide) visible)

theorem commaParts_text_iff (unquoted : ∀ c ∈ name.escaped, Text.isQuote c = false) :
    commaParts ('.' :: name.text) = ['.' :: name.text] ↔
      commaParts name.escaped = [name.escaped] := by
  have dot := @commaPartsAux_eq_singleton_iff .start [] name.text '.'
  have units := commaPartsAux_units_iff unquoted 0 ['.'] []
  have step : Nesting.start.step '.' = ⟨0, none, false⟩ := by decide
  rw [step, text, units] at dot
  simpa [commaParts, text, escaped, Nesting.start] using dot

/-- The header of a rule whose statement has been cut off right. -/
theorem ofText_header_iff (unquoted : ∀ c ∈ name.escaped, Text.isQuote c = false) :
    (∃ selector, Head.ofText ('.' :: name.text ++ [' ']) = .ok (.rule [selector]) ∧
        selector.className = some (String.ofList name.text)) ↔
      commaParts name.escaped = [name.escaped] ∧
        ∀ c ∈ name.text.getLast?, Text.isBlank c = false ∧ c ≠ ':' := by
  rw [← commaParts_text_iff name unquoted]
  constructor
  · rintro ⟨selector, read, isClass⟩
    have visible : ∀ c ∈ name.text.getLast?, Text.isBlank c = false := by
      intro c last
      rw [← Bool.not_eq_true]
      intro blank
      obtain ⟨front, split⟩ := List.getLast?_eq_some_iff.mp last
      have fits := Head.length_lt_of_className read isClass
      have trimmed : Text.trim ('.' :: name.text ++ [' ']) = Text.trim ('.' :: front) := by
        rw [split, ← List.cons_append, List.append_assoc]
        apply Text.trim_append_blanks
        simpa [blank] using by decide
      have shorter := Text.length_trim_le ('.' :: front)
      rw [trimmed] at fits
      simp only [split, List.length_append, List.length_cons, List.length_nil] at fits shorter
      omega
    obtain ⟨noColon, selectors⟩ := Head.eq_listOfText_of_rule read
    rw [name.trim_header visible] at noColon selectors
    refine ⟨?_, fun c last => ⟨visible c last, ?_⟩⟩
    · have member : selector ∈ Selector.listOfText ('.' :: name.text) := by simp [← selectors]
      obtain ⟨part, known, fits⟩ := Selector.exists_part_of_className member isClass
      rcases commaPartsAux_cases .start [] ('.' :: name.text) with whole | shorter
      · exact whole
      · have short := shorter part known
        simp only [List.length_nil, List.length_cons] at short
        omega
    · rintro rfl
      rw [List.getLast?_cons_of_ne_nil name.text_ne_nil] at noColon
      exact noColon last
  · rintro ⟨oneItem, ending⟩
    have trimmed := name.trim_header fun c last => (ending c last).1
    have noColon : ('.' :: name.text).getLast? ≠ some ':' := by
      rw [List.getLast?_cons_of_ne_nil name.text_ne_nil]
      intro last
      exact (ending ':' last).2 rfl
    have alone : Text.trim ('.' :: name.text) = '.' :: name.text :=
      Text.trim_eq_self (Text.trimmed_cons (by decide) fun c last => (ending c last).1)
    refine ⟨Selector.ofText ('.' :: name.text), ?_, ?_⟩
    · rw [Head.ofText, trimmed, Head.ofTrimmed_of_head?_ne (by simp) (by simp), if_neg noColon]
      simp [Selector.listOfText, oneItem, alone]
    · rw [Selector.ofText, firstClass_text]
      rfl

/-! ## The statement -/

/-- The rule starts with its header, and the tokens with that. -/
theorem tokenStream_rule : ∃ rest, name.rule.toList = '.' :: rest ∧
    Token.next '.' rest = Token.nextStatement name.rule.toList ∧
    Stylesheet.tokenStream name.rule.toList = TokenStream.ofText ('.' :: rest) := by
  refine ⟨name.text ++ [' ', '{', ' ', '}'], by simp [rule], ?_, by simp [rule]; rfl⟩
  rw [Token.next_eq_nextStatement (by decide) (by simp [Reading.OpensComment]) (by decide)]
  simp [rule]

theorem exists_read_of_header {pieces : List Piece} {head : Head}
    (cut : statementPieces name.rule.toList = .ok (pieces, ['{', ' ', '}']))
    (read : Head.ofText (statementText pieces) = .ok head) :
    ∃ body span, Stylesheet.read name.rule = .ok [.block head body span] := by
  obtain ⟨rest, _, next, stream⟩ := name.tokenStream_rule
  rw [Token.nextStatement, cut] at next
  have body : TokenStream.ofText [' ', '}'] = ⟨[.blank [' '], .close], none⟩ := by decide +kernel
  rw [TokenStream.ofText_of_next next, body] at stream
  obtain ⟨nodes, space, flat⟩ : ∃ nodes,
      Derives (Stylesheet.bodyStart name.rule.toList + (Token.header pieces).width)
        [.blank [' ']] nodes ∧ Node.heightOfList nodes = 0 := ⟨_, .leaf rfl .nil, rfl⟩
  obtain ⟨span, derived⟩ : ∃ span, Derives (Stylesheet.bodyStart name.rule.toList)
      (.header pieces :: [.blank [' ']] ++ [.close]) [.block head nodes span] :=
    ⟨_, .singleBlock read space rfl⟩
  refine ⟨nodes, span, Stylesheet.read_eq_ok_iff.mpr (Stylesheet.nodesWithin_eq_ok_iff.mpr ?_)⟩
  rw [stream]
  exact ⟨rfl, derived, by simp [Node.heightOfList, Node.height, flat, Stylesheet.maxDepth]⟩

theorem exists_header_of_read {head : Head} {body : List Node} {span : ByteRange}
    (accepted : Stylesheet.read name.rule = .ok [.block head body span]) :
    ∃ pieces left, statementPieces name.rule.toList = .ok (pieces, left) ∧
      Head.ofText (statementText pieces) = .ok head := by
  obtain ⟨rest, _, next, stream⟩ := name.tokenStream_rule
  obtain ⟨faultless, derived, _⟩ :=
    Stylesheet.nodesWithin_eq_ok_iff.mp (Stylesheet.read_eq_ok_iff.mp accepted)
  rw [stream] at faultless derived
  cases cut : statementPieces name.rule.toList with
  | error fault =>
      rw [Token.nextStatement, cut] at next
      rw [TokenStream.ofText_of_fault next] at faultless
      cases faultless
  | ok found =>
      obtain ⟨pieces, left⟩ := found
      refine ⟨pieces, left, rfl, ?_⟩
      obtain ⟨token, more, begins⟩ : ∃ token more, Token.next '.' rest = .ok (token, more) ∧
          (token = .header pieces ∨ token = .statement pieces) := by
        rw [next, Token.nextStatement, cut]
        split
        · next found =>
            cases found
            exact ⟨_, _, rfl, .inl rfl⟩
        · next found =>
            cases found
            exact ⟨_, _, rfl, .inr rfl⟩
        · next found => cases found
      rw [TokenStream.ofText_of_next begins.1] at derived
      obtain ⟨pieces', inner, tokens, read, _⟩ := derived.block_inv
      obtain ⟨rfl, _⟩ := List.cons.inj tokens
      rcases begins.2 with same | same <;> cases same
      exact read

/-- Nothing that reads a rule of the class alone is misled by its escaped characters. -/
structure Survives (name : ClassText) : Prop where
  /-- No quote is among them, brackets are closed, and braces and semicolons are inside them. -/
  brackets : name.escaped.foldlM bracketStep 0 = some 0
  oneItem : commaParts name.escaped = [name.escaped]
  /-- None that is trimmed, or that makes a block of properties, stands last. -/
  ending : ∀ c ∈ name.text.getLast?, Text.isBlank c = false ∧ c ≠ ':'

theorem unquoted_of_brackets {escaped : List Char} {count last : Nat}
    (balanced : escaped.foldlM bracketStep count = some last) :
    ∀ c ∈ escaped, Text.isQuote c = false := by
  induction escaped generalizing count with
  | nil => simp
  | cons c escaped ih =>
      obtain ⟨next, step, later⟩ := Option.bind_eq_some_iff.mp balanced
      refine List.forall_mem_cons.mpr ⟨?_, ih later⟩
      rw [← Bool.not_eq_true]
      intro isQuote
      rw [bracketStep, if_pos isQuote] at step
      cases step

/-- A rule of one class is read as a rule of this class exactly if its escapes do no harm. -/
theorem read_rule_iff :
    (∃ selector body span, Stylesheet.read name.rule = .ok [.block (.rule [selector]) body span] ∧
        selector.className = some (String.ofList name.text)) ↔ name.Survives := by
  constructor
  · rintro ⟨selector, body, span, accepted, isClass⟩
    obtain ⟨pieces, left, cut, read⟩ := name.exists_header_of_read accepted
    have balanced : name.escaped.foldlM bracketStep 0 = some 0 := by
      by_contra unbalanced
      have short := name.length_statementText_of_unbalanced unbalanced cut
      have fits := Head.length_lt_of_className read isClass
      have trimmed := Text.length_trim_le (statementText pieces)
      omega
    obtain ⟨pieces', cut', said⟩ := name.exists_statementPieces balanced
    rw [cut] at cut'
    cases cut'
    rw [said] at read
    obtain ⟨oneItem, ending⟩ :=
      (name.ofText_header_iff (unquoted_of_brackets balanced)).mp ⟨selector, read, isClass⟩
    exact ⟨balanced, oneItem, ending⟩
  · rintro ⟨balanced, oneItem, ending⟩
    obtain ⟨pieces, cut, said⟩ := name.exists_statementPieces balanced
    obtain ⟨selector, read, isClass⟩ :=
      (name.ofText_header_iff (unquoted_of_brackets balanced)).mpr ⟨oneItem, ending⟩
    rw [← said] at read
    obtain ⟨body, span, accepted⟩ := name.exists_read_of_header cut read
    exact ⟨selector, body, span, accepted, isClass⟩

def bracketed : ClassText where
  units := [.char 'a' (by decide), .escape ':' (by decide), .char 'b' (by decide),
    .escape '(' (by decide), .escape ',' (by decide), .escape ')' (by decide)]
  nonempty := by simp
  noDigit := by simp [unitsText, ClassUnit.text]

example : bracketed.Survives := by
  refine ⟨by decide, by decide, ?_⟩
  rintro c ⟨⟩
  decide

def listed : ClassText where
  units := [.char 'a' (by decide), .escape ',' (by decide), .char 'b' (by decide)]
  nonempty := by simp
  noDigit := by simp [unitsText, ClassUnit.text]

/-- The escaped comma separates two selectors, and the backslash stays with the first. -/
theorem read_rule_listed : listed.rule = ".a\\,b \x7b \x7d" ∧
    Stylesheet.read listed.rule = .ok
      [.block (.rule [⟨".a\\", some "a"⟩, ⟨"b", none⟩]) [.leaf .blank ⟨7, 8⟩] ⟨0, 9⟩] ∧
    ¬∃ selector body span, Stylesheet.read listed.rule = .ok [.block (.rule [selector]) body span] ∧
      selector.className = some (String.ofList listed.text) := by
  have read : Stylesheet.read listed.rule = .ok
      [.block (.rule [⟨".a\\", some "a"⟩, ⟨"b", none⟩]) [.leaf .blank ⟨7, 8⟩] ⟨0, 9⟩] :=
    Stylesheet.read_eq_ok_of_toOption (by decide +kernel)
  refine ⟨by decide, read, ?_⟩
  rintro ⟨selector, body, span, accepted, _⟩
  rw [read] at accepted
  cases accepted

end ClassText

end StyleDoc
