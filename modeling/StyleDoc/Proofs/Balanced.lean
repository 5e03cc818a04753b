import StyleDoc.Proofs.RawText
import StyleDoc.Syntax.Selector

/-!
# Balanced text

Text in which string literals are closed, brackets and interpolations are nested properly, and no
comment starts.  Reading a statement goes through such text without stopping and keeps it as it
is, and no comma inside a literal or brackets separates.
-/

namespace StyleDoc

/-- A character without a meaning of its own in statement text. -/
def isPlain (c : Char) : Bool :=
  !(Text.isQuote c || c == '(' || c == ')' || c == '[' || c == ']' || c == '{' || c == '}' ||
    c == ';')

def isEnclosed (c : Char) : Bool := isPlain c || c == ';'

def isListed (c : Char) : Bool := isPlain c && c != ','

/-- What follows the opening quote of a closed string literal, the closing quote included. -/
inductive LiteralRest (quote : Char) : List Char → Prop
  | close : LiteralRest quote [quote]
  | escape {c : Char} {rest : List Char} (more : LiteralRest quote rest) :
      LiteralRest quote ('\\' :: c :: rest)
  | char {c : Char} {rest : List Char} (ordinary : c ≠ quote ∧ c ≠ '\\' ∧ c ≠ '\n')
      (more : LiteralRest quote rest) : LiteralRest quote (c :: rest)

/--
A sequence of characters that are `allowed`, closed string literals, and balanced texts in round
or square brackets or in an interpolation.  No slash that stands by itself is followed by a second
slash or a star.
-/
inductive Balanced : (Char → Bool) → List Char → Prop
  | nil {allowed : Char → Bool} : Balanced allowed []
  | char {allowed : Char → Bool} {c : Char} {text : List Char} (isAllowed : allowed c = true)
      (noComment : c = '/' → text.head? ≠ some '/' ∧ text.head? ≠ some '*')
      (later : Balanced allowed text) : Balanced allowed (c :: text)
  | literal {allowed : Char → Bool} {quote : Char} {inner text : List Char}
      (isQuote : Text.isQuote quote = true) (inside : LiteralRest quote inner)
      (later : Balanced allowed text) : Balanced allowed (quote :: (inner ++ text))
  | group {allowed : Char → Bool} {opener closer : Char} {inner text : List Char}
      (pair : opener = '(' ∧ closer = ')' ∨ opener = '[' ∧ closer = ']')
      (inside : Balanced isEnclosed inner) (later : Balanced allowed text) :
      Balanced allowed (opener :: (inner ++ closer :: text))
  | interpolation {allowed : Char → Bool} {inner text : List Char}
      (inside : Balanced isEnclosed inner) (later : Balanced allowed text) :
      Balanced allowed ('#' :: '{' :: (inner ++ '}' :: text))

namespace Balanced

theorem mono {p q : Char → Bool} {text : List Char} (balanced : Balanced p text)
    (sub : ∀ c, p c = true → q c = true) : Balanced q text := by
  induction balanced with
  | nil => exact .nil
  | char isAllowed noComment _ ih => exact .char (sub _ isAllowed) noComment (ih sub)
  | literal isQuote inside _ ih => exact .literal isQuote inside (ih sub)
  | group pair inside _ _ ih => exact .group pair inside (ih sub)
  | interpolation inside _ _ ih => exact .interpolation inside (ih sub)

theorem append {allowed : Char → Bool} {text more : List Char} (first : Balanced allowed text)
    (second : Balanced allowed more)
    (seam : more.head? ≠ some '/' ∧ more.head? ≠ some '*') : Balanced allowed (text ++ more) := by
  induction first with
  | nil => exact second
  | @char allowed c text isAllowed noComment _ ih =>
      refine .char isAllowed ?_ (ih second)
      intro slash
      cases text with
      | nil => exact seam
      | cons d text => exact noComment slash
  | literal isQuote inside _ ih => simpa using literal isQuote inside (ih second)
  | group pair inside _ _ ih => simpa using group pair inside (ih second)
  | interpolation inside _ _ ih => simpa using interpolation inside (ih second)

theorem ofRun {allowed : Char → Bool} {run : List Char}
    (all : (run.all fun c => allowed c && c != '/') = true) : Balanced allowed run := by
  induction run with
  | nil => exact .nil
  | cons c run ih =>
      simp only [List.all_cons, Bool.and_eq_true, bne_iff_ne] at all
      obtain ⟨⟨isAllowed, noSlash⟩, later⟩ := all
      exact .char isAllowed (fun slash => (noSlash slash).elim) (ih (by simpa using later))

/-- Balanced text starts with no closing bracket and with no bare brace. -/
theorem head?_ne {allowed : Char → Bool} {text : List Char} (balanced : Balanced allowed text)
    {c : Char} (notAllowed : allowed c = false)
    (notOpener : Text.isQuote c = false ∧ c ≠ '(' ∧ c ≠ '[' ∧ c ≠ '#') : text.head? ≠ some c := by
  intro head
  cases balanced with
  | nil => cases head
  | char isAllowed =>
      cases head
      rw [isAllowed] at notAllowed
      cases notAllowed
  | literal isQuote =>
      cases head
      rw [isQuote] at notOpener
      cases notOpener.1
  | group pair =>
      cases head
      rcases pair with ⟨rfl, _⟩ | ⟨rfl, _⟩
      · exact notOpener.2.1 rfl
      · exact notOpener.2.2.1 rfl
  | interpolation =>
      cases head
      exact notOpener.2.2.2 rfl

end Balanced

/-! ## Reading goes through -/

theorem closeQuoteAux_literal {quote : Char} {inner : List Char} (inside : LiteralRest quote inner)
    (read rest : List Char) (notBackslash : quote ≠ '\\' ∧ quote ≠ '\n') :
    closeQuoteAux quote read (inner ++ rest) = .ok (read.reverse ++ inner, rest) := by
  induction inside generalizing read with
  | close => simp [closeQuoteAux, notBackslash]
  | escape _ ih => simp [closeQuoteAux, ih]
  | @char c rest' ordinary _ ih => simp [closeQuoteAux, ordinary, ih]

namespace Reading

def pushAll (reading : Reading) (pieces : List Piece) : Reading :=
  { reading with
    width := reading.width + Text.byteSize (rawText pieces)
    pieces := pieces.reverse ++ reading.pieces }

theorem pushAll_nil (reading : Reading) : reading.pushAll [] = reading := by
  simp [pushAll]

theorem pushAll_cons (reading : Reading) (piece : Piece) (pieces : List Piece) :
    reading.pushAll (piece :: pieces) = (reading.push piece).pushAll pieces := by
  simp [pushAll, push, Nat.add_assoc]

theorem pushAll_append (reading : Reading) (a b : List Piece) :
    reading.pushAll (a ++ b) = (reading.pushAll a).pushAll b := by
  simp [pushAll, Nat.add_assoc]

theorem pushAll_group (reading : Reading) (opener closer : Char) (within : List Piece) :
    { ((reading.openGroup opener).pushAll within).push (.char closer) with
      groups := reading.groups } = reading.pushAll (.char opener :: within ++ [.char closer]) := by
  simp [pushAll, push, openGroup, Nat.add_assoc]

theorem pushAll_interpolation (reading : Reading) (within : List Piece) :
    { (reading.openInterpolation.pushAll within).push (.char '}') with
      interpolations := reading.interpolations } =
      reading.pushAll (.char '#' :: .char '{' :: within ++ [.char '}']) := by
  simp [pushAll, push, openInterpolation, Nat.add_assoc]

theorem run_of_step {reading next : Reading} {c : Char} {text rest : List Char}
    (h : reading.step c text = .read next rest) : reading.run (c :: text) = next.run rest := by
  rw [run]
  split
  · next stepped =>
      rw [h] at stepped
      cases stepped
      rfl
  · next stepped =>
      rw [h] at stepped
      cases stepped
  · next stepped =>
      rw [h] at stepped
      cases stepped

theorem run_of_stop {reading : Reading} {c : Char} {text : List Char}
    (isEnd : c = '{' ∨ c = '}' ∨ c = ';') (flat : reading.isFlat = true) :
    reading.run (c :: text) = .ok (reading.pieces.reverse, c :: text) := by
  have stopped : reading.step c text = .stop := by
    have closed : reading.interpolations = [] := by
      simp only [isFlat, Bool.and_eq_true, List.isEmpty_iff] at flat
      exact flat.2
    unfold step
    rcases isEnd with rfl | rfl | rfl
    · simp [flat, Text.isQuote]
    · simp [flat, closed, Text.isQuote]
    · simp [flat, Text.isQuote]
  rw [run]
  split
  · next stepped =>
      rw [stopped] at stepped
      cases stepped
  · rfl
  · next stepped =>
      rw [stopped] at stepped
      cases stepped

/-- A character that is neither quote nor bracket is read by itself, unless it starts a comment or
an interpolation or ends the statement. -/
theorem step_char {reading : Reading} {c : Char} {text : List Char} (enclosed : isEnclosed c = true)
    (noComment : c = '/' → text.head? ≠ some '/' ∧ text.head? ≠ some '*')
    (noInterpolation : text.head? ≠ some '{') (goesOn : reading.isFlat = true → c ≠ ';') :
    reading.step c text = .read (reading.push (.char c)) text := by
  have notQuote : Text.isQuote c = false := by
    cases quote : Text.isQuote c with
    | false => rfl
    | true =>
        simp only [isEnclosed, isPlain, quote, Bool.true_or, Bool.not_true, Bool.false_or,
          beq_iff_eq] at enclosed
        subst enclosed
        cases quote
  have notBracket : c ≠ '(' ∧ c ≠ ')' ∧ c ≠ '[' ∧ c ≠ ']' ∧ c ≠ '{' ∧ c ≠ '}' := by
    refine ⟨?_, ?_, ?_, ?_, ?_, ?_⟩ <;> rintro rfl <;> cases enclosed
  have noBlock : ¬(c = '/' ∧ text.head? = some '*') := fun h => (noComment h.1).2 h.2
  have noLine : ¬(c = '/' ∧ text.head? = some '/' ∧ reading.allowsLineComment = true) :=
    fun h => (noComment h.1).1 h.2.1
  have noStop : ¬((c = '{' ∨ c = '}' ∨ c = ';') ∧ reading.isFlat = true) := by
    rintro ⟨isEnd, flat⟩
    rcases isEnd with brace | brace | semicolon
    · exact notBracket.2.2.2.2.1 brace
    · exact notBracket.2.2.2.2.2 brace
    · exact goesOn flat semicolon
  unfold step
  rw [if_neg (by simp [notQuote]), if_neg noBlock, if_neg noLine,
    if_neg (fun h => noInterpolation h.2), if_neg (fun h => notBracket.2.2.2.2.2 h.1),
    if_neg noStop,
    if_neg (by simp [notBracket]), if_neg (by simp [notBracket])]

theorem step_openGroup {reading : Reading} {opener : Char} {text : List Char}
    (isOpener : opener = '(' ∨ opener = '[') :
    reading.step opener text = .read (reading.openGroup opener) text := by
  rcases isOpener with rfl | rfl
  · simp [step, Text.isQuote]
  · simp [step, Text.isQuote]

theorem step_closeGroup {reading : Reading} {closer : Char} {text : List Char} {group : Group}
    {groups : List Group} (isCloser : closer = ')' ∨ closer = ']')
    (isOpen : reading.groups = group :: groups) :
    reading.step closer text =
      .read { reading.push (.char closer) with groups := groups } text := by
  rcases isCloser with rfl | rfl
  · simp [step, Text.isQuote, isOpen]
  · simp [step, Text.isQuote, isOpen]

theorem step_openInterpolation {reading : Reading} {text : List Char} :
    reading.step '#' ('{' :: text) = .read reading.openInterpolation text := by
  simp [step, Text.isQuote]

theorem step_closeInterpolation {reading : Reading} {text : List Char} {offset : Nat}
    {offsets : List Nat} (isOpen : reading.interpolations = offset :: offsets) :
    reading.step '}' text =
      .read { reading.push (.char '}') with interpolations := offsets } text := by
  simp [step, Text.isQuote, isOpen]

theorem step_literal {reading : Reading} {quote : Char} {inner text : List Char}
    (isQuote : Text.isQuote quote = true) (inside : LiteralRest quote inner) :
    reading.step quote (inner ++ text) = .read (reading.push (.quoted (quote :: inner))) text := by
  have notBackslash : quote ≠ '\\' ∧ quote ≠ '\n' := by
    constructor <;> rintro rfl <;> cases isQuote
  have closed : closeQuote quote (inner ++ text) = .ok (inner, text) :=
    closeQuoteAux_literal inside [] text notBackslash
  rw [step, if_pos isQuote, closed]

/-- What follows a balanced text does not turn its last character into a comment or an
interpolation. -/
def Follows (rest : List Char) : Prop :=
  rest.head? ≠ some '/' ∧ rest.head? ≠ some '*' ∧ rest.head? ≠ some '{'

/--
Reading goes through balanced text and keeps it as it is, in pieces that depend on nothing but the
text.  A semicolon may stand in the text only if something is open around it.
-/
theorem run_balanced {allowed : Char → Bool} {text : List Char} (balanced : Balanced allowed text)
    (sub : ∀ c, allowed c = true → isEnclosed c = true) :
    ∃ pieces, rawText pieces = text ∧ statementText pieces = text ∧
      ∀ (reading : Reading) (rest : List Char), (reading.isFlat = true → allowed ';' = false) →
        Follows rest → reading.run (text ++ rest) = (reading.pushAll pieces).run rest := by
  induction balanced with
  | nil =>
      refine ⟨[], rfl, rfl, ?_⟩
      intro reading rest _ _
      rw [pushAll_nil, List.nil_append]
  | @char allowed c text isAllowed noComment later ih =>
      obtain ⟨pieces, raw, said, goesOn⟩ := ih sub
      refine ⟨.char c :: pieces, by simp [Piece.raw, raw], by simp [Piece.text, said], ?_⟩
      intro reading rest room after
      have noBrace : allowed '{' = false := by
        cases h : allowed '{' with
        | false => rfl
        | true => cases sub _ h
      have stepped : reading.step c (text ++ rest) =
          .read (reading.push (.char c)) (text ++ rest) := by
        apply step_char (sub c isAllowed)
        · intro slash
          cases text with
          | nil => exact ⟨after.1, after.2.1⟩
          | cons d text => exact noComment slash
        · cases text with
          | nil => exact after.2.2
          | cons d text => exact later.head?_ne noBrace (by decide)
        · rintro flat rfl
          rw [room flat] at isAllowed
          cases isAllowed
      have went := goesOn (reading.push (.char c)) rest room after
      rw [List.cons_append, run_of_step stepped, went, pushAll_cons]
  | @literal allowed quote inner text isQuote inside later ih =>
      obtain ⟨pieces, raw, said, goesOn⟩ := ih sub
      refine ⟨.quoted (quote :: inner) :: pieces, by simp [Piece.raw, raw],
        by simp [Piece.text, said], ?_⟩
      intro reading rest room after
      have went := goesOn (reading.push (.quoted (quote :: inner))) rest room after
      rw [List.cons_append, List.append_assoc, run_of_step (step_literal isQuote inside), went,
        pushAll_cons]
  | @group allowed opener closer inner text pair inside later ihInside ihLater =>
      obtain ⟨within, rawWithin, saidWithin, goesInside⟩ := ihInside fun _ h => h
      obtain ⟨pieces, raw, said, goesOn⟩ := ihLater sub
      refine ⟨.char opener :: within ++ [.char closer] ++ pieces, ?_, ?_, ?_⟩
      · simp [Piece.raw, raw, rawWithin]
      · simp [Piece.text, said, saidWithin]
      intro reading rest room after
      have isOpener : opener = '(' ∨ opener = '[' := pair.imp And.left And.left
      have isCloser : closer = ')' ∨ closer = ']' := pair.imp And.right And.right
      have followed : Follows (closer :: (text ++ rest)) := by
        rcases isCloser with rfl | rfl <;> simp [Follows]
      have wentInside := goesInside (reading.openGroup opener) _ (fun flat => by cases flat)
        followed
      have closed := @step_closeGroup ((reading.openGroup opener).pushAll within) closer
        (text ++ rest) _ _ isCloser rfl
      rw [pushAll_group] at closed
      have went := goesOn (reading.pushAll (.char opener :: within ++ [.char closer])) rest room
        after
      rw [List.cons_append, List.append_assoc, List.cons_append,
        run_of_step (step_openGroup isOpener), wentInside, run_of_step closed, went,
        ← pushAll_append]
  | @interpolation allowed inner text inside later ihInside ihLater =>
      obtain ⟨within, rawWithin, saidWithin, goesInside⟩ := ihInside fun _ h => h
      obtain ⟨pieces, raw, said, goesOn⟩ := ihLater sub
      refine ⟨.char '#' :: .char '{' :: within ++ [.char '}'] ++ pieces, ?_, ?_, ?_⟩
      · simp [Piece.raw, raw, rawWithin]
      · simp [Piece.text, said, saidWithin]
      intro reading rest room after
      have isOpen : reading.openInterpolation.isFlat = true → isEnclosed ';' = false := by
        simp [isFlat, openInterpolation]
      have wentInside := goesInside reading.openInterpolation ('}' :: (text ++ rest)) isOpen
        (by simp [Follows])
      have closed := @step_closeInterpolation (reading.openInterpolation.pushAll within)
        (text ++ rest) _ _ rfl
      rw [pushAll_interpolation] at closed
      have went := goesOn (reading.pushAll (.char '#' :: .char '{' :: within ++ [.char '}'])) rest
        room after
      rw [List.cons_append, List.cons_append, List.append_assoc, List.cons_append,
        run_of_step step_openInterpolation, wentInside, run_of_step closed, went,
        ← pushAll_append]

end Reading

/-! ## Commas inside do not separate -/

theorem commaPartsAux_cons {nesting : Nesting} {c : Char} {part text : List Char}
    (inside : c = ',' → nesting.isTop = false) :
    commaPartsAux nesting part (c :: text) = commaPartsAux (nesting.step c) (c :: part) text := by
  rw [commaPartsAux, if_neg]
  rintro ⟨comma, top⟩
  rw [inside comma] at top
  cases top

theorem commaPartsAux_literal {quote : Char} {inner : List Char} (inside : LiteralRest quote inner)
    (depth : Nat) (part rest : List Char) (notBackslash : quote ≠ '\\') :
    commaPartsAux ⟨depth, some quote, false⟩ part (inner ++ rest) =
      commaPartsAux ⟨depth, none, false⟩ (inner.reverse ++ part) rest := by
  induction inside generalizing part with
  | close =>
      rw [List.singleton_append, commaPartsAux_cons fun _ => rfl]
      simp [Nesting.step, notBackslash]
  | @escape c rest' _ ih =>
      rw [List.cons_append, List.cons_append, commaPartsAux_cons fun _ => rfl,
        commaPartsAux_cons fun _ => rfl]
      simp [Nesting.step, ih]
  | @char c rest' ordinary _ ih =>
      rw [List.cons_append, commaPartsAux_cons fun _ => rfl]
      simp [Nesting.step, ordinary, ih]

/-- No comma of a balanced text separates if commas are not allowed in it, or if something is open
around it. -/
theorem commaPartsAux_balanced {allowed : Char → Bool} {text : List Char}
    (balanced : Balanced allowed text) (sub : ∀ c, allowed c = true → isEnclosed c = true)
    (depth : Nat) (room : depth = 0 → allowed ',' = false) (part rest : List Char) :
    commaPartsAux ⟨depth, none, false⟩ part (text ++ rest) =
      commaPartsAux ⟨depth, none, false⟩ (text.reverse ++ part) rest := by
  induction balanced generalizing depth part rest with
  | nil => rfl
  | @char allowed c text isAllowed noComment _ ih =>
      have plain : (⟨depth, none, false⟩ : Nesting).step c = ⟨depth, none, false⟩ := by
        have enclosed := sub c isAllowed
        simp only [isEnclosed, isPlain, Bool.or_eq_true, Bool.not_eq_true', Bool.or_eq_false_iff,
          beq_iff_eq, beq_eq_false_iff_ne] at enclosed
        rcases enclosed with plain | rfl
        · simp [Nesting.step, plain]
        · simp [Nesting.step, Text.isQuote]
      have inside : c = ',' → (⟨depth, none, false⟩ : Nesting).isTop = false := by
        rintro rfl
        cases depth with
        | zero =>
            rw [room rfl] at isAllowed
            cases isAllowed
        | succ depth => rfl
      rw [List.cons_append, commaPartsAux_cons inside, plain, ih sub depth room]
      simp
  | @literal allowed quote inner text isQuote inside _ ih =>
      have notComma : quote ≠ ',' := by rintro rfl; cases isQuote
      have notBackslash : quote ≠ '\\' := by rintro rfl; cases isQuote
      have opened : (⟨depth, none, false⟩ : Nesting).step quote = ⟨depth, some quote, false⟩ := by
        simp [Nesting.step, isQuote]
      rw [List.cons_append, List.append_assoc,
        commaPartsAux_cons (fun comma => (notComma comma).elim), opened,
        commaPartsAux_literal inside depth _ _ notBackslash, ih sub depth room]
      simp
  | @group allowed opener closer inner text pair _ _ ihInside ihLater =>
      have opened : (⟨depth, none, false⟩ : Nesting).step opener = ⟨depth + 1, none, false⟩ := by
        rcases pair with ⟨rfl, _⟩ | ⟨rfl, _⟩ <;> simp [Nesting.step, Text.isQuote]
      have closed : (⟨depth + 1, none, false⟩ : Nesting).step closer = ⟨depth, none, false⟩ := by
        rcases pair with ⟨_, rfl⟩ | ⟨_, rfl⟩ <;> simp [Nesting.step, Text.isQuote]
      have notComma : opener ≠ ',' := by
        rcases pair with ⟨rfl, _⟩ | ⟨rfl, _⟩ <;> decide
      rw [List.cons_append, List.append_assoc, List.cons_append,
        commaPartsAux_cons (fun comma => (notComma comma).elim), opened,
        ihInside (fun _ h => h) (depth + 1) (by omega), commaPartsAux_cons fun _ => rfl, closed,
        ihLater sub depth room]
      simp
  | @interpolation allowed inner text _ _ ihInside ihLater =>
      have hash : (⟨depth, none, false⟩ : Nesting).step '#' = ⟨depth, none, false⟩ := by
        simp [Nesting.step, Text.isQuote]
      have opened : (⟨depth, none, false⟩ : Nesting).step '{' = ⟨depth + 1, none, false⟩ := by
        simp [Nesting.step, Text.isQuote]
      have closed : (⟨depth + 1, none, false⟩ : Nesting).step '}' = ⟨depth, none, false⟩ := by
        simp [Nesting.step, Text.isQuote]
      rw [List.cons_append, List.cons_append, List.append_assoc, List.cons_append,
        commaPartsAux_cons (by simp), hash, commaPartsAux_cons (by simp), opened,
        ihInside (fun _ h => h) (depth + 1) (by omega), commaPartsAux_cons fun _ => rfl, closed,
        ihLater sub depth room]
      simp

theorem isEnclosed_of_isListed (c : Char) (listed : isListed c = true) : isEnclosed c = true := by
  simp only [isListed, Bool.and_eq_true] at listed
  simp [isEnclosed, listed]

theorem isEnclosed_of_isPlain (c : Char) (plain : isPlain c = true) : isEnclosed c = true := by
  simp [isEnclosed, plain]

/-- The parts of items that are joined by a comma and a space: the space stays with the item after
it. -/
theorem commaPartsAux_join {items : List (List Char)}
    (balanced : ∀ item ∈ items, Balanced isListed item) (item part : List Char)
    (first : Balanced isListed item) :
    commaPartsAux .start part ([',', ' '].intercalate (item :: items)) =
      (part.reverse ++ item) :: items.map (' ' :: ·) := by
  induction items generalizing item part with
  | nil =>
      have through := commaPartsAux_balanced first isEnclosed_of_isListed 0 (fun _ => rfl) part []
      rw [List.append_nil] at through
      rw [List.intercalate_singleton, Nesting.start, through]
      simp [commaPartsAux]
  | cons next items ih =>
      have through := commaPartsAux_balanced first isEnclosed_of_isListed 0 (fun _ => rfl) part
        (',' :: ' ' :: [',', ' '].intercalate (next :: items))
      have nextBalanced := balanced next List.mem_cons_self
      have rest := ih (fun item member => balanced item (List.mem_cons_of_mem _ member)) next [' ']
        nextBalanced
      have blank : (⟨0, none, false⟩ : Nesting).step ' ' = .start := by decide
      rw [List.intercalate_cons_cons, List.append_assoc, List.cons_append, List.singleton_append,
        Nesting.start, through, commaPartsAux, if_pos (by decide), commaPartsAux_cons (by decide),
        blank, rest]
      simp

theorem commaParts_join {items : List (List Char)} (item : List Char)
    (balanced : ∀ other ∈ item :: items, Balanced isListed other) :
    commaParts ([',', ' '].intercalate (item :: items)) = item :: items.map (' ' :: ·) := by
  have first := balanced item List.mem_cons_self
  exact commaPartsAux_join (fun other member => balanced other (List.mem_cons_of_mem _ member))
    item [] first

end StyleDoc
