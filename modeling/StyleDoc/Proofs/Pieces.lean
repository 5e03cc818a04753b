import StyleDoc.Proofs.Lookahead

/-!
# Pieces as they are written

Among the pieces of a statement every string literal is closed, every block comment ends where it
is closed first, and a line comment goes on up to a line feed or to the end of the text.  `Written`
says so of the pieces alone, without the steps that read them.  What a statement says at its start
is thereby found in its source: behind blanks and comments only, and in one piece as long as it is
made of keyword characters.
-/

namespace StyleDoc

theorem Text.eq_of_isQuote {c : Char} (isQuote : Text.isQuote c = true) : c = '"' ∨ c = '\'' := by
  simpa [Text.isQuote] using isQuote

/-! ## Comments and literals -/

/-- A block comment, which is not closed before its last two characters. -/
def IsBlockComment (text : List Char) : Prop :=
  ∃ inner, text = '/' :: '*' :: (inner ++ ['*', '/']) ∧ ¬['*', '/'] <:+: inner ++ ['*']

theorem closeCommentAux_eq_some {read text body rest : List Char}
    (h : closeCommentAux read text = some (body, rest)) :
    ∃ inner, body = read.reverse ++ inner ++ ['*', '/'] ∧ text = inner ++ '*' :: '/' :: rest ∧
      ¬['*', '/'] <:+: inner ++ ['*'] := by
  fun_induction closeCommentAux read text with
  | case1 => cases h
  | case2 read text =>
      cases h
      exact ⟨[], by simp, rfl, by decide⟩
  | case3 read c text noEnd ih =>
      obtain ⟨inner, whole, split, noInner⟩ := ih h
      refine ⟨c :: inner, by simp [whole], by simp [split], ?_⟩
      rw [List.cons_append, List.infix_cons_iff, not_or]
      refine ⟨?_, noInner⟩
      rintro ⟨more, starts⟩
      obtain ⟨rfl, second⟩ := List.cons.inj starts
      cases inner with
      | nil => cases second
      | cons d inner =>
          cases second
          exact noEnd _ rfl split

theorem isBlockComment_of_closeComment {text body rest : List Char}
    (h : closeComment text = some (body, rest)) : IsBlockComment ('/' :: '*' :: body) := by
  obtain ⟨inner, rfl, _, noInner⟩ := closeCommentAux_eq_some h
  exact ⟨inner, by simp, noInner⟩

theorem closeCommentAux_eq_none {read text : List Char} (h : closeCommentAux read text = none) :
    ¬['*', '/'] <:+: text := by
  fun_induction closeCommentAux read text with
  | case1 => decide
  | case2 => cases h
  | case3 read c text noEnd ih =>
      rw [List.infix_cons_iff, not_or]
      refine ⟨?_, ih h⟩
      rintro ⟨more, starts⟩
      obtain ⟨rfl, rfl⟩ := List.cons.inj starts
      exact noEnd _ rfl rfl

/-- What ends a string literal that is not closed: right behind characters that could stand in a
literal there is a line feed, or the text is over, perhaps with a backslash that escapes nothing. -/
def StringStop.Ends (quote : Char) (text : List Char) : StringStop → Prop
  | .lineBreak => ∃ inner rest, text = inner ++ '\n' :: rest ∧ LiteralRest quote (inner ++ [quote])
  | .endOfText => ∃ inner rest, text = inner ++ rest ∧ (rest = [] ∨ rest = ['\\']) ∧
      LiteralRest quote (inner ++ [quote])

theorem StringStop.Ends.literal_append {quote : Char} {text : List Char} {stop : StringStop}
    (ends : stop.Ends quote text) (front : List Char)
    (more : ∀ rest, LiteralRest quote rest → LiteralRest quote (front ++ rest)) :
    stop.Ends quote (front ++ text) := by
  cases stop with
  | lineBreak =>
      obtain ⟨inner, rest, rfl, literal⟩ := ends
      exact ⟨front ++ inner, rest, by simp, by simpa using more _ literal⟩
  | endOfText =>
      obtain ⟨inner, rest, rfl, atEnd, literal⟩ := ends
      exact ⟨front ++ inner, rest, by simp, atEnd, by simpa using more _ literal⟩

theorem closeQuoteAux_eq_error {quote : Char} {read text : List Char} {stop : StringStop}
    (h : closeQuoteAux quote read text = .error stop) : stop.Ends quote text := by
  fun_induction closeQuoteAux quote read text with
  | case1 =>
      cases h
      exact ⟨[], [], rfl, .inl rfl, .close⟩
  | case2 read c text ih =>
      exact (ih h).literal_append ['\\', c] fun _ => .escape
  | case3 read text =>
      cases h
      exact ⟨[], text, rfl, .close⟩
  | case4 => cases h
  | case5 read c text noEscape noBreak notQuote ih =>
      by_cases backslash : c = '\\'
      · subst backslash
        cases text with
        | nil =>
            cases h
            exact ⟨[], ['\\'], rfl, .inr rfl, .close⟩
        | cons d text => exact (noEscape d text rfl rfl).elim
      · exact (ih h).literal_append [c] fun _ => .char ⟨notQuote, backslash, noBreak⟩

/-! ## Written pieces -/

/-- Pieces as they stand in a source in front of the given rest. -/
inductive Written (rest : List Char) : List Piece → Prop
  | nil : Written rest []
  | char {c : Char} {pieces : List Piece} (later : Written rest pieces) :
      Written rest (.char c :: pieces)
  | quoted {quote : Char} {inner : List Char} {pieces : List Piece}
      (isQuote : Text.isQuote quote = true) (literal : LiteralRest quote inner)
      (later : Written rest pieces) : Written rest (.quoted (quote :: inner) :: pieces)
  | blockRemark {text : List Char} {pieces : List Piece} (isComment : IsBlockComment text)
      (later : Written rest pieces) : Written rest (.remark .block text :: pieces)
  | lineRemark {line : List Char} {pieces : List Piece} (noBreak : '\n' ∉ line)
      (ends : ∀ c ∈ (rawText pieces ++ rest).head?, c = '\n') (later : Written rest pieces) :
      Written rest (.remark .line ('/' :: '/' :: line) :: pieces)

namespace Reading

theorem not_mem_lineRest (text : List Char) : '\n' ∉ lineRest text := by
  intro member
  cases List.all_eq_true.mp List.all_takeWhile '\n' member

theorem Move.written {reading next : Reading} {text rest : List Char}
    (move : reading.Move text next rest) :
    ∃ added, next.pieces.reverse = reading.pieces.reverse ++ added ∧
      text = rawText added ++ rest ∧
      ∀ left later, rest = rawText later ++ left → Written left later →
        Written left (added ++ later) := by
  cases move with
  | @quoted quote _ body _ isQuote closed =>
      refine ⟨[.quoted (quote :: body)], by simp [push], ?_, fun _ _ _ written =>
        .quoted isQuote (literalRest_of_closeQuote closed) written⟩
      simp [Piece.raw, ← closeQuote_append closed]
  | @blockRemark _ body _ closed =>
      refine ⟨[.remark .block ('/' :: '*' :: body)], by simp [push], ?_, fun _ _ _ written =>
        .blockRemark (isBlockComment_of_closeComment closed) written⟩
      simp [Piece.raw, ← closeComment_append closed]
  | @lineRemark text allowed =>
      refine ⟨[.remark .line ('/' :: lineRest ('/' :: text))], by simp [push], ?_, ?_⟩
      · have whole := lineRest_append_afterLine ('/' :: text)
        simp [Piece.raw, whole]
      · intro left later rest_eq written
        have ends := head?_afterLine ('/' :: text)
        rw [rest_eq] at ends
        exact .lineRemark (not_mem_lineRest text) ends written
  | openInterpolation =>
      exact ⟨[.char '#', .char '{'], by simp [Reading.openInterpolation, push], rfl,
        fun _ _ _ written => .char (.char written)⟩
  | closeInterpolation =>
      exact ⟨[.char '}'], by simp [push], rfl, fun _ _ _ written => .char written⟩
  | @openGroup c =>
      exact ⟨[.char c], by simp [Reading.openGroup, push], rfl, fun _ _ _ written => .char written⟩
  | @closeGroup c => exact ⟨[.char c], by simp [push], rfl, fun _ _ _ written => .char written⟩
  | @char c => exact ⟨[.char c], by simp [push], rfl, fun _ _ _ written => .char written⟩

/-- Steps add pieces that are written in the text that they take off. -/
theorem Steps.written {reading last : Reading} {text rest : List Char}
    (steps : Steps reading text last rest) :
    ∃ added, last.pieces.reverse = reading.pieces.reverse ++ added ∧
      text = rawText added ++ rest ∧ Written rest added := by
  induction steps with
  | refl => exact ⟨[], by simp, rfl, .nil⟩
  | step stepped _ ih =>
      obtain ⟨added, grown, whole, front⟩ := (move_of_step stepped).written
      obtain ⟨later, grownLater, rest_eq, written⟩ := ih
      refine ⟨added ++ later, by simp [grownLater, grown], ?_, front _ later rest_eq written⟩
      rw [whole, rest_eq, rawText_append, List.append_assoc]

end Reading

theorem Readable.written {pieces : List Piece} {rest : List Char}
    (readable : Readable pieces rest) : Written rest pieces := by
  obtain ⟨last, steps, _, rfl⟩ := readable
  obtain ⟨added, grown, _, written⟩ := steps.written
  rw [grown]
  exact written

/-! ## The start of a statement -/

/-- Text that says nothing: blanks and comments.  A line comment in it ends with its line. -/
inductive IsGap : List Char → Prop
  | nil : IsGap []
  | blank {c : Char} {text : List Char} (isBlank : Text.isBlank c = true) (later : IsGap text) :
      IsGap (c :: text)
  | blockComment {comment text : List Char} (isComment : IsBlockComment comment)
      (later : IsGap text) : IsGap (comment ++ text)
  | lineComment {line text : List Char} (noBreak : '\n' ∉ line)
      (ends : text.head? = some '\n') (later : IsGap text) : IsGap ('/' :: '/' :: (line ++ text))

namespace Written

theorem head?_rawText {pieces : List Piece} {rest : List Char}
    (ends : ∀ c ∈ (rawText pieces ++ '{' :: rest).head?, c = '\n') :
    (rawText pieces).head? = some '\n' := by
  cases raw : rawText pieces with
  | nil =>
      have brace := ends '{' (by simp [raw])
      cases brace
  | cons c text =>
      have feed := ends c (by simp [raw])
      rw [List.head?_cons, feed]

theorem isGap {pieces : List Piece} {rest : List Char} (written : Written ('{' :: rest) pieces)
    (blank : ∀ c ∈ statementText pieces, Text.isBlank c = true) : IsGap (rawText pieces) := by
  induction written with
  | nil => exact .nil
  | @char c pieces _ ih =>
      have both : Text.isBlank c = true ∧ ∀ c ∈ statementText pieces, Text.isBlank c = true := by
        simpa [Piece.text] using blank
      exact .blank both.1 (ih both.2)
  | @quoted quote inner pieces isQuote _ _ _ =>
      have first := blank quote (by simp [Piece.text])
      rcases Text.eq_of_isQuote isQuote with rfl | rfl <;> cases first
  | blockRemark isComment _ ih =>
      exact .blockComment isComment (ih fun c member => blank c (by simp [member]))
  | lineRemark noBreak ends _ ih =>
      have later := ih fun c member => blank c (by simp [member])
      exact .lineComment noBreak (head?_rawText ends) later

/-- The first character that is no blank stands behind a gap. -/
theorem exists_gap {pieces : List Piece} {rest text : List Char} {c : Char}
    (written : Written ('{' :: rest) pieces) (notQuote : Text.isQuote c = false)
    (starts : Text.trimStart (statementText pieces) = c :: text) :
    ∃ gap later, rawText pieces = gap ++ c :: rawText later ∧ IsGap gap ∧
      Written ('{' :: rest) later ∧ statementText later = text := by
  have visible : Text.isBlank c = false :=
    Text.head?_trimStart (statementText pieces) c (by rw [starts]; rfl)
  induction written with
  | nil => cases starts
  | @char d pieces later ih =>
      by_cases blank : Text.isBlank d = true
      · have same : Text.trimStart (statementText (.char d :: pieces)) =
            Text.trimStart (statementText pieces) := List.dropWhile_cons_of_pos blank
        rw [same] at starts
        obtain ⟨gap, more, whole, isGap, written, said⟩ := ih starts
        exact ⟨d :: gap, more, by simp [Piece.raw, whole], .blank blank isGap, written, said⟩
      · have same : Text.trimStart (statementText (.char d :: pieces)) =
            d :: statementText pieces := List.dropWhile_cons_of_neg blank
        rw [same] at starts
        cases starts
        exact ⟨[], pieces, rfl, .nil, later, rfl⟩
  | @quoted quote inner pieces isQuote _ _ _ =>
      have quoteVisible : ¬Text.isBlank quote = true := by
        rcases Text.eq_of_isQuote isQuote with rfl | rfl <;> decide
      have same : Text.trimStart (statementText (.quoted (quote :: inner) :: pieces)) =
          quote :: (inner ++ statementText pieces) := List.dropWhile_cons_of_neg quoteVisible
      rw [same] at starts
      cases starts
      rw [isQuote] at notQuote
      cases notQuote
  | @blockRemark comment pieces isComment _ ih =>
      have same : Text.trimStart (statementText (.remark .block comment :: pieces)) =
          Text.trimStart (statementText pieces) := List.dropWhile_cons_of_pos (by decide)
      rw [same] at starts
      obtain ⟨gap, more, whole, isGap, written, said⟩ := ih starts
      exact ⟨comment ++ gap, more, by simp [Piece.raw, whole], .blockComment isComment isGap,
        written, said⟩
  | @lineRemark line pieces noBreak ends _ ih =>
      obtain ⟨gap, more, whole, isGap, written, said⟩ := ih starts
      have feed := head?_rawText ends
      have endsGap : gap.head? = some '\n' := by
        cases gap with
        | nil =>
            rw [whole, List.nil_append, List.head?_cons, Option.some.injEq] at feed
            rw [feed] at visible
            cases visible
        | cons d gap =>
            rw [whole] at feed
            exact feed
      exact ⟨'/' :: '/' :: (line ++ gap), more, by simp [Piece.raw, whole],
        .lineComment noBreak endsGap isGap, written, said⟩

/-- Keyword characters that a statement starts with are also what its source starts with. -/
theorem prefix_rawText {pieces : List Piece} {rest word : List Char}
    (written : Written ('{' :: rest) pieces) (starts : word <+: statementText pieces)
    (isKeyword : ∀ c ∈ word, Text.isKeywordChar c = true) : word <+: rawText pieces := by
  induction written generalizing word with
  | nil => exact starts
  | @char c pieces _ ih =>
      cases word with
      | nil => exact List.nil_prefix
      | cons d word =>
          obtain ⟨rfl, later⟩ := List.cons_prefix_cons.mp starts
          exact List.cons_prefix_cons.mpr
            ⟨rfl, ih later fun c member => isKeyword c (List.mem_cons_of_mem _ member)⟩
  | @quoted quote inner pieces isQuote _ _ _ =>
      cases word with
      | nil => exact List.nil_prefix
      | cons d word =>
          obtain ⟨rfl, _⟩ := List.cons_prefix_cons.mp starts
          have first := isKeyword d List.mem_cons_self
          rcases Text.eq_of_isQuote isQuote with rfl | rfl <;> cases first
  | @blockRemark comment pieces isComment _ ih =>
      cases word with
      | nil => exact List.nil_prefix
      | cons d word =>
          obtain ⟨rfl, _⟩ := List.cons_prefix_cons.mp starts
          cases isKeyword ' ' List.mem_cons_self
  | @lineRemark line pieces noBreak ends _ ih =>
      cases word with
      | nil => exact List.nil_prefix
      | cons d word =>
          have feed := head?_rawText ends
          obtain ⟨more, whole⟩ := ih starts isKeyword
          rw [← whole] at feed
          cases feed
          cases isKeyword '\n' List.mem_cons_self

end Written

end StyleDoc
