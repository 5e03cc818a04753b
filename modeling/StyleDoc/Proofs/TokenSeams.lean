import StyleDoc.Proofs.Grammar
import StyleDoc.Proofs.Lookahead

/-!
# Where tokens meet

`Token.Begins` gives the tokens by their form.  Whether a text is cut after a token depends on the
token alone and on the first character after it, which must fit.  So a list of tokens is the cut of
its text exactly if each token is one by itself and fits the tokens after it (`WellCut`), and such
lists can be taken apart and put together again.
-/

namespace StyleDoc

/-! ## The first piece of a statement -/

/-- Whether a statement can start with a piece; a blank or a comment would be a token of its
own. -/
def Piece.startsStatement : Piece → Bool
  | char c => !Text.isAsciiBlank c
  | quoted text => !text.isEmpty
  | remark _ _ => false

theorem Piece.head?_raw_append {piece : Piece} (starts : piece.startsStatement = true)
    (rest : List Char) : (piece.raw ++ rest).head? = piece.raw.head? := by
  cases piece with
  | char c => rfl
  | quoted text =>
      cases text with
      | nil => cases starts
      | cons c text => rfl
  | remark form text => cases starts

namespace Reading

def OpensComment (c : Char) (text : List Char) : Prop :=
  c = '/' ∧ (text.head? = some '*' ∨ text.head? = some '/')

theorem not_opensComment_of_char {c : Char} {text : List Char}
    (h : start.step c text = .read (start.push (.char c)) text) : ¬OpensComment c text := by
  rintro ⟨rfl, star | slash⟩
  · simp only [step, Text.isQuote, star] at h
    cases closed : closeComment text.tail with
    | none => simp [closed] at h
    | some found => simp [closed, push] at h
  · simp [step, Text.isQuote, slash, push, start, allowsLineComment, insideUrl, followsColon] at h

theorem exists_pieceOfStep {next : Reading} {c : Char} {text rest : List Char}
    (h : start.step c text = .read next rest) :
    ∃ piece, next.pieces.getLast? = some piece ∧
      (piece.startsStatement = true ↔ Text.isAsciiBlank c = false ∧ ¬OpensComment c text) := by
  cases move_of_step h with
  | @quoted _ _ body _ isQuote =>
      refine ⟨.quoted (c :: body), rfl, ?_⟩
      simp only [Text.isQuote, Bool.or_eq_true, beq_iff_eq] at isQuote
      rcases isQuote with rfl | rfl
      · simp [Piece.startsStatement, OpensComment, Text.isAsciiBlank]
      · simp [Piece.startsStatement, OpensComment, Text.isAsciiBlank]
  | @blockRemark _ body =>
      exact ⟨.remark .block ('/' :: '*' :: body), rfl,
        by simp [Piece.startsStatement, OpensComment]⟩
  | @lineRemark text =>
      exact ⟨.remark .line ('/' :: lineRest ('/' :: text)), rfl,
        by simp [Piece.startsStatement, OpensComment]⟩
  | openInterpolation =>
      exact ⟨.char '#', rfl, by simp [Piece.startsStatement, OpensComment, Text.isAsciiBlank]⟩
  | closeInterpolation isOpen => exact (isOpen rfl).elim
  | openGroup isOpener =>
      refine ⟨.char c, rfl, ?_⟩
      rcases isOpener with rfl | rfl
      · simp [Piece.startsStatement, OpensComment, Text.isAsciiBlank]
      · simp [Piece.startsStatement, OpensComment, Text.isAsciiBlank]
  | closeGroup isCloser isOpen => cases isOpen
  | char => exact ⟨.char c, rfl, by simp [Piece.startsStatement, not_opensComment_of_char h]⟩

/-- The first step tells whether the text starts a statement, and later steps keep its piece. -/
theorem exists_firstPiece {next last : Reading} {c : Char} {text rest left : List Char}
    (first : start.step c text = .read next rest) (later : Steps next rest last left) :
    ∃ piece, last.pieces.reverse.head? = some piece ∧
      (piece.startsStatement = true ↔ Text.isAsciiBlank c = false ∧ ¬OpensComment c text) := by
  obtain ⟨piece, found, starts⟩ := exists_pieceOfStep first
  obtain ⟨added, grown⟩ := later.pieces_suffix
  have nonempty : next.pieces ≠ [] := by
    intro empty
    rw [empty] at found
    cases found
  refine ⟨piece, ?_, starts⟩
  rw [List.head?_reverse, ← grown, List.getLast?_append_of_ne_nil _ nonempty, found]

end Reading

/-! ## Tokens by their form -/

namespace Token

open Reading (OpensComment)

/-- A text begins with a token and goes on with the given rest. -/
inductive Begins : List Char → Token → List Char → Prop
  | blank {run rest : List Char} (nonempty : run ≠ [])
      (all : ∀ c ∈ run, Text.isAsciiBlank c = true)
      (stops : ∀ c ∈ rest.head?, Text.isAsciiBlank c = false) :
      Begins (run ++ rest) (.blank run) rest
  | blockComment {body rest : List Char} (closed : closeComment body = some (body, [])) :
      Begins ('/' :: '*' :: (body ++ rest)) (.comment .block ('/' :: '*' :: body)) rest
  | lineComment {line rest : List Char} (noBreak : ∀ c ∈ line, c ≠ '\n')
      (stops : ∀ c ∈ rest.head?, c = '\n') :
      Begins ('/' :: '/' :: (line ++ rest)) (.comment .line ('/' :: '/' :: line)) rest
  | semicolon {rest : List Char} : Begins (';' :: rest) .semicolon rest
  | close {rest : List Char} : Begins ('}' :: rest) .close rest
  | header {pieces : List Piece} {rest : List Char}
      (starts : ∀ piece ∈ pieces.head?, piece.startsStatement = true)
      (readable : Readable pieces ('{' :: rest)) :
      Begins (rawText pieces ++ '{' :: rest) (.header pieces) rest
  | statement {pieces : List Piece} {rest : List Char} (nonempty : pieces ≠ [])
      (starts : ∀ piece ∈ pieces.head?, piece.startsStatement = true)
      (readable : Readable pieces rest) (stops : ∀ c ∈ rest.head?, c = '}' ∨ c = ';') :
      Begins (rawText pieces ++ rest) (.statement pieces) rest

theorem next_eq_nextStatement {c : Char} {text : List Char}
    (visible : Text.isAsciiBlank c = false) (noComment : ¬OpensComment c text)
    (noEnd : c ≠ ';' ∧ c ≠ '}') : next c text = nextStatement (c :: text) := by
  simp only [OpensComment, not_and, not_or] at noComment
  rw [next, if_neg (by simp [visible]), if_neg fun h => (noComment h.1).1 h.2,
    if_neg fun h => (noComment h.1).2 h.2, if_neg noEnd.1, if_neg noEnd.2]

/-- Statement text starts with a piece of its own, unless nothing stands before its end. -/
theorem startsStatement_of_readable {c : Char} {text rest : List Char} {pieces : List Piece}
    (visible : Text.isAsciiBlank c = false) (noComment : ¬OpensComment c text)
    (whole : c :: text = rawText pieces ++ rest) (readable : Readable pieces rest) :
    (∀ piece ∈ pieces.head?, piece.startsStatement = true) ∧ (pieces = [] → rest = c :: text) := by
  obtain ⟨last, steps, _, rfl⟩ := readable
  rw [← whole] at steps
  cases steps with
  | refl => simp [Reading.start]
  | step first later =>
      obtain ⟨piece, head, starts⟩ := Reading.exists_firstPiece first later
      constructor
      · rw [head]
        rintro _ ⟨⟩
        exact starts.mpr ⟨visible, noComment⟩
      · intro empty
        rw [empty] at head
        cases head

theorem next_of_startsStatement {pieces : List Piece} {rest : List Char} (nonempty : pieces ≠ [])
    (starts : ∀ piece ∈ pieces.head?, piece.startsStatement = true)
    (readable : Readable pieces rest) :
    ∃ c text, rawText pieces ++ rest = c :: text ∧ next c text = nextStatement (c :: text) := by
  obtain ⟨last, steps, _, rfl⟩ := readable
  generalize rawText last.pieces.reverse ++ rest = whole at steps
  cases steps with
  | refl => exact (nonempty rfl).elim
  | @step _ _ _ c text _ _ first later =>
      obtain ⟨piece, head, startsIff⟩ := Reading.exists_firstPiece first later
      obtain ⟨visible, noComment⟩ := startsIff.mp (starts piece head)
      refine ⟨c, text, rfl, next_eq_nextStatement visible noComment ⟨?_, ?_⟩⟩
      · rintro rfl
        cases first
      · rintro rfl
        cases first

theorem begins_of_nextStatement {c : Char} {text rest : List Char} {token : Token}
    (visible : Text.isAsciiBlank c = false) (noComment : ¬OpensComment c text)
    (noEnd : c ≠ ';' ∧ c ≠ '}') (h : nextStatement (c :: text) = .ok (token, rest)) :
    Begins (c :: text) token rest := by
  unfold nextStatement at h
  split at h
  · next pieces rest read =>
      cases h
      obtain ⟨whole, readable, _⟩ := statementPieces_eq_ok_iff.mp read
      have starts := (startsStatement_of_readable visible noComment whole readable).1
      rw [whole]
      exact .header starts readable
  · next pieces rest noBrace read =>
      cases h
      obtain ⟨whole, readable, isEnd⟩ := statementPieces_eq_ok_iff.mp read
      obtain ⟨starts, ends⟩ := startsStatement_of_readable visible noComment whole readable
      have stops : ∀ c ∈ rest.head?, c = '}' ∨ c = ';' := by
        intro d head
        rcases isEnd d head with rfl | other
        · obtain ⟨rest, rfl⟩ := List.head?_eq_some_iff.mp head
          exact (noBrace rest rfl).elim
        · exact other
      have nonempty : pieces ≠ [] := by
        intro empty
        have whole := ends empty
        subst whole
        rcases stops c rfl with rfl | rfl
        · exact noEnd.2 rfl
        · exact noEnd.1 rfl
      rw [whole]
      exact .statement nonempty starts readable stops
  · cases h

theorem begins_of_next {c : Char} {text rest : List Char} {token : Token}
    (h : next c text = .ok (token, rest)) : Begins (c :: text) token rest := by
  unfold next at h
  split at h
  · next isBlank =>
      cases h
      have whole : c :: text = (c :: text.takeWhile Text.isAsciiBlank) ++
          text.dropWhile Text.isAsciiBlank := by simp
      rw [whole]
      refine .blank (by simp) ?_ ?_
      · intro d member
        rcases List.mem_cons.mp member with rfl | member
        · exact isBlank
        · exact List.all_eq_true.mp List.all_takeWhile d member
      · exact Text.head?_dropWhile Text.isAsciiBlank text
  next visible =>
  split at h
  · next opens =>
      obtain ⟨rfl, second⟩ := opens
      obtain ⟨text, rfl⟩ := List.head?_eq_some_iff.mp second
      split at h
      · next body rest closed =>
          cases h
          rw [List.tail_cons] at closed
          rw [← closeComment_append closed]
          have alone := closeComment_append_of_some closed []
          rw [List.append_nil] at alone
          exact .blockComment alone
      · cases h
  next noBlock =>
  split at h
  · next opens =>
      obtain ⟨rfl, second⟩ := opens
      obtain ⟨text, rfl⟩ := List.head?_eq_some_iff.mp second
      cases h
      have noBreak : ∀ c ∈ lineRest text, c ≠ '\n' := by
        intro c member
        simpa using List.all_eq_true.mp List.all_takeWhile c member
      have line := Begins.lineComment noBreak (head?_afterLine text)
      rw [lineRest_append_afterLine] at line
      exact line
  next noLine =>
  split at h
  · next isSemicolon =>
      subst isSemicolon
      cases h
      exact .semicolon
  next noSemicolon =>
  split at h
  · next isClose =>
      subst isClose
      cases h
      exact .close
  · next noClose =>
      have noComment : ¬OpensComment c text := by
        rintro ⟨slash, star | second⟩
        · exact noBlock ⟨slash, star⟩
        · exact noLine ⟨slash, second⟩
      exact begins_of_nextStatement (by simpa using visible) noComment ⟨noSemicolon, noClose⟩ h

namespace Begins

theorem raw_append {text rest : List Char} {token : Token} (begins : Begins text token rest) :
    token.raw ++ rest = text := by
  cases begins <;> simp [raw]

theorem exists_next {text rest : List Char} {token : Token} (begins : Begins text token rest) :
    ∃ c tail, text = c :: tail ∧ next c tail = .ok (token, rest) := by
  cases begins with
  | @blank run rest nonempty all stops =>
      obtain ⟨c, run, rfl⟩ := List.exists_cons_of_ne_nil nonempty
      have later : ∀ d ∈ run, Text.isAsciiBlank d = true :=
        fun d member => all d (List.mem_cons_of_mem _ member)
      refine ⟨c, run ++ rest, rfl, ?_⟩
      rw [next, if_pos (all c List.mem_cons_self), Text.takeWhile_append_of_head? later stops,
        Text.dropWhile_append_of_head? later stops]
  | @blockComment body rest closed =>
      refine ⟨'/', '*' :: (body ++ rest), rfl, ?_⟩
      have found := closeComment_append_of_some closed rest
      simp [next, Text.isAsciiBlank, found]
  | @lineComment line rest noBreak stops =>
      refine ⟨'/', '/' :: (line ++ rest), rfl, ?_⟩
      have all : ∀ c ∈ '/' :: line, (c != '\n') = true := by
        simpa using noBreak
      have head : ∀ c ∈ rest.head?, (c != '\n') = false := by
        intro c found
        simp [stops c found]
      have line_eq : lineRest ('/' :: line ++ rest) = '/' :: line :=
        Text.takeWhile_append_of_head? all head
      have after_eq : afterLine ('/' :: line ++ rest) = rest :=
        Text.dropWhile_append_of_head? all head
      rw [List.cons_append] at line_eq after_eq
      simp [next, Text.isAsciiBlank, line_eq, after_eq]
  | semicolon => exact ⟨';', rest, rfl, rfl⟩
  | close => exact ⟨'}', rest, rfl, rfl⟩
  | @header pieces rest starts readable =>
      have read : statementPieces (rawText pieces ++ '{' :: rest) = .ok (pieces, '{' :: rest) :=
        statementPieces_eq_ok_iff.mpr ⟨rfl, readable, by simp [Reading.IsEnd]⟩
      by_cases empty : pieces = []
      · subst empty
        rw [rawText_nil, List.nil_append] at read ⊢
        refine ⟨'{', rest, rfl, ?_⟩
        rw [next_eq_nextStatement (by decide) (by simp [OpensComment]) (by decide), nextStatement,
          read]
        rfl
      · obtain ⟨c, text, whole, same⟩ := next_of_startsStatement empty starts readable
        refine ⟨c, text, whole, ?_⟩
        rw [same, ← whole, nextStatement, read]
        rfl
  | @statement pieces rest nonempty starts readable stops =>
      have isEnd : Reading.IsEnd rest := fun c head => .inr (stops c head)
      have read : statementPieces (rawText pieces ++ rest) = .ok (pieces, rest) :=
        statementPieces_eq_ok_iff.mpr ⟨rfl, readable, isEnd⟩
      obtain ⟨c, text, whole, same⟩ := next_of_startsStatement nonempty starts readable
      refine ⟨c, text, whole, ?_⟩
      rw [same, ← whole, nextStatement, read]
      split
      · next rest read =>
          cases read
          rcases stops '{' rfl with brace | brace <;> cases brace
      · next read =>
          cases read
          rfl
      · next read => cases read

end Begins

/-! ## What may follow a token -/

/-- The rest that can follow a token, by its first character. -/
def Fits (rest : List Char) : Token → Prop
  | blank _ => ∀ c ∈ rest.head?, Text.isAsciiBlank c = false
  | comment .line _ => ∀ c ∈ rest.head?, c = '\n'
  | statement pieces => ∀ c ∈ rest.head?, (c = '}' ∨ c = ';') ∧ fillsLine pieces = false
  | comment .block _ => True
  | semicolon => True
  | close => True
  | header _ => True

theorem fits_nil (token : Token) : token.Fits [] := by
  cases token with
  | comment form => cases form <;> simp [Fits]
  | _ => simp [Fits]

theorem fits_congr {token : Token} {rest rest' : List Char} (same : rest'.head? = rest.head?)
    (fits : token.Fits rest) : token.Fits rest' := by
  cases token with
  | comment form =>
      cases form with
      | block => trivial
      | line =>
          unfold Fits
          rw [same]
          exact fits
  | blank | statement =>
      unfold Fits
      rw [same]
      exact fits
  | _ => trivial

theorem fits_statement {pieces pieces' : List Piece} {rest : List Char}
    (fits : (statement pieces).Fits rest)
    (fills : fillsLine pieces' = true → fillsLine pieces = true) :
    (statement pieces').Fits rest := by
  intro c head
  obtain ⟨isEnd, noLine⟩ := fits c head
  rw [Bool.eq_false_iff] at noLine ⊢
  exact ⟨isEnd, fun fills' => noLine (fills fills')⟩

theorem Begins.fits {text rest : List Char} {token : Token} (begins : Begins text token rest) :
    token.Fits rest := by
  cases begins with
  | blank _ _ stops => exact stops
  | lineComment _ stops => exact stops
  | statement _ _ readable stops =>
      intro c head
      refine ⟨stops c head, ?_⟩
      rw [Bool.eq_false_iff]
      intro fills
      have feed := readable.head?_of_fillsLine fills c head
      rcases stops c head with rfl | rfl <;> cases feed
  | _ => trivial

/-- A token is cut off in front of every rest that fits. -/
theorem Begins.of_fits {text rest rest' : List Char} {token : Token}
    (begins : Begins text token rest) (fits : token.Fits rest') :
    Begins (token.raw ++ rest') token rest' := by
  cases begins with
  | blank nonempty all _ => exact .blank nonempty all fits
  | blockComment closed => exact .blockComment closed
  | lineComment noBreak _ => exact .lineComment noBreak fits
  | semicolon => exact .semicolon
  | close => exact .close
  | @header pieces _ starts readable =>
      have readable' : Readable pieces ('{' :: rest') := readable.admits (.inl rfl)
      simpa [raw] using Begins.header starts readable'
  | statement nonempty starts readable _ =>
      have follows : Reading.Follows rest' := by
        refine ⟨?_, ?_, ?_⟩
        all_goals
          intro head
          rcases (fits _ head).1 with h | h <;> cases h
      refine .statement nonempty starts (readable.admits (.inr ⟨follows, ?_⟩)) ?_
      · intro fills c head
        rw [(fits c head).2] at fills
        cases fills
      · exact fun c head => (fits c head).1

/-- A token that its own text is cut into. -/
def Alone (token : Token) : Prop := Begins token.raw token []

theorem Begins.alone {text rest : List Char} {token : Token} (begins : Begins text token rest) :
    token.Alone := by
  have alone := begins.of_fits token.fits_nil
  rwa [List.append_nil] at alone

theorem alone_blank_iff {run : List Char} :
    (blank run).Alone ↔ run ≠ [] ∧ ∀ c ∈ run, Text.isAsciiBlank c = true := by
  constructor
  · intro alone
    unfold Alone at alone
    generalize (blank run).raw = text at alone
    cases alone with
    | blank nonempty all _ => exact ⟨nonempty, all⟩
  · rintro ⟨nonempty, all⟩
    have begins : Begins (run ++ []) (blank run) [] := .blank nonempty all (by simp)
    exact begins.alone

theorem alone_header_iff {pieces : List Piece} :
    (header pieces).Alone ↔
      (∀ piece ∈ pieces.head?, piece.startsStatement = true) ∧ Readable pieces ['{'] := by
  constructor
  · intro alone
    unfold Alone at alone
    generalize (header pieces).raw = text at alone
    cases alone with
    | header starts readable => exact ⟨starts, readable⟩
  · rintro ⟨starts, readable⟩
    exact .header starts readable

theorem alone_statement_iff {pieces : List Piece} :
    (statement pieces).Alone ↔ pieces ≠ [] ∧
      (∀ piece ∈ pieces.head?, piece.startsStatement = true) ∧ Readable pieces [] := by
  constructor
  · intro alone
    unfold Alone at alone
    generalize (statement pieces).raw = text at alone
    cases alone with
    | statement nonempty starts readable _ => exact ⟨nonempty, starts, readable⟩
  · rintro ⟨nonempty, starts, readable⟩
    have begins := Begins.statement nonempty starts readable (by simp)
    rwa [List.append_nil] at begins

theorem Alone.statement_of_head? {pieces pieces' : List Piece} (alone : (statement pieces).Alone)
    (head : pieces'.head? = pieces.head?) (readable : Readable pieces' []) :
    (statement pieces').Alone := by
  obtain ⟨nonempty, starts, _⟩ := alone_statement_iff.mp alone
  refine alone_statement_iff.mpr ⟨?_, by rwa [head], readable⟩
  intro nothing
  rw [nothing, List.head?_nil, eq_comm, List.head?_eq_none_iff] at head
  exact nonempty head

theorem Alone.raw_ne_nil {token : Token} (alone : token.Alone) : token.raw ≠ [] := by
  obtain ⟨c, tail, whole, _⟩ := alone.exists_next
  simp [whole]

end Token

/-! ## Cut texts -/

/-- Each token is one by itself and fits the tokens after it. -/
def WellCut : List Token → Prop
  | [] => True
  | token :: tokens => token.Alone ∧ token.Fits (rawTokens tokens) ∧ WellCut tokens

namespace WellCut

theorem append_iff {a b : List Token} :
    WellCut (a ++ b) ↔
      WellCut a ∧ WellCut b ∧ ∀ token ∈ a.getLast?, token.Fits (rawTokens b) := by
  induction a with
  | nil => simp [WellCut]
  | cons token a ih =>
      cases a with
      | nil => simp [WellCut, Token.fits_nil, and_comm]
      | cons next a =>
          have same (alone : next.Alone) :
              (rawTokens (next :: a ++ b)).head? = (rawTokens (next :: a)).head? := by
            obtain ⟨c, raw, whole⟩ := List.exists_cons_of_ne_nil alone.raw_ne_nil
            simp [whole]
          constructor
          · rintro ⟨alone, fits, later⟩
            obtain ⟨first, second, seam⟩ := ih.mp later
            exact ⟨⟨alone, Token.fits_congr (same first.1).symm fits, first⟩, second, seam⟩
          · rintro ⟨⟨alone, fits, first⟩, second, seam⟩
            exact ⟨alone, Token.fits_congr (same first.1) fits, ih.mpr ⟨first, second, seam⟩⟩

/-- A token can be replaced by one that starts with the same character, and the tokens after it by
others that it fits. -/
theorem replace {earlier later later' : List Token} {token token' : Token}
    (cut : WellCut (earlier ++ token :: later)) (alone : token'.Alone)
    (head : token'.raw.head? = token.raw.head?) (cut' : WellCut later')
    (fits : token'.Fits (rawTokens later')) : WellCut (earlier ++ token' :: later') := by
  obtain ⟨before, _, seam⟩ := append_iff.mp cut
  refine append_iff.mpr ⟨before, ⟨alone, fits, cut'⟩, ?_⟩
  intro last found
  refine Token.fits_congr ?_ (seam last found)
  obtain ⟨c, raw, whole⟩ := List.exists_cons_of_ne_nil alone.raw_ne_nil
  simp only [rawTokens_cons, List.head?_append, ← head, whole, List.head?_cons, Option.some_or]

theorem alone_of_mem {tokens : List Token} (cut : WellCut tokens) :
    ∀ token ∈ tokens, token.Alone := by
  induction tokens with
  | nil => simp
  | cons token tokens ih =>
      rw [List.forall_mem_cons]
      exact ⟨cut.1, ih cut.2.2⟩

end WellCut

namespace TokenStream

theorem ofText_rawTokens_append {tokens : List Token} {rest : List Char} (cut : WellCut tokens)
    (fits : ∀ token ∈ tokens.getLast?, token.Fits rest) :
    ofText (rawTokens tokens ++ rest) =
      ⟨tokens ++ (ofText rest).tokens, (ofText rest).fault⟩ := by
  induction tokens with
  | nil => rfl
  | cons token tokens ih =>
      obtain ⟨alone, fitsTokens, later⟩ := cut
      have fitsRest : token.Fits (rawTokens tokens ++ rest) := by
        cases tokens with
        | nil => exact fits token rfl
        | cons next tokens =>
            obtain ⟨c, raw, whole⟩ := List.exists_cons_of_ne_nil later.1.raw_ne_nil
            exact Token.fits_congr (by simp [whole]) fitsTokens
      have begins := alone.of_fits fitsRest
      obtain ⟨c, tail, whole, next⟩ := begins.exists_next
      have fitsLater : ∀ token ∈ tokens.getLast?, token.Fits rest := by
        cases tokens with
        | nil => simp
        | cons next tokens => simpa using fits
      rw [rawTokens_cons, List.append_assoc, whole, ofText_of_next next, ih later fitsLater]
      rfl

theorem wellCut_ofText (text : List Char) (faultless : (ofText text).fault = none) :
    WellCut (ofText text).tokens := by
  induction text using text_induction with
  | nil => simp [ofText_nil, WellCut]
  | fault c text stop h =>
      rw [ofText_of_fault h] at faultless
      cases faultless
  | token c text first rest h ih =>
      have begins := Token.begins_of_next h
      rw [ofText_of_next h] at faultless ⊢
      refine ⟨begins.alone, ?_, ih faultless⟩
      rw [rawTokens_ofText rest faultless]
      exact begins.fits

/-- A list of tokens is the cut of its text exactly if it is well cut. -/
theorem ofText_eq_iff {text : List Char} {tokens : List Token} :
    ofText text = ⟨tokens, none⟩ ↔ rawTokens tokens = text ∧ WellCut tokens := by
  constructor
  · intro h
    have faultless : (ofText text).fault = none := by rw [h]
    have raw := rawTokens_ofText text faultless
    have cut := wellCut_ofText text faultless
    rw [h] at raw cut
    exact ⟨raw, cut⟩
  · rintro ⟨rfl, cut⟩
    have whole := @ofText_rawTokens_append tokens [] cut fun token _ => token.fits_nil
    simpa [ofText_nil] using whole

end TokenStream

/-! ## Accepted texts -/

namespace Stylesheet

/-- What stands before the body of a text: a byte order mark, or nothing. -/
def IsMark (mark body : List Char) : Prop :=
  mark = ['\ufeff'] ∨ mark = [] ∧ body.head? ≠ some '\ufeff'

theorem IsMark.congr {mark body body' : List Char} (isMark : IsMark mark body)
    (same : body'.head? = body.head?) : IsMark mark body' := by
  unfold IsMark
  rw [same]
  exact isMark

theorem withoutMark_of_isMark {mark body : List Char} (isMark : IsMark mark body) :
    withoutMark (mark ++ body) = body := by
  rcases isMark with rfl | ⟨rfl, noMark⟩
  · rfl
  · rcases withoutMark_cases body with ⟨rest, marked, _⟩ | ⟨_, whole, _⟩
    · rw [marked] at noMark
      exact (noMark rfl).elim
    · exact whole

theorem bodyStart_of_isMark {mark body : List Char} (isMark : IsMark mark body) :
    bodyStart (mark ++ body) = Text.byteSize mark := by
  rw [bodyStart, withoutMark_of_isMark isMark, Text.byteSize_append, Nat.add_sub_cancel]

theorem exists_isMark (source : List Char) :
    ∃ mark body, source = mark ++ body ∧ IsMark mark body := by
  rcases withoutMark_cases source with ⟨text, marked, _⟩ | ⟨unmarked, _⟩
  · exact ⟨['\ufeff'], text, marked, .inl rfl⟩
  · exact ⟨[], source, rfl, .inr ⟨rfl, unmarked⟩⟩

/-- A text is accepted if its body consists of well-cut tokens that derive nodes of which none is
too high. -/
theorem read_of_tokens {mark : List Char} {tokens : List Token} {nodes : List Node}
    (isMark : IsMark mark (rawTokens tokens)) (cut : WellCut tokens)
    (derived : Derives (Text.byteSize mark) tokens nodes)
    (room : Node.heightOfList nodes ≤ maxDepth) :
    read (String.ofList (mark ++ rawTokens tokens)) = .ok nodes := by
  have stream : tokenStream (mark ++ rawTokens tokens) = ⟨tokens, none⟩ := by
    rw [tokenStream, withoutMark_of_isMark isMark]
    exact TokenStream.ofText_eq_iff.mpr ⟨rfl, cut⟩
  rw [read_eq_ok_iff, String.toList_ofList, nodesWithin_eq_ok_iff, stream,
    bodyStart_of_isMark isMark]
  exact ⟨rfl, derived, room⟩

/-- Every accepted text consists so. -/
theorem exists_tokens_of_read {source : String} {nodes : List Node}
    (accepted : read source = .ok nodes) :
    ∃ mark tokens, source.toList = mark ++ rawTokens tokens ∧ IsMark mark (rawTokens tokens) ∧
      tokenStream source.toList = ⟨tokens, none⟩ ∧ WellCut tokens ∧
      Derives (Text.byteSize mark) tokens nodes ∧ Node.heightOfList nodes ≤ maxDepth := by
  obtain ⟨faultless, derived, room⟩ := nodesWithin_eq_ok_iff.mp (read_eq_ok_iff.mp accepted)
  obtain ⟨mark, body, whole, isMark⟩ := exists_isMark source.toList
  have stream : tokenStream source.toList = TokenStream.ofText body := by
    rw [whole, tokenStream, withoutMark_of_isMark isMark]
  rw [stream] at faultless derived ⊢
  rw [whole, bodyStart_of_isMark isMark] at derived
  have raw := TokenStream.rawTokens_ofText body faultless
  refine ⟨mark, (TokenStream.ofText body).tokens, by rw [whole, raw], by rwa [raw], ?_,
    TokenStream.wellCut_ofText body faultless, derived, room⟩
  rw [← faultless]

end Stylesheet

end StyleDoc
