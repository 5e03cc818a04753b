import StyleDoc.Proofs.Balanced
import StyleDoc.Proofs.Texts

/-!
# How far reading looks ahead

A step of reading a statement takes some characters off the text and leaves the rest.  What it does
depends on the rest only through the first character: a slash or a number sign may open something
together with it, and a line comment goes on up to a line feed.  So what was read is read in the
same way in front of another rest, as long as that one opens nothing new.
-/

namespace StyleDoc

/-! ## Literals and comments end by themselves -/

theorem literalRest_of_closeQuoteAux {quote : Char} {read text body rest : List Char}
    (h : closeQuoteAux quote read text = .ok (body, rest)) :
    ∃ inner, LiteralRest quote inner ∧ body = read.reverse ++ inner := by
  fun_induction closeQuoteAux quote read text with
  | case1 => cases h
  | case2 read c text ih =>
      obtain ⟨inner, literal, whole⟩ := ih h
      exact ⟨'\\' :: c :: inner, .escape literal, by simp [whole]⟩
  | case3 => cases h
  | case4 read text =>
      cases h
      exact ⟨[quote], .close, by simp⟩
  | case5 read c text noEscape noBreak notQuote ih =>
      have notEscape : c ≠ '\\' := by
        rintro rfl
        cases text with
        | nil => cases h
        | cons d text => exact noEscape d text rfl rfl
      obtain ⟨inner, literal, whole⟩ := ih h
      exact ⟨c :: inner, .char ⟨notQuote, notEscape, noBreak⟩ literal, by simp [whole]⟩

theorem literalRest_of_closeQuote {quote : Char} {text body rest : List Char}
    (h : closeQuote quote text = .ok (body, rest)) : LiteralRest quote body := by
  obtain ⟨inner, literal, rfl⟩ := literalRest_of_closeQuoteAux h
  exact literal

theorem closeCommentAux_of_some {read text body rest : List Char}
    (h : closeCommentAux read text = some (body, rest)) :
    ∃ inner, body = read.reverse ++ inner ∧ text = inner ++ rest ∧ inner ≠ [] ∧
      ∀ rest', closeCommentAux read (inner ++ rest') = some (body, rest') := by
  fun_induction closeCommentAux read text with
  | case1 => cases h
  | case2 read text =>
      cases h
      exact ⟨['*', '/'], by simp, rfl, by simp, fun _ => by simp [closeCommentAux]⟩
  | case3 read c text noEnd ih =>
      obtain ⟨inner, whole, split, nonempty, later⟩ := ih h
      refine ⟨c :: inner, by simp [whole], by simp [split], by simp, ?_⟩
      intro rest'
      rw [List.cons_append, closeCommentAux, later rest']
      rintro more rfl starts
      obtain ⟨d, inner, rfl⟩ := List.exists_cons_of_ne_nil nonempty
      cases starts
      exact noEnd _ rfl split

theorem closeComment_append_of_some {text body rest : List Char}
    (h : closeComment text = some (body, rest)) (rest' : List Char) :
    closeComment (body ++ rest') = some (body, rest') := by
  obtain ⟨inner, rfl, _, _, later⟩ := closeCommentAux_of_some h
  exact later rest'

theorem head?_afterLine (text : List Char) : ∀ c ∈ (afterLine text).head?, c = '\n' := by
  intro c head
  simpa using Text.head?_dropWhile (fun c => c != '\n') text c head

theorem lineRest_append {text rest : List Char} (ends : ∀ c ∈ rest.head?, c = '\n') :
    lineRest (lineRest text ++ rest) = lineRest text ∧
      afterLine (lineRest text ++ rest) = rest := by
  have all : ∀ c ∈ lineRest text, (c != '\n') = true :=
    List.all_eq_true.mp List.all_takeWhile
  have head : ∀ c ∈ rest.head?, (c != '\n') = false := by
    intro c found
    simp [ends c found]
  exact ⟨Text.takeWhile_append_of_head? all head, Text.dropWhile_append_of_head? all head⟩

/-! ## One step -/

/-- Whether a piece goes on up to the end of its line. -/
def Piece.fillsLine : Piece → Bool
  | remark .line _ => true
  | _ => false

def Piece.isRemark : Piece → Bool
  | remark _ _ => true
  | _ => false

namespace Reading

def fillsLine (reading : Reading) : Bool := reading.pieces.head?.any Piece.fillsLine

@[simp] theorem fillsLine_push (reading : Reading) (piece : Piece) :
    (reading.push piece).fillsLine = piece.fillsLine := rfl

/-- What can stand in the place of `rest` after a reading without changing what was read: a text
with the same first character, or one that neither opens anything nor lengthens a line comment. -/
def Admits (reading : Reading) (rest rest' : List Char) : Prop :=
  rest'.head? = rest.head? ∨
    Follows rest' ∧ (reading.fillsLine = true → ∀ c ∈ rest'.head?, c = '\n')

def Opens (reading : Reading) (c : Char) (text : List Char) : Prop :=
  Text.isQuote c = true ∨ c = '/' ∧ text.head? = some '*' ∨
    c = '/' ∧ text.head? = some '/' ∧ reading.allowsLineComment = true ∨
    c = '#' ∧ text.head? = some '{'

theorem step_of_not_opens {reading next : Reading} {c : Char} {text rest : List Char}
    (h : reading.step c text = .read next rest) (alone : ¬reading.Opens c text)
    (text' : List Char) (alone' : ¬reading.Opens c text') :
    rest = text ∧ reading.step c text' = .read next text' := by
  simp only [Opens, not_or] at alone alone'
  unfold step at h ⊢
  rw [if_neg alone.1, if_neg alone.2.1, if_neg alone.2.2.1, if_neg alone.2.2.2] at h
  rw [if_neg alone'.1, if_neg alone'.2.1, if_neg alone'.2.2.1, if_neg alone'.2.2.2]
  split at h
  · next closes =>
      cases h
      exact ⟨rfl, if_pos closes⟩
  · next noClose =>
      rw [if_neg noClose]
      split at h
      · cases h
      · next noStop =>
          rw [if_neg noStop]
          split at h
          · next opener =>
              cases h
              exact ⟨rfl, if_pos opener⟩
          · next noOpener =>
              rw [if_neg noOpener]
              split at h
              · next closer =>
                  rw [if_pos closer]
                  split at h
                  · cases h
                  · next isOpen =>
                      cases h
                      exact ⟨rfl, rfl⟩
              · next noCloser =>
                  cases h
                  exact ⟨rfl, if_neg noCloser⟩

theorem not_opens_of_admits {reading next : Reading} {c : Char} {rest rest' : List Char}
    (alone : ¬reading.Opens c rest) (admits : next.Admits rest rest') :
    ¬reading.Opens c rest' := by
  rcases admits with same | ⟨⟨noSlash, noStar, noBrace⟩, _⟩
  · unfold Opens
    rw [same]
    exact alone
  · rintro (quote | ⟨_, star⟩ | ⟨_, slash, _⟩ | ⟨_, brace⟩)
    · exact alone (.inl quote)
    · exact noStar star
    · exact noSlash slash
    · exact noBrace brace

theorem step_lineRemark {reading : Reading} (allowed : reading.allowsLineComment = true)
    (text : List Char) :
    reading.step '/' ('/' :: text) =
      .read (reading.push (.remark .line ('/' :: lineRest ('/' :: text))))
        (afterLine ('/' :: text)) := by
  simp [step, Text.isQuote, allowed]

/-- A step reads the same characters in front of another rest. -/
theorem step_admits {reading next : Reading} {c : Char} {text rest : List Char}
    (h : reading.step c text = .read next rest) :
    ∃ inner, text = inner ++ rest ∧ ∀ rest', next.Admits rest rest' →
      reading.step c (inner ++ rest') = .read next rest' := by
  by_cases opens : reading.Opens c text
  · rcases opens with isQuote | ⟨rfl, second⟩ | ⟨rfl, second, allowed⟩ | ⟨rfl, second⟩
    · rw [step, if_pos isQuote] at h
      split at h
      · next body _ closed =>
          cases h
          have literal := literalRest_of_closeQuote closed
          exact ⟨body, (closeQuote_append closed).symm, fun _ _ => step_literal isQuote literal⟩
      · cases h
    · obtain ⟨text, rfl⟩ := List.head?_eq_some_iff.mp second
      simp only [step, Text.isQuote, List.head?_cons, List.tail_cons] at h
      cases closed : closeComment text with
      | none => simp [closed] at h
      | some found =>
          obtain ⟨body, after⟩ := found
          simp only [closed] at h
          cases h
          refine ⟨'*' :: body, by simp [closeComment_append closed], ?_⟩
          intro rest' _
          simp [step, Text.isQuote, closeComment_append_of_some closed]
    · obtain ⟨text, rfl⟩ := List.head?_eq_some_iff.mp second
      rw [step_lineRemark allowed] at h
      cases h
      refine ⟨lineRest ('/' :: text), (lineRest_append_afterLine _).symm, ?_⟩
      intro rest' admits
      have ends : ∀ c ∈ rest'.head?, c = '\n' := by
        rcases admits with same | ⟨_, ends⟩
        · rw [same]
          exact head?_afterLine _
        · exact ends rfl
      obtain ⟨line, after⟩ := @lineRest_append ('/' :: text) rest' ends
      have slash : ∃ more, lineRest ('/' :: text) ++ rest' = '/' :: more := ⟨_, rfl⟩
      obtain ⟨more, starts⟩ := slash
      rw [starts] at line after ⊢
      rw [step_lineRemark allowed, line, after]
    · obtain ⟨text, rfl⟩ := List.head?_eq_some_iff.mp second
      rw [step_openInterpolation] at h
      cases h
      exact ⟨['{'], rfl, fun _ _ => step_openInterpolation⟩
  · have here : rest = text := (step_of_not_opens h opens text opens).1
    subst here
    refine ⟨[], rfl, ?_⟩
    intro rest' admits
    exact (step_of_not_opens h opens rest' (not_opens_of_admits opens admits)).2

theorem pieces_of_step {reading next : Reading} {c : Char} {text rest : List Char}
    (h : reading.step c text = .read next rest) :
    (∃ form body, next = reading.push (.remark form body) ∧ c :: text = body ++ rest) ∨
      ∃ added, added ≠ [] ∧ (∀ piece ∈ added, piece.isRemark = false) ∧
        next.pieces = added.reverse ++ reading.pieces := by
  cases move_of_step h with
  | blockRemark closed =>
      exact .inl ⟨.block, _, rfl, by rw [← closeComment_append closed]; rfl⟩
  | lineRemark allowed =>
      exact .inl ⟨.line, _, rfl, by rw [List.cons_append, lineRest_append_afterLine]⟩
  | @quoted _ _ body => exact .inr ⟨[.quoted (c :: body)], by simp, by simp [Piece.isRemark], rfl⟩
  | openInterpolation =>
      exact .inr ⟨[.char '#', .char '{'], by simp, by simp [Piece.isRemark], rfl⟩
  | closeInterpolation => exact .inr ⟨[.char '}'], by simp, by simp [Piece.isRemark], rfl⟩
  | openGroup => exact .inr ⟨[.char c], by simp, by simp [Piece.isRemark], rfl⟩
  | closeGroup => exact .inr ⟨[.char c], by simp, by simp [Piece.isRemark], rfl⟩
  | char => exact .inr ⟨[.char c], by simp, by simp [Piece.isRemark], rfl⟩

/-- A line comment is read only where one is allowed, and up to the end of its line. -/
theorem lineRemark_of_step {reading : Reading} {c : Char} {text body rest : List Char}
    (h : reading.step c text = .read (reading.push (.remark .line body)) rest) :
    reading.allowsLineComment = true ∧ ∃ more, c :: text = '/' :: '/' :: more ∧
      body = '/' :: lineRest ('/' :: more) ∧ rest = afterLine ('/' :: more) := by
  have move := move_of_step h
  generalize pushed : reading.push (.remark .line body) = next at move
  have same : next.pieces = .remark .line body :: reading.pieces := by
    rw [← pushed, push]
  cases move with
  | @lineRemark more allowed =>
      refine ⟨allowed, more, rfl, ?_, rfl⟩
      simpa [push] using same.symm
  | quoted | blockRemark | openInterpolation | closeInterpolation | openGroup | closeGroup | char =>
      simp [push, openGroup, openInterpolation] at same

/-! ## Many steps -/

/-- Steps of reading, one after another. -/
inductive Steps : Reading → List Char → Reading → List Char → Prop
  | refl {reading : Reading} {text : List Char} : Steps reading text reading text
  | step {reading next last : Reading} {c : Char} {text rest left : List Char}
      (first : reading.step c text = .read next rest) (later : Steps next rest last left) :
      Steps reading (c :: text) last left

namespace Steps

theorem trans {reading next last : Reading} {text rest left : List Char}
    (first : Steps reading text next rest) (second : Steps next rest last left) :
    Steps reading text last left := by
  induction first with
  | refl => exact second
  | step stepped _ ih => exact .step stepped (ih second)

theorem run_eq {reading last : Reading} {text rest : List Char}
    (steps : Steps reading text last rest) : reading.run text = last.run rest := by
  induction steps with
  | refl => rfl
  | step stepped _ ih => rw [run_of_step stepped, ih]

theorem raw_append {reading last : Reading} {text rest : List Char}
    (steps : Steps reading text last rest) : last.raw ++ rest = reading.raw ++ text := by
  induction steps with
  | refl => rfl
  | step stepped _ ih => rw [ih, (move_of_step stepped).raw_append]

theorem pieces_suffix {reading last : Reading} {text rest : List Char}
    (steps : Steps reading text last rest) : reading.pieces <:+ last.pieces := by
  induction steps with
  | refl => exact List.suffix_refl _
  | step stepped _ ih =>
      rcases pieces_of_step stepped with ⟨form, body, rfl, _⟩ | ⟨added, _, _, grown⟩
      · exact (List.suffix_cons _ _).trans ih
      · exact List.IsSuffix.trans ⟨added.reverse, grown.symm⟩ ih

theorem admits {reading last : Reading} {text rest : List Char}
    (steps : Steps reading text last rest) :
    ∃ inner, text = inner ++ rest ∧ (inner = [] → last = reading) ∧
      ∀ rest', last.Admits rest rest' → Steps reading (inner ++ rest') last rest' := by
  induction steps with
  | refl => exact ⟨[], rfl, fun _ => rfl, fun _ _ => .refl⟩
  | @step reading next last c text rest left stepped _ ih =>
      obtain ⟨inner, rfl, still, later⟩ := ih
      obtain ⟨piece, rfl, again⟩ := step_admits stepped
      refine ⟨c :: piece ++ inner, by simp, by simp, ?_⟩
      intro rest' admits
      have admitsNext : next.Admits (inner ++ left) (inner ++ rest') := by
        cases inner with
        | nil =>
            rw [← still rfl]
            exact admits
        | cons d inner => exact .inl rfl
      rw [List.append_assoc, List.cons_append]
      exact .step (again _ admitsNext) (later rest' admits)

theorem head?_of_fillsLine {reading last : Reading} {text rest : List Char}
    (steps : Steps reading text last rest)
    (before : reading.fillsLine = true → ∀ c ∈ text.head?, c = '\n')
    (fills : last.fillsLine = true) : ∀ c ∈ rest.head?, c = '\n' := by
  induction steps with
  | refl => exact before fills
  | step stepped _ ih =>
      refine ih ?_ fills
      intro fillsNext
      cases move_of_step stepped with
      | lineRemark allowed => exact head?_afterLine _
      | quoted => cases fillsNext
      | blockRemark => cases fillsNext
      | openInterpolation => cases fillsNext
      | closeInterpolation => cases fillsNext
      | openGroup => cases fillsNext
      | closeGroup => cases fillsNext
      | char => cases fillsNext

end Steps

/-! ## Blanks and comments inside a statement -/

theorem step_blank {c : Char} (blank : Text.isAsciiBlank c = true) (reading : Reading)
    (text : List Char) : reading.step c text = .read (reading.push (.char c)) text := by
  simp only [Text.isAsciiBlank, Bool.or_eq_true, beq_iff_eq] at blank
  rcases blank with (((rfl | rfl) | rfl) | rfl) | rfl <;> simp [step, Text.isQuote]

theorem follows_of_blank {rest : List Char}
    (blank : ∀ c ∈ rest.head?, Text.isAsciiBlank c = true) : Follows rest := by
  refine ⟨?_, ?_, ?_⟩
  all_goals
    intro head
    cases blank _ head

theorem Steps.blanks {run : List Char} (blank : ∀ c ∈ run, Text.isAsciiBlank c = true)
    (reading : Reading) (rest : List Char) :
    Steps reading (run ++ rest) (reading.pushAll (run.map .char)) rest := by
  induction run generalizing reading with
  | nil =>
      rw [List.map_nil, pushAll_nil]
      exact .refl
  | cons c run ih =>
      rw [List.forall_mem_cons] at blank
      rw [List.map_cons, pushAll_cons]
      exact .step (step_blank blank.1 reading _) (ih blank.2 _)

/-- Where a comment was read, steps lead up to it and on from it. -/
theorem Steps.split_remark {reading last : Reading} {text rest body : List Char}
    {before after : List Piece} {form : CommentForm} (steps : Steps reading text last rest)
    (read : last.pieces.reverse =
      reading.pieces.reverse ++ before ++ .remark form body :: after) :
    ∃ middle c tail left, Steps reading text middle (c :: tail) ∧
      middle.pieces.reverse = reading.pieces.reverse ++ before ∧ c :: tail = body ++ left ∧
      middle.step c tail = .read (middle.push (.remark form body)) left ∧
      Steps (middle.push (.remark form body)) left last rest := by
  induction steps generalizing before with
  | refl => simp at read
  | @step reading next last c text rest left stepped later ih =>
      obtain ⟨more, grown⟩ := later.pieces_suffix
      have further (added before' : List Piece)
          (grownBy : next.pieces = added.reverse ++ reading.pieces)
          (parts : before = added ++ before') :
          ∃ middle c' tail left', Steps reading (c :: text) middle (c' :: tail) ∧
            middle.pieces.reverse = reading.pieces.reverse ++ before ∧
            c' :: tail = body ++ left' ∧
            middle.step c' tail = .read (middle.push (.remark form body)) left' ∧
            Steps (middle.push (.remark form body)) left' last left := by
        obtain ⟨middle, c', tail, left', first, upTo, rest⟩ := @ih before' (by
          rw [read, grownBy, parts]
          simp)
        refine ⟨middle, c', tail, left', .step stepped first, ?_, rest⟩
        rw [upTo, grownBy, parts]
        simp
      rcases pieces_of_step stepped with ⟨form', body', rfl, whole⟩ | ⟨added, _, noRemark, grownBy⟩
      · have parts : .remark form' body' :: more.reverse =
            before ++ .remark form body :: after := by
          rw [← grown] at read
          simpa [push] using read
        cases before with
        | nil =>
            cases (List.cons.inj parts).1
            exact ⟨reading, c, text, rest, .refl, by simp, whole, stepped, later⟩
        | cons piece before =>
            cases (List.cons.inj parts).1
            exact further [.remark form' body'] before rfl rfl
      · have parts : added ++ more.reverse = before ++ .remark form body :: after := by
          rw [← grown, grownBy] at read
          simpa using read
        rcases List.append_eq_append_iff.mp parts with ⟨before', split, _⟩ | ⟨inner, split, rest_eq⟩
        · exact further added before' grownBy split
        · -- A comment inside `added` is excluded, so `added` ends right before this one.
          cases inner with
          | nil => exact further added [] grownBy (by simpa using split.symm)
          | cons piece inner =>
              cases rest_eq
              have isRemark := noRemark (.remark form body) (by simp [split])
              cases isRemark

/-! ## Whole statements -/

/-- Where statement text can end: at the end of the text, or before a brace or a semicolon. -/
def IsEnd (rest : List Char) : Prop := ∀ c ∈ rest.head?, c = '{' ∨ c = '}' ∨ c = ';'

theorem step_eq_stop {reading : Reading} {c : Char} {text : List Char}
    (h : reading.step c text = .stop) :
    (c = '{' ∨ c = '}' ∨ c = ';') ∧ reading.isFlat = true := by
  unfold step at h
  split at h
  · split at h <;> cases h
  split at h
  · split at h <;> cases h
  split at h
  · cases h
  split at h
  · cases h
  split at h
  · cases h
  split at h
  · next stops => exact stops
  split at h
  · cases h
  split at h
  · split at h <;> cases h
  · cases h

theorem finish_eq_ok {reading : Reading} {pieces : List Piece} (h : reading.finish = .ok pieces) :
    reading.isFlat = true ∧ reading.pieces.reverse = pieces := by
  unfold finish at h
  split at h
  · cases h
  · cases h
  · next noGroup noInterpolation =>
      cases h
      simp [isFlat, noGroup, noInterpolation]

theorem finish_of_isFlat {reading : Reading} (flat : reading.isFlat = true) :
    reading.finish = .ok reading.pieces.reverse := by
  simp only [isFlat, Bool.and_eq_true, List.isEmpty_iff] at flat
  simp only [finish, flat.1, flat.2]

/-- Reading a statement succeeds exactly if steps lead to a state with nothing open, right before
an end. -/
theorem run_eq_ok_iff {reading : Reading} {text rest : List Char} {pieces : List Piece} :
    reading.run text = .ok (pieces, rest) ↔
      ∃ last, Steps reading text last rest ∧ last.isFlat = true ∧ last.pieces.reverse = pieces ∧
        IsEnd rest := by
  constructor
  · intro h
    fun_induction Reading.run reading text with
    | case1 reading =>
        cases finished : reading.finish with
        | error fault => simp [finished, Except.map] at h
        | ok found =>
            simp only [finished, Except.map, Except.ok.injEq, Prod.mk.injEq] at h
            obtain ⟨rfl, rfl⟩ := h
            obtain ⟨flat, read⟩ := finish_eq_ok finished
            exact ⟨reading, .refl, flat, read, by simp [IsEnd]⟩
    | case2 reading c text next rest' stepped lt ih =>
        obtain ⟨last, steps, found⟩ := ih h
        exact ⟨last, .step stepped steps, found⟩
    | case3 reading c text stopped =>
        cases h
        obtain ⟨isEnd, flat⟩ := step_eq_stop stopped
        exact ⟨reading, .refl, flat, rfl, by simpa [IsEnd] using isEnd⟩
    | case4 => cases h
  · rintro ⟨last, steps, flat, rfl, isEnd⟩
    rw [steps.run_eq]
    cases rest with
    | nil => rw [run, finish_of_isFlat flat, Except.map]
    | cons c rest => exact run_of_stop (isEnd c rfl) flat

end Reading

/-- The pieces are what reading takes off the front of their text when `rest` follows it, and
nothing is open after them. -/
def Readable (pieces : List Piece) (rest : List Char) : Prop :=
  ∃ last, Reading.Steps .start (rawText pieces ++ rest) last rest ∧ last.isFlat = true ∧
    last.pieces.reverse = pieces

def fillsLine (pieces : List Piece) : Bool := pieces.getLast?.any Piece.fillsLine

theorem Reading.fillsLine_eq (reading : Reading) :
    reading.fillsLine = StyleDoc.fillsLine reading.pieces.reverse := by
  simp [Reading.fillsLine, StyleDoc.fillsLine]

theorem statementPieces_eq_ok_iff {text rest : List Char} {pieces : List Piece} :
    statementPieces text = .ok (pieces, rest) ↔
      text = rawText pieces ++ rest ∧ Readable pieces rest ∧ Reading.IsEnd rest := by
  constructor
  · intro h
    have whole := statementPieces_append h
    obtain ⟨last, steps, flat, read, isEnd⟩ := Reading.run_eq_ok_iff.mp h
    rw [← whole] at steps
    exact ⟨whole.symm, ⟨last, steps, flat, read⟩, isEnd⟩
  · rintro ⟨rfl, ⟨last, steps, flat, read⟩, isEnd⟩
    exact Reading.run_eq_ok_iff.mpr ⟨last, steps, flat, read, isEnd⟩

namespace Readable

theorem admits {pieces : List Piece} {rest rest' : List Char} (readable : Readable pieces rest)
    (fits : rest'.head? = rest.head? ∨
      Reading.Follows rest' ∧ (fillsLine pieces = true → ∀ c ∈ rest'.head?, c = '\n')) :
    Readable pieces rest' := by
  obtain ⟨last, steps, flat, rfl⟩ := readable
  obtain ⟨inner, whole, _, again⟩ := steps.admits
  rw [← last.fillsLine_eq] at fits
  have steps' := again rest' fits
  rw [← List.append_cancel_right whole] at steps'
  exact ⟨last, steps', flat, rfl⟩

theorem head?_of_fillsLine {pieces : List Piece} {rest : List Char}
    (readable : Readable pieces rest) (fills : fillsLine pieces = true) :
    ∀ c ∈ rest.head?, c = '\n' := by
  obtain ⟨last, steps, _, rfl⟩ := readable
  rw [← last.fillsLine_eq] at fills
  exact steps.head?_of_fillsLine (fun fillsNothing => by cases fillsNothing) fills

/-- The pieces before a comment are read in front of any text that starts like it or opens nothing,
and then the comment and the pieces after it are read. -/
theorem split_remark {before after : List Piece} {form : CommentForm} {body rest : List Char}
    (readable : Readable (before ++ .remark form body :: after) rest) :
    ∃ middle last c tail, middle.pieces.reverse = before ∧
      (∀ text, text.head? = some c ∨ Reading.Follows text →
        Reading.Steps .start (rawText before ++ text) middle text) ∧
      c :: tail = body ++ (rawText after ++ rest) ∧
      middle.step c tail = .read (middle.push (.remark form body)) (rawText after ++ rest) ∧
      Reading.Steps (middle.push (.remark form body)) (rawText after ++ rest) last rest ∧
      last.isFlat = true ∧ last.pieces.reverse = before ++ .remark form body :: after := by
  obtain ⟨last, steps, flat, read⟩ := readable
  obtain ⟨middle, c, tail, left, first, upTo, split, stepped, later⟩ :=
    steps.split_remark (by simpa [Reading.start] using read)
  rw [Reading.start, List.reverse_nil, List.nil_append] at upTo
  have left_eq : left = rawText after ++ rest := by
    have raw := later.raw_append
    rw [Reading.raw, read, Reading.raw_push, Reading.raw, upTo] at raw
    simpa [Piece.raw] using raw.symm
  subst left_eq
  refine ⟨middle, last, c, tail, upTo, ?_, split, stepped, later, flat, read⟩
  intro text fits
  obtain ⟨inner, whole, _, again⟩ := first.admits
  rw [← upTo, ← Reading.raw]
  have inner_eq : inner = middle.raw := by
    have raw := first.raw_append
    rw [whole] at raw
    exact (List.append_cancel_right raw).symm
  rw [← inner_eq]
  refine again text (fits.imp id fun follows => ⟨follows, ?_⟩)
  intro fills
  have feed := first.head?_of_fillsLine (fun fillsNothing => by cases fillsNothing) fills c rfl
  subst feed
  rw [Reading.step_blank (by decide) middle tail] at stepped
  simp [Reading.push] at stepped

end Readable

end StyleDoc
