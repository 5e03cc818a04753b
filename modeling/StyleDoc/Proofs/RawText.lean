import StyleDoc.Syntax.Token

/-!
# Nothing is lost in cutting

What is read of a text, put in front of what is left of it, is the text: for string literals and
comments, for the pieces of a statement, for a token, and for all tokens of a text without a
fault.  `Move` lists what one step of reading a statement can do.
-/

namespace StyleDoc

/-! ## String literals and comments -/

theorem closeQuoteAux_append {quote : Char} {read text body rest : List Char}
    (h : closeQuoteAux quote read text = .ok (body, rest)) :
    body ++ rest = read.reverse ++ text := by
  fun_induction closeQuoteAux quote read text with
  | case1 => cases h
  | case2 read c text ih => simpa using ih h
  | case3 => cases h
  | case4 read text =>
      cases h
      simp
  | case5 read c text _ _ _ ih => simpa using ih h

theorem closeQuote_append {quote : Char} {text body rest : List Char}
    (h : closeQuote quote text = .ok (body, rest)) : body ++ rest = text :=
  closeQuoteAux_append h

theorem closeCommentAux_append {read text body rest : List Char}
    (h : closeCommentAux read text = some (body, rest)) :
    body ++ rest = read.reverse ++ text := by
  fun_induction closeCommentAux read text with
  | case1 => cases h
  | case2 read text =>
      cases h
      simp
  | case3 read c text _ ih => simpa using ih h

theorem closeComment_append {text body rest : List Char}
    (h : closeComment text = some (body, rest)) : body ++ rest = text :=
  closeCommentAux_append h

theorem lineRest_append_afterLine (text : List Char) : lineRest text ++ afterLine text = text :=
  List.takeWhile_append_dropWhile

/-! ## Pieces of a statement -/

@[simp] theorem rawText_nil : rawText [] = [] := rfl

@[simp] theorem rawText_cons (piece : Piece) (pieces : List Piece) :
    rawText (piece :: pieces) = piece.raw ++ rawText pieces := rfl

@[simp] theorem rawText_append (a b : List Piece) : rawText (a ++ b) = rawText a ++ rawText b :=
  List.flatMap_append

@[simp] theorem statementText_nil : statementText [] = [] := rfl

@[simp] theorem statementText_cons (piece : Piece) (pieces : List Piece) :
    statementText (piece :: pieces) = piece.text ++ statementText pieces := rfl

@[simp] theorem statementText_append (a b : List Piece) :
    statementText (a ++ b) = statementText a ++ statementText b :=
  List.flatMap_append

@[simp] theorem rawText_map_char (text : List Char) : rawText (text.map .char) = text := by
  simp [rawText, List.flatMap_map, Piece.raw]

@[simp] theorem statementText_map_char (text : List Char) :
    statementText (text.map .char) = text := by
  simp [statementText, List.flatMap_map, Piece.text]

/-- What one step of reading a statement can do with the text in front of it. -/
inductive Reading.Move (reading : Reading) : List Char → Reading → List Char → Prop
  | quoted {quote : Char} {text body rest : List Char} (isQuote : Text.isQuote quote)
      (closed : closeQuote quote text = .ok (body, rest)) :
      Move reading (quote :: text) (reading.push (.quoted (quote :: body))) rest
  | blockRemark {text body rest : List Char} (closed : closeComment text = some (body, rest)) :
      Move reading ('/' :: '*' :: text) (reading.push (.remark .block ('/' :: '*' :: body))) rest
  | lineRemark {text : List Char} (allowed : reading.allowsLineComment) :
      Move reading ('/' :: '/' :: text)
        (reading.push (.remark .line ('/' :: lineRest ('/' :: text)))) (afterLine ('/' :: text))
  | openInterpolation {text : List Char} :
      Move reading ('#' :: '{' :: text) reading.openInterpolation text
  | closeInterpolation {text : List Char} (isOpen : reading.interpolations ≠ []) :
      Move reading ('}' :: text)
        { reading.push (.char '}') with interpolations := reading.interpolations.tail } text
  | openGroup {c : Char} {text : List Char} (isOpener : c = '(' ∨ c = '[') :
      Move reading (c :: text) (reading.openGroup c) text
  | closeGroup {c : Char} {text : List Char} {group : Group} {groups : List Group}
      (isCloser : c = ')' ∨ c = ']') (isOpen : reading.groups = group :: groups) :
      Move reading (c :: text) { reading.push (.char c) with groups := groups } text
  | char {c : Char} {text : List Char} : Move reading (c :: text) (reading.push (.char c)) text

namespace Reading

theorem move_of_step {reading next : Reading} {c : Char} {text rest : List Char}
    (h : reading.step c text = .read next rest) : reading.Move (c :: text) next rest := by
  unfold step at h
  split at h
  · next isQuote =>
      split at h
      · next closed =>
          cases h
          exact .quoted isQuote closed
      · cases h
  split at h
  · next opens =>
      obtain ⟨rfl, second⟩ := opens
      obtain ⟨text, rfl⟩ := List.head?_eq_some_iff.mp second
      split at h
      · next closed =>
          cases h
          exact .blockRemark closed
      · cases h
  split at h
  · next opens =>
      obtain ⟨rfl, second, allowed⟩ := opens
      obtain ⟨text, rfl⟩ := List.head?_eq_some_iff.mp second
      cases h
      exact .lineRemark allowed
  split at h
  · next opens =>
      obtain ⟨rfl, second⟩ := opens
      obtain ⟨text, rfl⟩ := List.head?_eq_some_iff.mp second
      cases h
      exact .openInterpolation
  split at h
  · next closes =>
      obtain ⟨rfl, isOpen⟩ := closes
      cases h
      exact .closeInterpolation isOpen
  split at h
  · cases h
  split at h
  · next isOpener =>
      cases h
      exact .openGroup isOpener
  split at h
  · next isCloser =>
      split at h
      · cases h
      · next isOpen =>
          cases h
          exact .closeGroup isCloser isOpen
  · cases h
    exact .char

def raw (reading : Reading) : List Char := rawText reading.pieces.reverse

theorem raw_push (reading : Reading) (piece : Piece) :
    (reading.push piece).raw = reading.raw ++ piece.raw := by
  simp [raw, push]

theorem Move.raw_append {reading next : Reading} {text rest : List Char}
    (move : reading.Move text next rest) : next.raw ++ rest = reading.raw ++ text := by
  cases move with
  | quoted isQuote closed =>
      rw [raw_push, Piece.raw, ← closeQuote_append closed]
      simp
  | blockRemark closed =>
      rw [raw_push, Piece.raw, ← closeComment_append closed]
      simp
  | lineRemark allowed =>
      rw [raw_push, Piece.raw, List.append_assoc, List.cons_append, lineRest_append_afterLine]
  | openInterpolation => simp [raw, Reading.openInterpolation, push, Piece.raw]
  | closeInterpolation isOpen => simp [raw, push, Piece.raw]
  | openGroup isOpener => simp [raw, Reading.openGroup, push, Piece.raw]
  | closeGroup isCloser isOpen => simp [raw, push, Piece.raw]
  | char => simp [raw, push, Piece.raw]

theorem run_append {reading : Reading} {text rest : List Char} {pieces : List Piece}
    (h : reading.run text = .ok (pieces, rest)) :
    rawText pieces ++ rest = reading.raw ++ text := by
  fun_induction Reading.run reading text with
  | case1 reading =>
      cases finished : reading.finish with
      | error fault => simp [finished, Except.map] at h
      | ok found =>
          simp only [finished, Except.map, Except.ok.injEq, Prod.mk.injEq] at h
          obtain ⟨rfl, rfl⟩ := h
          unfold finish at finished
          split at finished <;> cases finished
          rfl
  | case2 reading c text next rest' stepped lt ih =>
      rw [ih h]
      exact (move_of_step stepped).raw_append
  | case3 =>
      cases h
      rfl
  | case4 => cases h

end Reading

theorem statementPieces_append {text rest : List Char} {pieces : List Piece}
    (h : statementPieces text = .ok (pieces, rest)) : rawText pieces ++ rest = text :=
  Reading.run_append h

/-! ## Tokens -/

namespace Token

theorem nextStatement_append {text rest : List Char} {token : Token}
    (h : nextStatement text = .ok (token, rest)) : token.raw ++ rest = text := by
  unfold nextStatement at h
  split at h
  · next read =>
      cases h
      simpa [raw] using statementPieces_append read
  · next read =>
      cases h
      exact statementPieces_append read
  · cases h

/-- A token and the rest of the text are the text. -/
theorem next_append {c : Char} {text rest : List Char} {token : Token}
    (h : next c text = .ok (token, rest)) : token.raw ++ rest = c :: text := by
  unfold next at h
  split at h
  · cases h
    simp [raw]
  split at h
  · next opens =>
      obtain ⟨rfl, second⟩ := opens
      obtain ⟨text, rfl⟩ := List.head?_eq_some_iff.mp second
      split at h
      · next closed =>
          cases h
          have whole := closeComment_append closed
          simpa [raw] using whole
      · cases h
  split at h
  · cases h
    rw [raw, List.cons_append, lineRest_append_afterLine]
  split at h
  · next isSemicolon =>
      cases h
      rw [isSemicolon]
      rfl
  split at h
  · next isClose =>
      cases h
      rw [isClose]
      rfl
  · exact nextStatement_append h

theorem raw_ne_nil_of_next {c : Char} {text rest : List Char} {token : Token}
    (h : next c text = .ok (token, rest)) : token.raw ≠ [] := by
  intro empty
  have shorter := next_length h
  rw [← next_append h, empty] at shorter
  exact Nat.lt_irrefl _ shorter

end Token

/-! ## Token streams -/

def rawTokens (tokens : List Token) : List Char := tokens.flatMap Token.raw

@[simp] theorem rawTokens_nil : rawTokens [] = [] := rfl

@[simp] theorem rawTokens_cons (token : Token) (tokens : List Token) :
    rawTokens (token :: tokens) = token.raw ++ rawTokens tokens := rfl

@[simp] theorem rawTokens_append (a b : List Token) :
    rawTokens (a ++ b) = rawTokens a ++ rawTokens b :=
  List.flatMap_append

namespace TokenStream

/-- To show something of every text, look at the token or the fault that it starts with. -/
theorem text_induction {motive : List Char → Prop} (nil : motive [])
    (fault : ∀ c text fault, Token.next c text = .error fault → motive (c :: text))
    (token : ∀ c text token rest, Token.next c text = .ok (token, rest) → motive rest →
      motive (c :: text))
    (text : List Char) : motive text := by
  match text with
  | [] => exact nil
  | c :: text =>
      match h : Token.next c text with
      | .error stop => exact fault c text stop h
      | .ok (first, rest) =>
          have shorter : rest.length < text.length + 1 := Token.next_length h
          exact token c text first rest h (text_induction nil fault token rest)
termination_by text.length

/-- The tokens of a text without a fault are the text. -/
theorem rawTokens_ofText (text : List Char) (faultless : (ofText text).fault = none) :
    rawTokens (ofText text).tokens = text := by
  induction text using text_induction with
  | nil => rw [ofText_nil, rawTokens_nil]
  | fault c text stop h =>
      rw [ofText_of_fault h] at faultless
      cases faultless
  | token c text first rest h ih =>
      rw [ofText_of_next h] at faultless ⊢
      rw [← Token.next_append h, cons, rawTokens_cons, ih faultless]

theorem raw_ne_nil_of_mem_ofText (text : List Char) :
    ∀ token ∈ (ofText text).tokens, token.raw ≠ [] := by
  induction text using text_induction with
  | nil => simp [ofText_nil]
  | fault c text stop h => simp [ofText_of_fault h]
  | token c text first rest h ih =>
      rw [ofText_of_next h]
      intro token member
      rcases List.mem_cons.mp member with rfl | member
      · exact Token.raw_ne_nil_of_next h
      · exact ih token member

end TokenStream

end StyleDoc
