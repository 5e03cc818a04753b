import StyleDoc.Syntax.Piece

/-!
# Tokens

A stylesheet cut into the parts that its statement tree is built from.  The cut does not depend
on how deep a part is nested, nor on anything before it.
-/

namespace StyleDoc

inductive Token
  | blank (text : List Char)
  | comment (form : CommentForm) (text : List Char)
  | semicolon
  | close
  /-- Statement text together with the opening brace after it. -/
  | header (pieces : List Piece)
  /-- Statement text that no opening brace follows. -/
  | statement (pieces : List Piece)
deriving DecidableEq, Repr

namespace Token

def raw : Token → List Char
  | blank text => text
  | comment _ text => text
  | semicolon => [';']
  | close => ['}']
  | header pieces => rawText pieces ++ ['{']
  | statement pieces => rawText pieces

def width (token : Token) : Nat := Text.byteSize token.raw

def nextStatement (text : List Char) : Except Fault (Token × List Char) :=
  match statementPieces text with
  | .ok (pieces, '{' :: rest) => .ok (header pieces, rest)
  | .ok (pieces, rest) => .ok (statement pieces, rest)
  | .error fault => .error fault

/-- The token that a text starts with, `c` being its first character and `text` the others. -/
def next (c : Char) (text : List Char) : Except Fault (Token × List Char) :=
  if Text.isAsciiBlank c then
    .ok (blank (c :: text.takeWhile Text.isAsciiBlank), text.dropWhile Text.isAsciiBlank)
  else if c = '/' ∧ text.head? = some '*' then
    match closeComment text.tail with
    | some (body, rest) => .ok (comment .block ('/' :: '*' :: body), rest)
    | none => .error ⟨.unterminatedComment, 0⟩
  else if c = '/' ∧ text.head? = some '/' then
    .ok (comment .line (c :: lineRest text), afterLine text)
  else if c = ';' then .ok (semicolon, text)
  else if c = '}' then .ok (close, text)
  else nextStatement (c :: text)

theorem nextStatement_length {c : Char} {text rest : List Char} {token : Token}
    (hc : c ≠ '}' ∧ c ≠ ';') (h : nextStatement (c :: text) = .ok (token, rest)) :
    rest.length < (c :: text).length := by
  unfold nextStatement at h
  split at h
  · next hr =>
      cases h
      have : ('{' :: rest).length ≤ (c :: text).length := Reading.run_length hr
      simp only [List.length_cons] at this ⊢
      omega
  · next pieces rest' hne hr =>
      cases h
      by_cases brace : c = '{'
      · subst brace
        exfalso
        have stopped : statementPieces ('{' :: text) = .ok ([], '{' :: text) := by
          unfold statementPieces
          rw [Reading.run]
          rfl
        rw [stopped] at hr
        cases hr
        exact hne text rfl
      · exact statementPieces_length ⟨brace, hc⟩ hr
  · cases h

theorem next_length {c : Char} {text rest : List Char} {token : Token}
    (h : next c text = .ok (token, rest)) : rest.length < (c :: text).length := by
  unfold next at h
  split at h
  · cases h
    exact Nat.lt_succ_of_le (List.dropWhile_suffix _).length_le
  split at h
  · split at h
    · next hr =>
        cases h
        have := closeComment_length hr
        have tail_le : text.tail.length ≤ text.length := by simp
        simp only [List.length_cons]
        omega
    · cases h
  split at h
  · cases h
    exact Nat.lt_succ_of_le (afterLine_length text)
  split at h
  · cases h
    exact Nat.lt_succ_self _
  split at h
  · cases h
    exact Nat.lt_succ_self _
  · next semi brace => exact nextStatement_length ⟨brace, semi⟩ h

end Token

/-- The tokens of a text up to its end or up to its first fault. -/
structure TokenStream where
  tokens : List Token
  /-- What is wrong after the last token; the offset counts from the end of that token. -/
  fault : Option Fault
deriving DecidableEq, Repr

namespace TokenStream

def cons (token : Token) (stream : TokenStream) : TokenStream :=
  { stream with tokens := token :: stream.tokens }

def ofTextAux (read : List Token) : List Char → TokenStream
  | [] => ⟨read.reverse, none⟩
  | c :: text =>
      match h : Token.next c text with
      | .ok (token, rest) =>
          have : rest.length < text.length + 1 := Token.next_length h
          ofTextAux (token :: read) rest
      | .error fault => ⟨read.reverse, some fault⟩
termination_by text => text.length

def ofText (text : List Char) : TokenStream := ofTextAux [] text

theorem ofTextAux_append (read more : List Token) (text : List Char) :
    ofTextAux (read ++ more) text =
      ⟨more.reverse ++ (ofTextAux read text).tokens, (ofTextAux read text).fault⟩ := by
  fun_induction ofTextAux read text with
  | case1 read => simp [ofTextAux]
  | case2 read c text token rest hn lt ih =>
      rw [ofTextAux]
      split
      · next hn' =>
          rw [hn] at hn'
          cases hn'
          exact ih
      · next hn' =>
          rw [hn] at hn'
          cases hn'
  | case3 read c text fault hn =>
      rw [ofTextAux]
      split
      · next hn' =>
          rw [hn] at hn'
          cases hn'
      · next hn' =>
          rw [hn] at hn'
          cases hn'
          simp

theorem ofText_nil : ofText [] = ⟨[], none⟩ := by simp [ofText, ofTextAux]

theorem ofText_of_next {c : Char} {text rest : List Char} {token : Token}
    (h : Token.next c text = .ok (token, rest)) :
    ofText (c :: text) = cons token (ofText rest) := by
  unfold ofText
  rw [ofTextAux]
  split
  · next hn =>
      rw [h] at hn
      cases hn
      exact ofTextAux_append [] [token] rest
  · next hn =>
      rw [h] at hn
      cases hn

theorem ofText_of_fault {c : Char} {text : List Char} {fault : Fault}
    (h : Token.next c text = .error fault) : ofText (c :: text) = ⟨[], some fault⟩ := by
  unfold ofText
  rw [ofTextAux]
  split
  · next hn =>
      rw [h] at hn
      cases hn
  · next hn =>
      rw [h] at hn
      cases hn
      rfl

end TokenStream

end StyleDoc
