import StyleDoc.Fault
import StyleDoc.Text.Class

/-!
# Statement text

The text of one statement up to the `{`, `}` or `;` that ends it.  String literals, comments,
brackets and interpolations are read as units, so that a brace or semicolon inside them does not
end the statement.  Reading is one `step` at a time from a `Reading` state; the state knows the
pieces read so far and which brackets and interpolations are still open.

`step_length` says that every step makes the rest of the text shorter.
-/

namespace StyleDoc

/-- A unit of statement text. -/
inductive Piece
  | char (c : Char)
  | quoted (text : List Char)
  | remark (form : CommentForm) (text : List Char)
deriving DecidableEq, Repr

namespace Piece

def raw : Piece → List Char
  | char c => [c]
  | quoted text => text
  | remark _ text => text

/-- What a piece contributes to its statement: a block comment counts as a space, and a line
comment as nothing. -/
def text : Piece → List Char
  | char c => [c]
  | quoted text => text
  | remark .block _ => [' ']
  | remark .line _ => []

def isLetter (lower : Char) : Piece → Bool
  | char c => c.toLower == lower
  | _ => false

end Piece

def rawText (pieces : List Piece) : List Char := pieces.flatMap Piece.raw

def statementText (pieces : List Piece) : List Char := pieces.flatMap Piece.text

structure Group where
  /-- Bytes between the start of the statement and the bracket. -/
  offset : Nat
  isUrl : Bool
deriving DecidableEq, Repr

/-- What is known of a statement while it is read.  Lists have the latest item first. -/
structure Reading where
  width : Nat
  pieces : List Piece
  groups : List Group
  interpolations : List Nat
deriving DecidableEq, Repr

namespace Reading

def start : Reading := ⟨0, [], [], []⟩

def push (reading : Reading) (piece : Piece) : Reading :=
  { reading with
    width := reading.width + Text.byteSize piece.raw
    pieces := piece :: reading.pieces }

/-- Whether a brace or semicolon would end the statement. -/
def isFlat (reading : Reading) : Bool :=
  reading.groups.isEmpty && reading.interpolations.isEmpty

def followsColon (reading : Reading) : Bool :=
  match reading.pieces with
  | .char ':' :: _ => true
  | _ => false

def followsUrl (reading : Reading) : Bool :=
  match reading.pieces with
  | l :: r :: u :: _ => u.isLetter 'u' && r.isLetter 'r' && l.isLetter 'l'
  | _ => false

def insideUrl (reading : Reading) : Bool :=
  match reading.groups with
  | group :: _ => group.isUrl
  | [] => false

/-- Whether `//` starts a comment here.  Inside `url(...)` and right after a colon it belongs to
an address. -/
def allowsLineComment (reading : Reading) : Bool :=
  !reading.insideUrl && !reading.followsColon

def openGroup (reading : Reading) (c : Char) : Reading :=
  { reading.push (.char c) with
    groups := ⟨reading.width, reading.followsUrl⟩ :: reading.groups }

def openInterpolation (reading : Reading) : Reading :=
  { (reading.push (.char '#')).push (.char '{') with
    interpolations := reading.width :: reading.interpolations }

end Reading

def closeQuoteAux (quote : Char) (read : List Char) :
    List Char → Except StringStop (List Char × List Char)
  | [] => .error .endOfText
  | '\\' :: c :: text => closeQuoteAux quote (c :: '\\' :: read) text
  | c :: text =>
      if c = '\n' then .error .lineBreak
      else if c = quote then .ok ((c :: read).reverse, text)
      else closeQuoteAux quote (c :: read) text

/--
The rest of a string literal after its opening quote, up to and with the closing one, and the
text after it.  A backslash takes the next character with it, whatever it is.
-/
def closeQuote (quote : Char) (text : List Char) : Except StringStop (List Char × List Char) :=
  closeQuoteAux quote [] text

def closeCommentAux (read : List Char) : List Char → Option (List Char × List Char)
  | [] => none
  | '*' :: '/' :: text => some (('/' :: '*' :: read).reverse, text)
  | c :: text => closeCommentAux (c :: read) text

/-- The rest of a block comment after its opening, up to and with its end, and the text after
it. -/
def closeComment (text : List Char) : Option (List Char × List Char) := closeCommentAux [] text

def lineRest (text : List Char) : List Char := text.takeWhile (fun c => c != '\n')

def afterLine (text : List Char) : List Char := text.dropWhile (fun c => c != '\n')

theorem closeQuoteAux_length {quote : Char} {read text body rest : List Char}
    (h : closeQuoteAux quote read text = .ok (body, rest)) : rest.length < text.length := by
  fun_induction closeQuoteAux quote read text with
  | case1 => cases h
  | case2 _ c text ih =>
      have := ih h
      simp only [List.length_cons]
      omega
  | case3 => cases h
  | case4 _ text =>
      cases h
      simp
  | case5 _ c text _ _ _ ih =>
      have := ih h
      simp only [List.length_cons]
      omega

theorem closeQuote_length {quote : Char} {text body rest : List Char}
    (h : closeQuote quote text = .ok (body, rest)) : rest.length < text.length :=
  closeQuoteAux_length h

theorem closeCommentAux_length {read text body rest : List Char}
    (h : closeCommentAux read text = some (body, rest)) : rest.length < text.length := by
  fun_induction closeCommentAux read text with
  | case1 => cases h
  | case2 =>
      cases h
      simp only [List.length_cons]
      omega
  | case3 _ c text _ ih =>
      have := ih h
      simp only [List.length_cons]
      omega

theorem closeComment_length {text body rest : List Char}
    (h : closeComment text = some (body, rest)) : rest.length < text.length :=
  closeCommentAux_length h

theorem afterLine_length (text : List Char) : (afterLine text).length ≤ text.length :=
  (List.dropWhile_suffix _).length_le

inductive Step
  | read (reading : Reading) (rest : List Char)
  /-- The statement ends before this character. -/
  | stop
  | fault (fault : Fault)
deriving DecidableEq, Repr

/-- Reads the next piece of a statement, of which `c` is the next character and `text` what
follows it. -/
def Reading.step (reading : Reading) (c : Char) (text : List Char) : Step :=
  if Text.isQuote c then
    match closeQuote c text with
    | .ok (body, rest) => .read (reading.push (.quoted (c :: body))) rest
    | .error stop => .fault ⟨.unterminatedString stop, reading.width⟩
  else if c = '/' ∧ text.head? = some '*' then
    match closeComment text.tail with
    | some (body, rest) => .read (reading.push (.remark .block ('/' :: '*' :: body))) rest
    | none => .fault ⟨.unterminatedComment, reading.width⟩
  else if c = '/' ∧ text.head? = some '/' ∧ reading.allowsLineComment then
    .read (reading.push (.remark .line (c :: lineRest text))) (afterLine text)
  else if c = '#' ∧ text.head? = some '{' then
    .read reading.openInterpolation text.tail
  else if c = '}' ∧ reading.interpolations ≠ [] then
    .read { reading.push (.char c) with interpolations := reading.interpolations.tail } text
  else if (c = '{' ∨ c = '}' ∨ c = ';') ∧ reading.isFlat then
    .stop
  else if c = '(' ∨ c = '[' then
    .read (reading.openGroup c) text
  else if c = ')' ∨ c = ']' then
    match reading.groups with
    | [] => .fault ⟨.unbalanced (if c = ')' then .round else .square), reading.width⟩
    | _ :: groups => .read { reading.push (.char c) with groups := groups } text
  else
    .read (reading.push (.char c)) text

theorem Reading.step_length {reading next : Reading} {c : Char} {text rest : List Char}
    (h : reading.step c text = .read next rest) : rest.length < (c :: text).length := by
  have tail_le : text.tail.length ≤ text.length := by simp
  simp only [List.length_cons]
  unfold Reading.step at h
  split at h
  · split at h
    · next h' =>
        cases h
        exact Nat.lt_succ_of_lt (closeQuote_length h')
    · cases h
  split at h
  · split at h
    · next h' =>
        cases h
        have := closeComment_length h'
        omega
    · cases h
  split at h
  · cases h
    exact Nat.lt_succ_of_le (afterLine_length text)
  split at h
  · cases h
    omega
  split at h
  · cases h
    omega
  split at h
  · cases h
  split at h
  · cases h
    omega
  split at h
  · split at h
    · cases h
    · cases h
      omega
  · cases h
    omega

/--
What a text that ends in the middle of a statement leads to: an open bracket is reported before
an open interpolation, and of several the innermost.
-/
def Reading.finish (reading : Reading) : Except Fault (List Piece) :=
  match reading.groups, reading.interpolations with
  | group :: _, _ => .error ⟨.unclosedGroup, group.offset⟩
  | [], offset :: _ => .error ⟨.unclosedInterpolation, offset⟩
  | [], [] => .ok reading.pieces.reverse

/--
Reads statement text from a state: the pieces of the statement and the rest of the text, which
is empty or starts with the brace or semicolon that ends the statement.  The offset of a fault
counts from the start of the statement.
-/
def Reading.run (reading : Reading) : List Char → Except Fault (List Piece × List Char)
  | [] => reading.finish.map fun pieces => (pieces, [])
  | c :: text =>
      match h : reading.step c text with
      | .read next rest =>
          have : rest.length < text.length + 1 := Reading.step_length h
          next.run rest
      | .stop => .ok (reading.pieces.reverse, c :: text)
      | .fault fault => .error fault
termination_by text => text.length

def statementPieces (text : List Char) : Except Fault (List Piece × List Char) :=
  Reading.start.run text

theorem Reading.run_length {reading : Reading} {text rest : List Char} {pieces : List Piece}
    (h : reading.run text = .ok (pieces, rest)) : rest.length ≤ text.length := by
  fun_induction Reading.run reading text with
  | case1 reading =>
      cases hf : reading.finish <;> simp_all [Except.map]
  | case2 reading c text next rest' hs lt ih =>
      have := ih h
      simp only [List.length_cons]
      omega
  | case3 =>
      cases h
      exact Nat.le_refl _
  | case4 => cases h

/-- A statement whose first character does not end it takes up at least one character. -/
theorem statementPieces_length {c : Char} {text rest : List Char} {pieces : List Piece}
    (hc : c ≠ '{' ∧ c ≠ '}' ∧ c ≠ ';')
    (h : statementPieces (c :: text) = .ok (pieces, rest)) : rest.length < (c :: text).length := by
  unfold statementPieces at h
  rw [Reading.run] at h
  split at h
  · next hs =>
      have := Reading.run_length h
      have := Reading.step_length hs
      omega
  · next hs =>
      exfalso
      unfold Reading.step at hs
      simp only [hc, false_or, false_and, if_false] at hs
      repeat' split at hs
      all_goals cases hs
  · cases h

end StyleDoc
