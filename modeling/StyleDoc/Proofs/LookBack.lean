import StyleDoc.Proofs.Faults
import StyleDoc.Proofs.Tiling

/-!
# Looking back from a bracket

Reading tells by the last pieces of a statement whether a bracket opens an address.  The three bytes
in front of the bracket tell the same, wherever in the source they stand: literals and comments do
not end in a letter, a line comment has a line feed behind it, and what stands in front of a
statement does not end in a letter either.
-/

namespace StyleDoc

namespace Text

/-! ## Bytes and letters -/

/-- The byte of an upper case ASCII letter becomes that of the lower case one. -/
def lowerByte (byte : UInt8) : UInt8 :=
  if 0x41 ≤ byte ∧ byte ≤ 0x5A then byte + 0x20 else byte

/-- Whether the three bytes in front of an offset are those of `url`, in either case. -/
def urlBefore (text : List Char) (offset : Nat) : Bool :=
  (((bytes text).take offset).drop (offset - 3)).map lowerByte == bytes "url".toList

def EndsInUrl (text : List Char) : Prop :=
  ∃ front u r l, text = front ++ [u, r, l] ∧
    u.toLower = 'u' ∧ r.toLower = 'r' ∧ l.toLower = 'l'

theorem bytes_append (a b : List Char) : bytes (a ++ b) = bytes a ++ bytes b :=
  List.flatMap_append

theorem utf8EncodeChar_of_lt {c : Char} (low : c.toNat < 128) :
    String.utf8EncodeChar c = [UInt8.ofNat c.toNat] := by
  have small : c.val.toNat ≤ 127 := Nat.le_of_lt_succ low
  simp only [String.utf8EncodeChar, if_pos small]
  rfl

/-- A character beyond ASCII ends in a byte beyond ASCII. -/
theorem utf8EncodeChar_of_ge {c : Char} (high : 128 ≤ c.toNat) :
    ∃ front last, String.utf8EncodeChar c = front ++ [last] ∧ 128 ≤ last.toNat := by
  have large : ¬c.val.toNat ≤ 127 := Nat.not_le_of_lt high
  simp only [String.utf8EncodeChar, if_neg large]
  split
  · exact ⟨[_], _, rfl, by simp [UInt8.toNat_ofNat']; omega⟩
  · split
    · exact ⟨[_, _], _, rfl, by simp [UInt8.toNat_ofNat']; omega⟩
    · exact ⟨[_, _, _], _, rfl, by simp [UInt8.toNat_ofNat']; omega⟩

theorem exists_append_of_bytes {text : List Char} {front : List UInt8} {byte : UInt8}
    (low : byte.toNat < 128) (encoded : bytes text = front ++ [byte]) :
    ∃ before c, text = before ++ [c] ∧ c.toNat = byte.toNat ∧ bytes before = front := by
  rcases List.eq_nil_or_concat text with rfl | ⟨before, c, rfl⟩
  · simp [bytes] at encoded
  · have whole : bytes before ++ String.utf8EncodeChar c = front ++ [byte] := by
      rw [← encoded, List.concat_eq_append, bytes_append]
      simp [bytes]
    by_cases ascii : c.toNat < 128
    · rw [utf8EncodeChar_of_lt ascii] at whole
      obtain ⟨same, last⟩ := List.append_inj' whole rfl
      cases last
      refine ⟨before, c, by simp, ?_, same⟩
      rw [UInt8.toNat_ofNat']
      omega
    · obtain ⟨init, last, form, high⟩ := utf8EncodeChar_of_ge (Nat.le_of_not_lt ascii)
      rw [form, ← List.append_assoc] at whole
      obtain ⟨_, same⟩ := List.append_inj' whole rfl
      cases same
      omega

theorem lt_of_lowerByte {byte : UInt8} (low : (lowerByte byte).toNat < 128) :
    byte.toNat < 128 := by
  rw [lowerByte] at low
  split at low
  · next upper =>
      have bound : byte.toNat ≤ 90 := UInt8.le_iff_toNat_le.mp upper.2
      omega
  · exact low

theorem lt_of_toLower {c lower : Char} (same : c.toLower = lower) (low : lower.toNat < 128) :
    c.toNat < 128 := by
  by_contra high
  have unchanged : c.toLower = c := by
    refine dif_neg fun upper => high ?_
    have bound : c.val.toNat ≤ 90 := UInt32.le_iff_toNat_le.mp upper.2
    exact Nat.lt_of_le_of_lt bound (by decide)
  rw [← same, unchanged] at low
  exact high low

inductive IsUrlLetter : Char → Prop
  | u : IsUrlLetter 'u'
  | r : IsUrlLetter 'r'
  | l : IsUrlLetter 'l'

theorem lowerByte_ofNat {lower : Char} (isLetter : IsUrlLetter lower) {code : Nat}
    (low : code < 128) :
    lowerByte (UInt8.ofNat code) = UInt8.ofNat lower.toNat ↔ (Char.ofNat code).toLower = lower := by
  cases isLetter <;> revert code <;> decide

theorem lowerByte_eq_iff {lower c : Char} {byte : UInt8} (isLetter : IsUrlLetter lower)
    (low : c.toNat < 128) (same : c.toNat = byte.toNat) :
    lowerByte byte = UInt8.ofNat lower.toNat ↔ c.toLower = lower := by
  have told := lowerByte_ofNat isLetter low
  rwa [Char.ofNat_toNat, same, UInt8.ofNat_toNat] at told

theorem bytes_eq_append_iff {text : List Char} {lower : Char} (isLetter : IsUrlLetter lower)
    {front : List UInt8} :
    (∃ byte, bytes text = front ++ [byte] ∧ lowerByte byte = UInt8.ofNat lower.toNat) ↔
      ∃ before c, text = before ++ [c] ∧ c.toLower = lower ∧ bytes before = front := by
  have ascii : lower.toNat < 128 ∧ (UInt8.ofNat lower.toNat).toNat < 128 := by
    cases isLetter <;> decide
  constructor
  · rintro ⟨byte, encoded, letter⟩
    have low : byte.toNat < 128 := lt_of_lowerByte (by rw [letter]; exact ascii.2)
    obtain ⟨before, c, rfl, same, rest⟩ := exists_append_of_bytes low encoded
    exact ⟨before, c, rfl, (lowerByte_eq_iff isLetter (by omega) same).mp letter, rest⟩
  · rintro ⟨before, c, rfl, letter, rfl⟩
    have low := lt_of_toLower letter ascii.1
    refine ⟨UInt8.ofNat c.toNat, ?_, (lowerByte_eq_iff isLetter low ?_).mpr letter⟩
    · rw [bytes_append, ← utf8EncodeChar_of_lt low]
      simp [bytes]
    · rw [UInt8.toNat_ofNat']
      omega

/-- The three bytes in front of a place tell the three characters there. -/
theorem urlBefore_iff (before after : List Char) :
    urlBefore (before ++ after) (byteSize before) = true ↔ EndsInUrl before := by
  have taken : (bytes (before ++ after)).take (byteSize before) = bytes before := by
    rw [bytes_append, ← length_bytes, List.take_left]
  have word : bytes "url".toList =
      [UInt8.ofNat 'u'.toNat, UInt8.ofNat 'r'.toNat, UInt8.ofNat 'l'.toNat] := by decide
  rw [urlBefore, taken, beq_iff_eq, word]
  constructor
  · intro told
    obtain ⟨u, rest, split, isU, tail⟩ := List.map_eq_cons_iff.mp told
    obtain ⟨r, rest, rfl, isR, tail⟩ := List.map_eq_cons_iff.mp tail
    obtain ⟨l, rest, rfl, isL, tail⟩ := List.map_eq_cons_iff.mp tail
    cases List.map_eq_nil_iff.mp tail
    obtain ⟨front, whole⟩ : ∃ front, bytes before = front ++ [u] ++ [r] ++ [l] :=
      ⟨_, by simpa [split] using (List.take_append_drop (byteSize before - 3) (bytes before)).symm⟩
    obtain ⟨before, l, rfl, lowerL, whole⟩ := (bytes_eq_append_iff .l).mp ⟨l, whole, isL⟩
    obtain ⟨before, r, rfl, lowerR, whole⟩ := (bytes_eq_append_iff .r).mp ⟨r, whole, isR⟩
    obtain ⟨before, u, rfl, lowerU, _⟩ := (bytes_eq_append_iff .u).mp ⟨u, whole, isU⟩
    exact ⟨before, u, r, l, by simp, lowerU, lowerR, lowerL⟩
  · rintro ⟨front, u, r, l, rfl, lowerU, lowerR, lowerL⟩
    obtain ⟨byteU, toU, isU⟩ := (bytes_eq_append_iff .u).mpr
      ⟨front, u, rfl, lowerU, rfl⟩
    obtain ⟨byteR, toR, isR⟩ := (bytes_eq_append_iff .r).mpr
      ⟨front ++ [u], r, rfl, lowerR, rfl⟩
    obtain ⟨byteL, toL, isL⟩ := (bytes_eq_append_iff .l).mpr
      ⟨front ++ [u] ++ [r], l, rfl, lowerL, rfl⟩
    have whole : bytes (front ++ [u, r, l]) = bytes front ++ [byteU, byteR, byteL] := by
      rw [toR, toU] at toL
      simpa using toL
    rw [← length_bytes, whole, List.length_append, List.length_cons, List.length_cons,
      List.length_singleton, Nat.add_sub_cancel, List.drop_left]
    simp [isU, isR, isL]

example : urlBefore "é:URL(x".toList 6 = true ∧ urlBefore "é:URL(x".toList 5 = false := by decide

end Text

/-! ## Letters at the end of a statement -/

theorem LiteralRest.exists_append {quote : Char} {inner : List Char}
    (literal : LiteralRest quote inner) : ∃ init, inner = init ++ [quote] := by
  induction literal with
  | close => exact ⟨[], rfl⟩
  | @escape c _ _ ih =>
      obtain ⟨init, rfl⟩ := ih
      exact ⟨'\\' :: c :: init, rfl⟩
  | @char c _ _ _ ih =>
      obtain ⟨init, rfl⟩ := ih
      exact ⟨c :: init, rfl⟩

theorem isAlpha_of_toLower {c lower : Char} (isLetter : Text.IsUrlLetter lower)
    (same : c.toLower = lower) : c.isAlpha = true := by
  obtain ⟨low, letters⟩ : lower.toNat < 128 ∧ ∀ code < 128,
      (Char.ofNat code).toLower = lower → (Char.ofNat code).isAlpha = true := by
    cases isLetter <;> decide
  have told := letters c.toNat (Text.lt_of_toLower same low)
  rw [Char.ofNat_toNat] at told
  exact told same

namespace Written

variable {before rest : List Char} {pieces : List Piece} {c : Char}

theorem append_inv {more : List Piece} (written : Written rest (pieces ++ more)) :
    Written (rawText more ++ rest) pieces ∧ Written rest more := by
  induction pieces with
  | nil => exact ⟨.nil, written⟩
  | cons piece pieces ih =>
      rw [List.cons_append] at written
      cases written with
      | char later => exact (ih later).imp .char id
      | quoted isQuote literal later => exact (ih later).imp (.quoted isQuote literal) id
      | blockRemark isComment later => exact (ih later).imp (.blockRemark isComment) id
      | lineRemark noBreak ends later =>
          rw [rawText_append, List.append_assoc] at ends
          exact (ih later).imp (.lineRemark noBreak ends) id

/-- The last piece in front of a character that goes on with the line is a character itself, or it
ends in a quote or a slash. -/
theorem last_cases {piece : Piece} (written : Written (c :: rest) [piece]) (goesOn : c ≠ '\n') :
    (∃ d, piece = .char d) ∨ ∃ init d, piece.raw = init ++ [d] ∧ d.isAlpha = false := by
  cases written with
  | char => exact .inl ⟨_, rfl⟩
  | @quoted quote inner _ isQuote literal =>
      obtain ⟨init, rfl⟩ := literal.exists_append
      refine .inr ⟨quote :: init, quote, rfl, ?_⟩
      rcases Text.eq_of_isQuote isQuote with rfl | rfl <;> rfl
  | blockRemark isComment =>
      obtain ⟨inner, rfl, _⟩ := isComment
      exact .inr ⟨'/' :: '*' :: (inner ++ ['*']), '/', by simp [Piece.raw], rfl⟩
  | lineRemark _ ends => exact (goesOn (ends c (by simp))).elim

/-- A letter at the end of what was read is a piece of its own. -/
theorem exists_letter {text : List Char} {d : Char} (written : Written (c :: rest) pieces)
    (goesOn : c ≠ '\n') (clear : ∀ d ∈ before.getLast?, d.isAlpha = false)
    (isLetter : d.isAlpha = true) (whole : before ++ rawText pieces = text ++ [d]) :
    ∃ front, pieces = front ++ [.char d] ∧ text = before ++ rawText front ∧
      Written (d :: c :: rest) front := by
  rcases List.eq_nil_or_concat pieces with rfl | ⟨front, piece, rfl⟩
  · rw [rawText_nil, List.append_nil] at whole
    have last := clear d (by simp [whole])
    rw [isLetter] at last
    cases last
  · rw [List.concat_eq_append] at written whole ⊢
    rw [rawText_append, rawText_cons, rawText_nil, List.append_nil, ← List.append_assoc] at whole
    obtain ⟨inFront, last⟩ := written.append_inv
    rcases last.last_cases goesOn with ⟨e, rfl⟩ | ⟨init, e, raw, other⟩
    · obtain ⟨same, last⟩ := List.append_inj' whole rfl
      cases last
      exact ⟨front, rfl, same.symm, inFront⟩
    · rw [raw, ← List.append_assoc] at whole
      obtain ⟨_, last⟩ := List.append_inj' whole rfl
      cases last
      rw [isLetter] at other
      cases other

theorem endsInUrl_iff (written : Written (c :: rest) pieces) (goesOn : c ≠ '\n')
    (clear : ∀ d ∈ before.getLast?, d.isAlpha = false) :
    Text.EndsInUrl (before ++ rawText pieces) ↔
      ∃ front u r l, pieces = front ++ [.char u, .char r, .char l] ∧
        u.toLower = 'u' ∧ r.toLower = 'r' ∧ l.toLower = 'l' := by
  have noBreak {d : Char} (isLetter : d.isAlpha = true) : d ≠ '\n' := by
    rintro rfl
    cases isLetter
  constructor
  · rintro ⟨text, u, r, l, whole, isU, isR, isL⟩
    have letterU := isAlpha_of_toLower .u isU
    have letterR := isAlpha_of_toLower .r isR
    have letterL := isAlpha_of_toLower .l isL
    obtain ⟨front, rfl, whole, written⟩ := exists_letter written goesOn clear letterL
      (whole.trans (List.append_assoc text [u, r] [l]).symm)
    obtain ⟨front, rfl, whole, written⟩ := exists_letter written (noBreak letterL) clear letterR
      (whole.symm.trans (List.append_assoc text [u] [r]).symm)
    obtain ⟨front, rfl, _, _⟩ := exists_letter written (noBreak letterR) clear letterU whole.symm
    exact ⟨front, u, r, l, by simp, isU, isR, isL⟩
  · rintro ⟨front, u, r, l, rfl, isU, isR, isL⟩
    exact ⟨before ++ rawText front, u, r, l, by simp [Piece.raw], isU, isR, isL⟩

end Written

namespace Reading

theorem followsUrl_iff {reading : Reading} :
    reading.followsUrl = true ↔ ∃ front u r l,
      reading.pieces.reverse = front ++ [.char u, .char r, .char l] ∧
        u.toLower = 'u' ∧ r.toLower = 'r' ∧ l.toLower = 'l' := by
  have letter {piece : Piece} {lower : Char} :
      piece.isLetter lower = true ↔ ∃ c, piece = .char c ∧ c.toLower = lower := by
    cases piece <;> simp [Piece.isLetter]
  constructor
  · intro follows
    unfold followsUrl at follows
    split at follows
    · next l r u earlier pieces =>
        simp only [Bool.and_eq_true, letter] at follows
        obtain ⟨⟨⟨u, rfl, isU⟩, r, rfl, isR⟩, l, rfl, isL⟩ := follows
        exact ⟨earlier.reverse, u, r, l, by simp [pieces], isU, isR, isL⟩
    · cases follows
  · rintro ⟨front, u, r, l, pieces, isU, isR, isL⟩
    have latest : reading.pieces = .char l :: .char r :: .char u :: front.reverse := by
      simpa using congrArg List.reverse pieces
    simp [followsUrl, latest, Piece.isLetter, isU, isR, isL]

/-- What reading tells of the characters in front of a bracket is true of the bytes in front of it,
if nothing in front of the statement is a part of them. -/
theorem followsUrl_eq_urlBefore {reading : Reading} {before tail rest : List Char} {c : Char}
    (clear : ∀ d ∈ before.getLast?, d.isAlpha = false)
    (steps : Steps .start tail reading (c :: rest)) (goesOn : c ≠ '\n') :
    reading.followsUrl =
      Text.urlBefore (before ++ tail) (Text.byteSize (before ++ reading.raw)) := by
  obtain ⟨pieces, grown, rfl, written⟩ := steps.written
  have read : reading.pieces.reverse = pieces := grown
  rw [Bool.eq_iff_iff, ← List.append_assoc, raw, read, Text.urlBefore_iff,
    written.endsInUrl_iff goesOn clear, followsUrl_iff, read]

theorem Steps.placed {reading last : Reading} {text rest : List Char}
    (steps : Steps reading text last rest) (placed : reading.Placed) : last.Placed := by
  induction steps with
  | refl => exact placed
  | step stepped _ ih => exact ih (placed.move (move_of_step stepped))

/-- Steps keep true what is known of the brackets that are open. -/
theorem Steps.isUrl_eq {reading last : Reading} {before tail text rest : List Char}
    (clear : ∀ d ∈ before.getLast?, d.isAlpha = false) (reached : Steps .start tail reading text)
    (known : ∀ group ∈ reading.groups,
      group.isUrl = Text.urlBefore (before ++ tail) (Text.byteSize before + group.offset))
    (steps : Steps reading text last rest) :
    ∀ group ∈ last.groups,
      group.isUrl = Text.urlBefore (before ++ tail) (Text.byteSize before + group.offset) := by
  induction steps with
  | refl => exact known
  | @step reading next _ c _ _ _ stepped _ ih =>
      refine ih (reached.trans (.step stepped .refl)) ?_
      cases move_of_step stepped with
      | openGroup isOpener =>
          intro group member
          rcases List.mem_cons.mp member with rfl | member
          · have goesOn : c ≠ '\n' := by
              rintro rfl
              revert isOpener
              decide
            have told := followsUrl_eq_urlBefore clear reached goesOn
            rwa [Text.byteSize_append, ← (reached.placed .start).width_eq] at told
          · exact known group member
      | closeGroup _ isOpen =>
          rw [isOpen] at known
          exact fun group member => known group (List.mem_cons_of_mem _ member)
      | _ => exact known

end Reading

/-! ## In front of a statement -/

/-- Cutting tokens off a text comes to the given rest of it. -/
inductive TokenStream.Reaches : List Char → List Char → Prop
  | here {text : List Char} : Reaches text text
  | next {c : Char} {text rest tail : List Char} {token : Token}
      (first : Token.next c text = .ok (token, rest)) (later : Reaches rest tail) :
      Reaches (c :: text) tail

/-- A text whose first character starts a statement, or a comment. -/
def StartsStatement (text : List Char) : Prop :=
  ∃ c, text.head? = some c ∧ Text.isAsciiBlank c = false ∧ c ≠ ';' ∧ c ≠ '}'

theorem Token.Begins.isAlpha_eq_false {text rest : List Char} {token : Token} {d : Char}
    (begins : Token.Begins text token rest) (starts : StartsStatement rest)
    (last : token.raw.getLast? = some d) : d.isAlpha = false := by
  obtain ⟨c, head, visible, noSemicolon, noClose⟩ := starts
  cases begins with
  | blank _ all =>
      have blank := all d (List.mem_of_getLast? last)
      revert blank
      simp only [Text.isAsciiBlank, Bool.or_eq_true, beq_iff_eq]
      rintro ((((rfl | rfl) | rfl) | rfl) | rfl) <;> rfl
  | blockComment closed =>
      obtain ⟨inner, form, _⟩ := isBlockComment_of_closeComment closed
      have ends : '/' :: '*' :: (inner ++ ['*', '/']) =
          ('/' :: '*' :: (inner ++ ['*'])) ++ ['/'] := by simp
      rw [Token.raw, form, ends, List.getLast?_concat] at last
      cases last
      rfl
  | lineComment _ stops =>
      rw [stops c head] at visible
      cases visible
  | semicolon => cases last; rfl
  | close => cases last; rfl
  | header =>
      have brace : '{' = d := by simpa [Token.raw] using last
      rw [← brace]
      rfl
  | statement _ _ _ stops =>
      rcases stops c head with rfl | rfl
      · exact (noClose rfl).elim
      · exact (noSemicolon rfl).elim

theorem TokenStream.Reaches.exists_append {text tail : List Char}
    (reaches : TokenStream.Reaches text tail) (starts : StartsStatement tail) :
    ∃ front, text = front ++ tail ∧ ∀ d ∈ front.getLast?, d.isAlpha = false := by
  induction reaches with
  | here => exact ⟨[], rfl, by simp⟩
  | @next c text rest tail token first later ih =>
      obtain ⟨front, rfl, clear⟩ := ih starts
      refine ⟨token.raw ++ front, by rw [← Token.next_append first, List.append_assoc], ?_⟩
      intro d last
      rcases List.eq_nil_or_concat front with rfl | ⟨init, e, rfl⟩
      · rw [List.append_nil] at last
        exact (Token.begins_of_next first).isAlpha_eq_false starts last
      · exact clear d (by simpa using last)

/-- Wherever in a source a statement starts, and however far it is read, the brackets that are open
are known to open an address just if the three bytes in front of them are those of `url`. -/
theorem Stylesheet.isUrl_eq_urlBefore {source tail rest : List Char} {reading : Reading}
    (reaches : TokenStream.Reaches (Stylesheet.withoutMark source) tail)
    (starts : StartsStatement tail) (steps : Reading.Steps .start tail reading rest) :
    ∃ before, source = before ++ tail ∧ ∀ group ∈ reading.groups,
      group.isUrl = Text.urlBefore source (Text.byteSize before + group.offset) := by
  obtain ⟨mark, body, rfl, isMark⟩ := Stylesheet.exists_isMark source
  rw [Stylesheet.withoutMark_of_isMark isMark] at reaches
  obtain ⟨front, rfl, clear⟩ := reaches.exists_append starts
  refine ⟨mark ++ front, by rw [List.append_assoc], ?_⟩
  rw [← List.append_assoc]
  refine Reading.Steps.isUrl_eq ?_ .refl (by simp [Reading.start]) steps
  intro d last
  rcases isMark with rfl | ⟨rfl, _⟩
  · rcases List.eq_nil_or_concat front with rfl | ⟨init, e, rfl⟩
    · cases last
      rfl
    · rw [List.getLast?_append_of_ne_nil _ (by simp)] at last
      exact clear d last
  · exact clear d last

end StyleDoc
