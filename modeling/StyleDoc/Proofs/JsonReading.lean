import StyleDoc.Json.Value

/-!
# Reading JSON text

JSON text is cut into symbols, and symbols are assembled into a value with the arrays and objects
that are still open on a stack.  Reading the indented text of a value gives the value back, so that
no two values have the same text.  Numbers and null, which documentation never holds, are not read.
-/

namespace StyleDoc

namespace JsonValue

/-! ## Symbols -/

inductive Symbol
  | openArray
  | closeArray
  | openObject
  | closeObject
  | comma
  | colon
  | bool (value : Bool)
  | string (text : String)
deriving DecidableEq, Repr

def hexValue? (c : Char) : Option Nat :=
  if c.isDigit then some (c.toNat - '0'.toNat)
  else if 'a' ≤ c ∧ c ≤ 'f' then some (c.toNat - 'a'.toNat + 10)
  else if 'A' ≤ c ∧ c ≤ 'F' then some (c.toNat - 'A'.toNat + 10)
  else none

def charOfHex? (digits : List Char) : Option Char := do
  let values ← digits.mapM hexValue?
  let code := values.foldl (fun code value => code * 16 + value) 0
  if code.isValidChar then some (Char.ofNat code) else none

def charOfEscape? : Char → Option Char
  | '"' => some '"'
  | '\\' => some '\\'
  | '/' => some '/'
  | 'b' => some '\x08'
  | 'f' => some '\x0c'
  | 'n' => some '\n'
  | 'r' => some '\r'
  | 't' => some '\t'
  | _ => none

def isSpacing (c : Char) : Bool := c == ' ' || c == '\n' || c == '\r' || c == '\t'

mutual

/-- The symbols of a text, if it can be cut into some. -/
def symbols : List Char → Option (List Symbol)
  | [] => some []
  | '[' :: text => (symbols text).map (.openArray :: ·)
  | ']' :: text => (symbols text).map (.closeArray :: ·)
  | '{' :: text => (symbols text).map (.openObject :: ·)
  | '}' :: text => (symbols text).map (.closeObject :: ·)
  | ',' :: text => (symbols text).map (.comma :: ·)
  | ':' :: text => (symbols text).map (.colon :: ·)
  | '"' :: text => symbolsInString [] text
  | 't' :: 'r' :: 'u' :: 'e' :: text => (symbols text).map (.bool true :: ·)
  | 'f' :: 'a' :: 'l' :: 's' :: 'e' :: text => (symbols text).map (.bool false :: ·)
  | c :: text => if isSpacing c then symbols text else none

/-- The symbols of a text that starts inside a string; `read` is the string so far, latest
character first. -/
def symbolsInString (read : List Char) : List Char → Option (List Symbol)
  | [] => none
  | '"' :: text => (symbols text).map (.string (String.ofList read.reverse) :: ·)
  | '\\' :: 'u' :: a :: b :: c :: d :: text =>
      (charOfHex? [a, b, c, d]).bind fun decoded => symbolsInString (decoded :: read) text
  | '\\' :: c :: text =>
      (charOfEscape? c).bind fun decoded => symbolsInString (decoded :: read) text
  | c :: text => if c.toNat < 0x20 then none else symbolsInString (c :: read) text

end

mutual

def toSymbols : JsonValue → List Symbol
  | bool value => [.bool value]
  | string text => [.string text]
  | array [] => [.openArray, .closeArray]
  | array (item :: items) =>
      .openArray :: (toSymbols item ++ (itemSymbols items ++ [.closeArray]))
  | object [] => [.openObject, .closeObject]
  | object ((key, value) :: members) =>
      .openObject :: .string key :: .colon ::
        (toSymbols value ++ (memberSymbols members ++ [.closeObject]))

def itemSymbols : List JsonValue → List Symbol
  | [] => []
  | item :: items => .comma :: (toSymbols item ++ itemSymbols items)

def memberSymbols : List (String × JsonValue) → List Symbol
  | [] => []
  | (key, value) :: members =>
      .comma :: .string key :: .colon :: (toSymbols value ++ memberSymbols members)

end

/-! ## Cutting printed text -/

theorem hexValue?_hexDigit : ∀ n < 16, hexValue? (hexDigit n) = some n := by decide

theorem charOfHex?_control {c : Char} (control : c.toNat < 0x20) :
    charOfHex? ['0', '0', hexDigit (c.toNat / 16), hexDigit (c.toNat % 16)] = some c := by
  have zero : hexValue? '0' = some 0 := by decide
  have high := hexValue?_hexDigit (c.toNat / 16) (by omega)
  have low := hexValue?_hexDigit (c.toNat % 16) (by omega)
  have code : c.toNat / 16 * 16 + c.toNat % 16 = c.toNat := by omega
  have valid : c.toNat.isValidChar := .inl (by omega)
  simp [charOfHex?, zero, high, low, code, valid]

/-- Every character is read back from its escaped form. -/
theorem symbolsInString_escape (c : Char) (read text : List Char) :
    symbolsInString read (escape c ++ text) = symbolsInString (c :: read) text := by
  unfold escape
  iterate 7
    split
    · subst_vars
      rfl
  split
  · next control =>
      simp only [List.cons_append, List.nil_append]
      rw [symbolsInString, charOfHex?_control control]
      rfl
  · next quote backslash _ _ _ _ _ visible =>
      rw [List.singleton_append, symbolsInString, if_neg visible]
      all_goals simp_all

theorem symbolsInString_flatMap (characters read text : List Char) :
    symbolsInString read (characters.flatMap escape ++ text) =
      symbolsInString (characters.reverse ++ read) text := by
  induction characters generalizing read with
  | nil => rfl
  | cons c characters ih =>
      rw [List.flatMap_cons, List.append_assoc, symbolsInString_escape, ih]
      simp

/-- A text is cut into the given symbols, whatever follows it. -/
def Spells (text : List Char) (written : List Symbol) : Prop :=
  ∀ rest, symbols (text ++ rest) = (symbols rest).map (written ++ ·)

namespace Spells

theorem nil : Spells [] [] := fun rest => by simp

theorem append {a b : List Char} {first second : List Symbol} (spellsFirst : Spells a first)
    (spellsSecond : Spells b second) : Spells (a ++ b) (first ++ second) := by
  intro rest
  rw [List.append_assoc, spellsFirst, spellsSecond, Option.map_map]
  simp [Function.comp_def]

theorem quoted (text : String) : Spells (quoted text) [.string text] := by
  intro rest
  have opened : symbols (JsonValue.quoted text ++ rest) =
      symbolsInString [] (text.toList.flatMap escape ++ '"' :: rest) := by
    simp [JsonValue.quoted, symbols]
  rw [opened, symbolsInString_flatMap, symbolsInString]
  simp

theorem newline (depth : Nat) : Spells (newline depth) [] := by
  have spaces (count : Nat) : Spells (List.replicate count ' ') [] := by
    induction count with
    | zero => exact nil
    | succ count ih => exact fun rest => ih rest
  exact fun rest => spaces (2 * depth) rest

end Spells

mutual

/-- The text of a value is cut into the symbols of the value. -/
theorem spells_print (depth : Nat) : (value : JsonValue) →
    Spells (print depth value) (toSymbols value)
  | bool true => fun _ => rfl
  | bool false => fun _ => rfl
  | string text => .quoted text
  | array [] => fun rest => by simp [print, toSymbols, symbols, Function.comp_def]
  | array (item :: items) => by
      have opening : Spells ['['] [.openArray] := fun _ => rfl
      have closing : Spells [']'] [.closeArray] := fun _ => rfl
      have whole := opening.append ((Spells.newline (depth + 1)).append
        ((spells_print (depth + 1) item).append ((spells_printItems depth items).append
          ((Spells.newline depth).append closing))))
      simpa [print, toSymbols] using whole
  | object [] => fun rest => by simp [print, toSymbols, symbols, Function.comp_def]
  | object ((key, value) :: members) => by
      have opening : Spells ['{'] [.openObject] := fun _ => rfl
      have colon : Spells [':', ' '] [.colon] := fun _ => rfl
      have closing : Spells ['}'] [.closeObject] := fun _ => rfl
      have whole := opening.append ((Spells.newline (depth + 1)).append
        ((Spells.quoted key).append (colon.append ((spells_print (depth + 1) value).append
          ((spells_printMembers depth members).append ((Spells.newline depth).append closing))))))
      simpa [print, toSymbols] using whole

theorem spells_printItems (depth : Nat) : (items : List JsonValue) →
    Spells (printItems depth items) (itemSymbols items)
  | [] => .nil
  | item :: items => by
      have comma : Spells [','] [.comma] := fun _ => rfl
      have whole := comma.append ((Spells.newline (depth + 1)).append
        ((spells_print (depth + 1) item).append (spells_printItems depth items)))
      simpa [printItems, itemSymbols] using whole

theorem spells_printMembers (depth : Nat) : (members : List (String × JsonValue)) →
    Spells (printMembers depth members) (memberSymbols members)
  | [] => .nil
  | (key, value) :: members => by
      have comma : Spells [','] [.comma] := fun _ => rfl
      have colon : Spells [':', ' '] [.colon] := fun _ => rfl
      have whole := comma.append ((Spells.newline (depth + 1)).append ((Spells.quoted key).append
        (colon.append ((spells_print (depth + 1) value).append
          (spells_printMembers depth members)))))
      simpa [printMembers, memberSymbols] using whole

end

/-! ## Assembling values -/

/-- An array or object that is still open, with what has been read of it, latest first. -/
inductive Frame
  | array (items : List JsonValue)
  | object (members : List (String × JsonValue)) (key : String)

/-- Assembles a value from symbols.  `value` is the value that has just been read, if the next
symbol has to follow one; `frames` are the arrays and objects that are open, innermost first. -/
def assemble : Option JsonValue → List Frame → List Symbol → Option JsonValue
  | some value, [], [] => some value
  | some value, .array items :: frames, .comma :: rest =>
      assemble none (.array (value :: items) :: frames) rest
  | some value, .array items :: frames, .closeArray :: rest =>
      assemble (some (array (value :: items).reverse)) frames rest
  | some value, .object members key :: frames, .comma :: .string next :: .colon :: rest =>
      assemble none (.object ((key, value) :: members) next :: frames) rest
  | some value, .object members key :: frames, .closeObject :: rest =>
      assemble (some (object ((key, value) :: members).reverse)) frames rest
  | none, frames, .bool value :: rest => assemble (some (bool value)) frames rest
  | none, frames, .string text :: rest => assemble (some (string text)) frames rest
  | none, frames, .openArray :: .closeArray :: rest => assemble (some (array [])) frames rest
  | none, frames, .openArray :: rest => assemble none (.array [] :: frames) rest
  | none, frames, .openObject :: .closeObject :: rest => assemble (some (object [])) frames rest
  | none, frames, .openObject :: .string key :: .colon :: rest =>
      assemble none (.object [] key :: frames) rest
  | _, _, _ => none

def ofText? (text : String) : Option JsonValue := (symbols text.toList).bind (assemble none [])

theorem toSymbols_ne_closeArray (value : JsonValue) :
    ∃ first rest, toSymbols value = first :: rest ∧ first ≠ .closeArray := by
  match value with
  | bool _ | string _ | array [] | array (_ :: _) | object [] | object (_ :: _) =>
      exact ⟨_, _, rfl, by simp⟩

theorem assemble_openArray {value : JsonValue} (frames : List Frame) (rest : List Symbol) :
    assemble none frames (.openArray :: (toSymbols value ++ rest)) =
      assemble none (.array [] :: frames) (toSymbols value ++ rest) := by
  -- An array is closed at once only if its end comes next, and no value starts with that.
  obtain ⟨first, more, whole, notClosed⟩ := toSymbols_ne_closeArray value
  rw [whole, List.cons_append, assemble]
  rintro rest ⟨⟩
  exact notClosed rfl

mutual

/-- The symbols of a value are assembled into the value, whatever is open and follows. -/
theorem assemble_toSymbols (frames : List Frame) (rest : List Symbol) : (value : JsonValue) →
    assemble none frames (toSymbols value ++ rest) = assemble (some value) frames rest
  | bool _ => rfl
  | string _ => rfl
  | array [] => rfl
  | array (item :: items) => by
      have first := assemble_toSymbols (.array [] :: frames)
        (itemSymbols items ++ .closeArray :: rest) item
      have later := assemble_itemSymbols item [] frames rest items
      simp only [toSymbols, List.cons_append, List.append_assoc, List.nil_append]
      rw [assemble_openArray, first, later]
      rfl
  | object [] => rfl
  | object ((key, value) :: members) => by
      have first := assemble_toSymbols (.object [] key :: frames)
        (memberSymbols members ++ .closeObject :: rest) value
      have later := assemble_memberSymbols key value [] frames rest members
      simp only [toSymbols, List.cons_append, List.append_assoc, List.nil_append]
      rw [assemble, first, later]
      rfl

theorem assemble_itemSymbols (item : JsonValue) (earlier : List JsonValue) (frames : List Frame)
    (rest : List Symbol) : (items : List JsonValue) →
    assemble (some item) (.array earlier :: frames) (itemSymbols items ++ .closeArray :: rest) =
      assemble (some (array (earlier.reverse ++ item :: items))) frames rest
  | [] => by simp [itemSymbols, assemble]
  | next :: items => by
      have first := assemble_toSymbols (.array (item :: earlier) :: frames)
        (itemSymbols items ++ .closeArray :: rest) next
      have later := assemble_itemSymbols next (item :: earlier) frames rest items
      simp only [itemSymbols, List.cons_append, List.append_assoc]
      rw [assemble, first, later]
      simp

theorem assemble_memberSymbols (key : String) (value : JsonValue)
    (earlier : List (String × JsonValue)) (frames : List Frame) (rest : List Symbol) :
    (members : List (String × JsonValue)) →
    assemble (some value) (.object earlier key :: frames)
        (memberSymbols members ++ .closeObject :: rest) =
      assemble (some (object (earlier.reverse ++ (key, value) :: members))) frames rest
  | [] => by simp [memberSymbols, assemble]
  | (nextKey, next) :: members => by
      have first := assemble_toSymbols (.object ((key, value) :: earlier) nextKey :: frames)
        (memberSymbols members ++ .closeObject :: rest) next
      have later := assemble_memberSymbols nextKey next ((key, value) :: earlier) frames rest
        members
      simp only [memberSymbols, List.cons_append, List.append_assoc]
      rw [assemble, first, later]
      simp

end

/-- Reading the indented text of a value gives the value back, also with blanks behind it. -/
theorem ofText?_pretty_append (value : JsonValue) {blanks : String}
    (blank : symbols blanks.toList = some []) : ofText? (value.pretty ++ blanks) = some value := by
  have cut := spells_print 0 value blanks.toList
  have assembled := assemble_toSymbols [] [] value
  rw [ofText?, pretty, String.toList_append, String.toList_ofList, cut, blank]
  exact assembled

end JsonValue

end StyleDoc
