/-!
# JSON values

The JSON values that documentation is written as, and their indented text.
-/

namespace StyleDoc

/-- A JSON value.  The members of an object are kept in order. -/
inductive JsonValue
  | bool (value : Bool)
  | string (text : String)
  | array (items : List JsonValue)
  | object (members : List (String × JsonValue))
deriving Repr

namespace JsonValue

def hexDigit (n : Nat) : Char := Char.ofNat (if n < 10 then '0'.toNat + n else 'a'.toNat + n - 10)

/-- How a character is written inside a string: quotes, backslashes and control characters are
escaped, with short forms where there are any. -/
def escape (c : Char) : List Char :=
  if c = '"' then ['\\', '"']
  else if c = '\\' then ['\\', '\\']
  else if c = '\x08' then ['\\', 'b']
  else if c = '\x0c' then ['\\', 'f']
  else if c = '\n' then ['\\', 'n']
  else if c = '\r' then ['\\', 'r']
  else if c = '\t' then ['\\', 't']
  else if c.toNat < 0x20 then
    ['\\', 'u', '0', '0', hexDigit (c.toNat / 16), hexDigit (c.toNat % 16)]
  else [c]

def quoted (text : String) : List Char := '"' :: text.toList.flatMap escape ++ ['"']

def newline (depth : Nat) : List Char := '\n' :: List.replicate (2 * depth) ' '

mutual

def print (depth : Nat) : JsonValue → List Char
  | bool value => (if value then "true" else "false").toList
  | string text => quoted text
  | array [] => ['[', ']']
  | array (item :: items) =>
      '[' :: newline (depth + 1) ++ print (depth + 1) item ++ printItems depth items ++
        newline depth ++ [']']
  | object [] => ['{', '}']
  | object ((key, value) :: members) =>
      '{' :: newline (depth + 1) ++ quoted key ++ [':', ' '] ++ print (depth + 1) value ++
        printMembers depth members ++ newline depth ++ ['}']

/-- The items of an array after the first one. -/
def printItems (depth : Nat) : List JsonValue → List Char
  | [] => []
  | item :: items =>
      ',' :: newline (depth + 1) ++ print (depth + 1) item ++ printItems depth items

def printMembers (depth : Nat) : List (String × JsonValue) → List Char
  | [] => []
  | (key, value) :: members =>
      ',' :: newline (depth + 1) ++ quoted key ++ [':', ' '] ++ print (depth + 1) value ++
        printMembers depth members

end

def pretty (value : JsonValue) : String := String.ofList (value.print 0)

def strings (texts : List String) : JsonValue := array (texts.map string)

/-- A member that is left out if there is no value. -/
def optional (key : String) (value : Option JsonValue) : List (String × JsonValue) :=
  (value.map fun value => (key, value)).toList

def optionalText (key : String) (text : Option String) : List (String × JsonValue) :=
  optional key (text.map string)

def nonemptyText (key text : String) : List (String × JsonValue) :=
  if text.isEmpty then [] else [(key, string text)]

def nonemptyStrings (key : String) (texts : List String) : List (String × JsonValue) :=
  if texts.isEmpty then [] else [(key, strings texts)]

end JsonValue

end StyleDoc
