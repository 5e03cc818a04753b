import StyleDoc.Text.Class

/-!
# Cutting texts

Texts under analysis are lists of characters.  They lose the blanks at their ends, are cut at
separators, stripped of fixed ends and split into lines.  Places in a source are told in bytes of
its UTF-8 form: `byteSize` measures a text, and `dropBytes` and `takeBytes` cut it at a place.
-/

namespace StyleDoc.Text

def trimStart (text : List Char) : List Char := text.dropWhile isBlank

def trimEnd (text : List Char) : List Char := (text.reverse.dropWhile isBlank).reverse

def trim (text : List Char) : List Char := trimEnd (trimStart text)

/-- The texts before and after the first character that satisfies `p`. -/
def cut? (p : Char → Bool) (text : List Char) : Option (List Char × List Char) :=
  match text.dropWhile (fun c => !p c) with
  | [] => none
  | _ :: after => some (text.takeWhile (fun c => !p c), after)

theorem cut?_length {p : Char → Bool} {text before after : List Char}
    (h : cut? p text = some (before, after)) : after.length < text.length := by
  unfold cut? at h
  split at h
  · cases h
  · next hd =>
      cases h
      have := (List.dropWhile_suffix (l := text) fun c => !p c).length_le
      rw [hd, List.length_cons] at this
      omega

def beforeLast? (p : Char → Bool) (text : List Char) : Option (List Char) :=
  match text.reverse.dropWhile (fun c => !p c) with
  | [] => none
  | _ :: before => some before.reverse

def linesAux (line : List Char) : List Char → List (List Char)
  | [] => if line.isEmpty then [] else [line.reverse]
  | c :: text =>
      if c = '\n' then
        (match line with
          | '\r' :: rest => rest
          | _ => line).reverse :: linesAux [] text
      else linesAux (c :: line) text

/--
The lines of a text.  A line ends at a line feed, with a carriage return right before it; what
follows the last line feed is a line only if it is not empty.
-/
def lines (text : List Char) : List (List Char) := linesAux [] text

/-- Texts are ordered character by character, and characters by code point. -/
def isAtMost : List Char → List Char → Bool
  | [], _ => true
  | _ :: _, [] => false
  | c :: text, d :: other => if c = d then isAtMost text other else c.toNat < d.toNat

/-! ## Texts by bytes -/

def byteSize (text : List Char) : Nat := text.foldl (fun size c => size + c.utf8Size) 0

theorem foldl_utf8Size (size : Nat) (text : List Char) :
    text.foldl (fun size c => size + c.utf8Size) size = size + byteSize text := by
  induction text generalizing size with
  | nil => rfl
  | cons c text ih =>
      rw [byteSize, List.foldl_cons, List.foldl_cons, ih, ih (0 + c.utf8Size)]
      omega

@[simp] theorem byteSize_nil : byteSize [] = 0 := rfl

@[simp] theorem byteSize_cons (c : Char) (text : List Char) :
    byteSize (c :: text) = c.utf8Size + byteSize text := by
  rw [byteSize, List.foldl_cons, foldl_utf8Size]
  omega

@[simp] theorem byteSize_append (a b : List Char) :
    byteSize (a ++ b) = byteSize a + byteSize b := by
  rw [byteSize, List.foldl_append, foldl_utf8Size]
  rfl

/-- The text after its first `size` bytes, for a `size` on a character boundary. -/
def dropBytes : Nat → List Char → List Char
  | 0, text => text
  | _ + 1, [] => []
  | size + 1, c :: text => dropBytes (size + 1 - c.utf8Size) text

def takeBytesAux (taken : List Char) : Nat → List Char → List Char
  | 0, _ => taken.reverse
  | _ + 1, [] => taken.reverse
  | size + 1, c :: text => takeBytesAux (c :: taken) (size + 1 - c.utf8Size) text

def takeBytes (size : Nat) (text : List Char) : List Char := takeBytesAux [] size text

end StyleDoc.Text
