import StyleDoc.Text.Cut

/-!
# Glob patterns

Patterns over paths whose components are separated by slashes.  `?`, `*` and bracketed sets stay
within a component; `**` is a component of its own and stands for any number of components.  All
other characters, a leading dot among them, stand for themselves.
-/

namespace StyleDoc

namespace Glob

inductive SetItem
  | single (c : Char)
  | range (first last : Char)
deriving DecidableEq, Repr

def SetItem.contains (c : Char) : SetItem → Bool
  | single d => c == d
  | range first last => first.toNat ≤ c.toNat && c.toNat ≤ last.toNat

def setItems : List Char → List SetItem
  | first :: '-' :: last :: rest => .range first last :: setItems rest
  | c :: rest => .single c :: setItems rest
  | [] => []

inductive Part
  | literal (c : Char)
  | anyChar
  | within (items : List SetItem)
  | without (items : List SetItem)
  /-- Any number of characters of one component. -/
  | sequence
  /-- Any number of components. -/
  | components
deriving DecidableEq, Repr

inductive Fault
  | tooManyStars
  /-- Two stars beside something else in one component. -/
  | partialComponent
  /-- A bracketed set that is empty or not closed. -/
  | invalidRange
deriving DecidableEq, Repr

def Fault.message : Fault → String
  | tooManyStars => "wildcards are either regular `*` or recursive `**`"
  | partialComponent => "recursive wildcards must form a single path component"
  | invalidRange => "invalid range pattern"

/-- Reads a bracketed set after its opening bracket, and after the exclamation mark that may follow
the bracket.  The first character belongs to the set whatever it is. -/
def closeSet? : List Char → Option (List SetItem × List Char)
  | [] => none
  | c :: rest =>
      (Text.cut? (fun d => d == ']') rest).map fun parts => (setItems (c :: parts.1), parts.2)

def set? (text : List Char) : Option (Part × List Char) :=
  match text with
  | '!' :: rest => (closeSet? rest).map fun parts => (.without parts.1, parts.2)
  | _ => (closeSet? text).map fun parts => (.within parts.1, parts.2)

/-- Reads a run of stars; `atStart` tells whether it stands at the start of a component.  Two stars
take the slash after them along, so that they can also stand for no component. -/
def stars (atStart : Bool) : Nat → List Char → Except Fault (Part × List Char)
  | 1, rest => .ok (.sequence, rest)
  | 2, rest =>
      if atStart then
        match rest with
        | [] => .ok (.components, [])
        | '/' :: rest => .ok (.components, rest)
        | _ => .error .partialComponent
      else .error .partialComponent
  | _, _ => .error .tooManyStars

def nextPart (atStart : Bool) (c : Char) (text : List Char) : Except Fault (Part × List Char) :=
  if c = '?' then .ok (.anyChar, text)
  else if c = '*' then
    stars atStart ((text.takeWhile fun d => d == '*').length + 1)
      (text.dropWhile fun d => d == '*')
  else if c = '[' then
    match set? text with
    | some parts => .ok parts
    | none => .error .invalidRange
  else .ok (.literal c, text)

theorem closeSet?_length {text rest : List Char} {items : List SetItem}
    (h : closeSet? text = some (items, rest)) : rest.length ≤ text.length := by
  cases text with
  | nil => cases h
  | cons c text =>
      simp only [closeSet?, Option.map_eq_some_iff, Prod.exists, Prod.mk.injEq] at h
      obtain ⟨before, after, hc, -, rfl⟩ := h
      exact Nat.le_of_lt (Nat.lt_succ_of_lt (Text.cut?_length hc))

theorem set?_length {text rest : List Char} {part : Part} (h : set? text = some (part, rest)) :
    rest.length ≤ text.length := by
  unfold set? at h
  split at h
  · simp only [Option.map_eq_some_iff, Prod.exists, Prod.mk.injEq] at h
    obtain ⟨items, rest', hc, -, rfl⟩ := h
    exact Nat.le_succ_of_le (closeSet?_length hc)
  · simp only [Option.map_eq_some_iff, Prod.exists, Prod.mk.injEq] at h
    obtain ⟨items, rest', hc, -, rfl⟩ := h
    exact closeSet?_length hc

theorem stars_length {atStart : Bool} {count : Nat} {text rest : List Char} {part : Part}
    (h : stars atStart count text = .ok (part, rest)) : rest.length ≤ text.length := by
  unfold stars at h
  repeat' split at h
  all_goals
    cases h
    try simp

theorem nextPart_length {atStart : Bool} {c : Char} {text rest : List Char} {part : Part}
    (h : nextPart atStart c text = .ok (part, rest)) : rest.length ≤ text.length := by
  unfold nextPart at h
  split at h
  · cases h
    exact Nat.le_refl _
  split at h
  · exact Nat.le_trans (stars_length h) (List.dropWhile_suffix _).length_le
  split at h
  · split at h
    · next hs =>
        cases h
        exact set?_length hs
    · cases h
  · cases h
    exact Nat.le_refl _

/-- Reads a pattern; `atStart` tells whether its first character starts a component. -/
def partsFrom (atStart : Bool) : List Char → Except Fault (List Part)
  | [] => .ok []
  | c :: text =>
      match h : nextPart atStart c text with
      | .error fault => .error fault
      | .ok (part, rest) =>
          have : rest.length < text.length + 1 := Nat.lt_succ_of_le (nextPart_length h)
          (partsFrom (part = .literal '/' ∨ part = .components) rest).map (part :: ·)
termination_by text => text.length

/-- The ends of a text that are left when a number of characters of its first component is
removed. -/
def sequenceEnds : List Char → List (List Char)
  | [] => [[]]
  | c :: text => (c :: text) :: (if c = '/' then [] else sequenceEnds text)

def afterSlashes : List Char → List (List Char)
  | [] => []
  | c :: text => if c = '/' then text :: afterSlashes text else afterSlashes text

def accepts : List Part → List Char → Bool
  | [], text => text.isEmpty
  | .sequence :: parts, text => (sequenceEnds text).any (accepts parts)
  | .components :: parts, text => (text :: afterSlashes text ++ [[]]).any (accepts parts)
  | _ :: _, [] => false
  | .literal c :: parts, d :: text => c == d && accepts parts text
  | .anyChar :: parts, d :: text => d != '/' && accepts parts text
  | .within items :: parts, d :: text =>
      d != '/' && items.any (SetItem.contains d) && accepts parts text
  | .without items :: parts, d :: text =>
      d != '/' && !items.any (SetItem.contains d) && accepts parts text

end Glob

structure Glob where
  parts : List Glob.Part
deriving DecidableEq, Repr

namespace Glob

/-- Reads a pattern; slashes in front of it have no meaning. -/
def ofText (text : String) : Except Fault Glob :=
  (partsFrom true (text.toList.dropWhile fun c => c == '/')).map Glob.mk

def covers (glob : Glob) (path : String) : Bool := accepts glob.parts path.toList

end Glob

end StyleDoc
