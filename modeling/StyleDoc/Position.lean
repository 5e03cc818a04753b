import StyleDoc.Text.Cut

/-!
# Positions in a text

Places are given in two ways: by byte offset, as spans are, and by line and column, as reports
to people are.  Lines are separated by line feeds; lines and columns are counted from one, and a
column is a character, whatever its width in bytes.
-/

namespace StyleDoc

structure Position where
  line : Nat
  column : Nat
deriving DecidableEq, Repr

namespace Position

def start : Position := ⟨1, 1⟩

def advance (position : Position) (c : Char) : Position :=
  if c = '\n' then ⟨position.line + 1, 1⟩ else ⟨position.line, position.column + 1⟩

def after (before : List Char) : Position := before.foldl advance start

/-- The position `offset` bytes further into a text that starts at `position`. -/
def ofOffsetFrom (position : Position) : Nat → List Char → Position
  | 0, _ => position
  | _ + 1, [] => position
  | offset + 1, c :: text => ofOffsetFrom (position.advance c) (offset + 1 - c.utf8Size) text

/--
The position of a byte offset that lies on a character boundary.  Offsets past the end have the
position of the end.
-/
def ofOffset (text : List Char) (offset : Nat) : Position := ofOffsetFrom start offset text

theorem ofOffsetFrom_append (position : Position) (before rest : List Char) :
    ofOffsetFrom position (Text.byteSize before) (before ++ rest) =
      before.foldl advance position := by
  induction before generalizing position with
  | nil => cases rest <;> rfl
  | cons c before ih =>
      have width : 0 < c.utf8Size := c.utf8Size_pos
      obtain ⟨n, hn⟩ : ∃ n, Text.byteSize (c :: before) = n + 1 :=
        ⟨Text.byteSize (c :: before) - 1, by simp; omega⟩
      rw [hn, List.cons_append, ofOffsetFrom, ← hn, Text.byteSize_cons, Nat.add_sub_cancel_left,
        ih, List.foldl_cons]

/-- The byte length of a beginning of the text has the position right after that beginning. -/
theorem ofOffset_append (before rest : List Char) :
    ofOffset (before ++ rest) (Text.byteSize before) = after before :=
  ofOffsetFrom_append start before rest

end Position

structure Located (ε : Type) where
  cause : ε
  position : Position
deriving DecidableEq, Repr

namespace Located

def ofOffset {ε : Type} (source : List Char) (offset : Nat) (cause : ε) : Located ε :=
  ⟨cause, Position.ofOffset source offset⟩

def describe {ε : Type} (message : ε → String) (located : Located ε) : String :=
  message located.cause ++ " at line " ++ toString located.position.line ++ ", column " ++
    toString located.position.column

end Located

end StyleDoc
