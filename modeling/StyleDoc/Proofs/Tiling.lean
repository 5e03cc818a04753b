import Mathlib.Logic.ExistsUnique
import StyleDoc.Proofs.Grammar
import StyleDoc.Proofs.Texts

/-!
# Trees lose nothing

The spans of an accepted text's nodes lie side by side: those of the top level from the start of
the text, or from the end of its byte order mark, to its end, and those in a block from its opening
brace to its closing one.  So every byte belongs to one leaf, to one header or to one brace.
-/

namespace StyleDoc

/-! ## Bytes and boundaries -/

namespace Text

/-- The UTF-8 form of a text. -/
def bytes (text : List Char) : List UInt8 := text.flatMap String.utf8EncodeChar

theorem length_bytes (text : List Char) : (bytes text).length = byteSize text := by
  induction text with
  | nil => rfl
  | cons c text ih =>
      rw [byteSize_cons, ← ih]
      simp [bytes]

theorem getElem?_bytes {text before after : List Char} {c : Char} {byte : UInt8} {offset : Nat}
    (split : text = before ++ c :: after) (size : byteSize before = offset)
    (encoded : String.utf8EncodeChar c = [byte]) : (bytes text)[offset]? = some byte := by
  have parts : bytes text = bytes before ++ byte :: bytes after := by
    simp [bytes, split, encoded]
  rw [parts, ← size, ← length_bytes before, List.getElem?_append_right (Nat.le_refl _),
    Nat.sub_self, List.getElem?_cons_zero]

/-- An offset that does not cut a character. -/
def IsBoundary (text : List Char) (offset : Nat) : Prop :=
  ∃ before after, text = before ++ after ∧ byteSize before = offset

end Text

/-! ## Adjacent ranges -/

/-- Ranges of which none is empty and each starts where the one before it stops, from `start` on
up to `stop`. -/
def RangesTile (start stop : Nat) : List ByteRange → Prop
  | [] => start = stop
  | range :: ranges =>
      range.start = start ∧ start < range.stop ∧ RangesTile range.stop stop ranges

namespace RangesTile

theorem append {start middle stop : Nat} {ranges more : List ByteRange}
    (first : RangesTile start middle ranges) (second : RangesTile middle stop more) :
    RangesTile start stop (ranges ++ more) := by
  induction ranges generalizing start with
  | nil =>
      cases first
      exact second
  | cons range ranges ih =>
      obtain ⟨starts, nonempty, rest⟩ := first
      exact ⟨starts, nonempty, ih rest⟩

theorem start_le_of_getElem? {start stop index : Nat} {ranges : List ByteRange} {range : ByteRange}
    (tile : RangesTile start stop ranges) (found : ranges[index]? = some range) :
    start ≤ range.start := by
  induction ranges generalizing start index with
  | nil => simp at found
  | cons first ranges ih =>
      obtain ⟨starts, nonempty, rest⟩ := tile
      cases index with
      | zero =>
          simp only [List.getElem?_cons_zero, Option.some.injEq] at found
          exact Nat.le_of_eq (by rw [← found, starts])
      | succ index =>
          rw [List.getElem?_cons_succ] at found
          exact Nat.le_trans (Nat.le_of_lt nonempty) (ih rest found)

/-- Each place between the ends lies in exactly one of the ranges. -/
theorem existsUnique_getElem? {start stop offset : Nat} {ranges : List ByteRange}
    (tile : RangesTile start stop ranges) (after : start ≤ offset) (before : offset < stop) :
    ∃! index : Nat, ∃ range, ranges[index]? = some range ∧ range.start ≤ offset ∧
      offset < range.stop := by
  induction ranges generalizing start with
  | nil =>
      cases tile
      omega
  | cons first ranges ih =>
      obtain ⟨starts, nonempty, rest⟩ := tile
      by_cases inFirst : offset < first.stop
      · refine ⟨0, ⟨first, rfl, by omega, inFirst⟩, ?_⟩
        rintro index ⟨range, found, rangeStarts, rangeStops⟩
        cases index with
        | zero => rfl
        | succ index =>
            rw [List.getElem?_cons_succ] at found
            have := rest.start_le_of_getElem? found
            omega
      · obtain ⟨index, ⟨range, found, inRange⟩, unique⟩ := ih rest (by omega)
        refine ⟨index + 1, ⟨range, by simpa using found, inRange⟩, ?_⟩
        rintro other ⟨range', found', starts', stops'⟩
        cases other with
        | zero =>
            simp only [List.getElem?_cons_zero, Option.some.injEq] at found'
            rw [← found'] at stops'
            omega
        | succ other =>
            rw [List.getElem?_cons_succ] at found'
            exact congrArg (· + 1) (unique other ⟨range', found', starts', stops'⟩)

end RangesTile

/-! ## Nodes side by side -/

namespace Node

def Tile (start stop : Nat) (nodes : List Node) : Prop := RangesTile start stop (nodes.map span)

/-- The body of a node fills the source between two braces, of which the first is at `brace` and
the second is the last byte of the node. -/
structure Braced (source : List Char) (span : ByteRange) (body : List Node) (brace : Nat) :
    Prop where
  start_lt : span.start < brace
  lt_stop : brace + 1 < span.stop
  opening : (Text.bytes source)[brace]? = some '{'.toUInt8
  closing : (Text.bytes source)[span.stop - 1]? = some '}'.toUInt8
  tile : Tile (brace + 1) (span.stop - 1) body

/-- The offset of the opening brace, from what lies inside. -/
def braceOffset (body : List Node) (span : ByteRange) : Nat :=
  match body with
  | [] => span.stop - 2
  | first :: _ => first.span.start - 1

mutual

/-- The parts that a node consists of: the slice of a leaf, or the header of a block, its opening
brace, the parts of its body, and its closing brace. -/
def cells : Node → List ByteRange
  | leaf _ span => [span]
  | block _ body span =>
      ⟨span.start, braceOffset body span⟩ ::
        ⟨braceOffset body span, braceOffset body span + 1⟩ ::
          cellsOfList body ++ [⟨span.stop - 1, span.stop⟩]

def cellsOfList : List Node → List ByteRange
  | [] => []
  | node :: nodes => cells node ++ cellsOfList nodes

end

end Node

theorem Text.byteSize_pos {text : List Char} (nonempty : text ≠ []) : 0 < Text.byteSize text := by
  obtain ⟨c, rest, rfl⟩ := List.exists_cons_of_ne_nil nonempty
  have := c.utf8Size_pos
  rw [Text.byteSize_cons]
  omega

theorem rawText_pos_of_head {pieces : List Piece} {head : Head}
    (read : Head.ofText (statementText pieces) = .ok head) :
    0 < Text.byteSize (rawText pieces) := by
  apply Text.byteSize_pos
  intro empty
  have blank : ∀ c ∈ statementText pieces, Text.isBlank c = true := by
    intro c member
    obtain ⟨piece, found, inPiece⟩ := List.mem_flatMap.mp member
    have nothing : piece.raw = [] := List.flatMap_eq_nil_iff.mp empty piece found
    cases piece with
    | char d => cases nothing
    | quoted text =>
        rw [Piece.text, show text = [] from nothing] at inPiece
        cases inPiece
    | remark form text =>
        cases form with
        | block =>
            rw [List.mem_singleton.mp inPiece]
            rfl
        | line => cases inPiece
  rw [Head.ofText, Text.trim_eq_nil blank] at read
  cases read

namespace Derives

theorem tile {offset : Nat} {tokens : List Token} {nodes : List Node}
    (derived : Derives offset tokens nodes) (nonempty : ∀ token ∈ tokens, token.raw ≠ []) :
    Node.Tile offset (offset + tokensWidth tokens) nodes := by
  induction derived with
  | nil => simp [Node.Tile, RangesTile]
  | @leaf offset token content tokens nodes _ _ ih =>
      have wide : 0 < token.width := Text.byteSize_pos (nonempty token List.mem_cons_self)
      have later := ih fun token member => nonempty token (List.mem_cons_of_mem _ member)
      refine ⟨rfl, ?_, ?_⟩
      · simp only [Node.span]
        omega
      · simpa [Node.Tile, Node.span, Nat.add_assoc] using later
  | @block offset stop pieces head inner tokens body nodes _ _ stop_eq _ _ ih =>
      have later := ih fun token member => nonempty token (by simp [member])
      refine ⟨rfl, ?_, ?_⟩
      · simp only [Node.span]
        omega
      · simpa [Node.Tile, Node.span, stop_eq, Nat.add_assoc] using later

theorem braceOffset_eq {offset : Nat} {pieces : List Piece} {inner : List Token}
    {body : List Node} (inside : Derives (offset + (Token.header pieces).width) inner body) :
    Node.braceOffset body
        ⟨offset, offset + (Token.header pieces).width + tokensWidth inner + 1⟩ =
      offset + Text.byteSize (rawText pieces) := by
  cases inside with
  | nil =>
      simp only [Node.braceOffset, Token.width_header, tokensWidth_nil]
      omega
  | leaf =>
      simp only [Node.braceOffset, Node.span, Token.width_header]
      omega
  | block =>
      simp only [Node.braceOffset, Node.span, Token.width_header]
      omega

theorem cells_tile {offset : Nat} {tokens : List Token} {nodes : List Node}
    (derived : Derives offset tokens nodes) (nonempty : ∀ token ∈ tokens, token.raw ≠ []) :
    RangesTile offset (offset + tokensWidth tokens) (Node.cellsOfList nodes) := by
  induction derived with
  | nil => simp [Node.cellsOfList, RangesTile]
  | @leaf offset token content tokens nodes _ _ ih =>
      have wide : 0 < token.width := Text.byteSize_pos (nonempty token List.mem_cons_self)
      have later := ih fun token member => nonempty token (List.mem_cons_of_mem _ member)
      refine ⟨rfl, by simp only []; omega, ?_⟩
      simpa [Nat.add_assoc] using later
  | @block offset stop pieces head inner tokens body nodes read inside stop_eq _ ihInside ihLater =>
      have wide := rawText_pos_of_head read
      have within := ihInside fun token member => nonempty token (by simp [member])
      have later := ihLater fun token member => nonempty token (by simp [member])
      have brace := inside.braceOffset_eq
      rw [← stop_eq] at brace
      have closing : RangesTile (stop - 1) stop [⟨stop - 1, stop⟩] := by
        refine ⟨rfl, ?_, rfl⟩
        simp only []
        omega
      have bodyEnd : offset + (Token.header pieces).width + tokensWidth inner = stop - 1 := by omega
      rw [bodyEnd] at within
      have whole : RangesTile offset stop (Node.cells (.block head body ⟨offset, stop⟩)) := by
        rw [Node.cells, brace]
        refine ⟨rfl, by simp only []; omega, rfl, by simp only []; omega, ?_⟩
        simp only []
        rw [Nat.add_assoc, ← Token.width_header]
        exact within.append closing
      have total : offset + tokensWidth (.header pieces :: inner ++ .close :: tokens) =
          stop + tokensWidth tokens := by
        simp [stop_eq, Nat.add_assoc]
      rw [total]
      exact whole.append later

/-- The ends of a node at any depth are character boundaries. -/
theorem isBoundary_of_occurs {offset : Nat} {tokens : List Token} {nodes : List Node}
    {node : Node} {mark : List Char} (derived : Derives offset tokens nodes)
    (mark_eq : Text.byteSize mark = offset) (occurs : Occurs node nodes) :
    Text.IsBoundary (mark ++ rawTokens tokens) node.span.start ∧
      Text.IsBoundary (mark ++ rawTokens tokens) node.span.stop := by
  obtain ⟨before, middle, after, rfl, found⟩ := derived.of_occurs occurs
  rw [found.span_eq]
  constructor
  · refine ⟨mark ++ rawTokens before, rawTokens (middle ++ after), by simp, ?_⟩
    simp [mark_eq, tokensWidth]
  · refine ⟨mark ++ rawTokens (before ++ middle), rawTokens after, by simp, ?_⟩
    simp [mark_eq, tokensWidth, Nat.add_assoc]

/-- A block at any depth has its body between two braces of the source. -/
theorem braced_of_occurs {offset : Nat} {tokens : List Token} {nodes body : List Node}
    {head : Head} {span : ByteRange} {mark : List Char} (derived : Derives offset tokens nodes)
    (nonempty : ∀ token ∈ tokens, token.raw ≠ []) (mark_eq : Text.byteSize mark = offset)
    (occurs : Occurs (.block head body span) nodes) :
    ∃ brace, Node.Braced (mark ++ rawTokens tokens) span body brace := by
  obtain ⟨before, middle, after, rfl, found⟩ := derived.of_occurs occurs
  obtain ⟨pieces, inner, rfl, read, inside, rfl⟩ := found.block_inv
  have headerWide := rawText_pos_of_head read
  have tile := inside.tile fun token member => nonempty token (by simp [member])
  have opening : mark ++ rawTokens (before ++ (.header pieces :: inner ++ [.close]) ++ after) =
      (mark ++ rawTokens before ++ rawText pieces) ++
        '{' :: (rawTokens inner ++ '}' :: rawTokens after) := by
    simp [Token.raw]
  have closing : mark ++ rawTokens (before ++ (.header pieces :: inner ++ [.close]) ++ after) =
      (mark ++ rawTokens before ++ rawText pieces ++ '{' :: rawTokens inner) ++
        '}' :: rawTokens after := by
    simp [Token.raw]
  have braceWidth : Char.utf8Size '{' = 1 := by decide
  refine ⟨offset + tokensWidth before + Text.byteSize (rawText pieces), ?_, ?_, ?_, ?_, ?_⟩
  · simp only []
    omega
  · simp only [Token.width_header]
    omega
  · refine Text.getElem?_bytes opening ?_ (by decide)
    simp only [Text.byteSize_append, mark_eq, tokensWidth]
  · refine Text.getElem?_bytes closing ?_ (by decide)
    simp only [Text.byteSize_append, Text.byteSize_cons, mark_eq, tokensWidth,
      Token.width_header, braceWidth]
    omega
  · have bodyStop : offset + tokensWidth before + (Token.header pieces).width +
        tokensWidth inner + 1 - 1 =
        offset + tokensWidth before + (Token.header pieces).width + tokensWidth inner := by
      omega
    simp only [bodyStop]
    rw [Nat.add_assoc _ _ 1, ← Token.width_header]
    exact tile

end Derives

/-! ## The statement -/

/--
The tree of an accepted text loses nothing.  The top level lies side by side from the end of the
byte order mark to the end of the text; the body of every block, at any depth, lies side by side
between its two braces; no node cuts a character; and each byte after the mark belongs to exactly
one part of the tree, be it the slice of a leaf, a header or a brace.
-/
theorem read_tiles_source {source : String} {nodes : List Node}
    (accepted : Stylesheet.read source = .ok nodes) :
    let start := if source.toList.head? = some '\ufeff' then 3 else 0
    let stop := Text.byteSize source.toList
    Node.Tile start stop nodes ∧
      (∀ head body span, Occurs (.block head body span) nodes →
        ∃ brace, Node.Braced source.toList span body brace) ∧
      (∀ node, Occurs node nodes → Text.IsBoundary source.toList node.span.start ∧
        Text.IsBoundary source.toList node.span.stop) ∧
      ∀ offset, start ≤ offset → offset < stop → ∃! index : Nat, ∃ cell,
        (Node.cellsOfList nodes)[index]? = some cell ∧ cell.start ≤ offset ∧
          offset < cell.stop := by
  obtain ⟨faultless, derived, _⟩ :=
    Stylesheet.nodesWithin_eq_ok_iff.mp (Stylesheet.read_eq_ok_iff.mp accepted)
  obtain ⟨mark, whole, mark_eq⟩ := Stylesheet.source_eq_of_faultless faultless
  have nonempty : ∀ token ∈ (Stylesheet.tokenStream source.toList).tokens, token.raw ≠ [] :=
    TokenStream.raw_ne_nil_of_mem_ofText _
  have start_eq : (if source.toList.head? = some '\ufeff' then 3 else 0) =
      Stylesheet.bodyStart source.toList := by
    rcases Stylesheet.withoutMark_cases source.toList with ⟨text, marked, _, start⟩ |
      ⟨unmarked, _, start⟩
    · rw [marked, List.head?_cons, if_pos rfl, ← marked, start]
    · rw [if_neg unmarked, start]
  have stop_eq : Text.byteSize source.toList = Stylesheet.bodyStart source.toList +
      tokensWidth (Stylesheet.tokenStream source.toList).tokens := by
    conv => lhs; rw [whole]
    rw [Text.byteSize_append, mark_eq, tokensWidth]
  simp only [start_eq]
  refine ⟨?_, ?_, ?_, ?_⟩
  · rw [stop_eq]
    exact derived.tile nonempty
  · intro head body span occurs
    rw [whole]
    exact derived.braced_of_occurs nonempty mark_eq occurs
  · intro node occurs
    rw [whole]
    exact derived.isBoundary_of_occurs mark_eq occurs
  · intro offset after before
    rw [stop_eq] at before
    exact (derived.cells_tile nonempty).existsUnique_getElem? after before

/-- A text with a byte order mark, a block in a block and a brace in a string literal. -/
theorem read_tiles_source_nested :
    ∃ nodes, Stylesheet.read "\ufeff@if x\x7b.é\x7bb:\"\x7d\"\x7d\x7dc" = .ok nodes ∧
      nodes.length = 2 ∧ Node.Tile 3 21 nodes := by
  have accepted : Stylesheet.read "\ufeff@if x\x7b.é\x7bb:\"\x7d\"\x7d\x7dc" = .ok
      [.block (.nesting "if" "x")
        [.block (.rule [⟨".é", some "é"⟩])
          [.leaf (.statement "b:\"\x7d\"") ⟨13, 18⟩] ⟨9, 19⟩] ⟨3, 20⟩,
        .leaf (.statement "c") ⟨20, 21⟩] :=
    Stylesheet.read_eq_ok_of_toOption (by decide +kernel)
  exact ⟨_, accepted, rfl, (read_tiles_source accepted).1⟩

end StyleDoc
