import StyleDoc.Proofs.Relocation
import StyleDoc.Proofs.TokenSeams

/-!
# Nodes and their slices

The slice of a node is a text of its own.  Its tokens are those that the node was derived from, so
that reading it gives the node back, at the start of the text and at the outermost level.
-/

namespace StyleDoc

namespace Text

theorem dropBytes_append (before rest : List Char) :
    dropBytes (byteSize before) (before ++ rest) = rest := by
  induction before with
  | nil => cases rest <;> rfl
  | cons c before ih =>
      have width : 0 < c.utf8Size := c.utf8Size_pos
      obtain ⟨n, hn⟩ : ∃ n, byteSize (c :: before) = n + 1 :=
        ⟨byteSize (c :: before) - 1, by simp; omega⟩
      rw [hn, List.cons_append, dropBytes, ← hn, byteSize_cons, Nat.add_sub_cancel_left, ih]

theorem takeBytesAux_append (taken text rest : List Char) :
    takeBytesAux taken (byteSize text) (text ++ rest) = taken.reverse ++ text := by
  induction text generalizing taken with
  | nil => cases rest <;> simp [takeBytesAux]
  | cons c text ih =>
      have width : 0 < c.utf8Size := c.utf8Size_pos
      obtain ⟨n, hn⟩ : ∃ n, byteSize (c :: text) = n + 1 :=
        ⟨byteSize (c :: text) - 1, by simp; omega⟩
      rw [hn, List.cons_append, takeBytesAux, ← hn, byteSize_cons, Nat.add_sub_cancel_left, ih]
      simp

theorem takeBytes_append (text rest : List Char) :
    takeBytes (byteSize text) (text ++ rest) = text :=
  takeBytesAux_append [] text rest

end Text

theorem ByteRange.slice_append (before text after : List Char) :
    ByteRange.slice (before ++ text ++ after)
      ⟨Text.byteSize before, Text.byteSize before + Text.byteSize text⟩ = text := by
  rw [slice, List.append_assoc, Text.dropBytes_append, Nat.add_sub_cancel_left,
    Text.takeBytes_append]

def Text.splice (text : List Char) (range : ByteRange) (part : List Char) : List Char :=
  takeBytes range.start text ++ part ++ dropBytes range.stop text

theorem Text.splice_append (before old after part : List Char) :
    splice (before ++ old ++ after) ⟨byteSize before, byteSize before + byteSize old⟩ part =
      before ++ part ++ after := by
  have first : takeBytes (byteSize before) (before ++ old ++ after) = before := by
    rw [List.append_assoc, takeBytes_append]
  have second : dropBytes (byteSize before + byteSize old) (before ++ old ++ after) = after := by
    rw [← byteSize_append, dropBytes_append]
  simp only [splice, first, second]

theorem Occurs.height_le {node : Node} {nodes : List Node} (occurs : Occurs node nodes) :
    node.height ≤ Node.heightOfList nodes := by
  induction occurs with
  | here member => exact Node.heightOfList_le_iff.mp (Nat.le_refl _) node member
  | deeper member _ ih =>
      have outer := Node.heightOfList_le_iff.mp (Nat.le_refl _) _ member
      rw [Node.height] at outer
      omega

/-- Every node of an accepted text, at any depth, is read again from its slice, unless the slice
starts with a byte order mark. -/
theorem read_slice_of_occurs {source : String} {nodes : List Node} {node : Node}
    (accepted : Stylesheet.read source = .ok nodes) (occurs : Occurs node nodes)
    (noMark : (node.span.slice source.toList).head? ≠ some '\ufeff') :
    Stylesheet.read (String.ofList (node.span.slice source.toList)) =
      .ok [node.relocate (· - node.span.start)] := by
  obtain ⟨mark, tokens, whole, _, _, cut, derived, room⟩ :=
    Stylesheet.exists_tokens_of_read accepted
  obtain ⟨before, middle, after, rfl, found⟩ := derived.of_occurs occurs
  rw [WellCut.append_iff, WellCut.append_iff] at cut
  have start_eq : node.span.start = Text.byteSize mark + tokensWidth before := by
    rw [found.span_eq]
  have slice_eq : node.span.slice source.toList = rawTokens middle := by
    have sliced := ByteRange.slice_append (mark ++ rawTokens before) (rawTokens middle)
      (rawTokens after)
    rw [found.span_eq, whole]
    simpa [tokensWidth] using sliced
  rw [slice_eq] at noMark ⊢
  have relocated := found.atStart
  rw [← start_eq, Node.relocateList, Node.relocateList] at relocated
  have shallow : Node.heightOfList [node.relocate (· - node.span.start)] ≤
      Stylesheet.maxDepth := by
    rw [Node.heightOfList, Node.heightOfList, Node.height_relocate, Nat.max_zero]
    exact Nat.le_trans occurs.height_le room
  have isMark : Stylesheet.IsMark [] (rawTokens middle) := .inr ⟨rfl, noMark⟩
  have read := Stylesheet.read_of_tokens isMark cut.1.2.1 relocated shallow
  rwa [List.nil_append] at read

/-- A declaration in a block: its slice is read at the outermost level, and the double slash still
stands in an address. -/
theorem read_slice_of_occurs_nested :
    Stylesheet.read "@if x\x7b$é:url(//a)\x7d" = .ok
        [.block (.nesting "if" "x")
          [.leaf (.declaration "é" "url(//a)") ⟨6, 18⟩] ⟨0, 19⟩] ∧
      Stylesheet.read "$é:url(//a)" = .ok [.leaf (.declaration "é" "url(//a)") ⟨0, 12⟩] := by
  have accepted : Stylesheet.read "@if x\x7b$é:url(//a)\x7d" = .ok
      [.block (.nesting "if" "x")
        [.leaf (.declaration "é" "url(//a)") ⟨6, 18⟩] ⟨0, 19⟩] :=
    Stylesheet.read_eq_ok_of_toOption (by decide +kernel)
  have occurs : Occurs (.leaf (.declaration "é" "url(//a)") ⟨6, 18⟩)
      [.block (.nesting "if" "x") [.leaf (.declaration "é" "url(//a)") ⟨6, 18⟩] ⟨0, 19⟩] :=
    .deeper List.mem_cons_self (.here List.mem_cons_self)
  have sliced : ByteRange.slice "@if x\x7b$é:url(//a)\x7d".toList ⟨6, 18⟩ =
      "$é:url(//a)".toList := by decide +kernel
  have noMark : "$é:url(//a)".toList.head? ≠ some '\ufeff' := by decide +kernel
  have read := read_slice_of_occurs accepted occurs
  rw [Node.span, sliced, String.ofList_toList] at read
  exact ⟨accepted, read noMark⟩

end StyleDoc
