import StyleDoc.Proofs.Concatenation
import StyleDoc.Proofs.Spacing

/-!
# Bodies that no comment meets

Comments wait only among the statements of the top level and of nesting at-rules.  The body of a
rule, of a definition or of any other block can therefore be exchanged for every text that is the
body of a block: the edited text is accepted, and the same documentation is extracted from it.
-/

namespace StyleDoc

def Head.isNesting : Head → Bool
  | nesting _ _ => true
  | _ => false

/-- A node stands in a list of nodes or in a block of one of them; `depth` blocks are around it. -/
inductive OccursAt (node : Node) : Nat → List Node → Prop
  | here {nodes : List Node} (member : node ∈ nodes) : OccursAt node 0 nodes
  | deeper {depth : Nat} {head : Head} {body : List Node} {span : ByteRange} {nodes : List Node}
      (member : .block head body span ∈ nodes) (inside : OccursAt node depth body) :
      OccursAt node (depth + 1) nodes

theorem OccursAt.occurs {node : Node} {depth : Nat} {nodes : List Node}
    (occursAt : OccursAt node depth nodes) : Occurs node nodes := by
  induction occursAt with
  | here member => exact .here member
  | deeper member _ ih => exact .deeper member ih

/-! ## What comments can meet -/

namespace Outline

mutual

/-- What comments can meet of an item: only a nesting at-rule shows its body. -/
def exposed : Outline → Outline
  | leaf content => leaf content
  | block (.nesting keyword prelude) body => block (.nesting keyword prelude) (exposedList body)
  | block head _ => block head []

def exposedList : List Outline → List Outline
  | [] => []
  | item :: items => exposed item :: exposedList items

end

theorem exposedList_append (a b : List Outline) :
    exposedList (a ++ b) = exposedList a ++ exposedList b := by
  induction a with
  | nil => rfl
  | cons item a ih => rw [List.cons_append, exposedList, exposedList, ih, List.cons_append]

theorem exposed_block_of_hidden {head : Head} (hidden : head.isNesting = false)
    (body body' : List Outline) : exposed (block head body') = exposed (block head body) := by
  cases head with
  | nesting keyword prelude => cases hidden
  | _ => rfl

theorem exposed_block_congr (head : Head) {body body' : List Outline}
    (same : exposedList body' = exposedList body) :
    exposed (block head body') = exposed (block head body) := by
  cases head with
  | nesting keyword prelude => rw [exposed, exposed, same]
  | _ => rfl

theorem pendingAfter_toNode_exposed (pending : Option String) (item : Outline) :
    (toNode (exposed item)).pendingAfter pending = (toNode item).pendingAfter pending := by
  cases item with
  | leaf content => rfl
  | block head body => cases head <;> rfl

mutual

theorem events_toNode_exposed (pending : Option String) : (item : Outline) →
    (toNode (exposed item)).events pending = (toNode item).events pending
  | leaf _ => rfl
  | block (.nesting _ _) body => eventsOfList_toNodes_exposedList pending body
  | block (.rule _) _ => by cases pending <;> rfl
  | block (.callable _ _ _) _ => by cases pending <;> rfl
  | block (.other _) _ => by cases pending <;> rfl

/-- What happens to comments depends only on what they can meet. -/
theorem eventsOfList_toNodes_exposedList (pending : Option String) : (items : List Outline) →
    Node.eventsOfList pending (toNodes (exposedList items)) =
      Node.eventsOfList pending (toNodes items)
  | [] => rfl
  | item :: items => by
      rw [exposedList, toNodes, toNodes, Node.eventsOfList, Node.eventsOfList,
        events_toNode_exposed pending item, pendingAfter_toNode_exposed,
        eventsOfList_toNodes_exposedList _ items]

end

theorem ofNodes_extraction_of_exposedList {ε : Type} (reader : CommentReader ε) (labels : Labels)
    {nodes nodes' : List Node}
    (same : exposedList (ofNodes nodes') = exposedList (ofNodes nodes)) :
    Extraction.ofNodes reader labels nodes' = Extraction.ofNodes reader labels nodes := by
  rw [Extraction.ofNodes, ← eventsOfList_toNodes_ofNodes, ← eventsOfList_toNodes_exposedList,
    same, eventsOfList_toNodes_exposedList, eventsOfList_toNodes_ofNodes, Extraction.ofNodes]

end Outline

/-! ## Derivations with another body -/

namespace Derives

theorem of_append {offset : Nat} {tokens : List Token} {a b : List Node}
    (derived : Derives offset tokens (a ++ b)) :
    ∃ first second, tokens = first ++ second ∧ Derives offset first a ∧
      Derives (offset + tokensWidth first) second b := by
  induction a generalizing offset tokens with
  | nil => exact ⟨[], tokens, rfl, .nil, derived⟩
  | cons node a ih =>
      cases derived with
      | @leaf _ token _ _ _ stands later =>
          obtain ⟨first, second, rfl, derivedFirst, derivedSecond⟩ := ih later
          refine ⟨token :: first, second, rfl, .leaf stands derivedFirst, ?_⟩
          simpa [Nat.add_assoc] using derivedSecond
      | @block _ stop pieces _ inner _ _ _ read inside stop_eq later =>
          obtain ⟨first, second, rfl, derivedFirst, derivedSecond⟩ := ih later
          refine ⟨.header pieces :: inner ++ .close :: first, second, by simp,
            .block read inside stop_eq derivedFirst, ?_⟩
          simpa [stop_eq, Nat.add_assoc] using derivedSecond

theorem of_block_mem {offset : Nat} {tokens : List Token} {nodes body : List Node} {head : Head}
    {span : ByteRange} (derived : Derives offset tokens nodes)
    (member : .block head body span ∈ nodes) :
    ∃ earlier later before pieces inner after start,
      nodes = earlier ++ .block head body span :: later ∧
      tokens = before ++ .header pieces :: (inner ++ .close :: after) ∧
      Head.ofText (statementText pieces) = .ok head ∧ Derives offset before earlier ∧
      Derives (offset + tokensWidth before + (Token.header pieces).width) inner body ∧
      Derives start after later ∧
      span = ⟨offset + tokensWidth before, offset + tokensWidth before +
        (Token.header pieces).width + tokensWidth inner + 1⟩ := by
  obtain ⟨earlier, later, rfl⟩ := List.append_of_mem member
  obtain ⟨before, rest, rfl, derivedBefore, derivedRest⟩ := derived.of_append
  rw [← List.singleton_append] at derivedRest
  obtain ⟨middle, after, rfl, block, derivedAfter⟩ := derivedRest.of_append
  obtain ⟨pieces, inner, rfl, read, inside, span_eq⟩ := block.block_inv
  exact ⟨earlier, later, before, pieces, inner, after, _, rfl, by simp, read, derivedBefore,
    inside, derivedAfter, span_eq⟩

end Derives

theorem Means.append {a b : List Token} {items more : List Outline} {m n : Nat}
    (first : Means a items m) (second : Means b more n) :
    Means (a ++ b) (items ++ more) (max m n) := by
  intro offset
  obtain ⟨nodes, derived, rfl, rfl⟩ := first offset
  obtain ⟨nodes', derived', rfl, rfl⟩ := second (offset + tokensWidth a)
  exact ⟨nodes ++ nodes', derived.append derived', Outline.ofNodes_append _ _,
    Node.heightOfList_append _ _⟩

/--
The tokens around the body of a block that is no nesting at-rule derive a tree with any other body
too.  Comments can meet the same in it, and it is only as high as the new body makes it.
-/
theorem Derives.exists_frame_of_body {offset depth : Nat} {tokens : List Token}
    {nodes body : List Node} {head : Head} {span : ByteRange}
    (derived : Derives offset tokens nodes)
    (occurs : OccursAt (.block head body span) depth nodes) (hidden : head.isNesting = false) :
    ∃ before pieces inner after,
      tokens = before ++ .header pieces :: (inner ++ .close :: after) ∧
      Derives (offset + tokensWidth before + (Token.header pieces).width) inner body ∧
      span = ⟨offset + tokensWidth before, offset + tokensWidth before +
        (Token.header pieces).width + tokensWidth inner + 1⟩ ∧
      ∀ inner' items height, Means inner' items height → ∃ items' height',
        Means (before ++ .header pieces :: (inner' ++ .close :: after)) items' height' ∧
          Outline.exposedList items' = Outline.exposedList (Outline.ofNodes nodes) ∧
          height' ≤ max (Node.heightOfList nodes) (depth + height + 1) := by
  induction occurs generalizing offset tokens with
  | here member =>
      obtain ⟨earlier, later, before, pieces, inner, after, _, rfl, rfl, read, derivedBefore,
        inside, derivedAfter, span_eq⟩ := derived.of_block_mem member
      refine ⟨before, pieces, inner, after, rfl, inside, span_eq, ?_⟩
      intro inner' items height means
      refine ⟨_, _, (derivedBefore.means rfl).append
        (.block read means (derivedAfter.means rfl)), ?_, ?_⟩
      · rw [Outline.ofNodes_append, Outline.exposedList_append, Outline.exposedList_append,
          Outline.ofNodes, Outline.ofNode, List.singleton_append, Outline.exposedList,
          Outline.exposedList, Outline.exposed_block_of_hidden hidden]
      · simp only [Node.heightOfList_append, Node.heightOfList]
        omega
  | @deeper depth outerHead outerBody outerSpan nodes member _ ih =>
      obtain ⟨earlier, later, before, pieces, inner, after, _, rfl, rfl, read, derivedBefore,
        inside, derivedAfter, _⟩ := derived.of_block_mem member
      obtain ⟨before', pieces', inner', after', rfl, inside', span_eq, frame⟩ := ih inside
      refine ⟨before ++ .header pieces :: before', pieces', inner', after' ++ .close :: after,
        by simp, ?_, ?_, ?_⟩
      · simpa [Nat.add_assoc] using inside'
      · simpa [Nat.add_assoc] using span_eq
      · intro new items height means
        obtain ⟨items', height', meansInside, same, bound⟩ := frame new items height means
        have whole := (derivedBefore.means rfl).append
          (.block read meansInside (derivedAfter.means rfl))
        refine ⟨_, _, by simpa using whole, ?_, ?_⟩
        · rw [Outline.ofNodes_append, Outline.exposedList_append, Outline.exposedList_append,
            Outline.ofNodes, Outline.ofNode, List.singleton_append, Outline.exposedList,
            Outline.exposedList, Outline.exposed_block_congr outerHead same]
        · simp only [Node.heightOfList_append, Node.heightOfList, Node.height]
          omega

/-! ## Texts that can be a body -/

theorem Token.next_letter_brace (text : List Char) :
    next 'x' ('{' :: text) = .ok (.header [.char 'x'], text) := by
  have letter : Reading.start.step 'x' ('{' :: text) =
      .read (Reading.start.push (.char 'x')) ('{' :: text) := rfl
  have brace : (Reading.start.push (.char 'x')).step '{' text = .stop := rfl
  have run : statementPieces ('x' :: '{' :: text) = .ok ([.char 'x'], '{' :: text) := by
    rw [statementPieces, Reading.run_of_step letter, Reading.run]
    split
    · next stepped =>
        rw [brace] at stepped
        cases stepped
    · rfl
    · next stepped =>
        rw [brace] at stepped
        cases stepped
  rw [next_eq_nextStatement (by decide) (by simp [Reading.OpensComment]) (by decide),
    nextStatement, run]
  rfl

/-- A text that stands between the braces of a single block consists of tokens of its own, which
a closing brace fits. -/
theorem exists_tokens_of_body {text : String} {block : Node}
    (read : Stylesheet.read ("x\x7b" ++ text ++ "\x7d") = .ok [block]) :
    ∃ tokens items height, rawTokens tokens = text.toList ∧ WellCut tokens ∧
      (∀ token ∈ tokens.getLast?, token.Fits ['}']) ∧ Means tokens items height ∧
      block.height = height + 1 := by
  obtain ⟨_, tokens, _, _, stream, _, derived, _⟩ := Stylesheet.exists_tokens_of_read read
  have source_eq : ("x\x7b" ++ text ++ "\x7d").toList = 'x' :: '{' :: (text.toList ++ ['}']) := by
    simp
  have first : Stylesheet.tokenStream ('x' :: '{' :: (text.toList ++ ['}'])) =
      .cons (.header [.char 'x']) (.ofText (text.toList ++ ['}'])) :=
    TokenStream.ofText_of_next (Token.next_letter_brace _)
  rw [source_eq, first, TokenStream.cons, TokenStream.mk.injEq] at stream
  obtain ⟨rfl, faultless⟩ := stream
  have cut := TokenStream.wellCut_ofText _ faultless
  have raw := TokenStream.rawTokens_ofText _ faultless
  generalize (TokenStream.ofText (text.toList ++ ['}'])).tokens = tokens at cut raw derived
  generalize whole : Token.header [.char 'x'] :: tokens = all at derived
  cases derived with
  | leaf stands =>
      cases whole
      cases stands
  | @block _ _ _ _ inner _ _ _ _ inside _ later =>
      cases later
      rw [List.cons_append, List.cons.injEq] at whole
      obtain ⟨_, rfl⟩ := whole
      obtain ⟨cutInside, _, seam⟩ := WellCut.append_iff.mp cut
      rw [rawTokens_append] at raw
      exact ⟨inner, _, _, List.append_cancel_right raw, cutInside, seam, inside.means rfl, rfl⟩

/-- The body of a block can be exchanged for other tokens that a closing brace fits. -/
theorem WellCut.exchange_body {before inner inner' after : List Token} {pieces : List Piece}
    (cut : WellCut (before ++ .header pieces :: (inner ++ .close :: after)))
    (cut' : WellCut inner') (fits : ∀ token ∈ inner'.getLast?, token.Fits ['}']) :
    WellCut (before ++ .header pieces :: (inner' ++ .close :: after)) := by
  obtain ⟨_, ⟨alone, _, rest⟩, _⟩ := append_iff.mp cut
  obtain ⟨_, closed, _⟩ := append_iff.mp rest
  refine cut.replace alone rfl (append_iff.mpr ⟨cut', closed, ?_⟩) trivial
  intro token last
  exact Token.fits_congr rfl (fits token last)

/-! ## The statement -/

/--
The body of a rule, of a definition or of any other block that is no nesting at-rule has no
influence on documentation.  The text between its braces can be exchanged for every text that is
the body of a block, as long as blocks are not nested too deep then: those around the block, the
block itself and those of the new body.  The edited text is accepted, its tree leads to the same
extraction, and so the same entities or the same refusal of a comment come of the text.
-/
theorem read_with_other_body {source text : String} {nodes body : List Node} {head : Head}
    {span : ByteRange} {depth : Nat} {block : Node} (accepted : Stylesheet.read source = .ok nodes)
    (occurs : OccursAt (.block head body span) depth nodes) (hidden : head.isNesting = false)
    (isBody : Stylesheet.read ("x\x7b" ++ text ++ "\x7d") = .ok [block])
    (room : depth + block.height ≤ Stylesheet.maxDepth) :
    ∃ brace, Node.Braced source.toList span body brace ∧
      let edited := String.ofList
        (Text.splice source.toList ⟨brace + 1, span.stop - 1⟩ text.toList)
      ∃ nodes', Stylesheet.read edited = .ok nodes' ∧
        ∀ {ε : Type} (reader : CommentReader ε) (labels : Labels),
          Extraction.ofNodes reader labels nodes' = Extraction.ofNodes reader labels nodes ∧
            (Extraction.ofText readTree reader labels edited).result =
              (Extraction.ofText readTree reader labels source).result := by
  obtain ⟨mark, tokens, whole, isMark, _, cut, derived, shallow⟩ :=
    Stylesheet.exists_tokens_of_read accepted
  obtain ⟨inner', items, height, raw, cut', fits, means, height_eq⟩ :=
    exists_tokens_of_body isBody
  have nonempty : ∀ token ∈ tokens, token.raw ≠ [] :=
    fun token member => (cut.alone_of_mem token member).raw_ne_nil
  obtain ⟨brace, braced⟩ := derived.braced_of_occurs nonempty rfl occurs.occurs
  rw [← whole] at braced
  obtain ⟨before, pieces, inner, after, rfl, inside, rfl, frame⟩ :=
    derived.exists_frame_of_body occurs hidden
  obtain ⟨items', height', meansAll, same, bound⟩ := frame inner' items height means
  obtain ⟨nodes', derived', rfl, rfl⟩ := meansAll (Text.byteSize mark)
  have width_eq : (Token.header pieces).width = Text.byteSize (rawText pieces ++ ['{']) := rfl
  have brace_eq : brace + 1 =
      Text.byteSize (mark ++ rawTokens before ++ (rawText pieces ++ ['{'])) := by
    rw [braced.eq_braceOffset, inside.braceOffset_eq, Text.byteSize_append, ← width_eq,
      Token.width_header, Text.byteSize_append, ← tokensWidth, Nat.add_assoc]
  have stop_eq : Text.byteSize mark + tokensWidth before + (Token.header pieces).width +
        tokensWidth inner + 1 - 1 =
      Text.byteSize (mark ++ rawTokens before ++ (rawText pieces ++ ['{'])) +
        Text.byteSize (rawTokens inner) := by
    rw [Nat.add_sub_cancel, width_eq, Text.byteSize_append (mark ++ _), Text.byteSize_append mark]
    rfl
  have source_eq : source.toList = mark ++ rawTokens before ++ (rawText pieces ++ ['{']) ++
      rawTokens inner ++ rawTokens (.close :: after) := by
    simp [whole, Token.raw]
  have spliced : Text.splice source.toList ⟨brace + 1, Text.byteSize mark + tokensWidth before +
        (Token.header pieces).width + tokensWidth inner + 1 - 1⟩ text.toList =
      mark ++ rawTokens (before ++ .header pieces :: (inner' ++ .close :: after)) := by
    rw [brace_eq, stop_eq, source_eq, Text.splice_append]
    simp [Token.raw, raw]
  have isMark' : Stylesheet.IsMark mark
      (rawTokens (before ++ .header pieces :: (inner' ++ .close :: after))) := by
    refine isMark.congr ?_
    simp [List.head?_append, Token.raw]
  have read : Stylesheet.read (String.ofList
      (mark ++ rawTokens (before ++ .header pieces :: (inner' ++ .close :: after)))) =
        .ok nodes' :=
    Stylesheet.read_of_tokens isMark' (cut.exchange_body cut' fits) derived' (by omega)
  refine ⟨brace, braced, nodes', by simpa only [spliced] using read, ?_⟩
  intro ε reader labels
  have extraction := Outline.ofNodes_extraction_of_exposedList reader labels same
  refine ⟨extraction, ?_⟩
  rw [spliced, Extraction.result_ofText_of_read reader labels read,
    Extraction.result_ofText_of_read reader labels accepted, extraction]

/-- A rule in a conditional statement: what the new body documents stays without effect, and the
comment in front of the rule still documents it. -/
theorem read_with_other_body_rule :
    ∃ nodes', Stylesheet.read
          "@if x\x7b/** @class */.é\x7b/** @type */$c:\"\x7d\";.d\x7b\x7d\x7d\x7d" = .ok nodes' ∧
      (Extraction.ofNodes readComment {} nodes').result =
        .ok [⟨".é", .styleClass, {}, {}⟩] := by
  have accepted : Stylesheet.read "@if x\x7b/** @class */.é\x7bb\x7d\x7d" = .ok
      [.block (.nesting "if" "x")
        [.leaf (.comment .block "/** @class */") ⟨6, 19⟩,
          .block (.rule [⟨".é", some "é"⟩])
            [.leaf (.statement "b") ⟨23, 24⟩] ⟨19, 25⟩] ⟨0, 26⟩] :=
    Stylesheet.read_eq_ok_of_toOption (by decide +kernel)
  have occurs : OccursAt
      (.block (.rule [⟨".é", some "é"⟩]) [.leaf (.statement "b") ⟨23, 24⟩] ⟨19, 25⟩) 1
      [.block (.nesting "if" "x")
        [.leaf (.comment .block "/** @class */") ⟨6, 19⟩,
          .block (.rule [⟨".é", some "é"⟩])
            [.leaf (.statement "b") ⟨23, 24⟩] ⟨19, 25⟩] ⟨0, 26⟩] :=
    .deeper List.mem_cons_self (.here (by simp))
  have isBody : Stylesheet.read ("x\x7b" ++ "/** @type */$c:\"\x7d\";.d\x7b\x7d" ++ "\x7d") = .ok
      [.block (.rule [⟨"x", none⟩])
        [.leaf (.comment .block "/** @type */") ⟨2, 14⟩,
          .leaf (.declaration "c" "\"\x7d\"") ⟨14, 20⟩, .leaf .terminator ⟨20, 21⟩,
          .block (.rule [⟨".d", some "d"⟩]) [] ⟨21, 25⟩] ⟨0, 26⟩] :=
    Stylesheet.read_eq_ok_of_toOption (by decide +kernel)
  obtain ⟨brace, braced, nodes', read, same⟩ :=
    read_with_other_body accepted occurs rfl isBody (by decide +kernel)
  have edited : String.ofList (Text.splice "@if x\x7b/** @class */.é\x7bb\x7d\x7d".toList
        ⟨brace + 1, 25 - 1⟩ "/** @type */$c:\"\x7d\";.d\x7b\x7d".toList) =
      "@if x\x7b/** @class */.é\x7b/** @type */$c:\"\x7d\";.d\x7b\x7d\x7d\x7d" := by
    rw [braced.eq_braceOffset]
    decide +kernel
  refine ⟨nodes', by rw [← edited]; exact read, ?_⟩
  rw [(same readComment {}).1]
  decide +kernel

end StyleDoc
