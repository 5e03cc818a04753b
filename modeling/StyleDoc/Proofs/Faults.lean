import StyleDoc.Proofs.Headers
import StyleDoc.Proofs.Pieces
import StyleDoc.Proofs.TokenSeams

/-!
# What faults point at

Reading keeps the places of what is still open, and a tree under construction those of its open
blocks.  Each of them stays the place of the bracket, brace or statement it was taken at, so that
the offset of a fault lies in the source, on a character boundary, at what the cause is about.
-/

namespace StyleDoc

/-! ## Places -/

/-- The header with the given pieces starts right after the text `before`, and the tokens behind it
are the `later` ones. -/
def Stylesheet.HeaderAt (source before : List Char) (pieces : List Piece) (later : List Token) :
    Prop :=
  ∃ mark earlier, before = mark ++ rawTokens earlier ∧ Text.byteSize mark = bodyStart source ∧
    (tokenStream source).tokens = earlier ++ .header pieces :: later

namespace SyntaxCause

open Stylesheet (HeaderAt)

/--
What a fault with the given cause points at, when it lies between the texts `before` and `after`.
An open block is the innermost one: what follows its brace are nodes with all their blocks.  A
block without a selector has only a gap in front of its brace, and a definition without a name has
one in front of its keyword.
-/
def PointsAt (source before after : List Char) : SyntaxCause → Prop
  | unclosedBlock => ∃ start pieces inner nodes, HeaderAt source start pieces inner ∧
      before = start ++ rawText pieces ∧ after = '{' :: rawTokens inner ∧
      Derives (Text.byteSize before + 1) inner nodes
  | tooDeep _ => ∃ start pieces later rest, HeaderAt source start pieces later ∧
      before = start ++ rawText pieces ∧ after = '{' :: rest
  | missingSelector => ∃ pieces later rest, HeaderAt source before pieces later ∧
      after = rawText pieces ++ '{' :: rest ∧ IsGap (rawText pieces)
  | missingName kind => ∃ pieces later rest gap signature, HeaderAt source before pieces later ∧
      after = rawText pieces ++ '{' :: rest ∧
      rawText pieces = gap ++ '@' :: (kind.keyword.toList ++ signature) ∧ IsGap gap
  | unexpectedClose => ∃ rest, after = '}' :: rest
  | unterminatedComment => ∃ rest, after = '/' :: '*' :: rest ∧ ¬['*', '/'] <:+: rest
  | unterminatedString stop => ∃ quote rest, after = quote :: rest ∧ Text.isQuote quote = true ∧
      stop.Ends quote rest
  | unclosedGroup => ∃ rest, after = '(' :: rest ∨ after = '[' :: rest
  | unclosedInterpolation => ∃ rest, after = '#' :: '{' :: rest
  | unbalanced bracket => ∃ rest, after = bracket.closer :: rest

theorem PointsAt.ne_nil {source before after : List Char} {cause : SyntaxCause}
    (points : cause.PointsAt source before after) : after ≠ [] := by
  rintro rfl
  cases cause <;> simp [PointsAt] at points

end SyntaxCause

/-- A fault of a text that is read by itself: wherever the text stands, the fault points at what it
is about. -/
def Fault.LiesIn (text : List Char) (fault : Fault) : Prop :=
  ∃ before after, text = before ++ after ∧ Text.byteSize before = fault.offset ∧
    ∀ source front, fault.cause.PointsAt source (front ++ before) after

/-! ## Places of what is open in a statement -/

def Text.StandsAt (text : List Char) (offset : Nat) (part : List Char) : Prop :=
  ∃ before after, text = before ++ part ++ after ∧ byteSize before = offset

theorem Text.StandsAt.append {text part : List Char} {offset : Nat}
    (stands : StandsAt text offset part) (more : List Char) :
    StandsAt (text ++ more) offset part := by
  obtain ⟨before, after, rfl, size⟩ := stands
  exact ⟨before, after ++ more, by simp, size⟩

namespace Reading

/-- The places that a reading keeps are those of opening brackets and interpolations. -/
structure Placed (reading : Reading) : Prop where
  width_eq : reading.width = Text.byteSize reading.raw
  groups : ∀ group ∈ reading.groups, Text.StandsAt reading.raw group.offset ['('] ∨
    Text.StandsAt reading.raw group.offset ['[']
  interpolations : ∀ offset ∈ reading.interpolations,
    Text.StandsAt reading.raw offset ['#', '{']

namespace Placed

theorem start : Reading.start.Placed := ⟨rfl, by simp [Reading.start], by simp [Reading.start]⟩

theorem extend {reading next : Reading} (placed : reading.Placed) {more : List Char}
    (raw : next.raw = reading.raw ++ more) (width : next.width = reading.width + Text.byteSize more)
    (groups : next.groups ⊆ reading.groups)
    (interpolations : next.interpolations ⊆ reading.interpolations) : next.Placed := by
  refine ⟨by rw [width, raw, placed.width_eq, Text.byteSize_append], ?_, ?_⟩
  · intro group member
    rw [raw]
    exact (placed.groups group (groups member)).imp (·.append more) (·.append more)
  · intro offset member
    rw [raw]
    exact (placed.interpolations offset (interpolations member)).append more

theorem push {reading : Reading} (placed : reading.Placed) (piece : Piece) :
    (reading.push piece).Placed :=
  placed.extend (raw_push reading piece) rfl (List.Subset.refl _) (List.Subset.refl _)

theorem openGroup {reading : Reading} (placed : reading.Placed) {c : Char}
    (isOpener : c = '(' ∨ c = '[') : (reading.openGroup c).Placed := by
  have pushed := placed.push (.char c)
  refine ⟨pushed.width_eq, ?_, pushed.interpolations⟩
  intro group member
  rcases List.mem_cons.mp member with rfl | member
  · have here : Text.StandsAt (reading.openGroup c).raw reading.width [c] :=
      ⟨reading.raw, [], by simp [Reading.openGroup, Reading.push, Reading.raw, Piece.raw],
        placed.width_eq.symm⟩
    rcases isOpener with rfl | rfl
    · exact .inl here
    · exact .inr here
  · exact pushed.groups group member

theorem openInterpolation {reading : Reading} (placed : reading.Placed) :
    reading.openInterpolation.Placed := by
  have pushed := (placed.push (.char '#')).push (.char '{')
  refine ⟨pushed.width_eq, pushed.groups, ?_⟩
  intro offset member
  rcases List.mem_cons.mp member with rfl | member
  · exact ⟨reading.raw, [],
      by simp [Reading.openInterpolation, Reading.push, Reading.raw, Piece.raw],
      placed.width_eq.symm⟩
  · exact pushed.interpolations offset member

theorem move {reading next : Reading} {text rest : List Char} (placed : reading.Placed)
    (move : reading.Move text next rest) : next.Placed := by
  cases move with
  | quoted => exact placed.push _
  | blockRemark => exact placed.push _
  | lineRemark => exact placed.push _
  | openInterpolation => exact placed.openInterpolation
  | openGroup isOpener => exact placed.openGroup isOpener
  | char => exact placed.push _
  | closeInterpolation =>
      exact placed.extend (raw_push reading _) rfl (List.Subset.refl _)
        (List.tail_sublist _).subset
  | closeGroup _ isOpen =>
      refine placed.extend (raw_push reading _) rfl ?_ (List.Subset.refl _)
      rw [isOpen]
      exact List.subset_cons_self _ _

end Placed

/-- A step that refuses the text does so at the text in front of it. -/
theorem step_eq_fault {reading : Reading} {c : Char} {text : List Char} {fault : Fault}
    (h : reading.step c text = .fault fault) :
    fault.offset = reading.width ∧
      ∀ source before, fault.cause.PointsAt source before (c :: text) := by
  unfold step at h
  split at h
  · next isQuote =>
      split at h
      · cases h
      · next stop unclosed =>
          cases h
          exact ⟨rfl, fun _ _ => ⟨c, text, rfl, isQuote, closeQuoteAux_eq_error unclosed⟩⟩
  split at h
  · next opens =>
      obtain ⟨rfl, second⟩ := opens
      obtain ⟨text, rfl⟩ := List.head?_eq_some_iff.mp second
      split at h
      · cases h
      · next unclosed =>
          cases h
          exact ⟨rfl, fun _ _ => ⟨text, rfl, closeCommentAux_eq_none unclosed⟩⟩
  split at h
  · cases h
  split at h
  · cases h
  split at h
  · cases h
  split at h
  · cases h
  split at h
  · cases h
  split at h
  · next isCloser =>
      split at h
      · cases h
        refine ⟨rfl, fun _ _ => ⟨text, ?_⟩⟩
        rcases isCloser with rfl | rfl <;> rfl
      · cases h
  · cases h

theorem finish_eq_error {reading : Reading} {fault : Fault} (placed : reading.Placed)
    (h : reading.finish = .error fault) : fault.LiesIn reading.raw := by
  unfold finish at h
  split at h
  · next group _ isOpen =>
      cases h
      have member : group ∈ reading.groups := by simp [isOpen]
      rcases placed.groups group member with
        ⟨before, after, whole, size⟩ | ⟨before, after, whole, size⟩
      · exact ⟨before, '(' :: after, by simpa using whole, size, fun _ _ => ⟨after, .inl rfl⟩⟩
      · exact ⟨before, '[' :: after, by simpa using whole, size, fun _ _ => ⟨after, .inr rfl⟩⟩
  · next offset offsets _ isOpen =>
      cases h
      obtain ⟨before, after, whole, size⟩ := placed.interpolations offset (by simp [isOpen])
      exact ⟨before, '#' :: '{' :: after, by simpa using whole, size, fun _ _ => ⟨after, rfl⟩⟩
  · cases h

theorem run_eq_error {reading : Reading} {text : List Char} {fault : Fault}
    (placed : reading.Placed) (h : reading.run text = .error fault) :
    fault.LiesIn (reading.raw ++ text) := by
  -- `reading.raw ++ text` is the same text at every step, so the offset of a fault stays as it is.
  fun_induction Reading.run reading text with
  | case1 reading =>
      cases finished : reading.finish with
      | ok pieces => simp [finished, Except.map] at h
      | error stop =>
          simp only [finished, Except.map, Except.error.injEq] at h
          subst h
          rw [List.append_nil]
          exact finish_eq_error placed finished
  | case2 reading c text next rest stepped lt ih =>
      have move := move_of_step stepped
      rw [← move.raw_append]
      exact ih (placed.move move) h
  | case3 => cases h
  | case4 reading c text stop stepped =>
      cases h
      obtain ⟨offset_eq, points⟩ := step_eq_fault stepped
      exact ⟨reading.raw, c :: text, rfl, by rw [offset_eq, placed.width_eq],
        fun source front => points source (front ++ reading.raw)⟩

end Reading

/-! ## Faults between tokens -/

/-- A token that is refused is so at what the cause is about. -/
theorem Token.next_eq_error {c : Char} {text : List Char} {fault : Fault}
    (h : Token.next c text = .error fault) : fault.LiesIn (c :: text) := by
  unfold next at h
  split at h
  · cases h
  split at h
  · next opens =>
      obtain ⟨rfl, second⟩ := opens
      obtain ⟨text, rfl⟩ := List.head?_eq_some_iff.mp second
      split at h
      · cases h
      · next unclosed =>
          cases h
          exact ⟨[], _, rfl, rfl, fun _ _ => ⟨text, rfl, closeCommentAux_eq_none unclosed⟩⟩
  split at h
  · cases h
  split at h
  · cases h
  split at h
  · cases h
  · unfold nextStatement at h
    split at h
    · cases h
    · cases h
    · next stop refused =>
        cases h
        exact Reading.run_eq_error .start refused

namespace TokenStream

/-- What the tokens of a text leave of it: nothing, or a text that is refused. -/
theorem exists_rest (text : List Char) :
    ∃ rest, text = rawTokens (ofText text).tokens ++ rest ∧
      match (ofText text).fault with
      | none => rest = []
      | some fault => ∃ c tail, rest = c :: tail ∧ Token.next c tail = .error fault := by
  induction text using text_induction with
  | nil => exact ⟨[], by simp [ofText_nil], by simp [ofText_nil]⟩
  | fault c text stop h =>
      exact ⟨c :: text, by simp [ofText_of_fault h], by simp [ofText_of_fault h, h]⟩
  | token c text first rest h ih =>
      obtain ⟨left, whole, ends⟩ := ih
      refine ⟨left, ?_, ?_⟩
      · rw [ofText_of_next h, ← Token.next_append h, cons, rawTokens_cons, List.append_assoc,
          ← whole]
      · rw [ofText_of_next h]
        exact ends

theorem alone_of_mem_ofText (text : List Char) : ∀ token ∈ (ofText text).tokens, token.Alone := by
  induction text using text_induction with
  | nil => simp [ofText_nil]
  | fault c text stop h => simp [ofText_of_fault h]
  | token c text first rest h ih =>
      rw [ofText_of_next h]
      intro token member
      rcases List.mem_cons.mp member with rfl | member
      · exact (Token.begins_of_next h).alone
      · exact ih token member

end TokenStream

/-! ## Faults of headers -/

theorem Head.ofText_eq_error {text : List Char} {cause : SyntaxCause}
    (h : Head.ofText text = .error cause) :
    (cause = .missingSelector ∧ ∀ c ∈ text, Text.isBlank c = true) ∨
      ∃ kind atRule, cause = .missingName kind ∧ Text.trim text = '@' :: atRule ∧
        kind.keyword.toList = atRule.takeWhile Text.isKeywordChar := by
  unfold ofText ofTrimmed at h
  split at h
  · next empty =>
      cases h
      exact .inl ⟨rfl, Text.isBlank_of_trim_eq_nil empty⟩
  · next atRule starts =>
      unfold ofAtRule at h
      simp only at h
      split at h
      · next kind isKeyword =>
          unfold ofSignature at h
          simp only at h
          split at h
          · cases h
            refine .inr ⟨kind, atRule, rfl, starts, ?_⟩
            rw [DefinitionKind.keyword_of_ofKeyword? isKeyword, String.toList_ofList]
          · cases h
      · split at h <;> cases h
  · split at h <;> cases h

/-- The fault of a header points at the start of its statement. -/
theorem Written.pointsAt {pieces : List Piece} {rest : List Char} {cause : SyntaxCause}
    (written : Written ('{' :: rest) pieces)
    (refused : Head.ofText (statementText pieces) = .error cause)
    {source before : List Char} {later : List Token}
    (header : Stylesheet.HeaderAt source before pieces later) (more : List Char) :
    cause.PointsAt source before (rawText pieces ++ '{' :: more) := by
  rcases Head.ofText_eq_error refused with ⟨rfl, blank⟩ | ⟨kind, atRule, rfl, starts, keyword⟩
  · exact ⟨pieces, later, more, header, rfl, written.isGap blank⟩
  · obtain ⟨trailing, trimmed⟩ := Text.trim_prefix_trimStart (statementText pieces)
    rw [starts] at trimmed
    obtain ⟨gap, behind, whole, isGap, writtenBehind, said⟩ :=
      written.exists_gap (by decide) trimmed.symm
    have word : kind.keyword.toList <+: statementText behind := by
      rw [said, keyword]
      exact (List.takeWhile_prefix _).trans (List.prefix_append _ _)
    obtain ⟨signature, behind_eq⟩ := writtenBehind.prefix_rawText word fun c member => by
      rw [keyword] at member
      exact List.all_eq_true.mp List.all_takeWhile c member
    exact ⟨pieces, later, more, gap, signature, header, rfl, by rw [whole, behind_eq], isGap⟩

/-! ## Faults of trees under construction -/

namespace Construction

theorem add_eq_error {limit : Nat} {tree : Construction} {token : Token} {fault : Fault}
    (h : tree.add limit token = .error fault) :
    (∃ pieces, token = .header pieces ∧
        fault = ⟨.tooDeep limit, tree.offset + Text.byteSize (rawText pieces)⟩) ∨
      (token = .close ∧ tree.blocks = [] ∧ fault = ⟨.unexpectedClose, tree.offset⟩) ∨
      ∃ block blocks cause, token = .close ∧ tree.blocks = block :: blocks ∧
        Head.ofText (statementText block.header) = .error cause ∧
        fault = ⟨cause, block.start⟩ := by
  cases token with
  | header pieces =>
      unfold add openBlock at h
      simp only at h
      split at h
      · cases h
        exact .inl ⟨pieces, rfl, rfl⟩
      · cases h
  | close =>
      unfold add closeBlock at h
      simp only at h
      split at h
      · next empty =>
          cases h
          exact .inr (.inl ⟨rfl, empty, rfl⟩)
      · next block blocks isOpen =>
          split at h
          · next cause refused =>
              cases h
              exact .inr (.inr ⟨block, blocks, cause, rfl, isOpen, refused, rfl⟩)
          · cases h
  | blank | comment | semicolon | statement => cases h

theorem foldlM_add_eq_error {limit : Nat} {tree : Construction} {tokens : List Token}
    {fault : Fault} (h : tokens.foldlM (add limit) tree = .error fault) :
    ∃ earlier token later last, tokens = earlier ++ token :: later ∧
      earlier.foldlM (add limit) tree = .ok last ∧ last.add limit token = .error fault := by
  induction tokens generalizing tree with
  | nil => cases h
  | cons token tokens ih =>
      rw [List.foldlM_cons] at h
      cases added : tree.add limit token with
      | error stop =>
          rw [added] at h
          cases h
          exact ⟨[], token, tokens, tree, rfl, rfl, added⟩
      | ok next =>
          rw [added] at h
          obtain ⟨earlier, refused, later, last, rfl, built, failed⟩ := ih h
          refine ⟨token :: earlier, refused, later, last, rfl, ?_, failed⟩
          rw [List.foldlM_cons, added]
          exact built

/-- The ways in which building a tree can fail: at a token, where the text cannot be cut further,
or with a block that is still open. -/
theorem build_eq_error {limit : Nat} {tree : Construction} {stream : TokenStream} {fault : Fault}
    (h : build limit tree stream = .error fault) :
    (∃ earlier token later last, stream.tokens = earlier ++ token :: later ∧
        earlier.foldlM (add limit) tree = .ok last ∧ last.add limit token = .error fault) ∨
      (∃ last stop, stream.tokens.foldlM (add limit) tree = .ok last ∧
        stream.fault = some stop ∧ fault = ⟨stop.cause, last.offset + stop.offset⟩) ∨
      ∃ last block blocks, stream.tokens.foldlM (add limit) tree = .ok last ∧
        stream.fault = none ∧ last.blocks = block :: blocks ∧
        fault = ⟨.unclosedBlock, block.brace⟩ := by
  unfold build at h
  cases built : stream.tokens.foldlM (add limit) tree with
  | error stop =>
      rw [built] at h
      cases h
      exact .inl (foldlM_add_eq_error built)
  | ok last =>
      simp only [built, bind, Except.bind] at h
      split at h
      · next stop faulty =>
          cases h
          exact .inr (.inl ⟨last, stop, rfl, faulty, rfl⟩)
      · next faultless =>
          unfold finish at h
          split at h
          · cases h
          · next block blocks isOpen =>
              cases h
              exact .inr (.inr ⟨last, block, blocks, rfl, faultless, isOpen, rfl⟩)

/-- The braces of the open blocks stand right behind their headers. -/
def BracesPlaced (tree : Construction) : Prop :=
  ∀ block ∈ tree.blocks, block.brace = block.start + Text.byteSize (rawText block.header)

theorem BracesPlaced.add {limit : Nat} {tree next : Construction} {token : Token}
    (placed : tree.BracesPlaced) (h : tree.add limit token = .ok next) : next.BracesPlaced := by
  unfold BracesPlaced
  rcases blocks_of_add h with same | ⟨pieces, opened⟩ | ⟨block, closed⟩
  · rw [same]
    exact placed
  · rw [opened, List.forall_mem_cons]
    exact ⟨rfl, placed⟩
  · intro outer member
    exact placed outer (by rw [closed]; exact List.mem_cons_of_mem _ member)

theorem BracesPlaced.foldlM_add {limit : Nat} {tree last : Construction} {tokens : List Token}
    (placed : tree.BracesPlaced) (h : tokens.foldlM (Construction.add limit) tree = .ok last) :
    last.BracesPlaced := by
  induction tokens generalizing tree with
  | nil =>
      cases h
      exact placed
  | cons token tokens ih =>
      rw [List.foldlM_cons] at h
      cases added : tree.add limit token with
      | error stop =>
          rw [added] at h
          cases h
      | ok next =>
          rw [added] at h
          exact ih (placed.add added) h

end Construction

theorem Covers.offset_eq {limit start : Nat} {tree : Construction} {tokens : List Token}
    (covers : Covers limit start tree tokens) : tree.offset = start + tokensWidth tokens := by
  induction covers with
  | flat => rfl
  | inside _ _ _ _ ih =>
      simp only at ih
      simp [ih, Nat.add_assoc]

/-- The innermost open block of a tree under construction, by the tokens added so far. -/
theorem Covers.of_open {limit start : Nat} {tree : Construction} {tokens : List Token}
    {block : OpenBlock} {blocks : List OpenBlock} (covers : Covers limit start tree tokens)
    (isOpen : tree.blocks = block :: blocks) :
    ∃ earlier inner nodes, tokens = earlier ++ .header block.header :: inner ∧
      block.start = start + tokensWidth earlier ∧
      Derives (block.start + (Token.header block.header).width) inner nodes := by
  cases covers with
  | flat => cases isOpen
  | inside brace outer derived room =>
      cases isOpen
      exact ⟨_, _, _, rfl, outer.offset_eq, derived⟩

/-! ## Faults of a source -/

def Fault.PointsInto (source : List Char) (fault : Fault) : Prop :=
  ∃ before after, source = before ++ after ∧ Text.byteSize before = fault.offset ∧
    fault.cause.PointsAt source before after

namespace Stylesheet

/-- A source is its byte order mark, if any, its tokens, and what is left where it cannot be cut
further. -/
theorem exists_source_eq (source : List Char) :
    ∃ mark rest, source = mark ++ (rawTokens (tokenStream source).tokens ++ rest) ∧
      Text.byteSize mark = bodyStart source ∧
      match (tokenStream source).fault with
      | none => rest = []
      | some fault => ∃ c tail, rest = c :: tail ∧ Token.next c tail = .error fault := by
  obtain ⟨mark, body, rfl, isMark⟩ := exists_isMark source
  obtain ⟨rest, whole, ends⟩ := TokenStream.exists_rest body
  rw [tokenStream, withoutMark_of_isMark isMark, bodyStart_of_isMark isMark]
  exact ⟨mark, rest, by rw [← whole], rfl, ends⟩

variable {limit : Nat} {source mark rest : List Char} {last : Construction} {fault : Fault}

theorem pointsInto_of_refused_token {earlier later : List Token} {token : Token}
    (whole : source = mark ++ (rawTokens (tokenStream source).tokens ++ rest))
    (size : Text.byteSize mark = bodyStart source)
    (tokens_eq : (tokenStream source).tokens = earlier ++ token :: later)
    (covers : Covers limit (bodyStart source) last earlier)
    (failed : last.add limit token = .error fault) : fault.PointsInto source := by
  rw [tokens_eq] at whole
  rcases Construction.add_eq_error failed with
    ⟨pieces, rfl, rfl⟩ | ⟨rfl, _, rfl⟩ | ⟨block, blocks, cause, rfl, isOpen, refused, rfl⟩
  · refine ⟨mark ++ rawTokens earlier ++ rawText pieces, '{' :: (rawTokens later ++ rest), ?_, ?_,
      mark ++ rawTokens earlier, pieces, later, _, ⟨mark, earlier, rfl, size, tokens_eq⟩, rfl, rfl⟩
    · rw [whole]
      simp [Token.raw]
    · simp [covers.offset_eq, size, tokensWidth, Nat.add_assoc]
  · refine ⟨mark ++ rawTokens earlier, '}' :: (rawTokens later ++ rest), ?_, ?_, _, rfl⟩
    · rw [whole]
      simp [Token.raw]
    · simp [covers.offset_eq, size, tokensWidth]
  · obtain ⟨before, inner, nodes, rfl, start_eq, _⟩ := covers.of_open isOpen
    have alone : (Token.header block.header).Alone :=
      TokenStream.alone_of_mem_ofText (withoutMark source) _ (by
        rw [← tokenStream, tokens_eq]
        simp)
    have written := (Token.alone_header_iff.mp alone).2.written
    have header : HeaderAt source (mark ++ rawTokens before) block.header
        (inner ++ .close :: later) :=
      ⟨mark, before, rfl, size, by rw [tokens_eq]; simp⟩
    refine ⟨mark ++ rawTokens before, _, ?_, ?_, written.pointsAt refused header
      (rawTokens inner ++ '}' :: (rawTokens later ++ rest))⟩
    · rw [whole]
      simp [Token.raw]
    · simp [start_eq, size, tokensWidth]

theorem pointsInto_of_uncut {stop : Fault}
    (whole : source = mark ++ (rawTokens (tokenStream source).tokens ++ rest))
    (size : Text.byteSize mark = bodyStart source)
    (covers : Covers limit (bodyStart source) last (tokenStream source).tokens)
    (lies : stop.LiesIn rest) :
    Fault.PointsInto source ⟨stop.cause, last.offset + stop.offset⟩ := by
  obtain ⟨before, after, rfl, offset_eq, points⟩ := lies
  refine ⟨mark ++ rawTokens (tokenStream source).tokens ++ before, after, ?_, ?_, points _ _⟩
  · simpa using whole
  · simp [covers.offset_eq, size, tokensWidth, offset_eq, Nat.add_assoc]

theorem pointsInto_of_open_block {block : OpenBlock} {blocks : List OpenBlock}
    (whole : source = mark ++ rawTokens (tokenStream source).tokens)
    (size : Text.byteSize mark = bodyStart source)
    (covers : Covers limit (bodyStart source) last (tokenStream source).tokens)
    (placed : last.BracesPlaced) (isOpen : last.blocks = block :: blocks) :
    Fault.PointsInto source ⟨.unclosedBlock, block.brace⟩ := by
  obtain ⟨earlier, inner, nodes, tokens_eq, start_eq, derived⟩ := covers.of_open isOpen
  have brace_eq := placed block (by simp [isOpen])
  have before_eq : Text.byteSize (mark ++ rawTokens earlier ++ rawText block.header) =
      block.brace := by
    simp [brace_eq, start_eq, size, tokensWidth, Nat.add_assoc]
  rw [Token.width_header, ← Nat.add_assoc, ← brace_eq, ← before_eq] at derived
  refine ⟨mark ++ rawTokens earlier ++ rawText block.header, '{' :: rawTokens inner, ?_, before_eq,
    mark ++ rawTokens earlier, block.header, inner, nodes, ⟨mark, earlier, rfl, size, tokens_eq⟩,
    rfl, rfl, derived⟩
  rw [tokens_eq] at whole
  rw [whole]
  simp [Token.raw]

/-- The fault of a refused source points at what its cause is about, whatever the limit. -/
theorem pointsInto_of_refused (refused : nodesWithin limit source = .error fault) :
    fault.PointsInto source := by
  obtain ⟨mark, rest, whole, size, ends⟩ := exists_source_eq source
  have start := Covers.empty limit (bodyStart source)
  rcases Construction.build_eq_error refused with
    ⟨earlier, token, later, last, tokens_eq, built, failed⟩ | ⟨last, stop, built, faulty, rfl⟩ |
      ⟨last, block, blocks, built, faultless, isOpen, rfl⟩
  · exact pointsInto_of_refused_token whole size tokens_eq (start.foldlM_add built) failed
  · have uncut : (tokenStream source).fault = some stop := faulty
    simp only [uncut] at ends
    obtain ⟨c, tail, rfl, next⟩ := ends
    exact pointsInto_of_uncut whole size (start.foldlM_add built) (Token.next_eq_error next)
  · have cut : (tokenStream source).fault = none := faultless
    simp only [cut] at ends
    rw [ends, List.append_nil] at whole
    have placed : Construction.BracesPlaced ⟨bodyStart source, [], []⟩ := by
      simp [Construction.BracesPlaced]
    exact pointsInto_of_open_block whole size (start.foldlM_add built) (placed.foldlM_add built)
      isOpen

theorem read_eq_error_iff {source : String} {refusal : Refusal} :
    read source = .error refusal ↔ ∃ fault, nodesWithin maxDepth source.toList = .error fault ∧
      refusal = Located.ofOffset source.toList fault.offset fault.cause := by
  unfold read
  cases nodesWithin maxDepth source.toList with
  | ok nodes => simp
  | error fault => simp [eq_comm]

end Stylesheet

/-- Every refusal points at its cause: its line and column are those of a place inside the source,
between two of its characters, and what stands there is what the cause is about. -/
theorem refusal_points_at_cause {source : String} {refusal : Refusal}
    (refused : Stylesheet.read source = .error refusal) :
    ∃ before after, source.toList = before ++ after ∧ after ≠ [] ∧
      refusal.position = Position.ofOffset source.toList (Text.byteSize before) ∧
      refusal.cause.PointsAt source.toList before after := by
  obtain ⟨fault, failed, rfl⟩ := Stylesheet.read_eq_error_iff.mp refused
  obtain ⟨before, after, whole, size, points⟩ := Stylesheet.pointsInto_of_refused failed
  refine ⟨before, after, whole, points.ne_nil, ?_, points⟩
  rw [size]
  rfl

/-- A block that is not closed, with a closed one inside, and a mixin without a name behind a blank
that is no ASCII blank and a comment. -/
theorem refusal_points_at_cause_sample :
    (Stylesheet.read ".é\x7ba\x7b\x7db" = .error ⟨.unclosedBlock, ⟨1, 3⟩⟩ ∧
      ∃ before rest, ".é\x7ba\x7b\x7db".toList = before ++ '{' :: rest ∧
        Position.ofOffset ".é\x7ba\x7b\x7db".toList (Text.byteSize before) = ⟨1, 3⟩) ∧
    Stylesheet.read "a;\n\u00a0/*\x7b*/@mixin(\x7d)\x7b\x7d" =
        .error ⟨.missingName .mixin, ⟨2, 1⟩⟩ ∧
      ∃ before gap rest, "a;\n\u00a0/*\x7b*/@mixin(\x7d)\x7b\x7d".toList =
          before ++ (gap ++ '@' :: 'm' :: 'i' :: 'x' :: 'i' :: 'n' :: rest) ∧ IsGap gap ∧
        Position.ofOffset "a;\n\u00a0/*\x7b*/@mixin(\x7d)\x7b\x7d".toList
          (Text.byteSize before) = ⟨2, 1⟩ := by
  have openBlock : Stylesheet.read ".é\x7ba\x7b\x7db" = .error ⟨.unclosedBlock, ⟨1, 3⟩⟩ :=
    Stylesheet.read_eq_error_iff.mpr ⟨⟨.unclosedBlock, 3⟩, by decide +kernel, by decide +kernel⟩
  have nameless : Stylesheet.read "a;\n\u00a0/*\x7b*/@mixin(\x7d)\x7b\x7d" =
      .error ⟨.missingName .mixin, ⟨2, 1⟩⟩ :=
    Stylesheet.read_eq_error_iff.mpr
      ⟨⟨.missingName .mixin, 3⟩, by decide +kernel, by decide +kernel⟩
  refine ⟨⟨openBlock, ?_⟩, nameless, ?_⟩
  · obtain ⟨before, after, whole, _, position, start, pieces, inner, nodes, _, _, after_eq, _⟩ :=
      refusal_points_at_cause openBlock
    rw [after_eq] at whole
    exact ⟨before, _, whole, position.symm⟩
  · obtain ⟨before, after, whole, _, position, pieces, later, rest, gap, signature, _, after_eq,
      pieces_eq, isGap⟩ := refusal_points_at_cause nameless
    refine ⟨before, gap, signature ++ '{' :: rest, ?_, isGap, position.symm⟩
    rw [whole, after_eq, pieces_eq]
    simp [DefinitionKind.keyword]

end StyleDoc
