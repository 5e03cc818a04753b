import StyleDoc.Proofs.Slices

/-!
# Comments inside statements

A block comment inside a statement can be replaced by a space, and a line comment can be left out:
the tree stays the same, apart from its places.  From there on reading goes through states that
are alike: they differ in what was read before, but have the same brackets open, and a blank or a
comment shields what follows from the difference.
-/

namespace StyleDoc

/-- Whether a piece is neither a colon nor a letter of `url`, so that nothing after it depends on
what stands before it. -/
def Piece.isGap : Piece → Bool
  | char c => Text.isAsciiBlank c
  | quoted _ => false
  | remark _ _ => true

theorem Piece.isLetter_of_isGap {piece : Piece} {letter : Char} (gap : piece.isGap = true)
    (isUrl : letter = 'u' ∨ letter = 'r' ∨ letter = 'l') : piece.isLetter letter = false := by
  cases piece with
  | char c =>
      simp only [isGap, Text.isAsciiBlank, Bool.or_eq_true, beq_iff_eq] at gap
      rcases isUrl with rfl | rfl | rfl
      all_goals rcases gap with (((rfl | rfl) | rfl) | rfl) | rfl <;> decide
  | quoted text => cases gap
  | remark form text => rfl

namespace Reading

/-- States that differ only in what was read before a gap. -/
structure Alike (old old' : List Piece) (a b : Reading) : Prop where
  pieces : ∃ recent, a.pieces = recent ++ old ∧ b.pieces = recent ++ old'
  urls : a.groups.map Group.isUrl = b.groups.map Group.isUrl
  interpolations : a.interpolations.length = b.interpolations.length
  gap : ∀ piece ∈ old.head?, piece.isGap = true
  gap' : ∀ piece ∈ old'.head?, piece.isGap = true

theorem followsColon_of_gap {reading : Reading}
    (gap : ∀ piece ∈ reading.pieces.head?, piece.isGap = true) : reading.followsColon = false := by
  unfold followsColon
  split
  · next found =>
      rw [found] at gap
      cases gap _ rfl
  · rfl

theorem followsUrl_of_gap {reading : Reading} {recent old : List Piece}
    (whole : reading.pieces = recent ++ old) (short : recent.length < 3)
    (gap : ∀ piece ∈ old.head?, piece.isGap = true) : reading.followsUrl = false := by
  unfold followsUrl
  split
  · next l r u _ found =>
      rw [whole] at found
      have isGap : l.isGap = true ∨ r.isGap = true ∨ u.isGap = true := by
        match recent with
        | [] =>
            rw [List.nil_append] at found
            exact .inl (gap l (by rw [found]; rfl))
        | [first] =>
            cases found
            exact .inr (.inl (gap r rfl))
        | [first, second] =>
            cases found
            exact .inr (.inr (gap u rfl))
        | _ :: _ :: _ :: _ =>
            simp only [List.length_cons] at short
            omega
      rcases isGap with gap | gap | gap
      · simp [Piece.isLetter_of_isGap gap (.inr (.inr rfl))]
      · simp [Piece.isLetter_of_isGap gap (.inr (.inl rfl))]
      · simp [Piece.isLetter_of_isGap gap (.inl rfl)]
  · rfl

namespace Alike

variable {old old' : List Piece} {a b : Reading}

theorem followsColon_eq (alike : Alike old old' a b) : a.followsColon = b.followsColon := by
  obtain ⟨recent, wholeA, wholeB⟩ := alike.pieces
  cases recent with
  | nil =>
      have gapA : ∀ piece ∈ a.pieces.head?, piece.isGap = true := by
        rw [wholeA]
        exact alike.gap
      have gapB : ∀ piece ∈ b.pieces.head?, piece.isGap = true := by
        rw [wholeB]
        exact alike.gap'
      rw [followsColon_of_gap gapA, followsColon_of_gap gapB]
  | cons piece recent =>
      unfold followsColon
      rw [wholeA, wholeB]
      simp only [List.cons_append]
      split <;> simp_all

theorem followsUrl_eq (alike : Alike old old' a b) : a.followsUrl = b.followsUrl := by
  obtain ⟨recent, wholeA, wholeB⟩ := alike.pieces
  by_cases short : recent.length < 3
  · rw [followsUrl_of_gap wholeA short alike.gap, followsUrl_of_gap wholeB short alike.gap']
  · match recent with
    | l :: r :: u :: recent =>
        unfold followsUrl
        rw [wholeA, wholeB]
        rfl
    | [] | [_] | [_, _] => simp at short

theorem insideUrl_eq (alike : Alike old old' a b) : a.insideUrl = b.insideUrl := by
  have head (reading : Reading) :
      reading.insideUrl = (reading.groups.map Group.isUrl).head?.getD false := by
    unfold insideUrl
    split <;> simp_all
  rw [head a, head b, alike.urls]

theorem allowsLineComment_eq (alike : Alike old old' a b) :
    a.allowsLineComment = b.allowsLineComment := by
  rw [allowsLineComment, allowsLineComment, alike.insideUrl_eq, alike.followsColon_eq]

theorem interpolations_eq_nil_iff (alike : Alike old old' a b) :
    a.interpolations = [] ↔ b.interpolations = [] := by
  rw [← List.length_eq_zero_iff, alike.interpolations, List.length_eq_zero_iff]

theorem groups_eq_nil_iff (alike : Alike old old' a b) : a.groups = [] ↔ b.groups = [] := by
  rw [← List.map_eq_nil_iff, alike.urls, List.map_eq_nil_iff]

theorem isFlat_eq (alike : Alike old old' a b) : a.isFlat = b.isFlat := by
  rw [Bool.eq_iff_iff]
  simp only [isFlat, Bool.and_eq_true, List.isEmpty_iff]
  rw [alike.groups_eq_nil_iff, alike.interpolations_eq_nil_iff]

theorem push (alike : Alike old old' a b) (piece : Piece) :
    Alike old old' (a.push piece) (b.push piece) := by
  obtain ⟨recent, wholeA, wholeB⟩ := alike.pieces
  refine ⟨⟨piece :: recent, ?_, ?_⟩, alike.urls, alike.interpolations, alike.gap, alike.gap'⟩
  · simp [Reading.push, wholeA]
  · simp [Reading.push, wholeB]

theorem openGroup (alike : Alike old old' a b) (c : Char) :
    Alike old old' (a.openGroup c) (b.openGroup c) := by
  have pushed := alike.push (.char c)
  refine ⟨pushed.pieces, ?_, pushed.interpolations, pushed.gap, pushed.gap'⟩
  simp [Reading.openGroup, alike.urls, alike.followsUrl_eq]

theorem openInterpolation (alike : Alike old old' a b) :
    Alike old old' a.openInterpolation b.openInterpolation := by
  have pushed := (alike.push (.char '#')).push (.char '{')
  refine ⟨pushed.pieces, pushed.urls, ?_, pushed.gap, pushed.gap'⟩
  simp [Reading.openInterpolation, alike.interpolations]

theorem withGroups (alike : Alike old old' a b) {groups groups' : List Group}
    (urls : groups.map Group.isUrl = groups'.map Group.isUrl) :
    Alike old old' { a with groups := groups } { b with groups := groups' } :=
  ⟨alike.pieces, urls, alike.interpolations, alike.gap, alike.gap'⟩

theorem withInterpolations (alike : Alike old old' a b) {offsets offsets' : List Nat}
    (depth : offsets.length = offsets'.length) :
    Alike old old' { a with interpolations := offsets } { b with interpolations := offsets' } :=
  ⟨alike.pieces, alike.urls, depth, alike.gap, alike.gap'⟩

/-- Alike states take the same steps. -/
theorem step {next : Reading} {c : Char} {text rest : List Char} (alike : Alike old old' a b)
    (h : a.step c text = .read next rest) :
    ∃ next', b.step c text = .read next' rest ∧ Alike old old' next next' := by
  unfold Reading.step at h ⊢
  simp only [← alike.allowsLineComment_eq, ← alike.isFlat_eq, ne_eq,
    ← alike.interpolations_eq_nil_iff] at h ⊢
  split at h
  · next isQuote =>
      rw [if_pos isQuote]
      split at h
      · next closed =>
          cases h
          exact ⟨_, rfl, alike.push _⟩
      · cases h
  next noQuote =>
  rw [if_neg noQuote]
  split at h
  · next opens =>
      rw [if_pos opens]
      split at h
      · next closed =>
          cases h
          exact ⟨_, rfl, alike.push _⟩
      · cases h
  next noBlock =>
  rw [if_neg noBlock]
  split at h
  · next opens =>
      rw [if_pos opens]
      cases h
      exact ⟨_, rfl, alike.push _⟩
  next noLine =>
  rw [if_neg noLine]
  split at h
  · next opens =>
      rw [if_pos opens]
      cases h
      exact ⟨_, rfl, alike.openInterpolation⟩
  next noInterpolation =>
  rw [if_neg noInterpolation]
  split at h
  · next closes =>
      rw [if_pos closes]
      cases h
      have depth : a.interpolations.tail.length = b.interpolations.tail.length := by
        simp [alike.interpolations]
      exact ⟨_, rfl, (alike.push _).withInterpolations depth⟩
  next noEnd =>
  rw [if_neg noEnd]
  split at h
  · cases h
  next noStop =>
  rw [if_neg noStop]
  split at h
  · next opener =>
      rw [if_pos opener]
      cases h
      exact ⟨_, rfl, alike.openGroup c⟩
  next noOpener =>
  rw [if_neg noOpener]
  split at h
  · next closer =>
      rw [if_pos closer]
      have urls := alike.urls
      split at h
      · cases h
      · next group groups isOpen =>
          cases h
          rw [isOpen, List.map_cons, eq_comm, List.map_eq_cons_iff] at urls
          obtain ⟨group', groups', isOpen', _, urls⟩ := urls
          rw [isOpen']
          exact ⟨_, rfl, (alike.push _).withGroups urls.symm⟩
  · next noCloser =>
      rw [if_neg noCloser]
      cases h
      exact ⟨_, rfl, alike.push _⟩

theorem steps {last : Reading} {text rest : List Char} (alike : Alike old old' a b)
    (steps : Steps a text last rest) :
    ∃ last', Steps b text last' rest ∧ Alike old old' last last' := by
  induction steps generalizing b with
  | refl => exact ⟨b, .refl, alike⟩
  | step first _ ih =>
      obtain ⟨next', first', alikeNext⟩ := alike.step first
      obtain ⟨last', later', alikeLast⟩ := ih alikeNext
      exact ⟨last', .step first' later', alikeLast⟩

/-- What alike states read is the same, apart from what was read before. -/
theorem exists_last {last : Reading} {text rest : List Char} {after : List Piece}
    (alike : Alike old old' a b) (steps : Steps a text last rest) (flat : last.isFlat = true)
    (read : last.pieces.reverse = old.reverse ++ after) :
    ∃ last', Steps b text last' rest ∧ last'.isFlat = true ∧
      last'.pieces.reverse = old'.reverse ++ after := by
  obtain ⟨last', steps', alikeLast⟩ := alike.steps steps
  obtain ⟨recent, whole, whole'⟩ := alikeLast.pieces
  refine ⟨last', steps', alikeLast.isFlat_eq ▸ flat, ?_⟩
  rw [whole, List.reverse_append] at read
  rw [whole', List.reverse_append, List.append_cancel_left read]

end Alike

end Reading

/-! ## Statements without a comment -/

def CommentForm.standIn : CommentForm → List Char
  | block => [' ']
  | line => []

namespace Readable

open Reading

theorem without_blockRemark {before after : List Piece} {body rest : List Char}
    (readable : Readable (before ++ .remark .block body :: after) rest) :
    Readable (before ++ .char ' ' :: after) rest := by
  obtain ⟨middle, last, _, _, upTo, first, _, _, later, flat, read⟩ := readable.split_remark
  have alike : Alike (.remark .block body :: middle.pieces) (.char ' ' :: middle.pieces)
      (middle.push (.remark .block body)) (middle.push (.char ' ')) :=
    ⟨⟨[], rfl, rfl⟩, rfl, rfl, by simp [Piece.isGap], by simp [Piece.isGap, Text.isAsciiBlank]⟩
  have parts : last.pieces.reverse =
      (.remark .block body :: middle.pieces).reverse ++ after := by
    simp [read, upTo]
  obtain ⟨last', later', flat', read'⟩ := alike.exists_last later flat parts
  refine ⟨last', ?_, flat', by simp [read', upTo]⟩
  have blank := step_blank (c := ' ') (by decide) middle (rawText after ++ rest)
  have whole := (first _ (.inr (by simp [Follows]))).trans (.step blank later')
  simpa [Piece.raw] using whole

theorem without_lineRemark {before after : List Piece} {body rest : List Char}
    (readable : Readable (before ++ .remark .line body :: after) rest) :
    Readable (before ++ after) rest := by
  obtain ⟨middle, last, _, _, upTo, first, _, stepped, later, flat, read⟩ :=
    readable.split_remark
  obtain ⟨_, more, _, _, left_eq⟩ := lineRemark_of_step stepped
  have ends := head?_afterLine ('/' :: more)
  rw [← left_eq] at ends
  have blank : ∀ c ∈ (rawText after ++ rest).head?, Text.isAsciiBlank c = true := by
    intro c head
    rw [ends c head]
    rfl
  have whole := first _ (.inr (follows_of_blank blank))
  generalize left : rawText after ++ rest = text at whole later ends
  cases later with
  | refl =>
      have nothing : after = [] := by
        simpa [push, upTo] using read
      subst nothing
      exact ⟨middle, by simpa using whole, flat, by simp [upTo]⟩
  | @step _ _ _ d tail _ _ second later =>
      cases ends d rfl
      rw [step_blank (by decide)] at second
      cases second
      obtain ⟨added, grown⟩ := later.pieces_suffix
      have parts : last.pieces.reverse =
          (.char '\n' :: .remark .line body :: middle.pieces).reverse ++ added.reverse := by
        rw [← grown, List.reverse_append]
        rfl
      have after_eq : after = .char '\n' :: added.reverse := by
        rw [read] at parts
        simpa [upTo] using parts
      have alike : Alike (.char '\n' :: .remark .line body :: middle.pieces)
          (.char '\n' :: middle.pieces) ((middle.push (.remark .line body)).push (.char '\n'))
          (middle.push (.char '\n')) :=
        ⟨⟨[], rfl, rfl⟩, rfl, rfl, by simp [Piece.isGap, Text.isAsciiBlank],
          by simp [Piece.isGap, Text.isAsciiBlank]⟩
      obtain ⟨last', later', flat', read'⟩ := alike.exists_last later flat parts
      refine ⟨last', ?_, flat', by simp [read', upTo, after_eq]⟩
      have blank := step_blank (c := '\n') (by decide) middle tail
      have steps := whole.trans (.step blank later')
      simpa [left] using steps

/-- A statement is read without one of its comments too. -/
theorem without_remark {before after : List Piece} {form : CommentForm} {body rest : List Char}
    (readable : Readable (before ++ .remark form body :: after) rest) :
    Readable (before ++ (form.standIn.map Piece.char ++ after)) rest := by
  cases form with
  | block => exact readable.without_blockRemark
  | line => exact readable.without_lineRemark

end Readable

/-! ## Tokens without a comment -/

theorem text_remark (form : CommentForm) (body : List Char) :
    (Piece.remark form body).text = form.standIn := by
  cases form <;> rfl

theorem fillsLine_of_standIn {before after : List Piece} {form : CommentForm} {body : List Char}
    (fills : fillsLine (before ++ (form.standIn.map Piece.char ++ after)) = true) :
    fillsLine (before ++ .remark form body :: after) = true := by
  unfold fillsLine at fills ⊢
  by_cases nothing : after = []
  · subst nothing
    cases form with
    | block => simp [CommentForm.standIn, Piece.fillsLine] at fills
    | line => simp [Piece.fillsLine]
  · have last (front : List Piece) : (front ++ after).getLast? = after.getLast? :=
      List.getLast?_append_of_ne_nil front nothing
    rw [← List.append_assoc, last] at fills
    rw [List.append_cons, last]
    exact fills

/-- A comment is not the first piece of a statement, so the first piece stays. -/
theorem head?_of_standIn {before after : List Piece} {form : CommentForm} {body : List Char}
    (starts : ∀ piece ∈ (before ++ .remark form body :: after).head?,
      piece.startsStatement = true) :
    (before ++ (form.standIn.map Piece.char ++ after)).head? =
        (before ++ .remark form body :: after).head? ∧
      ∀ tail, (rawText (before ++ (form.standIn.map Piece.char ++ after)) ++ tail).head? =
        (rawText (before ++ .remark form body :: after) ++ tail).head? := by
  cases before with
  | nil => cases starts _ rfl
  | cons piece before =>
      refine ⟨rfl, ?_⟩
      intro tail
      simp only [List.cons_append, rawText_cons, List.append_assoc,
        Piece.head?_raw_append (starts piece rfl)]

namespace Token

def Consists (token : Token) (pieces : List Piece) : Prop :=
  token = header pieces ∨ token = statement pieces

/-- A token without one of its comments takes the place of the token. -/
theorem Alone.without_remark {token : Token} {before after : List Piece} {form : CommentForm}
    {body : List Char} (alone : token.Alone)
    (consists : token.Consists (before ++ .remark form body :: after)) :
    ∃ (token' : Token) (tail : List Char), token.raw = rawText before ++ body ++ tail ∧
      token'.raw = rawText before ++ form.standIn ++ tail ∧ token'.Alone ∧
      token'.raw.head? = token.raw.head? ∧ token'.part = token.part ∧
      ∀ rest, token.Fits rest → token'.Fits rest := by
  have said : statementText (before ++ (form.standIn.map Piece.char ++ after)) =
      statementText (before ++ .remark form body :: after) := by
    simp [text_remark]
  rcases consists with rfl | rfl
  · obtain ⟨starts, readable⟩ := alone_header_iff.mp alone
    obtain ⟨first, head⟩ := head?_of_standIn starts
    refine ⟨.header (before ++ (form.standIn.map Piece.char ++ after)), rawText after ++ ['{'],
      by simp [raw, Piece.raw], by simp [raw], ?_, head ['{'],
      by simp only [part, said], fun _ _ => trivial⟩
    exact alone_header_iff.mpr ⟨by rwa [first], readable.without_remark⟩
  · obtain ⟨_, starts, readable⟩ := alone_statement_iff.mp alone
    obtain ⟨first, head⟩ := head?_of_standIn starts
    refine ⟨.statement (before ++ (form.standIn.map Piece.char ++ after)), rawText after,
      by simp [raw, Piece.raw], by simp [raw],
      alone.statement_of_head? first readable.without_remark, by simpa [raw] using head [],
      by simp only [part, said], ?_⟩
    intro rest fits
    exact fits_statement fits fillsLine_of_standIn

end Token

/-! ## The statement -/

/-- A comment inside a statement, with its delimiters, takes up the given bytes of a text. -/
def InnerComment (source : List Char) (form : CommentForm) (body : List Char)
    (range : ByteRange) : Prop :=
  ∃ earlier token later before after,
    (Stylesheet.tokenStream source).tokens = earlier ++ token :: later ∧
      token.Consists (before ++ .remark form body :: after) ∧
      range.start =
        Stylesheet.bodyStart source + tokensWidth earlier + Text.byteSize (rawText before) ∧
      range.stop = range.start + Text.byteSize body

/-- Comments inside statements leave no trace in the tree: with a space in the place of the bytes
of a block comment, or nothing in that of a line comment, a text is accepted and its tree is the
same, apart from the places of the nodes. -/
theorem read_without_inner_comment {source : String} {nodes : List Node} {form : CommentForm}
    {body : List Char} {range : ByteRange} (accepted : Stylesheet.read source = .ok nodes)
    (comment : InnerComment source.toList form body range) :
    range.slice source.toList = body ∧
      ∃ nodes', Stylesheet.read (String.ofList (Text.splice source.toList range form.standIn)) =
          .ok nodes' ∧ Node.unplaced nodes' = Node.unplaced nodes := by
  obtain ⟨mark, tokens, whole, isMark, stream, cut, derived, room⟩ :=
    Stylesheet.exists_tokens_of_read accepted
  obtain ⟨earlier, token, later, before, after, found, consists, start_eq, stop_eq⟩ := comment
  have bodyStart : Stylesheet.bodyStart source.toList = Text.byteSize mark := by
    rw [whole, Stylesheet.bodyStart_of_isMark isMark]
  rw [stream] at found
  subst found
  have alone : token.Alone := cut.alone_of_mem token (by simp)
  obtain ⟨token', tail, raw, raw', alone', head, part, fits⟩ := alone.without_remark consists
  have range_eq : range = ⟨Text.byteSize (mark ++ rawTokens earlier ++ rawText before),
      Text.byteSize (mark ++ rawTokens earlier ++ rawText before) + Text.byteSize body⟩ := by
    rw [Text.byteSize_append, Text.byteSize_append, ← tokensWidth, ← bodyStart, ← start_eq,
      ← stop_eq]
  have source_eq : source.toList = mark ++ rawTokens earlier ++ rawText before ++ body ++
      (tail ++ rawTokens later) := by
    simp [whole, raw]
  have sliced : range.slice source.toList = body := by
    rw [range_eq, source_eq, ByteRange.slice_append]
  have spliced : Text.splice source.toList range form.standIn =
      mark ++ rawTokens (earlier ++ token' :: later) := by
    rw [range_eq, source_eq, Text.splice_append]
    simp [raw']
  obtain ⟨_, ⟨_, fitsLater, cutLater⟩, _⟩ := WellCut.append_iff.mp cut
  have cut' := cut.replace alone' head cutLater (fits _ fitsLater)
  have isMark' : Stylesheet.IsMark mark (rawTokens (earlier ++ token' :: later)) := by
    refine isMark.congr ?_
    simp [List.head?_append, head]
  have parts : (earlier ++ token' :: later).map Token.part =
      (earlier ++ token :: later).map Token.part := by
    simp [part]
  obtain ⟨nodes', derived', said⟩ := derived.of_parts parts (Text.byteSize mark)
  have height : Node.heightOfList nodes' = Node.heightOfList nodes := by
    rw [← Node.heightOfList_unplaced, said, Node.heightOfList_unplaced]
  refine ⟨sliced, nodes', ?_, said⟩
  rw [spliced]
  exact Stylesheet.read_of_tokens isMark' cut' derived' (height ▸ room)

/-- A block comment with a bracket in it, between a colon and an address, and a line comment after
them: each can go. -/
theorem read_without_inner_comment_address :
    ∃ nodes, Stylesheet.read "@if x\x7b$é:/*(*/url(//a)//b\n\x7d" = .ok nodes ∧
      (∃ nodes', Stylesheet.read "@if x\x7b$é: url(//a)//b\n\x7d" = .ok nodes' ∧
        Node.unplaced nodes' = Node.unplaced nodes) ∧
      ∃ nodes', Stylesheet.read "@if x\x7b$é:/*(*/url(//a)\n\x7d" = .ok nodes' ∧
        Node.unplaced nodes' = Node.unplaced nodes := by
  have accepted : Stylesheet.read "@if x\x7b$é:/*(*/url(//a)//b\n\x7d" = .ok
      [.block (.nesting "if" "x")
        [.leaf (.declaration "é" "url(//a)") ⟨6, 27⟩] ⟨0, 28⟩] :=
    Stylesheet.read_eq_ok_of_toOption (by decide +kernel)
  have tokens : (Stylesheet.tokenStream "@if x\x7b$é:/*(*/url(//a)//b\n\x7d".toList).tokens =
      [.header ("@if x".toList.map .char),
        .statement ("$é:".toList.map .char ++ .remark .block "/*(*/".toList ::
          ("url(//a)".toList.map .char ++ [.remark .line "//b".toList, .char '\n'])),
        .close] := by
    decide +kernel
  have blockComment : InnerComment "@if x\x7b$é:/*(*/url(//a)//b\n\x7d".toList .block
      "/*(*/".toList ⟨10, 15⟩ :=
    ⟨[_], _, [_], _, _, tokens, .inr rfl, by decide +kernel, by decide +kernel⟩
  have lineComment : InnerComment "@if x\x7b$é:/*(*/url(//a)//b\n\x7d".toList .line
      "//b".toList ⟨23, 26⟩ := by
    refine ⟨[_], _, [_], "$é:".toList.map .char ++ .remark .block "/*(*/".toList ::
      "url(//a)".toList.map .char, [.char '\n'], tokens, .inr ?_, ?_, ?_⟩
    · simp
    · decide +kernel
    · decide +kernel
  have withoutBlock := (read_without_inner_comment accepted blockComment).2
  have withoutLine := (read_without_inner_comment accepted lineComment).2
  exact ⟨_, accepted, withoutBlock, withoutLine⟩

end StyleDoc
