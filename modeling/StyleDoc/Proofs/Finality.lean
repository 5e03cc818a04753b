import StyleDoc.Proofs.Concatenation
import StyleDoc.Proofs.Faults

/-!
# Faults that stay

A fault that is found in what was read, and not in that the text ends, is reported again whatever
is appended to the text: what was read before it is read in the same way.  Only the last token of a
text can turn into another one, and neither a brace nor a fault is such a token.
-/

namespace StyleDoc

/-- Whether a cause lies in the text that was read, and not in that the text ends. -/
def SyntaxCause.isFinal : SyntaxCause → Bool
  | unexpectedClose => true
  | unbalanced _ => true
  | missingSelector => true
  | missingName _ => true
  | tooDeep _ => true
  | unterminatedString .lineBreak => true
  | unterminatedString .endOfText => false
  | unclosedBlock => false
  | unterminatedComment => false
  | unclosedGroup => false
  | unclosedInterpolation => false

/-! ## Statement text -/

theorem closeQuoteAux_append_of_lineBreak {quote : Char} {read text : List Char}
    (h : closeQuoteAux quote read text = .error .lineBreak) (more : List Char) :
    closeQuoteAux quote read (text ++ more) = .error .lineBreak := by
  fun_induction closeQuoteAux quote read text with
  | case1 => cases h
  | case2 read c text ih =>
      rw [List.cons_append, List.cons_append, closeQuoteAux]
      exact ih h
  | case3 read text => simp [closeQuoteAux]
  | case4 => cases h
  | case5 read c text noEscape noBreak notQuote ih =>
      rw [List.cons_append, closeQuoteAux, if_neg noBreak, if_neg notQuote, ih h]
      rintro d rest rfl whole
      cases text with
      | nil => cases h
      | cons e text => exact noEscape e text rfl rfl

namespace Reading

theorem step_append_of_rest {reading next : Reading} {c : Char} {text rest : List Char}
    (h : reading.step c text = .read next rest) (nonempty : rest ≠ []) (more : List Char) :
    reading.step c (text ++ more) = .read next (rest ++ more) := by
  obtain ⟨inner, rfl, again⟩ := step_admits h
  rw [List.append_assoc]
  exact again (rest ++ more) (.inl (List.head?_append_of_ne_nil _ nonempty))

theorem step_append_of_final {reading : Reading} {c : Char} {text : List Char} {fault : Fault}
    (h : reading.step c text = .fault fault) (final : fault.cause.isFinal = true)
    (more : List Char) : reading.step c (text ++ more) = .fault fault := by
  unfold step at h
  split at h
  · next isQuote =>
      split at h
      · cases h
      · next stop unclosed =>
          cases h
          cases stop with
          | endOfText => cases final
          | lineBreak =>
              have again := closeQuoteAux_append_of_lineBreak unclosed more
              rw [step, if_pos isQuote, closeQuote, again]
  next notQuote =>
  split at h
  · split at h
    · cases h
    · cases h
      cases final
  split at h
  · cases h
  split at h
  · cases h
  split at h
  · cases h
  split at h
  · cases h
  split at h
  · cases h
  split at h
  · next isCloser =>
      split at h
      · next noGroup =>
          cases h
          rcases isCloser with rfl | rfl
          · simp [step, Text.isQuote, noGroup]
          · simp [step, Text.isQuote, noGroup]
      · cases h
  · cases h

/-- Nothing final is found at the end of a text. -/
theorem isFinal_of_finish {reading : Reading} {fault : Fault}
    (h : reading.finish = .error fault) : fault.cause.isFinal = false := by
  unfold finish at h
  split at h
  · cases h
    rfl
  · cases h
    rfl
  · cases h

theorem run_of_fault {reading : Reading} {c : Char} {text : List Char} {fault : Fault}
    (h : reading.step c text = .fault fault) : reading.run (c :: text) = .error fault := by
  rw [run]
  split
  · next stepped =>
      rw [h] at stepped
      cases stepped
  · next stepped =>
      rw [h] at stepped
      cases stepped
  · next stepped =>
      rw [h] at stepped
      cases stepped
      rfl

theorem run_append_of_final {reading : Reading} {text : List Char} {fault : Fault}
    (h : reading.run text = .error fault) (final : fault.cause.isFinal = true)
    (more : List Char) : reading.run (text ++ more) = .error fault := by
  -- Where the text ends there is nothing final, so each step leaves something of it.
  have ended {reading : Reading} (h : reading.run [] = .error fault) : False := by
    rw [run] at h
    cases finished : reading.finish with
    | ok pieces =>
        rw [finished] at h
        cases h
    | error stop =>
        rw [finished] at h
        cases h
        rw [isFinal_of_finish finished] at final
        cases final
  fun_induction Reading.run reading text with
  | case1 reading => exact (ended (by rw [run, h])).elim
  | case2 reading c text next rest stepped lt ih =>
      have nonempty : rest ≠ [] := by
        rintro rfl
        exact ended h
      rw [List.cons_append, run_of_step (step_append_of_rest stepped nonempty more)]
      exact ih h
  | case3 => cases h
  | case4 reading c text stop stepped =>
      cases h
      rw [List.cons_append, run_of_fault (step_append_of_final stepped final more)]

end Reading

/-! ## Tokens -/

namespace Token

theorem next_append_of_fits {c : Char} {text rest more : List Char} {token : Token}
    (h : next c text = .ok (token, rest)) (fits : token.Fits (rest ++ more)) :
    next c (text ++ more) = .ok (token, rest ++ more) := by
  have begins := (begins_of_next h).of_fits fits
  rw [← List.append_assoc, next_append h, List.cons_append] at begins
  obtain ⟨_, _, whole, next⟩ := begins.exists_next
  cases whole
  exact next

theorem next_append_of_final {c : Char} {text : List Char} {fault : Fault}
    (h : next c text = .error fault) (final : fault.cause.isFinal = true) (more : List Char) :
    next c (text ++ more) = .error fault := by
  unfold next at h
  split at h
  · cases h
  next visible =>
  split at h
  · split at h
    · cases h
    · cases h
      cases final
  next noBlock =>
  split at h
  · cases h
  next noLine =>
  split at h
  · cases h
  next noSemicolon =>
  split at h
  · cases h
  next noClose =>
  have noComment : ¬Reading.OpensComment c (text ++ more) := by
    rintro ⟨rfl, second⟩
    cases text with
    | nil =>
        have accepted : nextStatement ['/'] = .ok (statement [.char '/'], []) := by decide +kernel
        rw [accepted] at h
        cases h
    | cons d text =>
        rcases second with star | slash
        · exact noBlock ⟨rfl, star⟩
        · exact noLine ⟨rfl, slash⟩
  rw [next_eq_nextStatement (by simpa using visible) noComment ⟨noSemicolon, noClose⟩]
  unfold nextStatement at h ⊢
  split at h
  · cases h
  · cases h
  · next stop refused =>
      cases h
      have again := Reading.run_append_of_final refused final more
      rw [statementPieces, ← List.cons_append, again]

/-- Anything fits after the token at which a tree under construction refuses a text. -/
theorem fits_of_refused {limit : Nat} {tree : Construction} {token : Token} {fault : Fault}
    (h : tree.add limit token = .error fault) (rest : List Char) : token.Fits rest := by
  rcases Construction.add_eq_error h with ⟨pieces, rfl, _⟩ | ⟨rfl, _⟩ | ⟨_, _, _, rfl, _⟩
  · trivial
  · trivial
  · trivial

end Token

namespace TokenStream

theorem ofText_append_of_final {text : List Char} {fault : Fault}
    (faulty : (ofText text).fault = some fault) (final : fault.cause.isFinal = true)
    (more : List Char) : ofText (text ++ more) = ofText text := by
  induction text using text_induction with
  | nil =>
      rw [ofText_nil] at faulty
      cases faulty
  | fault c text stop h =>
      rw [ofText_of_fault h] at faulty
      cases faulty
      rw [List.cons_append, ofText_of_fault (Token.next_append_of_final h final more),
        ofText_of_fault h]
  | token c text first rest h ih =>
      rw [ofText_of_next h] at faulty
      have nonempty : rest ≠ [] := by
        rintro rfl
        rw [ofText_nil] at faulty
        cases faulty
      have fits : first.Fits (rest ++ more) :=
        Token.fits_congr (List.head?_append_of_ne_nil _ nonempty) (Token.begins_of_next h).fits
      rw [List.cons_append, ofText_of_next (Token.next_append_of_fits h fits), ofText_of_next h,
        ih faulty]

theorem tokens_append_of_fits {text : List Char} {earlier later : List Token} {token : Token}
    (split : (ofText text).tokens = earlier ++ token :: later)
    (fits : ∀ rest, token.Fits rest) (more : List Char) :
    ∃ later', (ofText (text ++ more)).tokens = earlier ++ token :: later' := by
  induction text using text_induction generalizing earlier with
  | nil => simp [ofText_nil] at split
  | fault c text stop h => simp [ofText_of_fault h] at split
  | token c text first rest h ih =>
      rw [ofText_of_next h, cons] at split
      cases earlier with
      | nil =>
          cases (List.cons.inj split).1
          rw [List.cons_append, ofText_of_next (Token.next_append_of_fits h (fits _))]
          exact ⟨_, rfl⟩
      | cons other earlier =>
          obtain ⟨rfl, splitRest⟩ := List.cons.inj split
          have nonempty : rest ≠ [] := by
            rintro rfl
            simp [ofText_nil] at splitRest
          have fitsFirst : first.Fits (rest ++ more) :=
            Token.fits_congr (List.head?_append_of_ne_nil _ nonempty) (Token.begins_of_next h).fits
          obtain ⟨later', found⟩ := ih splitRest
          rw [List.cons_append, ofText_of_next (Token.next_append_of_fits h fitsFirst), cons, found]
          exact ⟨later', rfl⟩

end TokenStream

/-! ## Sources -/

theorem Construction.build_append_of_final {limit : Nat} {tree : Construction} {text : List Char}
    {fault : Fault} (h : build limit tree (TokenStream.ofText text) = .error fault)
    (final : fault.cause.isFinal = true) (more : List Char) :
    build limit tree (TokenStream.ofText (text ++ more)) = .error fault := by
  rcases build_eq_error h with
    ⟨earlier, token, later, last, tokens_eq, built, failed⟩ | ⟨last, stop, _, faulty, rfl⟩ |
      ⟨_, _, _, _, _, _, rfl⟩
  · obtain ⟨later', tokens_eq'⟩ := TokenStream.tokens_append_of_fits tokens_eq
      (Token.fits_of_refused failed) more
    rw [build, tokens_eq', List.foldlM_append, built]
    simp only [bind, Except.bind, List.foldlM_cons, failed]
  · rw [TokenStream.ofText_append_of_final faulty final more, h]
  · cases final

theorem Stylesheet.nodesWithin_append_of_final {limit : Nat} {source : List Char} {fault : Fault}
    (refused : nodesWithin limit source = .error fault) (final : fault.cause.isFinal = true)
    (more : List Char) : nodesWithin limit (source ++ more) = .error fault := by
  obtain ⟨mark, body, rfl, isMark⟩ := exists_isMark source
  rw [nodesWithin_of_isMark isMark] at refused
  have nonempty : body ≠ [] := by
    rintro rfl
    rw [TokenStream.ofText_nil] at refused
    cases refused
  rw [List.append_assoc,
    nodesWithin_of_isMark (isMark.congr (List.head?_append_of_ne_nil _ nonempty))]
  exact Construction.build_append_of_final refused final more

/-- A refusal whose cause lies in what was read stays: every text that goes on behind the refused
one is refused for the same cause at the same line and column.  So no accepted text starts with
such a text. -/
theorem read_append_of_final {source : String} {refusal : Refusal}
    (refused : Stylesheet.read source = .error refusal)
    (final : refusal.cause.isFinal = true) :
    (∀ more : String, Stylesheet.read (source ++ more) = .error refusal) ∧
      ∀ whole nodes, Stylesheet.read whole = .ok nodes → ¬source.toList <+: whole.toList := by
  have stays : ∀ more : String, Stylesheet.read (source ++ more) = .error refusal := by
    intro more
    obtain ⟨fault, failed, rfl⟩ := Stylesheet.read_eq_error_iff.mp refused
    obtain ⟨before, after, whole, size, _⟩ := Stylesheet.pointsInto_of_refused failed
    have again := Stylesheet.nodesWithin_append_of_final failed final more.toList
    refine Stylesheet.read_eq_error_iff.mpr ⟨fault, by rw [String.toList_append, again], ?_⟩
    rw [Located.ofOffset, Located.ofOffset, String.toList_append, whole, ← size,
      Position.ofOffset_append, List.append_assoc, Position.ofOffset_append]
  refine ⟨stays, ?_⟩
  rintro whole nodes accepted ⟨more, whole_eq⟩
  have whole_eq' : whole = source ++ String.ofList more := by
    rw [← String.toList_inj, String.toList_append, String.toList_ofList, whole_eq]
  rw [whole_eq', stays] at accepted
  cases accepted

/-- A string literal that breaks off at the end of its line, after an escaped line feed, is not
mended by a quote further on. -/
theorem read_append_of_final_lineBreak :
    Stylesheet.read ("a\x7bé:\"\\\n\n" ++ "\"\x7d") =
      .error ⟨.unterminatedString .lineBreak, ⟨1, 5⟩⟩ := by
  have refused : Stylesheet.read "a\x7bé:\"\\\n\n" =
      .error ⟨.unterminatedString .lineBreak, ⟨1, 5⟩⟩ :=
    Stylesheet.read_eq_error_iff.mpr
      ⟨⟨.unterminatedString .lineBreak, 5⟩, by decide +kernel, by decide +kernel⟩
  exact (read_append_of_final refused rfl).1 _

end StyleDoc
