import StyleDoc.Proofs.Concatenation
import StyleDoc.Proofs.Printing
import StyleDoc.Proofs.Scanning
import StyleDoc.Proofs.TagEntries

/-!
# Blank texts and strict requests

A blank text is not read before it is said to have no documentation.  Reading it would give the
same: only ASCII blanks are a token of their own, but what other blanks there are is one statement
without a meaning.  A strict request reads the text once more, and differs only where that is
refused.
-/

namespace StyleDoc

/-! ## Blank texts -/

theorem isHarmless_isBlank : IsHarmless Text.isBlank := by
  unfold IsHarmless
  decide +kernel

/-- Blanks of which the first is not an ASCII one are a statement. -/
theorem Token.next_of_blanks {c : Char} {text : List Char}
    (blank : ∀ d ∈ c :: text, Text.isBlank d = true) (other : Text.isAsciiBlank c = false) :
    ∃ pieces, Token.next c text = .ok (.statement pieces, []) := by
  have balanced := (Balanced.ofHarmless isHarmless_isBlank blank).mono isPlain_of_isListed
  have follows : Reading.Follows [] := by simp [Reading.Follows]
  obtain ⟨pieces, _, _, goesOn⟩ := Reading.run_balanced balanced isEnclosed_of_isPlain
  have read : statementPieces (c :: text) = .ok (pieces, []) := by
    have whole := goesOn .start [] (fun _ => rfl) follows
    rw [List.append_nil] at whole
    rw [statementPieces, whole, Reading.run, Reading.finish_of_isFlat rfl]
    simp [Reading.pushAll, Reading.start, Except.map]
  have next := Cuts.next_balanced balanced other follows
  rw [List.append_nil, List.append_nil, nextStatement, read] at next
  exact ⟨pieces, next⟩

/-- The tokens of a blank text: at most a run of ASCII blanks and a statement. -/
theorem TokenStream.exists_ofText_of_blank {text : List Char}
    (blank : ∀ c ∈ text, Text.isBlank c = true) :
    ∃ tokens, ofText text = ⟨tokens, none⟩ ∧ ∀ token ∈ tokens, ∃ leaf, token.leaf? = some leaf := by
  have started (text : List Char) (blank : ∀ c ∈ text, Text.isBlank c = true)
      (other : ∀ c ∈ text.head?, Text.isAsciiBlank c = false) :
      ∃ tokens, ofText text = ⟨tokens, none⟩ ∧
        ∀ token ∈ tokens, ∃ leaf, token.leaf? = some leaf := by
    cases text with
    | nil => exact ⟨[], ofText_nil, by simp⟩
    | cons c text =>
        obtain ⟨pieces, next⟩ := Token.next_of_blanks blank (other c rfl)
        refine ⟨[.statement pieces], ?_, by simp [Token.leaf?]⟩
        rw [ofText_of_next next, ofText_nil]
        rfl
  cases text with
  | nil => exact started [] blank (by simp)
  | cons c text =>
      by_cases ascii : Text.isAsciiBlank c = true
      · have next : Token.next c text = .ok (.blank (c :: text.takeWhile Text.isAsciiBlank),
            text.dropWhile Text.isAsciiBlank) := by
          rw [Token.next, if_pos ascii]
        have later : ∀ d ∈ text.dropWhile Text.isAsciiBlank, Text.isBlank d = true :=
          fun d member => blank d (List.mem_cons_of_mem _ ((List.dropWhile_subset _) member))
        have stops : ∀ d ∈ (text.dropWhile Text.isAsciiBlank).head?,
            Text.isAsciiBlank d = false := Text.head?_dropWhile Text.isAsciiBlank text
        obtain ⟨tokens, cut, leaves⟩ := started _ later stops
        refine ⟨.blank (c :: text.takeWhile Text.isAsciiBlank) :: tokens, ?_, ?_⟩
        · rw [ofText_of_next next, cut]
          rfl
        · exact List.forall_mem_cons.mpr ⟨⟨.blank, rfl⟩, leaves⟩
      · exact started (c :: text) blank (by simpa using ascii)

theorem Derives.exists_of_leaves {tokens : List Token}
    (leaves : ∀ token ∈ tokens, ∃ leaf, token.leaf? = some leaf) (offset : Nat) :
    ∃ nodes, Derives offset tokens nodes ∧ Node.heightOfList nodes = 0 := by
  induction tokens generalizing offset with
  | nil => exact ⟨[], .nil, rfl⟩
  | cons token tokens ih =>
      obtain ⟨⟨leaf, stands⟩, later⟩ := List.forall_mem_cons.mp leaves
      obtain ⟨nodes, derived, flat⟩ := ih later (offset + token.width)
      exact ⟨_, .leaf stands derived, by simpa [Node.heightOfList, Node.height] using flat⟩

theorem Stylesheet.exists_read_of_blank {source : String}
    (blank : ∀ c ∈ source.toList, Text.isBlank c = true) : ∃ nodes, read source = .ok nodes := by
  have unmarked : withoutMark source.toList = source.toList := by
    rcases withoutMark_cases source.toList with ⟨text, marked, _⟩ | ⟨_, whole, _⟩
    · cases blank '\ufeff' (by simp [marked])
    · exact whole
  obtain ⟨tokens, cut, leaves⟩ := TokenStream.exists_ofText_of_blank blank
  obtain ⟨nodes, derived, flat⟩ := Derives.exists_of_leaves leaves (bodyStart source.toList)
  refine ⟨nodes, read_eq_ok_iff.mpr (nodesWithin_eq_ok_iff.mpr ?_)⟩
  rw [tokenStream, unmarked, cut]
  exact ⟨rfl, derived, by simp [flat]⟩

namespace Extraction

/-- What a text is documented with if it is always read, also if it is blank. -/
def throughTree {ε : Type} (reader : CommentReader ε) (labels : Labels) (source : String) :
    Except ε (List Entity) :=
  match Stylesheet.read source with
  | .error _ => .ok []
  | .ok nodes => (ofNodes reader labels nodes).result

theorem result_ofText_eq_throughTree {ε : Type} (reader : CommentReader ε) (labels : Labels)
    (source : String) :
    (ofText readTree reader labels source).result = throughTree reader labels source := by
  rw [throughTree]
  cases read : Stylesheet.read source with
  | ok nodes => exact result_ofText_of_read reader labels read
  | error refusal =>
      rw [ofText]
      split
      · rfl
      · rw [readTree, read]
        rfl

end Extraction

/-! ## Strict requests -/

namespace Command

variable {files : FileSystem} {file text : String} {labels : Labels}

theorem parse_lenient (reads : files.readText file = .ok text) :
    parse files file labels false =
      within ("Failed to extract documentation from " ++ file) DocFault.causes
        (entities labels text) := by
  rw [parse, reads]
  rfl

theorem parse_strict (reads : files.readText file = .ok text) :
    parse files file labels true =
      within ("Failed to analyze " ++ file) DocFault.causes (analyze text) >>=
        fun _ => parse files file labels false := by
  rw [parse, parse, reads]
  rfl

theorem report_ne {causes causes' : List String} :
    Failure.report ⟨"Failed to extract documentation from " ++ file, causes⟩ ≠
      Failure.report ⟨"Failed to analyze " ++ file, causes'⟩ := by
  intro same
  have chars := congrArg (fun report => (String.toList report)[17]?) same
  simp [Failure.report] at chars

/-- A file that is read lets a strict request fail in analysis exactly if its text is refused. -/
theorem perform_strict (reads : files.readText file = .ok text) :
    (∀ refusal, Stylesheet.read text = .error refusal →
        perform files (.parse file labels true) = .failure
          ⟨"Failed to analyze " ++ file, [refusal.report, refusal.describe]⟩) ∧
      ∀ nodes, Stylesheet.read text = .ok nodes →
        perform files (.parse file labels true) = perform files (.parse file labels false) ∧
          ∀ causes, perform files (.parse file labels true) ≠
            .failure ⟨"Failed to analyze " ++ file, causes⟩ := by
  refine ⟨fun refusal refused => ?_, fun nodes accepted => ?_⟩
  · rw [perform, parse_strict reads, analyze, refused]
    rfl
  · have same : parse files file labels true = parse files file labels false := by
      rw [parse_strict reads, analyze, accepted]
      rfl
    refine ⟨by rw [perform, perform, same], fun causes => ?_⟩
    rw [perform, same, parse_lenient reads]
    cases entities labels text with
    | ok documented => simp [within, Outcome.ofResult, Outcome.success, Outcome.failure, Except.map]
    | error fault => simpa [within, Outcome.ofResult, Outcome.failure, Except.map] using report_ne

end Command

/-! ## The statement -/

/-- Neither leaving a blank text unread nor asking for strictness changes what it should not. -/
theorem shortcut_and_strictness_change_nothing :
    (∀ source : String, (∀ c ∈ source.toList, Text.isBlank c = true) →
      ∃ nodes, Stylesheet.read source = .ok nodes ∧
        ∀ (ε : Type) (reader : CommentReader ε) (labels : Labels),
          (Extraction.ofNodes reader labels nodes).result = .ok []) ∧
    (∀ (ε : Type) (reader : CommentReader ε) (labels : Labels) (source : String),
      (Extraction.ofText readTree reader labels source).result =
        Extraction.throughTree reader labels source) ∧
    ∀ (files : FileSystem) (words strictWords : List String) (file text : String)
      (labels : Labels), Command.request? words = some (.parse file labels false) →
        Command.request? strictWords = some (.parse file labels true) →
        files.readText file = .ok text →
      ((∃ causes, Command.run files strictWords =
          .failure ⟨"Failed to analyze " ++ file, causes⟩) ↔
        ∃ refusal, Stylesheet.read text = .error refusal) ∧
      ((¬∃ causes, Command.run files strictWords =
          .failure ⟨"Failed to analyze " ++ file, causes⟩) →
        Command.run files strictWords = Command.run files words) := by
  refine ⟨fun source blank => ?_, fun ε => Extraction.result_ofText_eq_throughTree,
    fun files words strictWords file text labels asked strictlyAsked reads => ?_⟩
  · obtain ⟨nodes, accepted⟩ := Stylesheet.exists_read_of_blank blank
    refine ⟨nodes, accepted, fun ε reader labels => ?_⟩
    rw [Extraction.ofNodes_of_blank reader labels blank accepted]
    rfl
  · obtain ⟨fails, agrees⟩ := @Command.perform_strict files file text labels reads
    simp only [Command.run, asked, strictlyAsked]
    cases read : Stylesheet.read text with
    | error refusal =>
        have failed := fails refusal read
        exact ⟨⟨fun _ => ⟨refusal, rfl⟩, fun _ => ⟨_, failed⟩⟩, fun none => (none ⟨_, failed⟩).elim⟩
    | ok nodes =>
        obtain ⟨same, other⟩ := agrees nodes read
        refine ⟨⟨?_, ?_⟩, fun _ => same⟩
        · rintro ⟨causes, failed⟩
          exact (other causes failed).elim
        · rintro ⟨refusal, refused⟩
          cases refused

/-- Blanks that are not ASCII ones, a text that is refused and one that is accepted. -/
theorem shortcut_and_strictness_change_nothing_sample :
    (∃ nodes, Stylesheet.read "\n\u00a0\t\u2028" = .ok nodes) ∧
      (∃ causes, Command.run sampleSources.files ["parse", "b.scss", "--strict"] =
        .failure ⟨"Failed to analyze b.scss", causes⟩) ∧
      Command.run sampleSources.files ["parse", "--strict", "a.scss"] =
        Command.run sampleSources.files ["parse", "a.scss"] := by
  obtain ⟨blank, _, strict⟩ := shortcut_and_strictness_change_nothing
  obtain ⟨nodes, accepted, _⟩ := blank "\n\u00a0\t\u2028"
    (List.all_eq_true.mp (by decide))
  refine ⟨⟨nodes, accepted⟩, ?_, ?_⟩
  · have reads : sampleSources.files.readText "b.scss" = .ok ".b \x7b" :=
      eq_ok_of_toOption (by decide +kernel)
    obtain ⟨fails, _⟩ := strict _ ["parse", "b.scss"] ["parse", "b.scss", "--strict"] _ _ {}
      (by decide +kernel) (by decide +kernel) reads
    exact fails.mpr (exists_error_of_toOption (by decide +kernel))
  · have reads : sampleSources.files.readText "a.scss" = .ok "/** a */ .b \x7b\x7d" :=
      eq_ok_of_toOption (by decide +kernel)
    obtain ⟨fails, agrees⟩ := strict _ ["parse", "a.scss"] ["parse", "--strict", "a.scss"] _ _ {}
      (by decide +kernel) (by decide +kernel) reads
    apply agrees
    rw [fails]
    rintro ⟨refusal, refused⟩
    have accepted : (Stylesheet.read "/** a */ .b \x7b\x7d").toOption.isSome = true := by
      decide +kernel
    rw [refused] at accepted
    cases accepted

end StyleDoc
