import StyleDoc.Command.Run
import StyleDoc.Proofs.Pairing
import StyleDoc.Proofs.Places

/-!
# Scans

A scan documents the files that a search finds, each for itself: what one of them holds has no
influence on what is told about the others, nor on what is told about a file when it is documented
alone.  No file ends a scan, because a file by itself fails only when it cannot be read or has a
comment that makes no sense.
-/

namespace StyleDoc

/-! ## Notices -/

namespace Notice

def tellsSkip (notice : Notice) : Bool := notice.message = "Skipping SCSS file"

end Notice

namespace ScanReport

def skips (report : ScanReport) : List Notice := report.warnings.filter Notice.tellsSkip

theorem skips_eq (report : ScanReport) : report.skips = report.notices.filter Notice.tellsSkip := by
  rw [skips, warnings, List.filter_filter]
  congr 1
  funext notice
  cases notice <;> simp [Notice.tellsSkip, Notice.message, Notice.severity]

end ScanReport

namespace Extraction

variable {ε : Type}

theorem skips_ofEvents (reader : CommentReader ε) (labels : Labels) (events : List Event) :
    (ofEvents reader labels events).notices.filter Notice.tellsSkip = [] := by
  fun_induction ofEvents reader labels events with
  | case1 => rfl
  | case2 kindWord events ih => simpa [notice, Notice.tellsSkip, Notice.message] using ih
  | case3 => rfl
  | case4 comment target events draft read ih => exact ih

theorem skips_ofText (read : String → Except String (List Node)) (reader : CommentReader ε)
    (labels : Labels) (source : String) :
    (ofText read reader labels source).notices.filter Notice.tellsSkip = [] := by
  rw [ofText]
  split
  · rfl
  · split
    · rfl
    · next nodes _ =>
        have events := skips_ofEvents reader labels (Node.eventsOfList none nodes)
        rw [counted, ofNodes]
        split
        · simpa [Notice.tellsSkip, Notice.message] using events
        · exact events

/-- Extraction fails only with what the reader of comments fails with. -/
theorem exists_comment_of_error {read : String → Except String (List Node)}
    {reader : CommentReader ε} {labels : Labels} {source : String} {error : ε}
    (fails : (ofText read reader labels source).result = .error error) :
    ∃ comment, reader comment labels.contentType = .error error := by
  rw [ofText] at fails
  split at fails
  · cases fails
  · split at fails
    · cases fails
    · next nodes _ =>
        have counts : (ofNodes reader labels nodes).counted.result =
            (ofNodes reader labels nodes).result := by
          rw [counted]
          split <;> rfl
        rw [counts] at fails
        rcases ofEvents_outcome reader labels (Node.eventsOfList none nodes) with
          ⟨_, _, _, result⟩ | ⟨_, call, _, _, _, _, _, refused, _, result⟩
        · rw [ofNodes, result] at fails
          cases fails
        · rw [ofNodes, result] at fails
          cases fails
          exact ⟨call.comment, refused⟩

end Extraction

/-! ## One file -/

namespace Utf8

theorem decodeLossy_of_decode? {bytes : List UInt8} {text : List Char}
    (read : decode? bytes = some text) : decodeLossy bytes = text := by
  rw [decode?] at read
  rw [decodeLossy]
  generalize units bytes = found at read
  induction found generalizing text with
  | nil =>
      cases read
      rfl
  | cons unit found ih =>
      rw [List.mapM_cons] at read
      obtain ⟨c, rfl, rest⟩ := Option.bind_eq_some_iff.mp read
      obtain ⟨others, reads, ⟨⟩⟩ := Option.bind_eq_some_iff.mp rest
      rw [List.map_cons, ih reads]
      rfl

end Utf8

/-- A text that is refused has no documentation. -/
theorem entities_of_refused {labels : Labels} {source : String} {refusal : Refusal}
    (refused : Stylesheet.read source = .error refusal) : entities labels source = .ok [] := by
  rw [entities, document, Extraction.ofText]
  split
  · rfl
  · rw [readTree, refused]
    rfl

theorem readComment_eq_ok_iff {comment contentType : String} {draft : Option Draft} :
    readComment comment contentType = .ok draft ↔ Draft.ofComment comment = .ok draft := by
  rw [readComment]
  cases Draft.ofComment comment <;> simp [Except.mapError]

theorem readComment_eq_error_iff {comment contentType : String} {fault : DocFault} :
    readComment comment contentType = .error fault ↔
      ∃ cause, Draft.ofComment comment = .error cause ∧ fault = .refused cause := by
  rw [readComment]
  cases Draft.ofComment comment <;> simp [Except.mapError, eq_comm]

theorem exists_refused_of_entities {labels : Labels} {source : String} {fault : DocFault}
    (fails : entities labels source = .error fault) : ∃ cause, fault = .refused cause := by
  obtain ⟨comment, refused⟩ := Extraction.exists_comment_of_error fails
  obtain ⟨cause, _, told⟩ := readComment_eq_error_iff.mp refused
  exact ⟨cause, told⟩

namespace FileRun

def fault? (run : FileRun) : Option DocFault :=
  match run.result with
  | .ok _ => none
  | .error fault => some fault

end FileRun

namespace FileSystem

variable {files : FileSystem} {labels : Labels} {root : String} {patterns : List String}

theorem result_documentFile {path : String} {bytes : List UInt8}
    (read : files.read path = .ok bytes) : (files.documentFile labels path).result =
      (entities labels (String.ofList (Utf8.decodeLossy bytes))).map
        fun documented => ⟨path, labels, documented⟩ := by
  rw [documentFile, read]
  rfl

/-- A file has no documentation only if it cannot be read or one of its comments is refused. -/
theorem fault_of_documentFile {path : String} {fault : DocFault}
    (fails : (files.documentFile labels path).result = .error fault) :
    (∃ cause, files.read path = .error cause ∧ fault = .unreadable path cause) ∨
      ∃ cause, fault = .refused cause := by
  cases read : files.read path with
  | error cause =>
      rw [documentFile, read] at fails
      cases fails
      exact .inl ⟨cause, rfl, rfl⟩
  | ok bytes =>
      rw [result_documentFile read] at fails
      cases told : entities labels (String.ofList (Utf8.decodeLossy bytes)) with
      | ok documented =>
          rw [told] at fails
          cases fails
      | error cause =>
          rw [told] at fails
          cases fails
          exact .inr (exists_refused_of_entities told)

theorem isLocal_of_documentFile {path : String} {fault : DocFault}
    (fails : (files.documentFile labels path).result = .error fault) : fault.isLocal = true := by
  rcases fault_of_documentFile fails with ⟨_, _, rfl⟩ | ⟨_, rfl⟩ <;> rfl

theorem skips_documentFile (files : FileSystem) (labels : Labels) (path : String) :
    (files.documentFile labels path).notices.filter Notice.tellsSkip = [] := by
  rw [documentFile]
  cases files.read path with
  | error fault => rfl
  | ok bytes => exact Extraction.skips_ofText _ _ _ _

/-! ## Many files -/

def docOf? (files : FileSystem) (labels : Labels) (root : String) (path : RelativePath) :
    Option FileDoc :=
  (files.documentFile labels (path.below root)).result.toOption.map
    fun doc => { doc with path := path.text }

def skipOf? (files : FileSystem) (labels : Labels) (root : String) (path : RelativePath) :
    Option Notice :=
  (files.documentFile labels (path.below root)).fault?.map
    fun fault => .skipped path.text fault.describe

/-- No file ends a scan. -/
theorem scanFile_eq_ok (path : RelativePath) : files.scanFile labels root path =
    .ok (files.docOf? labels root path,
      (files.documentFile labels (path.below root)).notices ++
        (files.skipOf? labels root path).toList) := by
  rw [scanFile, docOf?, skipOf?, FileRun.fault?]
  cases run : (files.documentFile labels (path.below root)).result with
  | ok doc => simp [Except.toOption]
  | error fault => simp [isLocal_of_documentFile run, Except.toOption]

/-- What a scan tells of the files that its search finds. -/
def reportOn (files : FileSystem) (labels : Labels) (root : String) (paths : List RelativePath) :
    ScanReport :=
  ⟨paths.filterMap (files.docOf? labels root), paths.flatMap fun path =>
    (files.documentFile labels (path.below root)).notices ++
      (files.skipOf? labels root path).toList⟩

theorem scan_of_find {paths : List RelativePath} (found : files.find root patterns = .ok paths) :
    files.scan labels root patterns = .ok (files.reportOn labels root paths) := by
  have runs : paths.mapM (files.scanFile labels root) = .ok (paths.map fun path =>
      (files.docOf? labels root path, (files.documentFile labels (path.below root)).notices ++
        (files.skipOf? labels root path).toList)) := by
    rw [funext (@scanFile_eq_ok files labels root)]
    exact List.mapM_pure
  rw [scan, found]
  simp only [bind, Except.bind, runs, pure, Except.pure, reportOn, List.filterMap_map,
    List.flatMap_map]
  rfl

theorem scan_eq_error_iff {fault : DocFault} :
    files.scan labels root patterns = .error fault ↔ files.find root patterns = .error fault := by
  cases found : files.find root patterns with
  | ok paths => simp [scan_of_find found]
  | error cause =>
      simp [scan, found, bind, Except.bind]

theorem fault_of_find {fault : DocFault} (fails : files.find root patterns = .error fault) :
    fault = .missingRoot root ∨
      ∃ pattern ∈ patterns, ∃ cause, fault = .invalidGlob pattern cause := by
  cases lists : files.entries? root with
  | none =>
      rw [find, lists] at fails
      cases fails
      exact .inl rfl
  | some entries =>
      rw [find_eq_error_iff lists] at fails
      rcases readGlobs_cases patterns with ⟨_, read, _⟩ | ⟨_, pattern, _, cause, rfl, _, _, read⟩
      · rw [read] at fails
        cases fails
      · rw [read] at fails
        cases fails
        exact .inr ⟨pattern, by simp, cause, rfl⟩

theorem skips_reportOn (paths : List RelativePath) :
    (files.reportOn labels root paths).skips = paths.filterMap (files.skipOf? labels root) := by
  rw [ScanReport.skips_eq, reportOn, List.filter_flatMap, List.filterMap_eq_flatMap_toList]
  congr 1
  funext path
  rw [List.filter_append, skips_documentFile, List.nil_append, skipOf?]
  cases (files.documentFile labels (path.below root)).fault? <;> rfl

/-- What is told about one of several files stands between what is told about the others, even if
it alone is read from elsewhere. -/
theorem documents_reportOn_append {files' : FileSystem} {before after : List RelativePath}
    (path : RelativePath) (same : ∀ other ∈ before ++ after,
      files'.read (other.below root) = files.read (other.below root)) :
    (files'.reportOn labels root (before ++ path :: after)).documents =
      (files.reportOn labels root before).documents ++
        (files'.docOf? labels root path).toList ++
          (files.reportOn labels root after).documents := by
  have alike (other : RelativePath) (member : other ∈ before ++ after) :
      files'.docOf? labels root other = files.docOf? labels root other := by
    rw [docOf?, docOf?, documentFile, documentFile, same other member]
  have first : (files'.reportOn labels root before).documents =
      (files.reportOn labels root before).documents :=
    List.filterMap_congr fun other member => alike other (List.mem_append_left _ member)
  have second : (files'.reportOn labels root after).documents =
      (files.reportOn labels root after).documents :=
    List.filterMap_congr fun other member => alike other (List.mem_append_right _ member)
  rw [← first, ← second]
  simp only [reportOn, List.filterMap_append, List.filterMap_cons]
  cases files'.docOf? labels root path <;> simp

theorem path_of_docOf? {path : RelativePath} {doc : FileDoc}
    (told : files.docOf? labels root path = some doc) : doc.path = path.text := by
  obtain ⟨_, _, rfl⟩ := Option.map_eq_some_iff.mp told
  rfl

/-- A file with a syntax error has an entry without documentation. -/
theorem docOf?_of_refused {path : RelativePath} {bytes : List UInt8} {refusal : Refusal}
    (read : files.read (path.below root) = .ok bytes)
    (refused : Stylesheet.read (String.ofList (Utf8.decodeLossy bytes)) = .error refusal) :
    files.docOf? labels root path = some ⟨path.text, labels, []⟩ := by
  rw [docOf?, result_documentFile read, entities_of_refused refused]
  rfl

/-- A file of well-formed text is documented in a scan as it is when documented alone. -/
theorem parse_eq_ok_iff {path : RelativePath} {documented : List Entity}
    (sound : ∀ bytes, files.read (path.below root) = .ok bytes →
      ∃ text, Utf8.decode? bytes = some text) :
    Command.parse files (path.below root) labels false = .ok documented ↔
      files.docOf? labels root path = some ⟨path.text, labels, documented⟩ := by
  rw [docOf?]
  cases read : files.read (path.below root) with
  | error fault =>
      simp [Command.parse, readText, documentFile, read, Command.within, Except.toOption, bind,
        Except.bind]
  | ok bytes =>
      obtain ⟨text, decoded⟩ := sound bytes read
      rw [result_documentFile read, Utf8.decodeLossy_of_decode? decoded]
      cases told : entities labels (String.ofList text) <;>
        simp [Command.parse, readText, read, decoded, told, Command.within, Except.toOption, bind,
          Except.bind, Except.map]

end FileSystem

/-! ## Other bytes -/

namespace FileTree

variable {tree : FileTree} {root : String} {place : List String} {path : RelativePath}
  {old : List UInt8}

theorem find_put {entries : List (String × Entry)} (new : List UInt8)
    (leads : tree.resolve root = .ok place)
    (lists : tree.root.descend? place = some (.directory entries))
    (file : tree.root.descend? (place ++ path) = some (.file old)) (patterns : List String) :
    (tree.put (.file new) (place ++ path)).files.find root patterns =
      tree.files.find root patterns := by
  have inside : (Entry.directory entries).descend? path = some (.file old) := by
    rwa [Entry.descend?_append, lists] at file
  have leads' : (tree.put (.file new) (place ++ path)).resolve root = .ok place :=
    (resolve_put new file root).trans leads
  have known := entries?_eq_some_iff.mpr (at?_eq_ok_iff.mpr ⟨place, leads, lists⟩)
  have same := Entry.files_put new inside
  cases path with
  | nil => cases inside
  | cons name rest =>
      have lists' := Entry.descend?_put_append (.file new) (name :: rest) lists
      have known' := entries?_eq_some_iff.mpr (at?_eq_ok_iff.mpr ⟨place, leads', lists'⟩)
      rw [FileSystem.find_eq known, FileSystem.find_eq known']
      change filesIn _ = filesIn entries at same
      simp only [coveredFiles, same]

theorem FileBelow.read_put {other : RelativePath} {content : List UInt8}
    (below : tree.FileBelow place other content) (leads : tree.resolve root = .ok place)
    (new : List UInt8) (file : tree.root.descend? (place ++ path) = some (.file old))
    (differ : other ≠ path) :
    (tree.put (.file new) (place ++ path)).files.read (other.below root) =
      tree.files.read (other.below root) := by
  have leads' : (tree.put (.file new) (place ++ path)).resolve root = .ok place :=
    (resolve_put new file root).trans leads
  have places : place ++ other ≠ place ++ path := by simpa using differ
  have kept : (tree.put (.file new) (place ++ path)).FileBelow place other content := by
    refine ⟨?_, below.nonempty, below.plain⟩
    have alike := Entry.alike_put new file places
    rw [below.file] at alike
    exact alike.file_eq
  rw [kept.read_eq leads', below.read_eq leads]

variable {patterns : List String}

/-- Other bytes for a file that is found leave the search and the other files as they are. -/
theorem FileBelow.find_put {entries : List (String × Entry)} {before after : List RelativePath}
    (below : tree.FileBelow place path old) (new : List UInt8)
    (leads : tree.resolve root = .ok place)
    (lists : tree.root.descend? place = some (.directory entries))
    (found : tree.files.find root patterns = .ok (before ++ path :: after))
    (others : ∀ other ∈ before ++ after, ∃ content, tree.FileBelow place other content)
    (fresh : path ∉ before ++ after) :
    (tree.put (.file new) (place ++ path)).files.find root patterns =
        .ok (before ++ path :: after) ∧
      ∀ other ∈ before ++ after,
        (tree.put (.file new) (place ++ path)).files.read (other.below root) =
          tree.files.read (other.below root) := by
  refine ⟨(tree.find_put new leads lists below.file patterns).trans found, fun other member => ?_⟩
  obtain ⟨_, below'⟩ := others other member
  have differ : other ≠ path := by
    rintro rfl
    exact fresh member
  exact below'.read_put leads new below.file differ

theorem FileBelow.eq_of_text_eq {other : RelativePath} {content content' : List UInt8}
    (below : tree.FileBelow place path content) (below' : tree.FileBelow place other content')
    (same : path.text = other.text) : path = other := by
  rw [← path.pathNames_text below.nonempty below.plain, same,
    other.pathNames_text below'.nonempty below'.plain]

/-- Names have no slash in them, so an entry tells by its path which file it is about. -/
theorem FileBelow.docOf?_of_mem {content : List UInt8} {files : FileSystem} {labels : Labels}
    {paths : List RelativePath} {doc : FileDoc} (below : tree.FileBelow place path content)
    (located : ∀ other ∈ paths, ∃ content, tree.FileBelow place other content)
    (told : doc ∈ (files.reportOn labels root paths).documents) (alike : doc.path = path.text) :
    path ∈ paths ∧ files.docOf? labels root path = some doc := by
  obtain ⟨other, member, told⟩ := List.mem_filterMap.mp told
  obtain ⟨_, below'⟩ := located other member
  obtain rfl := below'.eq_of_text_eq below ((FileSystem.path_of_docOf? told).symm.trans alike)
  exact ⟨member, told⟩

/-- What a search finds are files below the place of its root. -/
theorem exists_fileBelow_of_find {paths : List RelativePath}
    (distinct : tree.root.NamesDistinct) (plain : tree.root.NamesPlain)
    (found : tree.files.find root patterns = .ok paths) :
    ∃ place entries, tree.resolve root = .ok place ∧
      tree.root.descend? place = some (.directory entries) ∧ paths.Nodup ∧
      ∀ path ∈ paths, ∃ content, tree.FileBelow place path content := by
  obtain ⟨entries, known⟩ : ∃ entries, tree.at? root = .ok (.directory entries) := by
    by_contra missing
    have fails : tree.files.find root patterns = .error (.missingRoot root) :=
      find_eq_missingRoot_iff.mpr fun entries known => missing ⟨entries, known⟩
    rw [found] at fails
    cases fails
  obtain ⟨place, leads, lists⟩ := at?_eq_ok_iff.mp known
  obtain ⟨_, ascending, members⟩ :=
    (FileSystem.find_eq_ok_iff (entries?_eq_some_iff.mpr known)
      (namesDistinct_of_at? distinct known)).mp found
  refine ⟨place, entries, leads, lists, ascending.nodup, fun path member => ?_⟩
  obtain ⟨⟨content, file⟩, _, _⟩ := (members path).mp member
  have whole : tree.root.descend? (place ++ path) = some (.file content) := by
    rw [Entry.descend?_append, lists]
    exact file
  refine ⟨content, whole, ?_, fun name member => ?_⟩
  · rintro rfl
    cases file
  · exact plain.of_descend? whole name (List.mem_append_right _ member)

end FileTree

/--
A scan fails exactly as its search does, for want of a root or a pattern that makes sense.
Otherwise it tells, in the order of the search, what is documented of each file alone, and warns
about each file that has no documentation; a file with a syntax error has an empty one.  Whatever
becomes of one file, even that it cannot be read, changes at most what is told about that file.  In
a tree of files, a file that is well-formed text is documented by a scan exactly as it is when it is
given by itself, and other bytes for one file leave the entries of all others as they are.
-/
theorem scan_documents_each_file (labels : Labels) (root : String) (patterns : List String) :
    (∀ files : FileSystem,
      (∀ fault, files.scan labels root patterns = .error fault ↔
        files.find root patterns = .error fault) ∧
      (∀ fault, files.find root patterns = .error fault → fault = .missingRoot root ∨
        ∃ pattern ∈ patterns, ∃ cause, fault = .invalidGlob pattern cause) ∧
      ∀ paths, files.find root patterns = .ok paths →
        ∃ report, files.scan labels root patterns = .ok report ∧
          report.documents = (paths.filterMap fun path =>
            (files.documentFile labels (path.below root)).result.toOption.map
              fun doc => { doc with path := path.text }) ∧
          report.skips = (paths.filterMap fun path =>
            (files.documentFile labels (path.below root)).fault?.map
              fun fault => .skipped path.text fault.describe) ∧
          (∀ path ∈ paths, ∀ bytes refusal, files.read (path.below root) = .ok bytes →
            Stylesheet.read (String.ofList (Utf8.decodeLossy bytes)) = .error refusal →
              ⟨path.text, labels, []⟩ ∈ report.documents) ∧
          ∀ (files' : FileSystem) (before after : List RelativePath) (path : RelativePath),
            paths = before ++ path :: after → files'.find root patterns = .ok paths →
            (∀ other ∈ before ++ after,
              files'.read (other.below root) = files.read (other.below root)) →
            ∃ report' first second, ∃ own own' : Option FileDoc,
              files'.scan labels root patterns = .ok report' ∧
              report.documents = first ++ own.toList ++ second ∧
              report'.documents = first ++ own'.toList ++ second ∧
              ∀ doc ∈ own.toList ++ own'.toList, doc.path = path.text) ∧
    ∀ tree : FileTree, tree.root.NamesDistinct → tree.root.NamesPlain →
      ∀ paths, tree.files.find root patterns = .ok paths →
        ∃ report place, tree.files.scan labels root patterns = .ok report ∧
          tree.resolve root = .ok place ∧
          ∀ path ∈ paths, ∃ content, tree.root.descend? (place ++ path) = some (.file content) ∧
            (∀ refusal, Stylesheet.read (String.ofList (Utf8.decodeLossy content)) =
              .error refusal → pathFault? (path.below root) = none →
                ⟨path.text, labels, []⟩ ∈ report.documents) ∧
            (∀ text documented, Utf8.decode? content = some text →
              (Command.parse tree.files (path.below root) labels false = .ok documented ↔
                ⟨path.text, labels, documented⟩ ∈ report.documents)) ∧
            ∀ new, ∃ report' before after, ∃ own own' : Option FileDoc,
              (tree.put (.file new) (place ++ path)).files.scan labels root patterns =
                .ok report' ∧
              report.documents = before ++ own.toList ++ after ∧
              report'.documents = before ++ own'.toList ++ after ∧
              (∀ doc ∈ own.toList ++ own'.toList, doc.path = path.text) ∧
              ∀ doc ∈ before ++ after, doc.path ≠ path.text := by
  have ownPath {files files' : FileSystem} {path : RelativePath} (doc : FileDoc)
      (told : doc ∈ (files.docOf? labels root path).toList ++
        (files'.docOf? labels root path).toList) : doc.path = path.text := by
    rcases List.mem_append.mp told with told | told
    · exact FileSystem.path_of_docOf? (Option.mem_toList.mp told)
    · exact FileSystem.path_of_docOf? (Option.mem_toList.mp told)
  refine ⟨fun files => ⟨fun fault => FileSystem.scan_eq_error_iff,
    fun fault => FileSystem.fault_of_find, fun paths found => ?_⟩,
    fun tree distinct plain paths found => ?_⟩
  · refine ⟨files.reportOn labels root paths, FileSystem.scan_of_find found, rfl,
      FileSystem.skips_reportOn paths, fun path member bytes refusal read refused => ?_, ?_⟩
    · exact List.mem_filterMap.mpr ⟨path, member, FileSystem.docOf?_of_refused read refused⟩
    · rintro files' before after path rfl found' same
      exact ⟨_, _, _, _, _, FileSystem.scan_of_find found',
        FileSystem.documents_reportOn_append path fun _ _ => rfl,
        FileSystem.documents_reportOn_append path same, ownPath⟩
  · obtain ⟨place, entries, leads, lists, nodup, located⟩ :=
      tree.exists_fileBelow_of_find distinct plain found
    refine ⟨tree.files.reportOn labels root paths, place, FileSystem.scan_of_find found, leads,
      fun path member => ?_⟩
    obtain ⟨content, below⟩ := located path member
    have read := below.read_eq leads
    have told_iff (doc : FileDoc) : doc ∈ (tree.files.reportOn labels root paths).documents ∧
        doc.path = path.text ↔ tree.files.docOf? labels root path = some doc := by
      constructor
      · exact fun ⟨told, alike⟩ => (below.docOf?_of_mem located told alike).2
      · exact fun told =>
          ⟨List.mem_filterMap.mpr ⟨path, member, told⟩, FileSystem.path_of_docOf? told⟩
    refine ⟨content, below.file, fun refusal refused sound => ?_, fun text documented decoded => ?_,
      fun new => ?_⟩
    · rw [sound] at read
      exact ((told_iff _).mpr (FileSystem.docOf?_of_refused read refused)).1
    · have sound : ∀ bytes, tree.files.read (path.below root) = .ok bytes →
          ∃ text, Utf8.decode? bytes = some text := by
        intro bytes reads
        rw [read] at reads
        split at reads <;> cases reads
        exact ⟨text, decoded⟩
      rw [FileSystem.parse_eq_ok_iff sound, ← told_iff]
      simp
    · obtain ⟨before, after, rfl⟩ := List.append_of_mem member
      have fresh := (List.nodup_cons.mp (List.nodup_middle.mp nodup)).1
      have others : ∀ other ∈ before ++ after, ∃ content, tree.FileBelow place other content :=
        fun other among => located other
          (((List.sublist_cons_self path after).append_left before).subset among)
      obtain ⟨found', same⟩ := below.find_put new leads lists found others fresh
      refine ⟨_, _, _, _, _, FileSystem.scan_of_find found',
        FileSystem.documents_reportOn_append path fun _ _ => rfl,
        FileSystem.documents_reportOn_append path same, ownPath, ?_⟩
      intro doc told alike
      rw [FileSystem.reportOn, FileSystem.reportOn, ← List.filterMap_append] at told
      exact fresh (below.docOf?_of_mem others told alike).1

/-- A tree with a stylesheet, one that is not closed and one that is not text. -/
def sampleSources : FileTree :=
  { root := .directory
      [("a.scss", .file (Text.bytes "/** a */ .b \x7b\x7d".toList)),
        ("b.scss", .file (Text.bytes ".b \x7b".toList)), ("c.scss", .file [0xFF])]
    home := [] }

theorem namesDistinct_sampleSources : sampleSources.root.NamesDistinct := by
  refine .directory (by decide) fun child member => ?_
  simp only [List.mem_cons, List.not_mem_nil, or_false] at member
  obtain rfl | rfl | rfl := member <;> exact .file _

theorem namesPlain_sampleSources : sampleSources.root.NamesPlain := by
  refine .directory (fun child member => ?_) fun child member => ?_
  · simp only [List.mem_cons, List.not_mem_nil, or_false] at member
    obtain rfl | rfl | rfl := member <;>
      exact ⟨by decide, by decide, by decide, by decide⟩
  · simp only [List.mem_cons, List.not_mem_nil, or_false] at member
    obtain rfl | rfl | rfl := member <;> exact .file _

/-- The same files, one of which may not be read. -/
def guardedSources : FileSystem :=
  { sampleSources.files with
    read := fun path =>
      if path = "./c.scss" then .error .permissionDenied else sampleSources.read path }

theorem exists_error_of_toOption {ε α : Type} {result : Except ε α}
    (none : result.toOption = none) : ∃ error, result = .error error := by
  cases result with
  | ok value => cases none
  | error error => exact ⟨error, rfl⟩

theorem scan_documents_each_file_sample :
    sampleSources.root.NamesDistinct ∧ sampleSources.root.NamesPlain ∧
      (∃ report, guardedSources.scan {} "." ["*.scss"] = .ok report ∧
        ⟨"b.scss", {}, []⟩ ∈ report.documents ∧
        .skipped "c.scss" "Failed to read SCSS file ./c.scss: Permission denied (os error 13)" ∈
          report.skips) ∧
      ∃ report, sampleSources.files.scan {} "." ["*.scss"] = .ok report ∧
        ⟨"b.scss", {}, []⟩ ∈ report.documents ∧
        ∀ documented, Command.parse sampleSources.files "./a.scss" {} false = .ok documented ↔
          ⟨"a.scss", {}, documented⟩ ∈ report.documents := by
  obtain ⟨anyFiles, inTree⟩ := scan_documents_each_file {} "." ["*.scss"]
  have leads : sampleSources.at? "." = .ok sampleSources.root := rfl
  have read : Glob.partsFrom true (Glob.withoutSlashes "*.scss") =
      .ok (.sequence :: ".scss".toList.map .literal) := by cbv
  have readable : ∀ pattern ∈ ["*.scss"], Glob.IsReadable pattern := by simpa using ⟨_, read⟩
  obtain ⟨paths, found, _, members⟩ := FileSystem.exists_find_eq_ok
    (FileTree.entries?_eq_some_iff.mpr leads) namesDistinct_sampleSources readable
  have isFound (name : String) (file : ∃ content,
      (Entry.directory sampleSources.root.children).descend? [name] = some (.file content))
      (covered : Glob.accepts (.sequence :: ".scss".toList.map .literal)
        (RelativePath.text [name]).toList = true) : [name] ∈ paths :=
    (members _).mpr ⟨file, by simp, _, List.mem_singleton_self _, _, read, covered⟩
  have unclosed : [ "b.scss"] ∈ paths := isFound _ ⟨_, rfl⟩ (by decide)
  obtain ⟨refusal, refused⟩ : ∃ refusal, Stylesheet.read
      (String.ofList (Utf8.decodeLossy (Text.bytes ".b \x7b".toList))) = .error refusal :=
    exists_error_of_toOption (by decide +kernel)
  refine ⟨namesDistinct_sampleSources, namesPlain_sampleSources, ?_, ?_⟩
  · obtain ⟨_, _, reports⟩ := anyFiles guardedSources
    obtain ⟨report, scanned, _, skips, kept, _⟩ := reports paths found
    refine ⟨report, scanned, kept _ unclosed _ refusal rfl refused, ?_⟩
    rw [skips]
    exact List.mem_filterMap.mpr ⟨["c.scss"], isFound _ ⟨_, rfl⟩ (by decide), rfl⟩
  · obtain ⟨report, place, scanned, resolved, files⟩ :=
      inTree sampleSources namesDistinct_sampleSources namesPlain_sampleSources paths found
    obtain rfl : [] = place := Except.ok.inj resolved
    obtain ⟨_, ⟨⟩, kept, _⟩ := files _ unclosed
    obtain ⟨_, ⟨⟩, _, alone, _⟩ := files ["a.scss"] (isFound _ ⟨_, rfl⟩ (by decide))
    exact ⟨report, scanned, kept refusal refused rfl, fun documented =>
      alone "/** a */ .b \x7b\x7d".toList documented (by decide +kernel)⟩

end StyleDoc
