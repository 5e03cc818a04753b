import StyleDoc.Proofs.Places

/-!
# Searching with the usual patterns

A star covers any part of one name, so a pattern such as `*.scss` covers a path exactly if the path
is a single name that ends so.  With the usual patterns a search therefore lists the stylesheets
that stand in the root or in its directory `sass`, and looks at nothing else.
-/

namespace StyleDoc

/-! ## Patterns with one star -/

namespace Glob

theorem accepts_literals_append {run : List Char} {parts : List Part} {text : List Char} :
    accepts (run.map .literal ++ parts) text = true ↔
      ∃ rest, text = run ++ rest ∧ accepts parts rest = true := by
  induction run generalizing text with
  | nil => simp
  | cons c run ih =>
      cases text with
      | nil => simp [accepts]
      | cons d text =>
          rw [List.map_cons, List.cons_append, accepts, Bool.and_eq_true, beq_iff_eq, ih]
          constructor
          · rintro ⟨rfl, rest, rfl, covered⟩
            exact ⟨rest, rfl, covered⟩
          · rintro ⟨rest, whole, covered⟩
            obtain ⟨rfl, rfl⟩ := List.cons.inj whole
            exact ⟨rfl, rest, rfl, covered⟩

theorem accepts_literals {run text : List Char} :
    accepts (run.map .literal) text = true ↔ text = run := by
  have whole := @accepts_literals_append run [] text
  simpa [accepts] using whole

theorem mem_sequenceEnds {text rest : List Char} :
    rest ∈ sequenceEnds text ↔ ∃ run, text = run ++ rest ∧ '/' ∉ run := by
  induction text with
  | nil =>
      rw [sequenceEnds, List.mem_singleton]
      constructor
      · rintro rfl
        exact ⟨[], rfl, by simp⟩
      · rintro ⟨run, whole, _⟩
        exact (List.append_eq_nil_iff.mp whole.symm).2
  | cons c text ih =>
      have further : rest ∈ (if c = '/' then [] else sequenceEnds text) ↔
          c ≠ '/' ∧ ∃ run, text = run ++ rest ∧ '/' ∉ run := by
        split
        · next slash => simp [slash]
        · next other => simp [other, ih]
      rw [sequenceEnds, List.mem_cons, further]
      constructor
      · rintro (rfl | ⟨other, run, rfl, within⟩)
        · exact ⟨[], rfl, by simp⟩
        · exact ⟨c :: run, rfl, by simp [within, Ne.symm other]⟩
      · rintro ⟨run, whole, within⟩
        cases run with
        | nil => exact .inl whole.symm
        | cons d run =>
            obtain ⟨rfl, rfl⟩ := List.cons.inj whole
            rw [List.mem_cons, not_or] at within
            exact .inr ⟨Ne.symm within.1, run, rfl, within.2⟩

/-- A star and an ending cover what ends so and holds no slash before. -/
theorem accepts_sequence_literals {ending text : List Char} :
    accepts (.sequence :: ending.map .literal) text = true ↔
      ∃ run, text = run ++ ending ∧ '/' ∉ run := by
  rw [accepts, List.any_eq_true]
  simp only [mem_sequenceEnds, accepts_literals]
  constructor
  · rintro ⟨rest, ⟨run, whole, within⟩, rfl⟩
    exact ⟨run, whole, within⟩
  · rintro ⟨run, whole, within⟩
    exact ⟨ending, ⟨run, whole, within⟩, rfl⟩

theorem covers_iff {pattern : String} {parts : List Part} {path : RelativePath}
    (read : partsFrom true (withoutSlashes pattern) = .ok parts) :
    Covers pattern path ↔ accepts parts path.text.toList = true := by
  rw [Covers, read]
  simp

end Glob

/-! ## Paths with few names -/

namespace Entry

/-- No name at or below the entry holds a slash. -/
inductive NamesSeparate : Entry → Prop
  | file (content : List UInt8) : NamesSeparate (file content)
  | link (target : String) : NamesSeparate (link target)
  | directory {entries : List (String × Entry)} :
      (∀ child ∈ entries, '/' ∉ child.1.toList) → (∀ child ∈ entries, NamesSeparate child.2) →
      NamesSeparate (directory entries)

theorem NamesSeparate.of_descend? {entry below : Entry} {path : List String}
    (separate : entry.NamesSeparate) (leads : entry.descend? path = some below) :
    ∀ name ∈ path, '/' ∉ name.toList := by
  refine forall_mem_of_descend? (fun entries separate child member => ?_) separate leads
  obtain _ | _ | ⟨own, children⟩ := separate
  exact ⟨own child member, children child member⟩

end Entry

def isStylesheetName (name : String) : Prop := ".scss".toList <:+ name.toList

namespace RelativePath

variable {path : RelativePath}

theorem eq_of_text {other : RelativePath} (nonempty : path ≠ [])
    (separate : ∀ name ∈ path, '/' ∉ name.toList) (nonempty' : other ≠ [])
    (separate' : ∀ name ∈ other, '/' ∉ name.toList)
    (same : path.text.toList = other.text.toList) : path = other := by
  apply List.map_injective_iff.mpr fun _ _ => String.toList_injective
  rw [← splitOn_text nonempty separate, ← splitOn_text nonempty' separate', same]

theorem covers_root_iff (nonempty : path ≠ []) (separate : ∀ name ∈ path, '/' ∉ name.toList) :
    Glob.Covers "/*.scss" path ↔ ∃ name, path = [name] ∧ isStylesheetName name := by
  have read : Glob.partsFrom true (Glob.withoutSlashes "/*.scss") =
      .ok (.sequence :: ".scss".toList.map .literal) := by cbv
  rw [Glob.covers_iff read, Glob.accepts_sequence_literals]
  constructor
  · rintro ⟨run, whole, within⟩
    refine ⟨String.ofList (run ++ ".scss".toList), ?_, by simp [isStylesheetName]⟩
    refine eq_of_text nonempty separate (by simp) (by simpa using within) ?_
    rw [whole]
    simp [text]
  · rintro ⟨name, rfl, run, ends⟩
    rw [List.forall_mem_singleton, ← ends, List.mem_append, not_or] at separate
    exact ⟨run, by simp [text, ← ends], separate.1⟩

theorem covers_sass_iff (nonempty : path ≠ []) (separate : ∀ name ∈ path, '/' ∉ name.toList) :
    Glob.Covers "/sass/*.scss" path ↔ ∃ name, path = ["sass", name] ∧ isStylesheetName name := by
  have read : Glob.partsFrom true (Glob.withoutSlashes "/sass/*.scss") =
      .ok ("sass/".toList.map .literal ++ .sequence :: ".scss".toList.map .literal) := by cbv
  rw [Glob.covers_iff read, Glob.accepts_literals_append]
  simp only [Glob.accepts_sequence_literals]
  constructor
  · rintro ⟨_, whole, run, rfl, within⟩
    refine ⟨String.ofList (run ++ ".scss".toList), ?_, by simp [isStylesheetName]⟩
    refine eq_of_text nonempty separate (by simp) (by simpa using within) ?_
    rw [whole]
    simp [text]
  · rintro ⟨name, rfl, run, ends⟩
    have last := separate name (by simp)
    rw [← ends, List.mem_append, not_or] at last
    exact ⟨name.toList, by simp [text], run, ends.symm, last.1⟩

end RelativePath

/-! ## What the usual patterns find -/

/-- A regular file of a directory whose name ends in `.scss`. -/
def IsStylesheetIn (entries : List (String × Entry)) (name : String) : Prop :=
  (∃ content, (name, .file content) ∈ entries) ∧ isStylesheetName name

/-- A stylesheet of the root, or of its directory `sass`. -/
def IsUsualStylesheet (entries : List (String × Entry)) (path : RelativePath) : Prop :=
  (∃ name, path = [name] ∧ IsStylesheetIn entries name) ∨
    ∃ inner name, ("sass", .directory inner) ∈ entries ∧ path = ["sass", name] ∧
      IsStylesheetIn inner name

theorem isReadable_usualGlobs : ∀ pattern ∈ usualGlobs, Glob.IsReadable pattern := by
  rw [usualGlobs, List.forall_mem_cons, List.forall_mem_singleton]
  exact ⟨⟨.sequence :: ".scss".toList.map .literal, by cbv⟩,
    ⟨"sass/".toList.map .literal ++ .sequence :: ".scss".toList.map .literal, by cbv⟩⟩

namespace RelativePath

variable {entries : List (String × Entry)} {path : RelativePath}

theorem descend?_singleton_iff {name : String} {content : List UInt8}
    (distinct : (Entry.directory entries).NamesDistinct) :
    (Entry.directory entries).descend? [name] = some (.file content) ↔
      (name, .file content) ∈ entries := by
  obtain _ | _ | ⟨nodup, _⟩ := distinct
  rw [← lookup_eq_some_iff_mem nodup]
  simp [Entry.descend?, Entry.child?]

theorem descend?_pair_iff {directory name : String} {content : List UInt8}
    (distinct : (Entry.directory entries).NamesDistinct) :
    (Entry.directory entries).descend? [directory, name] = some (.file content) ↔
      ∃ inner, (directory, .directory inner) ∈ entries ∧ (name, .file content) ∈ inner := by
  obtain _ | _ | ⟨nodup, children⟩ := distinct
  constructor
  · intro leads
    obtain ⟨_, child, ⟨⟩, known, onward⟩ := Entry.exists_of_descend?_cons leads
    obtain ⟨inner, _, rfl, _⟩ := Entry.exists_of_descend?_cons onward
    have member := (lookup_eq_some_iff_mem nodup).mp known
    exact ⟨inner, member, (descend?_singleton_iff (children _ member)).mp onward⟩
  · rintro ⟨inner, member, within⟩
    rw [Entry.descend?, Entry.child?, (lookup_eq_some_iff_mem nodup).mpr member]
    exact (descend?_singleton_iff (children _ member)).mpr within

theorem isSought_usual_iff (distinct : (Entry.directory entries).NamesDistinct)
    (separate : (Entry.directory entries).NamesSeparate) :
    path.IsSought entries usualGlobs ↔ IsUsualStylesheet entries path := by
  constructor
  · rintro ⟨⟨content, leads⟩, _, pattern, member, covered⟩
    have nonempty : path ≠ [] := by
      rintro rfl
      cases leads
    have within := separate.of_descend? leads
    simp only [usualGlobs, List.mem_cons, List.not_mem_nil, or_false] at member
    obtain rfl | rfl := member
    · obtain ⟨name, rfl, ends⟩ := (covers_root_iff nonempty within).mp covered
      exact .inl ⟨name, rfl, ⟨content, (descend?_singleton_iff distinct).mp leads⟩, ends⟩
    · obtain ⟨name, rfl, ends⟩ := (covers_sass_iff nonempty within).mp covered
      obtain ⟨inner, known, file⟩ := (descend?_pair_iff distinct).mp leads
      exact .inr ⟨inner, name, known, rfl, ⟨content, file⟩, ends⟩
  · rintro (⟨name, rfl, ⟨content, file⟩, ends⟩ | ⟨inner, name, known, rfl, ⟨content, file⟩, ends⟩)
    · have leads := (descend?_singleton_iff distinct).mpr file
      refine ⟨⟨content, leads⟩, by simp, "/*.scss", by simp [usualGlobs], ?_⟩
      exact (covers_root_iff (by simp) (separate.of_descend? leads)).mpr ⟨name, rfl, ends⟩
    · have leads := (descend?_pair_iff distinct).mpr ⟨inner, known, file⟩
      refine ⟨⟨content, leads⟩, by simp, "/sass/*.scss", by simp [usualGlobs], ?_⟩
      exact (covers_sass_iff (by simp) (separate.of_descend? leads)).mpr ⟨name, rfl, ends⟩

end RelativePath

/-- With the usual patterns a search lists the stylesheets of the root and of its directory `sass`,
in byte order. -/
theorem find_usual_stylesheets (tree : FileTree) (root : String)
    (entries : List (String × Entry)) (distinct : tree.root.NamesDistinct)
    (leads : tree.at? root = .ok (.directory entries))
    (separate : (Entry.directory entries).NamesSeparate) :
    ∃ paths, tree.files.find root usualGlobs = .ok paths ∧ RelativePath.Ascending paths ∧
      ∀ path, path ∈ paths ↔ IsUsualStylesheet entries path := by
  have below := FileTree.namesDistinct_of_at? distinct leads
  obtain ⟨paths, found, ascending, members⟩ := FileSystem.exists_find_eq_ok
    (FileTree.entries?_eq_some_iff.mpr leads) below isReadable_usualGlobs
  refine ⟨paths, found, ascending, fun path => ?_⟩
  rw [members, RelativePath.isSought_usual_iff below separate]

theorem namesSeparate_sampleTree : sampleTree.root.NamesSeparate := by
  refine .directory (by decide) fun child member => ?_
  simp only [List.mem_cons, List.not_mem_nil, or_false] at member
  obtain rfl | rfl | rfl | rfl := member
  · exact .file []
  · exact .file []
  · refine .directory (by decide) fun child member => ?_
    simp only [List.mem_cons, List.not_mem_nil, or_false] at member
    obtain rfl | rfl := member
    · exact .file []
    · exact .link _
  · exact .directory (by decide) (by simpa using Entry.NamesSeparate.file [])

theorem find_usual_stylesheets_sample :
    sampleTree.root.NamesDistinct ∧ sampleTree.root.NamesSeparate ∧
      ∃ paths, sampleTree.files.find "." usualGlobs = .ok paths ∧
        RelativePath.Ascending paths ∧ ["sass.scss"] ∈ paths ∧ ["sass", "b.scss"] ∈ paths ∧
          ["sass", "link.scss"] ∉ paths ∧ [".cache", "c.scss"] ∉ paths := by
  have leads : sampleTree.at? "." = .ok sampleTree.root := rfl
  obtain ⟨paths, found, ascending, members⟩ := find_usual_stylesheets sampleTree "." _
    namesDistinct_sampleTree leads namesSeparate_sampleTree
  refine ⟨namesDistinct_sampleTree, namesSeparate_sampleTree, paths, found, ascending, ?_⟩
  simp only [members, IsUsualStylesheet, IsStylesheetIn, isStylesheetName]
  refine ⟨.inl ⟨_, rfl, ⟨[], by simp⟩, by decide⟩, .inr ?_, by simp, by simp⟩
  exact ⟨[("b.scss", .file []), ("link.scss", .link "b.scss")], _, by simp, rfl, ⟨[], by simp⟩,
    by decide⟩

end StyleDoc
