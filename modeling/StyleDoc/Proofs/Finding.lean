import Mathlib.Data.List.Nodup
import StyleDoc.Files.Tree
import StyleDoc.Proofs.PathOrder

/-!
# What a search finds

The files below a root are told by the names that lead to them.  A search lists those that are
sought: regular files that a pattern covers, with no hidden directory on the way.  The list is in
byte order, so it depends on nothing but which files these are.
-/

namespace StyleDoc

/-! ## The files of a directory -/

theorem lookup_eq_some_iff_mem {α : Type} {entries : List (String × α)} {name : String} {entry : α}
    (distinct : (entries.map Prod.fst).Nodup) :
    entries.lookup name = some entry ↔ (name, entry) ∈ entries := by
  induction entries with
  | nil => simp
  | cons first entries ih =>
      obtain ⟨other, old⟩ := first
      obtain ⟨fresh, rest⟩ := List.nodup_cons.mp distinct
      by_cases same : name = other
      · subst same
        have absent : (name, entry) ∉ entries := fun member =>
          fresh (List.mem_map.mpr ⟨_, member, rfl⟩)
        simp [absent, eq_comm]
      · rw [List.lookup_cons, beq_false_of_ne same, ih rest]
        simp [same]

namespace Entry

theorem exists_of_descend?_cons {entry below : Entry} {name : String} {place : List String}
    (leads : entry.descend? (name :: place) = some below) :
    ∃ entries child, entry = directory entries ∧ entries.lookup name = some child ∧
      child.descend? place = some below := by
  obtain ⟨child, known, onward⟩ := Option.bind_eq_some_iff.mp leads
  cases entry with
  | file => cases known
  | link => cases known
  | directory entries => exact ⟨entries, child, rfl, known, onward⟩

/-- No directory at or below the entry holds a name twice. -/
inductive NamesDistinct : Entry → Prop
  | file (content : List UInt8) : NamesDistinct (file content)
  | link (target : String) : NamesDistinct (link target)
  | directory {entries : List (String × Entry)} :
      (entries.map Prod.fst).Nodup → (∀ child ∈ entries, NamesDistinct child.2) →
      NamesDistinct (directory entries)

theorem NamesDistinct.of_descend? {entry below : Entry} {place : List String}
    (distinct : entry.NamesDistinct) (leads : entry.descend? place = some below) :
    below.NamesDistinct := by
  induction place generalizing entry with
  | nil =>
      cases leads
      exact distinct
  | cons name place ih =>
      obtain ⟨entries, child, rfl, known, onward⟩ := exists_of_descend?_cons leads
      obtain _ | _ | ⟨nodup, children⟩ := distinct
      exact ih (children _ ((lookup_eq_some_iff_mem nodup).mp known)) onward

end Entry

/-- No directory on the way to the file is left out. -/
def RelativePath.IsShown (path : RelativePath) : Prop :=
  ∀ name ∈ path.dropLast, isIgnoredDirectory name = false

theorem nil_notMem_filesIn (entries : List (String × Entry)) : [] ∉ filesIn entries := by
  induction entries with
  | nil => simp [filesIn]
  | cons child entries ih =>
      rw [filesIn, List.mem_append]
      split <;> simp [ih]

theorem cons_mem_filesIn {entries : List (String × Entry)} {name : String} {path : RelativePath} :
    name :: path ∈ filesIn entries ↔ ∃ entry, (name, entry) ∈ entries ∧ path ∈ entry.files ∧
      (entry.isDirectory && isIgnoredDirectory name) = false := by
  induction entries with
  | nil => simp [filesIn]
  | cons child entries ih =>
      obtain ⟨other, entry⟩ := child
      have first : name :: path ∈ (if entry.isDirectory && isIgnoredDirectory other then []
          else entry.files.map fun rest => other :: rest) ↔
          name = other ∧ path ∈ entry.files ∧
            (entry.isDirectory && isIgnoredDirectory name) = false := by
        split
        · next ignored =>
            constructor
            · rintro ⟨⟩
            · rintro ⟨rfl, _, kept⟩
              rw [ignored] at kept
              cases kept
        · next kept =>
            rw [List.mem_map]
            constructor
            · rintro ⟨_, inside, ⟨⟩⟩
              exact ⟨rfl, inside, by simpa using kept⟩
            · rintro ⟨rfl, inside, _⟩
              exact ⟨path, inside, rfl⟩
      rw [filesIn, List.mem_append, first, ih]
      simp only [List.mem_cons, Prod.mk.injEq]
      constructor
      · rintro (⟨rfl, inside, kept⟩ | ⟨entry, member, inside, kept⟩)
        · exact ⟨entry, .inl ⟨rfl, rfl⟩, inside, kept⟩
        · exact ⟨entry, .inr member, inside, kept⟩
      · rintro ⟨_, ⟨rfl, rfl⟩ | member, inside, kept⟩
        · exact .inl ⟨rfl, inside, kept⟩
        · exact .inr ⟨_, member, inside, kept⟩

namespace Entry

theorem isDirectory_eq_of_descend? {entry : Entry} {path : RelativePath} {content : List UInt8}
    (leads : entry.descend? path = some (.file content)) : entry.isDirectory = !path.isEmpty := by
  cases path with
  | nil =>
      cases leads
      rfl
  | cons name path =>
      obtain ⟨entries, _, rfl, _⟩ := exists_of_descend?_cons leads
      rfl

namespace NamesDistinct

theorem mem_files {entry : Entry} (distinct : entry.NamesDistinct) {path : RelativePath} :
    path ∈ entry.files ↔
      (∃ content, entry.descend? path = some (.file content)) ∧ path.IsShown := by
  induction distinct generalizing path with
  | file content => cases path <;> simp [files, descend?, child?, RelativePath.IsShown]
  | link target => cases path <;> simp [files, descend?, child?]
  | @directory entries nodup children ih =>
      cases path with
      | nil => simp [files, nil_notMem_filesIn, descend?]
      | cons name path =>
        have shown_iff : RelativePath.IsShown (name :: path) ↔
            (path.isEmpty = false → isIgnoredDirectory name = false) ∧
              RelativePath.IsShown path := by
          cases path <;> simp [RelativePath.IsShown]
        have leads_iff (content : List UInt8) :
            (Entry.directory entries).descend? (name :: path) = some (Entry.file content) ↔
              ∃ child, (name, child) ∈ entries ∧
                child.descend? path = some (Entry.file content) := by
          rw [descend?, child?, Option.bind_eq_some_iff]
          simp only [lookup_eq_some_iff_mem nodup]
        rw [files, cons_mem_filesIn, shown_iff]
        simp only [leads_iff]
        constructor
        · rintro ⟨child, member, inside, kept⟩
          obtain ⟨⟨content, leads⟩, shown⟩ := (ih _ member).mp inside
          rw [isDirectory_eq_of_descend? leads] at kept
          exact ⟨⟨content, child, member, leads⟩, by simpa using kept, shown⟩
        · rintro ⟨⟨content, child, member, leads⟩, kept, shown⟩
          refine ⟨child, member, (ih _ member).mpr ⟨⟨content, leads⟩, shown⟩, ?_⟩
          rw [isDirectory_eq_of_descend? leads]
          simpa using kept

theorem nodup_files {entry : Entry} (distinct : entry.NamesDistinct) : entry.files.Nodup := by
  induction distinct with
  | file content => exact List.nodup_singleton _
  | link target => exact List.nodup_nil
  | @directory entries nodup children ih =>
      -- The files of two entries differ in their first name; so this is an induction on the list.
      rw [files]
      clear children
      induction entries with
      | nil => exact List.nodup_nil
      | cons child entries rest =>
          obtain ⟨fresh, nodup⟩ := List.nodup_cons.mp nodup
          have below := rest nodup fun other member => ih other (List.mem_cons_of_mem _ member)
          rw [filesIn]
          split
          · exact below
          · have own := (ih child List.mem_cons_self).map (List.cons_injective (a := child.1))
            refine own.append below ?_
            intro path first second
            obtain ⟨inner, _, rfl⟩ := List.mem_map.mp first
            obtain ⟨other, member, _⟩ := cons_mem_filesIn.mp second
            exact fresh (List.mem_map.mpr ⟨_, member, rfl⟩)

end NamesDistinct

/-- The same entries, with some directories listed in another order. -/
inductive Relisted : Entry → Entry → Prop
  | refl (entry : Entry) : Relisted entry entry
  | reorder {entries others : List (String × Entry)} :
      entries.Perm others → Relisted (.directory entries) (.directory others)
  | within {child other : Entry} (before after : List (String × Entry)) (name : String) :
      Relisted child other →
      Relisted (.directory (before ++ (name, child) :: after))
        (.directory (before ++ (name, other) :: after))
  | trans {first second third : Entry} :
      Relisted first second → Relisted second third → Relisted first third

namespace Relisted

theorem namesDistinct {entry other : Entry} (relisted : Relisted entry other)
    (distinct : entry.NamesDistinct) : other.NamesDistinct := by
  induction relisted with
  | refl => exact distinct
  | reorder same =>
      obtain _ | _ | ⟨nodup, children⟩ := distinct
      exact .directory ((same.map Prod.fst).nodup_iff.mp nodup)
        fun child member => children child (same.mem_iff.mpr member)
  | @within old new before after name _ ih =>
      obtain _ | _ | ⟨nodup, children⟩ := distinct
      refine .directory (by simpa using nodup) fun child member => ?_
      rw [List.mem_append, List.mem_cons] at member
      obtain member | rfl | member := member
      · exact children child (List.mem_append_left _ member)
      · exact ih (children (name, old) (by simp))
      · exact children child (List.mem_append_right _ (List.mem_cons_of_mem _ member))
  | trans _ _ first second => exact second (first distinct)

/-- Paths lead to the same files, however directories are listed. -/
theorem descend?_eq_file_iff {entry other : Entry} (relisted : Relisted entry other)
    (distinct : entry.NamesDistinct) (path : List String) (content : List UInt8) :
    entry.descend? path = some (.file content) ↔ other.descend? path = some (.file content) := by
  induction relisted generalizing path with
  | refl => rfl
  | @reorder entries others same =>
      obtain _ | _ | ⟨nodup, _⟩ := distinct
      cases path with
      | nil => simp [descend?]
      | cons name path =>
          have lookups : entries.lookup name = others.lookup name := by
            ext child
            rw [lookup_eq_some_iff_mem nodup, same.mem_iff,
              lookup_eq_some_iff_mem ((same.map Prod.fst).nodup_iff.mp nodup)]
          rw [descend?, descend?, child?, child?, lookups]
  | @within old new before after name _ ih =>
      obtain _ | _ | ⟨_, children⟩ := distinct
      cases path with
      | nil => simp [descend?]
      | cons other path =>
          have below := ih (children (name, old) (by simp)) path
          simp only [descend?, child?, List.lookup_append, List.lookup_cons]
          cases before.lookup other with
          | some child => rfl
          | none =>
              by_cases same : other = name
              · simpa [same] using below
              · simp [beq_false_of_ne same]
  | trans former _ first second =>
      rw [first distinct, second (former.namesDistinct distinct)]

end Relisted

end Entry

/-! ## Patterns -/

namespace Glob

def withoutSlashes (pattern : String) : List Char := pattern.toList.dropWhile fun c => c == '/'

theorem ofText_eq_ok_iff {pattern : String} {glob : Glob} :
    ofText pattern = .ok glob ↔ partsFrom true (withoutSlashes pattern) = .ok glob.parts := by
  rw [ofText, withoutSlashes]
  cases partsFrom true (pattern.toList.dropWhile fun c => c == '/') with
  | error fault => simp [Except.map]
  | ok parts =>
      cases glob
      simp [Except.map]

theorem ofText_eq_error_iff {pattern : String} {fault : Fault} :
    ofText pattern = .error fault ↔ partsFrom true (withoutSlashes pattern) = .error fault := by
  rw [ofText, withoutSlashes]
  cases partsFrom true (pattern.toList.dropWhile fun c => c == '/') <;> simp [Except.map]

def IsReadable (pattern : String) : Prop :=
  ∃ parts, partsFrom true (withoutSlashes pattern) = .ok parts

def Covers (pattern : String) (path : RelativePath) : Prop :=
  ∃ parts, partsFrom true (withoutSlashes pattern) = .ok parts ∧
    accepts parts path.text.toList = true

end Glob

theorem readGlobs_cons (pattern : String) (patterns : List String) :
    readGlobs (pattern :: patterns) =
      match Glob.ofText pattern with
      | .error fault => .error (.invalidGlob pattern fault)
      | .ok glob => (readGlobs patterns).map (glob :: ·) := by
  rw [readGlobs, List.mapM_cons]
  cases Glob.ofText pattern with
  | error fault => rfl
  | ok glob =>
      change (readGlobs patterns >>= fun globs => pure (glob :: globs)) = _
      cases readGlobs patterns <;> rfl

/-- Either all patterns make sense, or the first one that does not is told. -/
theorem readGlobs_cases (patterns : List String) :
    (∃ globs, readGlobs patterns = .ok globs ∧ patterns.map Glob.ofText = globs.map .ok ∧
        ∀ pattern ∈ patterns, Glob.IsReadable pattern) ∨
      ∃ before pattern after cause, patterns = before ++ pattern :: after ∧
        (∀ earlier ∈ before, Glob.IsReadable earlier) ∧
        Glob.partsFrom true (Glob.withoutSlashes pattern) = .error cause ∧
        readGlobs patterns = .error (.invalidGlob pattern cause) := by
  induction patterns with
  | nil => exact .inl ⟨[], rfl, rfl, by simp⟩
  | cons pattern patterns ih =>
      rw [readGlobs_cons]
      cases first : Glob.ofText pattern with
      | error cause =>
          exact .inr ⟨[], pattern, patterns, cause, rfl, by simp,
            Glob.ofText_eq_error_iff.mp first, rfl⟩
      | ok glob =>
          have readable : Glob.IsReadable pattern := ⟨glob.parts, Glob.ofText_eq_ok_iff.mp first⟩
          obtain ⟨globs, read, texts, all⟩ |
            ⟨before, bad, after, cause, rfl, earlier, fails, read⟩ := ih
          · refine .inl ⟨glob :: globs, by rw [read]; rfl, ?_, ?_⟩
            · rw [List.map_cons, List.map_cons, first, texts]
            · exact List.forall_mem_cons.mpr ⟨readable, all⟩
          · refine .inr ⟨pattern :: before, bad, after, cause, rfl, ?_, fails, by rw [read]; rfl⟩
            exact List.forall_mem_cons.mpr ⟨readable, earlier⟩

theorem readGlobs_of_error {before after : List String} {pattern : String} {cause : Glob.Fault}
    (readable : ∀ earlier ∈ before, Glob.IsReadable earlier)
    (read : Glob.partsFrom true (Glob.withoutSlashes pattern) = .error cause) :
    readGlobs (before ++ pattern :: after) = .error (.invalidGlob pattern cause) := by
  induction before with
  | nil => rw [List.nil_append, readGlobs_cons, Glob.ofText_eq_error_iff.mpr read]
  | cons first before ih =>
      obtain ⟨parts, sense⟩ := readable first List.mem_cons_self
      have rest := ih fun other member => readable other (List.mem_cons_of_mem _ member)
      have read : Glob.ofText first = .ok ⟨parts⟩ := Glob.ofText_eq_ok_iff.mpr sense
      rw [List.cons_append, readGlobs_cons, read, rest]
      rfl

theorem readGlobs_eq_error_iff {patterns : List String} {pattern : String} {cause : Glob.Fault} :
    readGlobs patterns = .error (.invalidGlob pattern cause) ↔
      ∃ before after, patterns = before ++ pattern :: after ∧
        (∀ earlier ∈ before, Glob.IsReadable earlier) ∧
          Glob.partsFrom true (Glob.withoutSlashes pattern) = .error cause := by
  constructor
  · intro fails
    obtain ⟨globs, read, _⟩ | ⟨before, _, after, _, split, earlier, bad, read⟩ :=
      readGlobs_cases patterns
    · rw [read] at fails
      cases fails
    · rw [read] at fails
      cases fails
      exact ⟨before, after, split, earlier, bad⟩
  · rintro ⟨before, after, rfl, earlier, bad⟩
    exact readGlobs_of_error earlier bad

theorem any_covers_iff {patterns : List String} {globs : List Glob} {path : RelativePath}
    (texts : patterns.map Glob.ofText = globs.map .ok) :
    (globs.any fun glob => glob.covers path.text) = true ↔
      ∃ pattern ∈ patterns, Glob.Covers pattern path := by
  have members (glob : Glob) :
      glob ∈ globs ↔ ∃ pattern ∈ patterns, Glob.ofText pattern = .ok glob := by
    have mapped : glob ∈ globs ↔ .ok glob ∈ globs.map (Except.ok (ε := Glob.Fault)) := by simp
    rw [mapped, ← texts, List.mem_map]
  simp only [List.any_eq_true, members]
  constructor
  · rintro ⟨glob, ⟨pattern, member, read⟩, covered⟩
    exact ⟨pattern, member, glob.parts, Glob.ofText_eq_ok_iff.mp read, covered⟩
  · rintro ⟨pattern, member, parts, read, covered⟩
    exact ⟨⟨parts⟩, ⟨pattern, member, Glob.ofText_eq_ok_iff.mpr read⟩, covered⟩

/-! ## What is found -/

/-- A file below the given entries that a search for the patterns is to find. -/
structure RelativePath.IsSought (entries : List (String × Entry)) (patterns : List String)
    (path : RelativePath) : Prop where
  file : ∃ content, (Entry.directory entries).descend? path = some (.file content)
  /-- No directory on the way is hidden or holds packages. -/
  shown : ∀ name ∈ path.dropLast, name.toList.head? ≠ some '.' ∧ name ≠ "node_modules"
  covered : ∃ pattern ∈ patterns, Glob.Covers pattern path

/-- Paths in the byte order of their names, none of them twice. -/
def RelativePath.Ascending (paths : List RelativePath) : Prop :=
  paths.Pairwise fun path later => path.bytes < later.bytes

namespace RelativePath

theorem isShown_iff {path : RelativePath} : path.IsShown ↔
    ∀ name ∈ path.dropLast, name.toList.head? ≠ some '.' ∧ name ≠ "node_modules" := by
  simp [IsShown, isIgnoredDirectory]

theorem ascending_mergeSort {paths : List RelativePath} (nodup : paths.Nodup) :
    Ascending (paths.mergeSort isAtMost) := by
  have sorted := List.pairwise_mergeSort isAtMost_trans isAtMost_total paths
  have distinct := (List.mergeSort_perm paths isAtMost).nodup_iff.mpr nodup
  exact (sorted.and distinct).imp fun ⟨ordered, differ⟩ => bytes_lt_of_isAtMost ordered differ

theorem Ascending.nodup {paths : List RelativePath} (ascending : Ascending paths) :
    paths.Nodup := by
  refine ascending.imp fun {path later} less => ?_
  rintro rfl
  exact List.lt_irrefl _ less

theorem Ascending.eq_of_mem_iff {paths others : List RelativePath} (ascending : Ascending paths)
    (ascending' : Ascending others) (same : ∀ path, path ∈ paths ↔ path ∈ others) :
    paths = others :=
  ((List.perm_ext_iff_of_nodup ascending.nodup ascending'.nodup).mpr same).eq_of_pairwise
    (fun _ _ _ _ less more => absurd more (List.lt_asymm less)) ascending ascending'

end RelativePath

theorem coveredFiles_spec {entries : List (String × Entry)} {patterns : List String}
    {globs : List Glob} (distinct : (Entry.directory entries).NamesDistinct)
    (texts : patterns.map Glob.ofText = globs.map .ok) :
    RelativePath.Ascending (coveredFiles globs entries) ∧
      ∀ path, path ∈ coveredFiles globs entries ↔ path.IsSought entries patterns := by
  refine ⟨RelativePath.ascending_mergeSort (distinct.nodup_files.filter _), fun path => ?_⟩
  rw [coveredFiles, List.mem_mergeSort, List.mem_filter, any_covers_iff texts,
    ← Entry.files, distinct.mem_files, RelativePath.isShown_iff]
  constructor
  · rintro ⟨⟨file, shown⟩, covered⟩
    exact ⟨file, shown, covered⟩
  · rintro ⟨file, shown, covered⟩
    exact ⟨⟨file, shown⟩, covered⟩

namespace FileSystem

variable {files : FileSystem} {root : String} {patterns : List String}
  {entries : List (String × Entry)}

theorem find_eq (lists : files.entries? root = some entries) : files.find root patterns =
    (readGlobs patterns).map fun globs => coveredFiles globs entries := by
  rw [find, lists]

theorem find_eq_error_iff {fault : DocFault} (lists : files.entries? root = some entries) :
    files.find root patterns = .error fault ↔ readGlobs patterns = .error fault := by
  rw [find_eq lists]
  cases readGlobs patterns <;> simp [Except.map]

/-- Patterns that make sense give a list of what is sought, in order. -/
theorem exists_find_eq_ok (lists : files.entries? root = some entries)
    (distinct : (Entry.directory entries).NamesDistinct)
    (readable : ∀ pattern ∈ patterns, Glob.IsReadable pattern) :
    ∃ paths, files.find root patterns = .ok paths ∧ RelativePath.Ascending paths ∧
      ∀ path, path ∈ paths ↔ path.IsSought entries patterns := by
  obtain ⟨globs, read, texts, _⟩ | ⟨before, pattern, after, cause, rfl, _, fails, _⟩ :=
    readGlobs_cases patterns
  · refine ⟨coveredFiles globs entries, ?_, coveredFiles_spec distinct texts⟩
    rw [find_eq lists, read]
    rfl
  · obtain ⟨parts, sense⟩ := readable pattern (by simp)
    rw [fails] at sense
    cases sense

theorem find_eq_ok_iff {paths : List RelativePath} (lists : files.entries? root = some entries)
    (distinct : (Entry.directory entries).NamesDistinct) :
    files.find root patterns = .ok paths ↔ (∀ pattern ∈ patterns, Glob.IsReadable pattern) ∧
      RelativePath.Ascending paths ∧ ∀ path, path ∈ paths ↔ path.IsSought entries patterns := by
  constructor
  · intro found
    rw [find_eq lists] at found
    obtain ⟨globs, read, texts, readable⟩ | ⟨_, _, _, _, _, _, _, read⟩ := readGlobs_cases patterns
    · rw [read] at found
      cases found
      exact ⟨readable, coveredFiles_spec distinct texts⟩
    · rw [read] at found
      cases found
  · rintro ⟨readable, ascending, members⟩
    obtain ⟨listed, found, ascending', members'⟩ := exists_find_eq_ok lists distinct readable
    rw [found, ascending'.eq_of_mem_iff ascending fun path => by rw [members, members']]

end FileSystem

namespace RelativePath.IsSought

variable {entries others : List (String × Entry)} {patterns more : List String}
  {path : RelativePath}

theorem relisted_iff (distinct : (Entry.directory entries).NamesDistinct)
    (relisted : Entry.Relisted (.directory entries) (.directory others)) :
    path.IsSought others patterns ↔ path.IsSought entries patterns := by
  have files := relisted.descend?_eq_file_iff distinct path
  constructor <;> rintro ⟨file, shown, covered⟩ <;>
    exact ⟨by simpa only [files] using file, shown, covered⟩

/-- Which files are sought depends on the patterns without the slashes in front of them. -/
theorem congr_patterns (same : ∀ text, text ∈ more.map Glob.withoutSlashes ↔
    text ∈ patterns.map Glob.withoutSlashes) :
    path.IsSought entries more ↔ path.IsSought entries patterns := by
  have covers (patterns : List String) : (∃ pattern ∈ patterns, Glob.Covers pattern path) ↔
      ∃ text ∈ patterns.map Glob.withoutSlashes, ∃ parts, Glob.partsFrom true text = .ok parts ∧
        Glob.accepts parts path.text.toList = true := by
    simp only [List.mem_map, exists_exists_and_eq_and]
    rfl
  have both : (∃ pattern ∈ more, Glob.Covers pattern path) ↔
      ∃ pattern ∈ patterns, Glob.Covers pattern path := by
    simp only [covers, same]
  constructor <;> rintro ⟨file, shown, covered⟩ <;>
    exact ⟨file, shown, by simpa only [both] using covered⟩

theorem append_iff : path.IsSought entries (patterns ++ more) ↔
    path.IsSought entries patterns ∨ path.IsSought entries more := by
  constructor
  · rintro ⟨file, shown, pattern, member, covered⟩
    rcases List.mem_append.mp member with first | second
    · exact .inl ⟨file, shown, pattern, first, covered⟩
    · exact .inr ⟨file, shown, pattern, second, covered⟩
  · rintro (⟨file, shown, pattern, member, covered⟩ | ⟨file, shown, pattern, member, covered⟩)
    · exact ⟨file, shown, pattern, List.mem_append_left _ member, covered⟩
    · exact ⟨file, shown, pattern, List.mem_append_right _ member, covered⟩

end RelativePath.IsSought

namespace FileSystem

variable {files : FileSystem} {root : String} {patterns : List String}
  {entries : List (String × Entry)}

theorem find_relisted {others : List (String × Entry)} {files' : FileSystem}
    (lists : files.entries? root = some entries) (lists' : files'.entries? root = some others)
    (distinct : (Entry.directory entries).NamesDistinct)
    (relisted : Entry.Relisted (.directory entries) (.directory others)) :
    files'.find root patterns = files.find root patterns := by
  cases result : files.find root patterns with
  | error fault =>
      rw [find_eq_error_iff lists] at result
      exact (find_eq_error_iff lists').mpr result
  | ok paths =>
      obtain ⟨readable, ascending, members⟩ := (find_eq_ok_iff lists distinct).mp result
      refine (find_eq_ok_iff lists' (relisted.namesDistinct distinct)).mpr
        ⟨readable, ascending, fun path => ?_⟩
      rw [members, RelativePath.IsSought.relisted_iff distinct relisted]

theorem find_congr_patterns {others : List String} {paths : List RelativePath}
    (lists : files.entries? root = some entries)
    (distinct : (Entry.directory entries).NamesDistinct)
    (same : ∀ text, text ∈ others.map Glob.withoutSlashes ↔
      text ∈ patterns.map Glob.withoutSlashes)
    (found : files.find root patterns = .ok paths) : files.find root others = .ok paths := by
  obtain ⟨readable, ascending, members⟩ := (find_eq_ok_iff lists distinct).mp found
  refine (find_eq_ok_iff lists distinct).mpr ⟨fun pattern member => ?_, ascending, fun path => ?_⟩
  · obtain ⟨other, known, alike⟩ := List.mem_map.mp ((same _).mp (List.mem_map_of_mem member))
    obtain ⟨parts, read⟩ := readable other known
    exact ⟨parts, alike ▸ read⟩
  · rw [members, RelativePath.IsSought.congr_patterns same]

theorem find_append {more : List String} {paths found : List RelativePath}
    (lists : files.entries? root = some entries)
    (distinct : (Entry.directory entries).NamesDistinct)
    (first : files.find root patterns = .ok paths) (second : files.find root more = .ok found) :
    files.find root (patterns ++ more) =
      .ok ((paths ∪ found).mergeSort RelativePath.isAtMost) := by
  obtain ⟨readable, ascending, members⟩ := (find_eq_ok_iff lists distinct).mp first
  obtain ⟨readable', ascending', members'⟩ := (find_eq_ok_iff lists distinct).mp second
  refine (find_eq_ok_iff lists distinct).mpr ⟨?_, ?_, fun path => ?_⟩
  · exact List.forall_mem_append.mpr ⟨readable, readable'⟩
  · exact RelativePath.ascending_mergeSort (ascending'.nodup.union paths)
  · rw [List.mem_mergeSort, List.mem_union_iff, members, members',
      RelativePath.IsSought.append_iff]

end FileSystem

namespace FileTree

variable {tree : FileTree} {path : String}

theorem at?_eq_ok_iff {entry : Entry} : tree.at? path = .ok entry ↔
    ∃ place, tree.resolve path = .ok place ∧ tree.root.descend? place = some entry := by
  rw [at?]
  cases tree.resolve path with
  | error fault => simp [bind, Except.bind]
  | ok place =>
      simp only [bind, Except.bind, Except.ok.injEq, exists_eq_left']
      cases tree.root.descend? place <;> simp

theorem namesDistinct_of_at? {entry : Entry} (distinct : tree.root.NamesDistinct)
    (found : tree.at? path = .ok entry) : entry.NamesDistinct := by
  obtain ⟨place, _, leads⟩ := at?_eq_ok_iff.mp found
  exact distinct.of_descend? leads

theorem entries?_eq_some_iff {entries : List (String × Entry)} :
    tree.files.entries? path = some entries ↔ tree.at? path = .ok (.directory entries) := by
  change tree.entries? path = some entries ↔ _
  rw [entries?]
  split
  · next found => simp [found]
  · next other => simp_all

theorem find_eq_missingRoot_iff {root : String} {patterns : List String} :
    tree.files.find root patterns = .error (.missingRoot root) ↔
      ∀ entries, tree.at? root ≠ .ok (.directory entries) := by
  simp only [ne_eq, ← entries?_eq_some_iff]
  cases lists : tree.files.entries? root with
  | none => simp [FileSystem.find, lists]
  | some entries =>
      simp only [FileSystem.find_eq_error_iff lists, Option.some.injEq, forall_eq', iff_false]
      obtain ⟨globs, read, _⟩ | ⟨_, _, _, _, _, _, _, read⟩ := readGlobs_cases patterns
      · simp [read]
      · simp [read]

end FileTree

/--
A search below a root fails if the root is no directory, and else if a pattern makes no sense, with
the first such pattern.  Otherwise it lists in byte order, name by name, exactly the files that are
sought.  The order in which directories are listed does not matter, nor do the order of the
patterns, their repetition and the slashes in front of them; a search for more patterns finds the
files that it finds for either part of them.
-/
theorem find_lists_sought_files (tree : FileTree) (root : String) (patterns : List String)
    (distinct : tree.root.NamesDistinct) :
    (tree.files.find root patterns = .error (.missingRoot root) ↔
      ∀ entries, tree.at? root ≠ .ok (.directory entries)) ∧
    ∀ entries, tree.at? root = .ok (.directory entries) →
      (∀ pattern fault, tree.files.find root patterns = .error (.invalidGlob pattern fault) ↔
        ∃ before after, patterns = before ++ pattern :: after ∧
          (∀ earlier ∈ before, Glob.IsReadable earlier) ∧
            Glob.partsFrom true (Glob.withoutSlashes pattern) = .error fault) ∧
      ((∀ pattern ∈ patterns, Glob.IsReadable pattern) →
        ∃ paths, tree.files.find root patterns = .ok paths ∧ RelativePath.Ascending paths ∧
          ∀ path, path ∈ paths ↔ path.IsSought entries patterns) ∧
      (∀ (files : FileSystem) (others : List (String × Entry)), files.entries? root = some others →
        Entry.Relisted (.directory entries) (.directory others) →
          files.find root patterns = tree.files.find root patterns) ∧
      ∀ paths, tree.files.find root patterns = .ok paths →
        (∀ others : List String, (∀ text, text ∈ others.map Glob.withoutSlashes ↔
            text ∈ patterns.map Glob.withoutSlashes) →
          tree.files.find root others = .ok paths) ∧
        ∀ more found, tree.files.find root more = .ok found →
          tree.files.find root (patterns ++ more) =
            .ok ((paths ∪ found).mergeSort RelativePath.isAtMost) := by
  refine ⟨FileTree.find_eq_missingRoot_iff, fun entries leads => ?_⟩
  have lists := FileTree.entries?_eq_some_iff.mpr leads
  have inside := FileTree.namesDistinct_of_at? distinct leads
  refine ⟨fun pattern fault => ?_, fun readable => ?_, fun files others listed relisted => ?_,
    fun paths found => ⟨fun others same => ?_, fun more found' also => ?_⟩⟩
  · rw [FileSystem.find_eq_error_iff lists, readGlobs_eq_error_iff]
  · exact FileSystem.exists_find_eq_ok lists inside readable
  · exact FileSystem.find_relisted lists listed inside relisted
  · exact FileSystem.find_congr_patterns lists inside same found
  · exact FileSystem.find_append lists inside found also

/-- A tree in which a directory and a file have names that start alike, and a file with a good name
is hidden, another linked. -/
def sampleTree : FileTree :=
  { root := .directory
      [("sass.scss", .file []), ("node_modules", .file []),
        ("sass", .directory [("b.scss", .file []), ("link.scss", .link "b.scss")]),
        (".cache", .directory [("c.scss", .file [])])]
    home := [] }

theorem namesDistinct_sampleTree : sampleTree.root.NamesDistinct := by
  refine .directory (by decide) fun child member => ?_
  simp only [List.mem_cons, List.not_mem_nil, or_false] at member
  obtain rfl | rfl | rfl | rfl := member
  · exact .file []
  · exact .file []
  · refine .directory (by decide) fun child member => ?_
    simp only [List.mem_cons, List.not_mem_nil, or_false] at member
    obtain rfl | rfl := member
    · exact .file []
    · exact .link _
  · exact .directory (by decide) (by simpa using Entry.NamesDistinct.file [])

theorem find_lists_sought_files_sample : sampleTree.root.NamesDistinct ∧
    ∃ paths, sampleTree.files.find "." ["//**/*.scss"] = .ok paths ∧
      RelativePath.Ascending paths ∧ ["sass", "b.scss"] ∈ paths ∧ ["sass", "link.scss"] ∉ paths ∧
        [".cache", "c.scss"] ∉ paths := by
  obtain ⟨_, inside⟩ :=
    find_lists_sought_files sampleTree "." ["//**/*.scss"] namesDistinct_sampleTree
  have leads : sampleTree.at? "." = .ok sampleTree.root := rfl
  have read : Glob.partsFrom true (Glob.withoutSlashes "//**/*.scss") =
      .ok ([.components, .sequence] ++ ".scss".toList.map .literal) := by cbv
  obtain ⟨_, finds, _⟩ := inside _ leads
  obtain ⟨paths, found, ascending, members⟩ := finds (by simpa using ⟨_, read⟩)
  refine ⟨namesDistinct_sampleTree, paths, found, ascending, ?_, ?_, ?_⟩
  · refine (members _).mpr ⟨⟨[], rfl⟩, by decide, _, List.mem_singleton_self _, _, read, ?_⟩
    decide
  · intro listed
    obtain ⟨content, leads⟩ := ((members _).mp listed).file
    cases leads
  · intro listed
    exact absurd rfl (((members _).mp listed).shown ".cache" (by decide)).1

end StyleDoc
