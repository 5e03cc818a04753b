import StyleDoc.Proofs.Finding
import StyleDoc.Proofs.Texts

/-!
# Where paths lead

A path below a root leads where the root leads and then along the names of the file.  Where paths
lead does not depend on what files hold, so that a file can be given other bytes without moving
anything.
-/

namespace StyleDoc

/-! ## The names of a path -/

structure IsPlainName (name : String) : Prop where
  moves : staysAtName name = false
  descends : name ≠ ".."
  single : '/' ∉ name.toList
  short : name.utf8ByteSize ≤ maxNameSize

theorem pathNames_append (front back : List Char) :
    pathNames (String.ofList (front ++ '/' :: back)) =
      pathNames (String.ofList front) ++ pathNames (String.ofList back) := by
  simp [pathNames, List.splitOn_append_cons_self]

namespace RelativePath

/-- The names of a path are found again in its text. -/
theorem splitOn_text {path : RelativePath} (nonempty : path ≠ [])
    (separate : ∀ name ∈ path, '/' ∉ name.toList) :
    path.text.toList.splitOn '/' = path.map String.toList := by
  rw [text, String.toList_ofList]
  exact List.splitOn_intercalate _ (by simpa using separate) (by simpa using nonempty)

theorem pathNames_text {path : RelativePath} (nonempty : path ≠ [])
    (plain : ∀ name ∈ path, IsPlainName name) : pathNames path.text = path := by
  rw [pathNames, splitOn_text nonempty fun name known => (plain name known).single]
  simp

/-- A path below a root is what stands before the slash at its end, if there is one, and the names
of the file. -/
theorem below_eq {root : String} (path : RelativePath) (nonempty : root ≠ "") :
    ∃ base, path.below root = String.ofList (base ++ '/' :: path.text.toList) ∧
      (root = String.ofList base ∨ root = String.ofList (base ++ ['/'])) := by
  have some_char : root.toList ≠ [] := by simpa using nonempty
  rw [below]
  split
  · next none => exact absurd (List.getLast?_eq_none_iff.mp none) some_char
  · next last =>
      obtain ⟨base, split⟩ := List.getLast?_eq_some_iff.mp last
      refine ⟨base, ?_, .inr ?_⟩
      · apply String.toList_injective
        simp [split]
      · rw [← split, String.ofList_toList]
  · refine ⟨root.toList, ?_, .inl (by simp)⟩
    apply String.toList_injective
    simp

theorem head?_below {root : String} (path : RelativePath) (nonempty : root ≠ "") :
    (path.below root).toList.head? = root.toList.head? := by
  obtain ⟨c, rest, split⟩ : ∃ c rest, root.toList = c :: rest :=
    List.exists_cons_of_ne_nil (by simpa using nonempty)
  rw [below]
  split
  · simp_all
  · simp [split]
  · simp [split]

end RelativePath

/-! ## Following names -/

namespace Entry

theorem descend?_append (entry : Entry) (place names : List String) :
    entry.descend? (place ++ names) =
      (entry.descend? place).bind fun below => below.descend? names := by
  induction place generalizing entry with
  | nil => rfl
  | cons name place ih =>
      rw [List.cons_append, descend?, descend?, Option.bind_assoc]
      exact congrArg _ (funext fun child => ih child)

/-- Every name at or below the entry is one that an entry can have. -/
inductive NamesPlain : Entry → Prop
  | file (content : List UInt8) : NamesPlain (file content)
  | link (target : String) : NamesPlain (link target)
  | directory {entries : List (String × Entry)} :
      (∀ child ∈ entries, IsPlainName child.1) → (∀ child ∈ entries, NamesPlain child.2) →
      NamesPlain (directory entries)

/-- What directories say of all their names and of all their children holds of the names on the way
to anything below. -/
theorem forall_mem_of_descend? {good : Entry → Prop} {holds : String → Prop} {entry below : Entry}
    {place : List String}
    (children : ∀ entries, good (directory entries) →
      ∀ child ∈ entries, holds child.1 ∧ good child.2)
    (top : good entry) (leads : entry.descend? place = some below) :
    ∀ name ∈ place, holds name := by
  induction place generalizing entry with
  | nil => simp
  | cons name place ih =>
      obtain ⟨entries, child, rfl, known, onward⟩ := exists_of_descend?_cons leads
      have member : (name, child) ∈ entries := by
        obtain ⟨_, _, rfl, _⟩ := List.lookup_eq_some_iff.mp known
        simp
      obtain ⟨own, inner⟩ := children entries top _ member
      exact List.forall_mem_cons.mpr ⟨own, ih inner onward⟩

theorem NamesPlain.of_descend? {entry below : Entry} {place : List String}
    (plain : entry.NamesPlain) (leads : entry.descend? place = some below) :
    ∀ name ∈ place, IsPlainName name := by
  refine forall_mem_of_descend? (fun entries plain child member => ?_) plain leads
  obtain _ | _ | ⟨own, children⟩ := plain
  exact ⟨own child member, children child member⟩

end Entry

namespace FileTree

variable {tree : FileTree}

theorem advance_append (place names more : List String) :
    tree.advance place (names ++ more) =
      match tree.advance place names with
      | .arrived place => tree.advance place more
      | .linked place target left => .linked place target (left ++ more)
      | .failed fault => .failed fault := by
  induction names generalizing place with
  | nil => rfl
  | cons name names ih =>
      rw [List.cons_append, advance, advance]
      split
      · next entries found =>
        split
        · exact ih place
        · split
          · exact ih place.dropLast
          · split
            · rfl
            · split
              · rfl
              · exact ih (place ++ [name])
              · simp
      · rfl
      · rfl

/-- Names are followed to their end before those that come after them. -/
theorem follow_append (tree : FileTree) (links : Nat) (place names : List String) :
    (∃ middle left, tree.follow links place names = .ok middle ∧
      ∀ more, tree.follow links place (names ++ more) = tree.follow left middle more) ∨
    ∃ fault, tree.follow links place names = .error fault ∧
      ∀ more, tree.follow links place (names ++ more) = .error fault := by
  fun_induction tree.follow links place names with
  | case1 links place names middle way =>
      refine .inl ⟨middle, links, rfl, fun more => ?_⟩
      rw [follow, advance_append, way, follow]
  | case2 links place names fault way =>
      refine .inr ⟨fault, rfl, fun more => ?_⟩
      rw [follow, advance_append, way]
  | case3 place names middle target left way =>
      refine .inr ⟨.tooManyLinks, rfl, fun more => ?_⟩
      rw [follow, advance_append, way]
  | case4 place names middle target left way links ih =>
      have step (more : List String) : tree.follow (links + 1) place (names ++ more) =
          tree.follow links (startFrom middle target) (pathNames target ++ left ++ more) := by
        rw [follow, advance_append, way, List.append_assoc]
      simpa only [step] using ih

/-- Names that lead to a file, no link being followed, are followed to it. -/
theorem advance_of_descend? {place path : List String} {content : List UInt8}
    (plain : ∀ name ∈ path, IsPlainName name)
    (leads : tree.root.descend? (place ++ path) = some (.file content)) :
    tree.advance place path = .arrived (place ++ path) := by
  induction path generalizing place with
  | nil => simp [advance]
  | cons name path ih =>
      obtain ⟨here, found, onward⟩ :=
        Option.bind_eq_some_iff.mp (Entry.descend?_append _ place (name :: path) ▸ leads)
      obtain ⟨entries, child, rfl, known, further⟩ := Entry.exists_of_descend?_cons onward
      have rest : tree.advance (place ++ [name]) path =
          .arrived (place ++ name :: path) := by
        have shifted := ih (fun other member => plain other (List.mem_cons_of_mem _ member))
          ((List.append_cons place name path) ▸ leads)
        rwa [← List.append_cons] at shifted
      have ⟨moves, descends, _, short⟩ := plain name List.mem_cons_self
      rw [advance, found]
      simp only [moves, descends, Nat.not_lt.mpr short, known, if_false, Bool.false_eq_true]
      cases child with
      | file => exact rest
      | link => cases path <;> cases further
      | directory => exact rest

theorem eq_of_follow_empty {links : Nat} {middle place : List String}
    (arrives : tree.follow links middle [""] = .ok place) : middle = place := by
  rw [follow, advance] at arrives
  cases found : tree.root.descend? middle with
  | none => simp [found] at arrives
  | some entry =>
      cases entry with
      | file => simp [found] at arrives
      | link => simp [found] at arrives
      | directory => simpa [found, staysAtName, advance] using arrives

theorem resolve_eq_ok_iff {path : String} {place : List String} :
    tree.resolve path = .ok place ↔ pathFault? path = none ∧
      tree.follow maxLinks (startFrom tree.home path) (pathNames path) = .ok place := by
  rw [resolve]
  cases pathFault? path <;> simp

/-- Names after those of a root are followed from the place that the root leads to. -/
theorem exists_follow_below {root : String} {place : List String} (path : RelativePath)
    (leads : tree.resolve root = .ok place) :
    ∃ links, tree.follow maxLinks (startFrom tree.home (path.below root))
      (pathNames (path.below root)) = tree.follow links place (pathNames path.text) := by
  obtain ⟨sound, follows⟩ := resolve_eq_ok_iff.mp leads
  have nonempty : root ≠ "" := by
    rintro rfl
    cases sound
  obtain ⟨base, below, form⟩ := path.below_eq nonempty
  have starts : startFrom tree.home (path.below root) = startFrom tree.home root := by
    rw [startFrom, startFrom, path.head?_below nonempty]
  have names : pathNames (path.below root) =
      pathNames (String.ofList base) ++ pathNames path.text := by
    rw [below, pathNames_append, String.ofList_toList]
  rw [starts, names]
  obtain ⟨middle, links, arrives, onward⟩ | ⟨fault, arrives, onward⟩ :=
    tree.follow_append maxLinks (startFrom tree.home root) (pathNames (String.ofList base))
  · have same : middle = place := by
      obtain rfl | rfl := form
      · simpa [follows] using arrives.symm
      · rw [pathNames_append] at follows
        exact eq_of_follow_empty ((onward _).symm.trans follows)
    exact ⟨links, same ▸ onward _⟩
  · obtain rfl | rfl := form
    · simp [arrives] at follows
    · rw [pathNames_append, onward] at follows
      cases follows

/-- Names lead from a place to a file, through directories only. -/
structure FileBelow (tree : FileTree) (place : List String) (path : RelativePath)
    (content : List UInt8) : Prop where
  file : tree.root.descend? (place ++ path) = some (.file content)
  nonempty : path ≠ []
  plain : ∀ name ∈ path, IsPlainName name

/-- A file below a root is read, unless its path cannot be one. -/
theorem FileBelow.read_eq {root : String} {place : List String} {path : RelativePath}
    {content : List UInt8} (below : tree.FileBelow place path content)
    (leads : tree.resolve root = .ok place) :
    tree.files.read (path.below root) =
      match pathFault? (path.below root) with
      | some fault => .error fault
      | none => .ok content := by
  obtain ⟨links, follows⟩ := exists_follow_below path leads
  have arrives : tree.follow links place path = .ok (place ++ path) := by
    rw [follow, advance_of_descend? below.plain below.file]
  rw [path.pathNames_text below.nonempty below.plain, arrives] at follows
  change tree.read (path.below root) = _
  rw [read, at?, resolve]
  cases pathFault? (path.below root) with
  | some fault => rfl
  | none => simp [follows, below.file, bind, Except.bind]

end FileTree

/-! ## Other bytes -/

namespace Entry

inductive Kind
  | file
  | link (target : String)
  | directory

def kind : Entry → Kind
  | file _ => .file
  | link target => .link target
  | directory _ => .directory

theorem eq_of_kind_eq {found found' : Option Entry} (kinds : found'.map kind = found.map kind) :
    (found = none ∧ found' = none) ∨
    (∃ content content', found = some (file content) ∧ found' = some (file content')) ∨
    (∃ target, found = some (link target) ∧ found' = some (link target)) ∨
    ∃ entries entries', found = some (directory entries) ∧ found' = some (directory entries') := by
  rcases found with _ | _ | _ | _ <;> rcases found' with _ | _ | _ | _ <;> simp_all [kind]

theorem lookup_setName (name other : String) (entry : Entry) (entries : List (String × Entry)) :
    (setName name entry entries).lookup other =
      if other = name then some entry else entries.lookup other := by
  induction entries with
  | nil => by_cases same : other = name <;> simp [setName, same]
  | cons first entries ih =>
      obtain ⟨known, old⟩ := first
      by_cases here : known = name
      · subst here
        by_cases same : other = known
        · simp [setName, same]
        · simp [setName, same, List.lookup_cons, beq_false_of_ne same]
      · rw [setName, if_neg here, List.lookup_cons, List.lookup_cons, ih]
        by_cases same : other = known
        · simp [same, here]
        · simp [beq_false_of_ne same]

theorem put_cons {entries : List (String × Entry)} {name : String} {child : Entry}
    (known : entries.lookup name = some child) (entry : Entry) (names : List String) :
    put entry (name :: names) (directory entries) =
      directory (setName name (put entry names child) entries) := by
  simp [put, child?, children, known]

/-- A place on the way to another one holds what it held, with the entry put into it. -/
theorem descend?_put_append {top below : Entry} {place : List String} (entry : Entry)
    (path : List String) (leads : top.descend? place = some below) :
    (put entry (place ++ path) top).descend? place = some (put entry path below) := by
  induction place generalizing top with
  | nil =>
      cases leads
      rfl
  | cons name place ih =>
      obtain ⟨entries, child, rfl, known, onward⟩ := exists_of_descend?_cons leads
      rw [List.cons_append, put_cons known, descend?, child?, lookup_setName, if_pos rfl]
      exact ih onward

/-- What two places hold that are the same, but for what directories hold. -/
inductive Alike : Option Entry → Option Entry → Prop
  | same (found : Option Entry) : Alike found found
  | directories (entries others : List (String × Entry)) :
      Alike (some (directory entries)) (some (directory others))

theorem Alike.kind_eq {found found' : Option Entry} (alike : Alike found found') :
    found'.map kind = found.map kind := by
  cases alike <;> rfl

theorem Alike.file_eq {found : Option Entry} {content : List UInt8}
    (alike : Alike (some (file content)) found) : found = some (file content) := by
  cases alike
  rfl

/-- Other bytes for a file leave all other places as they are. -/
theorem alike_put {top : Entry} {place other : List String} {old : List UInt8} (new : List UInt8)
    (leads : top.descend? place = some (file old)) (differ : other ≠ place) :
    Alike (top.descend? other) ((put (file new) place top).descend? other) := by
  induction place generalizing top other with
  | nil =>
      cases leads
      cases other with
      | nil => exact (differ rfl).elim
      | cons name other => exact .same none
  | cons name place ih =>
      obtain ⟨entries, child, rfl, known, onward⟩ := exists_of_descend?_cons leads
      rw [put_cons known]
      cases other with
      | nil => exact .directories _ _
      | cons first other =>
          simp only [descend?, child?, lookup_setName]
          by_cases same : first = name
          · subst same
            simpa [known] using ih onward (by simpa using differ)
          · simpa [same] using Alike.same _

theorem descend?_put {top : Entry} {place : List String} {old : Entry} (entry : Entry)
    (leads : top.descend? place = some old) :
    (put entry place top).descend? place = some entry := by
  simpa [put] using descend?_put_append entry [] leads

theorem filesIn_setName {entries : List (String × Entry)} {name : String} {child other : Entry}
    (known : entries.lookup name = some child) (files : other.files = child.files)
    (kinds : other.isDirectory = child.isDirectory) :
    filesIn (setName name other entries) = filesIn entries := by
  induction entries with
  | nil => cases known
  | cons first entries ih =>
      obtain ⟨known', old⟩ := first
      by_cases same : known' = name
      · subst same
        rw [List.lookup_cons_self] at known
        cases known
        rw [setName, if_pos rfl, filesIn, filesIn, files, kinds]
      · rw [List.lookup_cons, beq_false_of_ne (Ne.symm same)] at known
        rw [setName, if_neg same, filesIn, filesIn, ih known]

theorem files_put {top : Entry} {place : List String} {old : List UInt8} (new : List UInt8)
    (leads : top.descend? place = some (file old)) :
    (put (file new) place top).files = top.files := by
  induction place generalizing top with
  | nil =>
      cases leads
      rfl
  | cons name place ih =>
      obtain ⟨entries, child, rfl, known, onward⟩ := exists_of_descend?_cons leads
      have kinds : (put (file new) place child).isDirectory = child.isDirectory := by
        rw [isDirectory_eq_of_descend? (descend?_put (file new) onward),
          isDirectory_eq_of_descend? onward]
      rw [put_cons known, files, files]
      exact filesIn_setName known (ih onward) kinds

end Entry

namespace FileTree

/-- Places in two trees hold entries of the same kinds. -/
def SameKinds (tree other : FileTree) : Prop :=
  other.home = tree.home ∧
    ∀ place, (other.root.descend? place).map Entry.kind = (tree.root.descend? place).map Entry.kind

namespace SameKinds

variable {tree other : FileTree}

theorem advance_eq (same : tree.SameKinds other) (place names : List String) :
    other.advance place names = tree.advance place names := by
  induction names generalizing place with
  | nil => rfl
  | cons name names ih =>
      rw [advance, advance]
      obtain ⟨found, found'⟩ | ⟨_, _, found, found'⟩ | ⟨_, found, found'⟩ |
        ⟨entries, entries', found, found'⟩ := Entry.eq_of_kind_eq (same.2 place)
      · rw [found, found']
      · rw [found, found']
      · rw [found, found']
      · have children : (entries'.lookup name).map Entry.kind =
            (entries.lookup name).map Entry.kind := by
          simpa [found, found', Entry.descend?_append, Entry.descend?, Entry.child?] using
            same.2 (place ++ [name])
        rw [found, found']
        simp only [ih]
        obtain ⟨known, known'⟩ | ⟨_, _, known, known'⟩ | ⟨_, known, known'⟩ |
          ⟨_, _, known, known'⟩ := Entry.eq_of_kind_eq children <;> rw [known, known']

theorem follow_eq (same : tree.SameKinds other) (links : Nat)
    (place names : List String) :
    other.follow links place names = tree.follow links place names := by
  fun_induction tree.follow links place names with
  | case1 links place names middle way => rw [follow, same.advance_eq, way]
  | case2 links place names fault way => rw [follow, same.advance_eq, way]
  | case3 place names middle target left way => rw [follow, same.advance_eq, way]
  | case4 place names middle target left way links ih =>
      rw [follow, same.advance_eq, way]
      exact ih

theorem resolve_eq (same : tree.SameKinds other) (path : String) :
    other.resolve path = tree.resolve path := by
  rw [resolve, resolve, same.1]
  cases pathFault? path with
  | some fault => rfl
  | none => exact same.follow_eq maxLinks _ _

end SameKinds

theorem sameKinds_put {tree : FileTree} {place : List String} {old : List UInt8}
    (new : List UInt8) (leads : tree.root.descend? place = some (.file old)) :
    tree.SameKinds (tree.put (.file new) place) := by
  refine ⟨rfl, fun other => ?_⟩
  by_cases same : other = place
  · subst same
    rw [leads]
    simp [put, Entry.descend?_put _ leads, Entry.kind]
  · have alike := Entry.alike_put new leads same
    exact alike.kind_eq

/-- Where paths lead does not depend on what files hold. -/
theorem resolve_put {tree : FileTree} {place : List String} {old : List UInt8} (new : List UInt8)
    (leads : tree.root.descend? place = some (.file old)) (path : String) :
    (tree.put (.file new) place).resolve path = tree.resolve path :=
  (sameKinds_put new leads).resolve_eq path

end FileTree

end StyleDoc
