import StyleDoc.Files.Tree

/-!
# Finding stylesheets

The files below a root directory that one of several patterns covers.  Hidden directories and
`node_modules` are left out with all they hold, and so are links.
-/

namespace StyleDoc

/-- The names that lead from a root directory to a file below it. -/
abbrev RelativePath := List String

namespace RelativePath

def text (path : RelativePath) : String :=
  String.ofList (['/'].intercalate (path.map String.toList))

def isAtMost : RelativePath → RelativePath → Bool
  | [], _ => true
  | _ :: _, [] => false
  | name :: path, other :: others =>
      if name = other then isAtMost path others else Text.isAtMost name.toList other.toList

/-- The path that leads to a file from where the path of the root starts. -/
def below (root : String) (path : RelativePath) : String :=
  match root.toList.getLast? with
  | none => path.text
  | some '/' => root ++ path.text
  | some _ => root ++ "/" ++ path.text

end RelativePath

/-- The patterns that are used when none are given. -/
def usualGlobs : List String := ["/*.scss", "/sass/*.scss"]

def isIgnoredDirectory (name : String) : Bool :=
  name.toList.head? == some '.' || name == "node_modules"

mutual

/-- The paths of the regular files at and below an entry. -/
def Entry.files : Entry → List RelativePath
  | .file _ => [[]]
  | .link _ => []
  | .directory entries => filesIn entries

def filesIn : List (String × Entry) → List RelativePath
  | [] => []
  | (name, entry) :: entries =>
      (if entry.isDirectory && isIgnoredDirectory name then []
        else entry.files.map fun path => name :: path) ++ filesIn entries

end

/-- Reads patterns, up to the first that makes no sense. -/
def readGlobs (patterns : List String) : Except DocFault (List Glob) :=
  patterns.mapM fun pattern => (Glob.ofText pattern).mapError (.invalidGlob pattern)

def coveredFiles (globs : List Glob) (entries : List (String × Entry)) : List RelativePath :=
  ((filesIn entries).filter fun path => globs.any fun glob => glob.covers path.text).mergeSort
    RelativePath.isAtMost

/-- The sorted paths of the files below a root that one of the patterns covers. -/
def FileSystem.find (files : FileSystem) (root : String) (patterns : List String) :
    Except DocFault (List RelativePath) :=
  match files.entries? root with
  | none => .error (.missingRoot root)
  | some entries => (readGlobs patterns).map fun globs => coveredFiles globs entries

end StyleDoc
