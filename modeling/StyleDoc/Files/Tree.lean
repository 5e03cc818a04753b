import StyleDoc.Fault

/-!
# Files and directories

What a directory holds: regular files with their bytes, symbolic links with their targets, and
further directories.  A `FileSystem` answers what a path leads to.

A tree of files has a root and a working directory, from which relative paths start.  A path is
followed name by name: an empty name and `.` stay, `..` goes up, and a link is replaced by its
target.  `FileTree.files` is the file system that the paths into a tree make up.
-/

namespace StyleDoc

inductive Entry
  | file (content : List UInt8)
  /-- A symbolic link; the target is relative to the directory that holds the link. -/
  | link (target : String)
  | directory (entries : List (String × Entry))
deriving Repr, Inhabited

namespace Entry

def child? (name : String) : Entry → Option Entry
  | directory entries => entries.lookup name
  | _ => none

/-- What a list of names leads to, no link being followed. -/
def descend? (entry : Entry) : List String → Option Entry
  | [] => some entry
  | name :: names => (entry.child? name).bind fun child => child.descend? names

def isDirectory : Entry → Bool
  | directory _ => true
  | _ => false

def setName (name : String) (entry : Entry) : List (String × Entry) → List (String × Entry)
  | [] => [(name, entry)]
  | (other, old) :: entries =>
      if other = name then (name, entry) :: entries
      else (other, old) :: setName name entry entries

/-- What a directory holds; nothing for anything else. -/
def children : Entry → List (String × Entry)
  | directory entries => entries
  | _ => []

def put (entry : Entry) : List String → Entry → Entry
  | [], _ => entry
  | name :: names, top =>
      let child := (top.child? name).getD (directory [])
      directory (setName name (put entry names child) top.children)

end Entry

structure FileSystem where
  /-- What the directory at a path holds, if there is one. -/
  entries? : String → Option (List (String × Entry))
  read : String → Except FileFault (List UInt8)

/-! ## Trees of files -/

structure FileTree where
  root : Entry
  /-- The names that lead from the root to the working directory. -/
  home : List String
deriving Repr

def pathNames (path : String) : List String := (path.toList.splitOn '/').map String.ofList

def staysAtName (name : String) : Bool := name == "" || name == "."

/-- The size in bytes from which on paths are too long. -/
def pathSizeLimit : Nat := 4096

def maxNameSize : Nat := 255

def maxLinks : Nat := 40

/-- Why a path leads nowhere in any tree. -/
def pathFault? (path : String) : Option FileFault :=
  if path.toList.contains '\x00' then some .nulInName
  else if path.isEmpty then some .notFound
  else if pathSizeLimit ≤ path.utf8ByteSize then some .nameTooLong
  else none

/-- Where a path leads up to its first link. -/
inductive Way
  | arrived (place : List String)
  /-- The path meets a link in a directory; names are left to go on with. -/
  | linked (place : List String) (target : String) (names : List String)
  | failed (fault : FileFault)
deriving DecidableEq, Repr

namespace FileTree

/-- The place at which a path starts that is met at a given place. -/
def startFrom (place : List String) (path : String) : List String :=
  if path.toList.head? = some '/' then [] else place

/-- Follows names from a place up to the first link.  Places are names from the root, where all
links have been followed. -/
def advance (tree : FileTree) (place : List String) : List String → Way
  | [] => .arrived place
  | name :: names =>
      match tree.root.descend? place with
      | some (.directory entries) =>
          if staysAtName name then tree.advance place names
          else if name = ".." then tree.advance place.dropLast names
          else if maxNameSize < name.utf8ByteSize then .failed .nameTooLong
          else
            match entries.lookup name with
            | some (.link target) => .linked place target names
            | some _ => tree.advance (place ++ [name]) names
            | none => .failed .notFound
      | some _ => .failed .notDirectory
      | none => .failed .notFound

def follow (tree : FileTree) : Nat → List String → List String → Except FileFault (List String)
  | links, place, names =>
      match tree.advance place names with
      | .arrived place => .ok place
      | .failed fault => .error fault
      | .linked place target names =>
          match links with
          | 0 => .error .tooManyLinks
          | links + 1 =>
              tree.follow links (startFrom place target) (pathNames target ++ names)

def resolve (tree : FileTree) (path : String) : Except FileFault (List String) :=
  match pathFault? path with
  | some fault => .error fault
  | none => tree.follow maxLinks (startFrom tree.home path) (pathNames path)

def at? (tree : FileTree) (path : String) : Except FileFault Entry := do
  let place ← tree.resolve path
  match tree.root.descend? place with
  | some entry => .ok entry
  | none => .error .notFound

def read (tree : FileTree) (path : String) : Except FileFault (List UInt8) := do
  match ← tree.at? path with
  | .file content => .ok content
  | _ => .error .isDirectory

def entries? (tree : FileTree) (path : String) : Option (List (String × Entry)) :=
  match tree.at? path with
  | .ok (.directory entries) => some entries
  | _ => none

def files (tree : FileTree) : FileSystem := ⟨tree.entries?, tree.read⟩

def put (entry : Entry) (place : List String) (tree : FileTree) : FileTree :=
  { tree with root := Entry.put entry place tree.root }

end FileTree

end StyleDoc
