import StyleDoc.Command.Run

/-!
# The program

Reads what a request needs from the disk, performs the request, and prints its outcome.
-/

namespace StyleDoc.Program

/-- The number of a system error, which may come negated. -/
def systemNumber (code : UInt32) : Nat :=
  if code.toNat < 0x80000000 then code.toNat else 0x100000000 - code.toNat

def systemError? : IO.Error → Option (UInt32 × String)
  | .alreadyExists _ code details => some (code, details)
  | .otherError code details => some (code, details)
  | .resourceBusy code details => some (code, details)
  | .resourceVanished code details => some (code, details)
  | .unsupportedOperation code details => some (code, details)
  | .hardwareFault code details => some (code, details)
  | .unsatisfiedConstraints code details => some (code, details)
  | .illegalOperation code details => some (code, details)
  | .protocolError code details => some (code, details)
  | .timeExpired code details => some (code, details)
  | .interrupted _ code details => some (code, details)
  | .noFileOrDirectory _ code details => some (code, details)
  | .invalidArgument _ code details => some (code, details)
  | .permissionDenied _ code details => some (code, details)
  | .resourceExhausted _ code details => some (code, details)
  | .inappropriateType _ code details => some (code, details)
  | .noSuchThing _ code details => some (code, details)
  | .unexpectedEof => none
  | .userError _ => none

/-- The fault for the number of a system error, or else in the given words. -/
def faultOfNumber (number : Nat) (details : String) : FileFault :=
  if number = 2 then .notFound
  else if number = 13 then .permissionDenied
  else if number = 20 then .notDirectory
  else if number = 21 then .isDirectory
  else if number = 36 then .nameTooLong
  else if number = 40 then .tooManyLinks
  else .other (details ++ " (os error " ++ toString number ++ ")")

def faultOf (error : IO.Error) : FileFault :=
  match systemError? error with
  | some (code, details) => faultOfNumber (systemNumber code) details
  | none => .other (toString error)

def readBytes (path : String) : IO (Except FileFault (List UInt8)) := do
  try
    return .ok (← IO.FS.readBinFile path).toList
  catch error => return .error (faultOf error)

/-- What stands in a directory on the disk; nothing if it cannot be listed. -/
def directoryEntries (path : String) : IO (List IO.FS.DirEntry) := do
  try
    return (← (← IO.FS.realPath path).readDir).toList
  catch _ => return []

/-- Of which kind an entry of a directory is, links not being followed, if that can be told. -/
def entryType? (entry : IO.FS.DirEntry) : IO (Option IO.FS.FileType) := do
  try
    return some (← entry.path.symlinkMetadata).type
  catch _ => return none

/-- What a directory on the disk holds, down to the given depth.  Files come without their bytes,
directories that are left out or cannot be listed come empty, and what is neither a file nor a
directory counts as a link. -/
def listing : Nat → String → IO (List (String × Entry))
  | 0, _ => return []
  | depth + 1, path => do
      (← directoryEntries path).filterMapM fun entry => do
        match ← entryType? entry with
        | none => return none
        | some .file => return some (entry.fileName, .file [])
        | some .dir =>
            let entries ← if isIgnoredDirectory entry.fileName then pure []
              else listing depth entry.path.toString
            return some (entry.fileName, .directory entries)
        | some _ => return some (entry.fileName, .link "")

def maxDepth : Nat := 4096

def entriesAt (path : String) : IO (Option (List (String × Entry))) := do
  let isDirectory ← try (← IO.FS.realPath path).isDir catch _ => pure false
  if isDirectory then return some (← listing maxDepth path) else return none

/-- A file system that knows the listing of one directory and the content of some files. -/
def known (entries : Option (List (String × Entry)))
    (contents : List (String × Except FileFault (List UInt8))) : FileSystem :=
  ⟨fun _ => entries, fun path => (contents.lookup path).getD (.error .notFound)⟩

def load : Command.Request → IO FileSystem
  | .version => return known none []
  | .parse file _ _ => return known none [(file, ← readBytes file)]
  | .scan root globs _ => do
      let entries ← entriesAt root
      let patterns := if globs.isEmpty then usualGlobs else globs
      match (known entries []).find root patterns with
      | .error _ => return known entries []
      | .ok paths =>
          let contents ← paths.mapM fun path => do
            return (path.below root, ← readBytes (path.below root))
          return known entries contents

def finish (outcome : Command.Outcome) : IO UInt32 := do
  match outcome with
  | .finished _ output errors =>
      IO.print output
      IO.eprint errors
  | .usage => IO.eprintln "usage: scss-doc parse FILE | scan DIR | --version"
  return outcome.exitCode.toUInt32

end StyleDoc.Program

def main (arguments : List String) : IO UInt32 := do
  match StyleDoc.Command.request? arguments with
  | some request =>
      let files ← StyleDoc.Program.load request
      StyleDoc.Program.finish (StyleDoc.Command.perform files request)
  | none => StyleDoc.Program.finish .usage
