import StyleDoc.Command.Arguments
import StyleDoc.Files.Scan

/-!
# Commands

What the program does with a request: what it prints and the code it exits with.  Documentation is
printed as JSON; a failure is told with the context in which it happened and the chain of its
causes.
-/

namespace StyleDoc

namespace Command

inductive Outcome
  /-- The command line was not understood. -/
  | usage
  | finished (exitCode : Nat) (output errors : String)
deriving DecidableEq, Repr

structure Failure where
  context : String
  /-- What went wrong; each cause is caused by the next. -/
  causes : List String
deriving DecidableEq, Repr

/-- A cause whose lines after the first are indented by the given number of spaces. -/
def indentLines (width : Nat) (cause : String) : String :=
  String.ofList (List.intercalate ('\n' :: List.replicate width ' ') (cause.toList.splitOn '\n'))

def numberedCause (number : Nat) (cause : String) : String :=
  let digits := toString number
  "\n" ++ String.ofList (List.replicate (5 - digits.length) ' ') ++ digits ++ ": " ++
    indentLines 7 cause

def causeLines : List String → String
  | [] => ""
  | [cause] => "\n\nCaused by:\n    " ++ indentLines 4 cause
  | causes => "\n\nCaused by:" ++
      String.join (causes.mapIdx numberedCause)

namespace Failure

def report (failure : Failure) : String :=
  "Error: " ++ failure.context ++ causeLines failure.causes ++ "\n"

end Failure

namespace Outcome

def success (text : String) : Outcome := finished 0 (text ++ "\n") ""

def failure (failure : Failure) : Outcome := finished 1 "" failure.report

def ofResult : Except Failure String → Outcome
  | .ok text => success text
  | .error error => failure error

def exitCode : Outcome → Nat
  | usage => 2
  | finished code _ _ => code

end Outcome

end Command

/-! ## Performing a request -/

namespace FileSystem

/-- The text of the file at a path, which has to be well-formed. -/
def readText (files : FileSystem) (path : String) : Except FileFault String := do
  let bytes ← files.read path
  match Utf8.decode? bytes with
  | some text => .ok (String.ofList text)
  | none => .error .notText

end FileSystem

namespace Command

def versionText : String := "scss-doc 0.1.0"

/-- A result whose error is told as a failure with the given causes. -/
def within {ε α : Type} (context : String) (causes : ε → List String) (result : Except ε α) :
    Except Failure α :=
  result.mapError fun error => ⟨context, causes error⟩

/-- The documentation of one file.  With `strict`, syntax errors are not recovered from. -/
def parse (files : FileSystem) (file : String) (labels : Labels) (strict : Bool) :
    Except Failure (List Entity) := do
  let text ← within ("Failed to read " ++ file) (fun fault => [fault.message])
    (files.readText file)
  if strict then
    let _ ← within ("Failed to analyze " ++ file) DocFault.causes (analyze text)
  within ("Failed to extract documentation from " ++ file) DocFault.causes (entities labels text)

/-- The documentation of the files below a directory; without patterns the usual ones count. -/
def scan (files : FileSystem) (root : String) (globs : List String) (labels : Labels) :
    Except Failure (List FileDoc) :=
  let patterns := if globs.isEmpty then usualGlobs else globs
  (within ("Failed to scan " ++ root) DocFault.causes
    (files.scan labels root patterns)).map ScanReport.documents

def perform (files : FileSystem) : Request → Outcome
  | .version => .success versionText
  | .parse file labels strict =>
      .ofResult ((parse files file labels strict).map fun entities =>
        (JsonValue.array (entities.map Entity.toJson)).pretty)
  | .scan root globs labels =>
      .ofResult ((scan files root globs labels).map fun documents =>
        (JsonValue.array (documents.map FileDoc.toJson)).pretty)

def run (files : FileSystem) (words : List String) : Outcome :=
  match request? words with
  | some request => perform files request
  | none => .usage

end Command

end StyleDoc
