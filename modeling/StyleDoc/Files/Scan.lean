import StyleDoc.Doc.Extraction
import StyleDoc.Files.Find
import StyleDoc.Text.Utf8

/-!
# Documentation of files

The documentation of one file, and that of all stylesheets below a root directory.  In a scan, a
file that cannot be read or has a comment that makes no sense is left out with a notice.
-/

namespace StyleDoc

structure FileDoc where
  path : String
  labels : Labels
  documentation : List Entity
deriving DecidableEq, Repr

namespace FileDoc

def toJson (doc : FileDoc) : JsonValue :=
  .object
    [("path", .string doc.path),
      ("contentType", .string doc.labels.contentType),
      ("contentKind", .string doc.labels.contentKind),
      ("documentation", .array (doc.documentation.map Entity.toJson))]

end FileDoc

structure FileRun where
  notices : List Notice
  result : Except DocFault FileDoc

structure ScanReport where
  /-- The documentation of the files, sorted by path. -/
  documents : List FileDoc
  notices : List Notice

namespace ScanReport

def warnings (report : ScanReport) : List Notice :=
  report.notices.filter fun notice => notice.severity = .warning

end ScanReport

/-- Whether a fault concerns one file only, so that a scan leaves the file out and goes on. -/
def DocFault.isLocal : DocFault → Bool
  | refused _ => true
  | unreadable _ _ => true
  | unanalyzed _ => false
  | invalidGlob _ _ => false
  | missingRoot _ => false

namespace FileSystem

/-- Documents the file at a path.  Bytes that are not text are replaced by U+FFFD. -/
def documentFile (files : FileSystem) (labels : Labels) (path : String) : FileRun :=
  match files.read path with
  | .error fault => ⟨[], .error (.unreadable path fault)⟩
  | .ok bytes =>
      let extraction := document labels (String.ofList (Utf8.decodeLossy bytes))
      ⟨extraction.notices, extraction.result.map fun entities => ⟨path, labels, entities⟩⟩

/-- Documents one file of a scan; nothing is told of a file that is left out. -/
def scanFile (files : FileSystem) (labels : Labels) (root : String) (path : RelativePath) :
    Except DocFault (Option FileDoc × List Notice) :=
  let run := files.documentFile labels (path.below root)
  match run.result with
  | .ok doc => .ok (some { doc with path := path.text }, run.notices)
  | .error fault =>
      if fault.isLocal then .ok (none, run.notices ++ [.skipped path.text fault.describe])
      else .error fault

/-- Documents the files below a root that one of the patterns covers, up to the first fault that is
not local. -/
def scan (files : FileSystem) (labels : Labels) (root : String) (patterns : List String) :
    Except DocFault ScanReport := do
  let paths ← files.find root patterns
  let runs ← paths.mapM (files.scanFile labels root)
  return ⟨runs.filterMap Prod.fst, runs.flatMap Prod.snd⟩

end FileSystem

end StyleDoc
