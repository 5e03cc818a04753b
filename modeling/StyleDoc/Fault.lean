import StyleDoc.Files.Glob
import StyleDoc.Position
import StyleDoc.Syntax.Tree

/-!
# What can be wrong

A stylesheet, a documentation comment or a file may be refused, each for causes of its own and with
a sentence that reports the cause.  A `DocFault` is any reason for which documentation is not
given.
-/

namespace StyleDoc

/-! ## Stylesheets -/

inductive Bracket
  | round
  | square
deriving DecidableEq, Repr

namespace Bracket

def closer : Bracket → Char
  | round => ')'
  | square => ']'

end Bracket

/-- What a string literal met before its closing quote. -/
inductive StringStop
  | lineBreak
  | endOfText
deriving DecidableEq, Repr

inductive SyntaxCause
  | unclosedBlock
  | unexpectedClose
  | unterminatedComment
  | unterminatedString (stop : StringStop)
  | unclosedGroup
  | unclosedInterpolation
  | unbalanced (bracket : Bracket)
  /-- A block with nothing in front of it. -/
  | missingSelector
  | missingName (kind : DefinitionKind)
  | tooDeep (limit : Nat)
deriving DecidableEq, Repr

namespace SyntaxCause

/-- The sentence that reports a cause, without its place. -/
def message : SyntaxCause → String
  | unclosedBlock => "unclosed block"
  | unexpectedClose => "unexpected '\x7d'"
  | unterminatedComment => "unterminated comment"
  | unterminatedString _ => "unterminated string"
  | unclosedGroup => "unclosed parenthesis"
  | unclosedInterpolation => "unclosed interpolation"
  | unbalanced bracket => "unbalanced '" ++ String.singleton bracket.closer ++ "'"
  | missingSelector => "missing selector before '\x7b'"
  | missingName kind => "@" ++ kind.keyword ++ " is missing a name"
  | tooDeep limit => "blocks nested deeper than " ++ toString limit ++ " levels"

end SyntaxCause

/-- A cause, and the byte offset of what it is about. -/
structure Fault where
  cause : SyntaxCause
  offset : Nat
deriving DecidableEq, Repr

/-- Why and where a stylesheet is refused, as told to people. -/
abbrev Refusal := Located SyntaxCause

def Refusal.describe (error : Refusal) : String :=
  Located.describe SyntaxCause.message error

/-- The report on a refused stylesheet when the refusal is not recovered from. -/
def Refusal.report (error : Refusal) : String :=
  "SCSS syntax analysis failed: " ++ error.describe

/-! ## Documentation comments -/

inductive CommentFault
  | conflictingKinds (first second : String)
  | unterminatedTypes (tag : String)
  | missingParameterName
deriving DecidableEq, Repr

namespace CommentFault

def message : CommentFault → String
  | conflictingKinds first second =>
      "conflicting documentation kinds @" ++ first ++ " and @" ++ second
  | unterminatedTypes tag => "unterminated type expression in @" ++ tag
  | missingParameterName => "@param tag is missing a parameter name"

def report (sentence : String) : String := "Invalid documentation comment: " ++ sentence

def describe (fault : CommentFault) : String := report fault.message

end CommentFault

/-! ## Files -/

inductive FileFault
  | notFound
  | permissionDenied
  /-- The path goes through something that is not a directory. -/
  | notDirectory
  | isDirectory
  | nameTooLong
  | tooManyLinks
  | nulInName
  /-- The file is not text in UTF-8. -/
  | notText
  /-- Anything else, in the words of the system. -/
  | other (message : String)
deriving DecidableEq, Repr

namespace FileFault

def message : FileFault → String
  | notFound => "No such file or directory (os error 2)"
  | permissionDenied => "Permission denied (os error 13)"
  | notDirectory => "Not a directory (os error 20)"
  | isDirectory => "Is a directory (os error 21)"
  | nameTooLong => "File name too long (os error 36)"
  | tooManyLinks => "Too many levels of symbolic links (os error 40)"
  | nulInName => "file name contained an unexpected NUL byte"
  | notText => "stream did not contain valid UTF-8"
  | other message => message

end FileFault

/-! ## Documentation -/

inductive DocFault
  | unanalyzed (refusal : Refusal)
  | refused (fault : CommentFault)
  | unreadable (path : String) (fault : FileFault)
  | invalidGlob (pattern : String) (fault : Glob.Fault)
  | missingRoot (root : String)
deriving DecidableEq, Repr

namespace DocFault

def describe : DocFault → String
  | unanalyzed refusal => refusal.report
  | refused fault => fault.describe
  | unreadable path fault => "Failed to read SCSS file " ++ path ++ ": " ++ fault.message
  | invalidGlob pattern fault =>
      "Invalid glob pattern '" ++ pattern ++ "': " ++ fault.message
  | missingRoot root => "SCSS root directory not found: " ++ root

/-- The report on a fault, and then the one on what caused it, if that is a fault of its own. -/
def causes : DocFault → List String
  | unanalyzed refusal => [refusal.report, refusal.describe]
  | unreadable path fault => [(unreadable path fault).describe, fault.message]
  | fault => [fault.describe]

end DocFault

end StyleDoc
