import StyleDoc.Doc.Entity
import StyleDoc.Text.Cut

/-!
# Command line arguments

What the words of a command line ask for.  Options are written `--name value` or `--name=value`,
and short ones `-n value`, `-nvalue` or `-n=value`.  A lone `--` makes all words after it
positional.  A word that starts with a hyphen, a lone hyphen apart, is never the separate value of
an option.
-/

namespace StyleDoc.Command

inductive Request
  | version
  /-- The documentation of one file; a strict request refuses syntax errors. -/
  | parse (file : String) (labels : Labels) (strict : Bool)
  | scan (root : String) (globs : List String) (labels : Labels)
deriving DecidableEq, Repr

structure OptionSpec where
  /-- The name after two hyphens. -/
  long : String
  short : Option Char := none
  takesValue : Bool := true
deriving DecidableEq, Repr

inductive Given
  | positional (text : String)
  /-- An option, by its long name; an option that takes no value has the empty one. -/
  | option (name value : String)
deriving DecidableEq, Repr

/-- Whether a word can be the separate value of an option. -/
def isPlainWord (word : String) : Bool :=
  match word.toList with
  | '-' :: _ :: _ => false
  | _ => true

/-- Reads an option of which `attached` is the value that is written in the same word; `words` are
the words that follow. -/
def readOption (spec : OptionSpec) (attached : Option String) (words : List String) :
    Option (Given × List String) :=
  match spec.takesValue, attached, words with
  | true, some value, _ => some (.option spec.long value, words)
  | true, none, value :: words =>
      if isPlainWord value then some (.option spec.long value, words) else none
  | true, none, [] => none
  | false, none, _ => some (.option spec.long "", words)
  | false, some _, _ => none

def splitLong (text : List Char) : String × Option String :=
  match Text.cut? (fun c => c == '=') text with
  | some (name, value) => (String.ofList name, some (String.ofList value))
  | none => (String.ofList text, none)

def attachedShort : List Char → Option String
  | [] => none
  | '=' :: value => some (String.ofList value)
  | value => some (String.ofList value)

def readWord (specs : List OptionSpec) (word : String) (words : List String) :
    Option (Given × List String) :=
  match word.toList with
  | '-' :: '-' :: text =>
      let (name, attached) := splitLong text
      match specs.find? fun spec => spec.long = name with
      | some spec => readOption spec attached words
      | none => none
  | '-' :: c :: text =>
      match specs.find? fun spec => spec.short = some c with
      | some spec => readOption spec (attachedShort text) words
      | none => none
  | _ => some (.positional word, words)

theorem readOption_length {spec : OptionSpec} {attached : Option String}
    {words rest : List String} {argument : Given}
    (h : readOption spec attached words = some (argument, rest)) :
    rest.length ≤ words.length := by
  unfold readOption at h
  split at h
  · cases h
    exact Nat.le_refl _
  · split at h
    · cases h
      exact Nat.le_succ _
    · cases h
  · cases h
  · cases h
    exact Nat.le_refl _
  · cases h

theorem readWord_length {specs : List OptionSpec} {word : String} {words rest : List String}
    {argument : Given} (h : readWord specs word words = some (argument, rest)) :
    rest.length ≤ words.length := by
  unfold readWord at h
  split at h
  · simp only at h
    split at h
    · exact readOption_length h
    · cases h
  · split at h
    · exact readOption_length h
    · cases h
  · cases h
    exact Nat.le_refl _

/-- Reads the words after a command; `none` if one of them cannot be understood. -/
def readWords (specs : List OptionSpec) : List String → Option (List Given)
  | [] => some []
  | word :: words =>
      if word = "--" then some (words.map .positional)
      else
        match h : readWord specs word words with
        | none => none
        | some (argument, rest) =>
            have : rest.length < words.length + 1 := Nat.lt_succ_of_le (readWord_length h)
            (readWords specs rest).map (argument :: ·)
termination_by words => words.length

def valuesOf (name : String) (arguments : List Given) : List String :=
  arguments.filterMap fun argument =>
    match argument with
    | .option other value => if other = name then some value else none
    | .positional _ => none

/-- The value of an option that may be given once; `none` if it is repeated. -/
def single? (name : String) (arguments : List Given) : Option (Option String) :=
  match valuesOf name arguments with
  | [] => some none
  | [value] => some (some value)
  | _ => none

/-- The one positional argument, which must not be empty. -/
def positional? (arguments : List Given) : Option String :=
  let texts := arguments.filterMap fun argument =>
    match argument with
    | .positional text => some text
    | .option _ _ => none
  match texts with
  | [text] => if text.isEmpty then none else some text
  | _ => none

def labelSpecs : List OptionSpec := [{ long := "content-type" }, { long := "content-kind" }]

/-- The labels that are asked for, with the usual ones where nothing is said. -/
def labels? (arguments : List Given) : Option Labels := do
  let usual : Labels := {}
  let contentType ← single? "content-type" arguments
  let contentKind ← single? "content-kind" arguments
  return ⟨contentType.getD usual.contentType, contentKind.getD usual.contentKind⟩

def parseRequest? (words : List String) : Option Request := do
  let arguments ← readWords ({ long := "strict", takesValue := false } :: labelSpecs) words
  let file ← positional? arguments
  let labels ← labels? arguments
  let strict ← single? "strict" arguments
  return .parse file labels strict.isSome

def scanRequest? (words : List String) : Option Request := do
  let arguments ← readWords ({ long := "glob", short := some 'g' } :: labelSpecs) words
  let root ← positional? arguments
  let labels ← labels? arguments
  return .scan root (valuesOf "glob" arguments) labels

/-- Whether a word asks for the version.  Anything may follow the short form. -/
def isVersionWord (word : String) : Bool :=
  word == "--version" || (List.isPrefixOf? ['-', 'V'] word.toList).isSome

def request? : List String → Option Request
  | [] => none
  | word :: words =>
      if isVersionWord word then some .version
      else if word = "parse" then parseRequest? words
      else if word = "scan" then scanRequest? words
      else none

end StyleDoc.Command
