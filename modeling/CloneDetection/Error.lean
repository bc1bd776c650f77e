import CloneDetection.Settings.Basic

/-!
# Why a detection fails

One constructor a cause; `DetectError.message` gives the words.
-/

namespace CloneDetection

/-- A request that cannot be compared. -/
inductive RequestError
  | tooFewFiles (given : Nat)
  | repeatedFile (file revision : String)
  deriving DecidableEq, Repr

/-- What is wrong with a request, in words. -/
def RequestError.message : RequestError → String
  | tooFewFiles given => s!"at least two files are required, got {given}"
  | repeatedFile file revision => s!"{file}@{revision} appears more than once"

/-- Data of one stage that do not fit those of another. -/
inductive InternalError
  | revisionLabels (streams labels : Nat)
  | corpusSize (positions : Nat)
  | unknownStream (stream documents : Nat)
  | tokenRange (first last : Nat) (file : String) (tokens : Nat)
  | byteRange (start stop : Nat) (file : String)
  deriving DecidableEq, Repr

/-- What does not fit, in words. -/
def InternalError.message : InternalError → String
  | revisionLabels streams labels => s!"{streams} streams but {labels} revision labels"
  | corpusSize positions => s!"corpus of {positions} positions does not fit the index"
  | unknownStream stream documents => s!"stream {stream} is not one of the {documents} documents"
  | tokenRange first last file tokens =>
    s!"tokens {first}..{last} out of range for {file} ({tokens} tokens)"
  | byteRange start stop file => s!"bytes {start}..{stop} of {file} are not a text slice"

/-- Why a detection has no outcome. -/
inductive DetectError
  | tokenize (file revision : String) (cause : TokenizeError)
  | invalidConfiguration (cause : SettingsError)
  | invalidRequest (cause : RequestError)
  | internalInconsistency (cause : InternalError)
  | cancelled

/-- The failure in words. -/
def DetectError.message : DetectError → String
  | tokenize file revision cause => s!"{file}@{revision}: " ++ cause.message
  | invalidConfiguration cause => "invalid configuration: " ++ cause.message
  | invalidRequest cause => "invalid request: " ++ cause.message
  | internalInconsistency cause => "internal inconsistency: " ++ cause.message
  | cancelled => "detection cancelled"

end CloneDetection
