import CloneDetection.ClonePair.Resolve
import CloneDetection.Match.Find

/-!
# A detection

`detect` compares the files of a request under given settings. The files are put in the order of
their identity; those that have no token stream are set aside, or stop a strict detection; the others
are indexed, searched for equal runs and reported.
-/

namespace CloneDetection

/-- A file that was set aside, and why. -/
structure SkippedFile where
  file : String
  revision : String
  reason : TokenizeError
  deriving DecidableEq, Repr

/-- The counts of a detection. -/
structure Statistics where
  filesReceived : Nat := 0
  filesTokenized : Nat := 0
  skippedUnsupportedLanguage : Nat := 0
  skippedMalformed : Nat := 0
  tokensIndexed : Nat := 0
  candidatesFound : Nat := 0
  gapMerges : Nat := 0
  skippedBucketTruncated : Nat := 0
  pairsReported : Nat := 0
  deriving DecidableEq, Repr

/-- What a detection reports. -/
structure Outcome where
  clonePairs : List ClonePair
  skippedFiles : List SkippedFile
  statistics : Statistics
  deriving DecidableEq, Repr

namespace Detection

/-! ## The request -/

/-- The first file whose identity an earlier one has. -/
def firstRepeated? (seen : List (String × String)) : List SourceFile → Option SourceFile
  | [] => none
  | file :: rest =>
    if seen.contains file.identity then some file
    else firstRepeated? (file.identity :: seen) rest

/-- What is wrong with a request, if anything is. -/
def checkRequest (files : List SourceFile) : Except RequestError Unit :=
  if files.length < 2 then .error (.tooFewFiles files.length)
  else
    match firstRepeated? [] files with
    | some file => .error (.repeatedFile file.id file.revision)
    | none => .ok ()

/-- Files are ordered by identifier, then by revision. -/
def identityLE (x y : SourceFile) : Bool :=
  x.id < y.id || x.id == y.id && x.revision ≤ y.revision

/-- The files in the order of their identities. -/
def inOrder (files : List SourceFile) : List SourceFile :=
  files.mergeSort identityLE

/-! ## Tokens -/

/-- The documents and the files that were set aside, each in order. -/
structure Intake where
  documents : List Document := []
  skipped : List SkippedFile := []

/-- Reads the files as tokens, after those of `done`, whose lists have the last item first. In a
strict detection the first file without a token stream is the answer. -/
def tokenizeFrom (settings : Settings) (done : Intake) : List SourceFile → Except DetectError Intake
  | [] => .ok ⟨done.documents.reverse, done.skipped.reverse⟩
  | file :: rest =>
    match tokenize file.content file.language settings.tokenizeOptions with
    | .ok tokens =>
      tokenizeFrom settings { done with documents := ⟨file, tokens⟩ :: done.documents } rest
    | .error reason =>
      if settings.strict then .error (.tokenize file.id file.revision reason)
      else
        let skipped := ⟨file.id, file.revision, reason⟩
        tokenizeFrom settings { done with skipped := skipped :: done.skipped } rest

/-- The files read as tokens. -/
def tokenizeAll (settings : Settings) (files : List SourceFile) : Except DetectError Intake :=
  tokenizeFrom settings {} files

/-- The group of each document: the number of its revision among the revisions in order. -/
def revisionGroups (docs : List Document) : List Nat :=
  let labels := (docs.map (·.file.revision)).mergeSort.eraseReps
  docs.map fun doc => labels.idxOf doc.file.revision

/-! ## The run -/

/-- The counts of the files. -/
def fileCounts (files : List SourceFile) (intake : Intake) : Statistics where
  filesReceived := files.length
  filesTokenized := intake.documents.length
  skippedUnsupportedLanguage :=
    (intake.skipped.filter fun s => s.reason matches .unsupportedLanguage _).length
  skippedMalformed :=
    (intake.skipped.filter fun s => s.reason matches .malformedSource _ _).length

/-- What is searched for under given settings. -/
def query (settings : Settings) : Match.Query where
  minLength := settings.seedTokens
  maxGap := settings.maxGap
  maxBucket := settings.maxBucket
  acrossRevisions := settings.targetRevision.isSome

/-- What is reported under given settings. -/
def resolveOptions (settings : Settings) : ResolveOptions where
  minLength := settings.minTokens
  containment := settings.containment
  targetRevision := settings.targetRevision

/-- The matches of some documents, with the number of tokens compared. -/
def matchDocuments (settings : Settings) (docs : List Document) :
    Except InternalError (Match.Matches × Nat) := do
  let index ← TokenIndex.build (docs.map (·.tokens)) (revisionGroups docs) settings.strategy
    settings.seedTokens settings.maxBucket
  return (Match.find index (query settings), index.tokenCount)

/-- Compares the documents of files that are in order. Fewer than two have no pairs. -/
def compare (settings : Settings) (files : List SourceFile) (intake : Intake) :
    Except InternalError Outcome :=
  let counts := fileCounts files intake
  if intake.documents.length < 2 then .ok ⟨[], intake.skipped, counts⟩
  else do
    let (found, tokens) ← matchDocuments settings intake.documents
    let pairs ← resolve found.candidates intake.documents.toArray (resolveOptions settings)
    return {
      clonePairs := pairs
      skippedFiles := intake.skipped
      statistics := { counts with
        tokensIndexed := tokens
        candidatesFound := found.candidates.length
        gapMerges := found.gapMerges
        skippedBucketTruncated := found.truncated
        pairsReported := pairs.length } }

/-- Compares the files of a request under settings in their ranges, unless it was called off. -/
def run (settings : Settings) (cancelled : Bool) (files : List SourceFile) :
    Except DetectError Outcome := do
  (checkRequest files).mapError .invalidRequest
  if cancelled then .error .cancelled
  else
    let ordered := inOrder files
    let intake ← tokenizeAll settings ordered
    (compare settings ordered intake).mapError .internalInconsistency

end Detection

/-- Compares the files of a request. -/
def detect (settings : Settings) (files : List SourceFile) : Except DetectError Outcome := do
  settings.validate.mapError .invalidConfiguration
  Detection.run settings false files

end CloneDetection
