import CloneDetection.Json.Writer
import CloneDetection.Session.Basic
import CloneDetection.SourceTree.Load

/-!
# Reports as JSON

The same data as in the reports for readers, as JSON values. `Report.document` is the whole report.
-/

namespace CloneDetection

open Json

/-- A place in a file. -/
def Location.toJson (l : Location) : Value :=
  .ofMembers [("file", .ofString l.file), ("revision", .ofString l.revision),
    ("startOffset", .ofNat l.startOffset), ("endOffset", .ofNat l.endOffset),
    ("startLine", .ofNat l.startLine), ("endLine", .ofNat l.endLine),
    ("content", .ofString l.content)]

/-- A pair with its two places. -/
def ClonePair.toJson (p : ClonePair) : Value :=
  .ofMembers [("id", .ofString p.id), ("matchedTokens", .ofNat p.matchedTokens),
    ("target", p.target.toJson), ("source", p.source.toJson)]

/-- A file that was set aside. -/
def SkippedFile.toJson (s : SkippedFile) : Value :=
  .ofMembers [("file", .ofString s.file), ("revision", .ofString s.revision),
    ("kind", .ofString s.reason.kind), ("message", .ofString s.reason.message)]

/-- The counts of a detection. -/
def Statistics.toJson (s : Statistics) : Value :=
  .ofMembers [("filesReceived", .ofNat s.filesReceived),
    ("filesTokenized", .ofNat s.filesTokenized),
    ("skippedUnsupportedLanguage", .ofNat s.skippedUnsupportedLanguage),
    ("skippedMalformed", .ofNat s.skippedMalformed), ("tokensIndexed", .ofNat s.tokensIndexed),
    ("candidatesFound", .ofNat s.candidatesFound), ("gapMerges", .ofNat s.gapMerges),
    ("skippedBucketTruncated", .ofNat s.skippedBucketTruncated),
    ("pairsReported", .ofNat s.pairsReported)]

/-- The counts of a loading by name. -/
def LoadStatistics.members (s : LoadStatistics) : List (String × Value) :=
  [("candidateFiles", .ofNat s.candidateFiles), ("loadedFiles", .ofNat s.loadedFiles),
    ("loadedBytes", .ofNat s.loadedBytes),
    ("skippedUnknownLanguage", .ofNat s.skippedUnknownLanguage),
    ("skippedTooLarge", .ofNat s.skippedTooLarge), ("skippedBinary", .ofNat s.skippedBinary),
    ("skippedNotFound", .ofNat s.skippedNotFound),
    ("skippedPermissionDenied", .ofNat s.skippedPermissionDenied),
    ("skippedWalkErrors", .ofNat s.skippedWalkErrors)]

/-- The counts of a loading. -/
def LoadStatistics.toJson (s : LoadStatistics) : Value :=
  .ofMembers s.members

/-- The pairs and the files that were set aside, by name. -/
def Outcome.members (o : Outcome) : List (String × Value) :=
  [("clonePairs", .array (o.clonePairs.map ClonePair.toJson)),
    ("skippedFiles", .array (o.skippedFiles.map SkippedFile.toJson))]

/-- The whole report. The counts are part of it if those of the loading are given. -/
def Report.document (outcome : Outcome) (loading : Option LoadStatistics) : Value :=
  match loading with
  | none => .ofMembers outcome.members
  | some loading =>
    .ofMembers (outcome.members ++
      [("stats", outcome.statistics.toJson), ("loadStats", loading.toJson)])

end CloneDetection
