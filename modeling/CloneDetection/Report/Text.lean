import CloneDetection.Session.Basic
import CloneDetection.SourceTree.Load

/-!
# Reports for readers

The clone pairs, the files that were set aside and the counts of a detection, as lines of text.
-/

namespace CloneDetection.Report

/-- A place in a file: revision, file, first and last line. -/
def location (l : Location) : String :=
  s!"[{l.revision}] {l.file}:{l.startLine}-{l.endLine}"

/-- A pair, after an empty line. -/
def pair (p : ClonePair) : String :=
  s!"\nid={p.id} matched_tokens={p.matchedTokens}\n" ++
    s!"- target {location p.target}\n- source {location p.source}\n"

/-- The pairs, with their number before them and an empty line after them. -/
def pairs (pairs : List ClonePair) : String :=
  s!"clone pairs: {pairs.length}\n" ++ String.join (pairs.map pair) ++ "\n"

/-- A file that was set aside. -/
def skippedFile (s : SkippedFile) : String :=
  s!"- [{s.revision}] {s.file}: {s.reason.message}\n"

/-- The files that were set aside. Where there are none, nothing is said. -/
def skipped (files : List SkippedFile) : String :=
  if files.isEmpty then ""
  else s!"skipped files: {files.length}\n" ++ String.join (files.map skippedFile) ++ "\n"

/-- The counts that are not zero, by name. Where there are none, nothing is said. -/
def skips (counts : List (String × Nat)) : String :=
  let counts := counts.filter fun count => count.2 ≠ 0
  if counts.isEmpty then ""
  else "skipped:\n" ++ String.join (counts.map fun (name, count) => s!"- {name}={count}\n")

/-- The counts of a loading. -/
def loadStatistics (s : LoadStatistics) : String :=
  s!"== load stats ==\ncandidates={s.candidateFiles} loaded={s.loadedFiles} bytes={s.loadedBytes}\n" ++
    skips [("unknown_language", s.skippedUnknownLanguage), ("too_large", s.skippedTooLarge),
      ("binary", s.skippedBinary), ("not_found", s.skippedNotFound),
      ("permission_denied", s.skippedPermissionDenied), ("walk_errors", s.skippedWalkErrors)]

/-- The counts of a detection. -/
def detectionStatistics (s : Statistics) : String :=
  s!"== detection stats ==\nfiles={s.filesReceived} tokenized={s.filesTokenized} " ++
    s!"tokens={s.tokensIndexed} candidates={s.candidatesFound} gap_merges={s.gapMerges} " ++
    s!"pairs={s.pairsReported}\n" ++
    skips [("unsupported_language", s.skippedUnsupportedLanguage),
      ("malformed", s.skippedMalformed), ("bucket_truncated", s.skippedBucketTruncated)]

/-- The counts of a loading and of the detection after it, with an empty line after them. -/
def statistics (loading : LoadStatistics) (detection : Statistics) : String :=
  loadStatistics loading ++ detectionStatistics detection ++ "\n"

end CloneDetection.Report
