import CloneDetection.CommandLine.Arguments
import CloneDetection.Report.Json
import CloneDetection.Report.Text

/-!
# The program

`Program.run` says what the program writes and how it ends, for some arguments in a workspace.
-/

namespace CloneDetection

/-- What a program writes, and its exit code. -/
structure Output where
  exit : Nat := 0
  stdout : String := ""
  stderr : String := ""
  deriving DecidableEq, Repr

/-- Why a detection fails when the arguments are in order. -/
inductive RunError
  | load (cause : LoadError)
  | detect (cause : DetectError)

/-- What went wrong, in words. -/
def RunError.message : RunError → String
  | load cause => cause.message
  | detect cause => cause.message

namespace Program

/-- The text that help shows. -/
def helpText : String :=
  "\n".intercalate
    ["ccd (code clone detection across revisions)",
     "",
     "Usage:",
     "  ccd [options] [root ...]",
     "",
     "Each root is one revision, labelled by its directory name.",
     "",
     "Options:",
     "  --target-root <dir>     Report only clones with one side under <dir> (added as a root)",
     "  --normalization <level> raw | identifier-blind | full (default: identifier-blind)",
     "  --min-tokens <n>        Minimum clone length in tokens (default: 50)",
     "  --max-gap <n>           Bridge gaps of up to n tokens between matches (default: 0)",
     "  --index <kind>          suffix-array | winnowing (default: suffix-array)",
     "  --containment <f>       Fold matches this much covered by a longer one (default: 1)",
     "  --max-bucket <n>        Cap on occurrences compared per repeated sequence (default: 512)",
     "  --workers <n>           Use a dedicated pool of n worker threads",
     "  --include-comments      Match comment tokens too",
     "  --drop-noise            Ignore brackets, semicolons and noise keywords",
     "  --strict                Fail on files that cannot be tokenized or read",
     "  --config <file.json>    Load detection settings; flags override the file",
     "  --json                  Output JSON",
     "  --stats                 Include stats (JSON) or print them to stderr",
     "  --no-gitignore          Do not respect .gitignore rules",
     "  --max-file-size <n>     Skip files larger than n bytes (default: 10485760)",
     "  --ignore-dir <name>     Add an ignored directory name (repeatable)",
     "  -V, --version           Show version",
     "  -h, --help              Show help",
     "",
     "Environment:",
     "  CCD_LOG                 Log filter for stderr diagnostics (default: warn)",
     "",
     "Examples:",
     "  ccd ./base ./head",
     "  ccd --target-root ./head ./base",
     "  ccd --normalization full --min-tokens 30 --json src",
     "",
     ""]

/-- The text that shows the version. -/
def versionText : String := "ccd 0.0.1\n"

/-- Loads the roots of a detection and compares their files. -/
def detectIn (w : Workspace) (i : Invocation) : Except RunError (LoadStatistics × Outcome) := do
  let plan := Plan.make w.currentPath i.roots i.targetRoot
  let settings := { i.settings with targetRevision := plan.target.or i.settings.targetRevision }
  let loaded ← (load w i.load plan.roots).mapError .load
  let outcome ← (detect settings loaded.files).mapError .detect
  return (loaded.statistics, outcome)

/-- What is written about a detection. A strict one fails if something could not be read, and says
then what was counted. -/
def report (i : Invocation) (loading : LoadStatistics) (outcome : Outcome) : Output :=
  let fails := i.settings.strict && loading.isFatal
  let counts := Report.statistics loading outcome.statistics
  { exit := if fails then 1 else 0
    stdout :=
      if i.json then (Report.document outcome (if i.stats then some loading else none)).pretty ++ "\n"
      else Report.pairs outcome.clonePairs ++ Report.skipped outcome.skippedFiles
    stderr := if (i.stats && !i.json) || (fails && !i.stats) then counts else "" }

/-- What the program writes about a detection. -/
def runDetection (w : Workspace) (i : Invocation) : Output :=
  match detectIn w i with
  | .ok (loading, outcome) => report i loading outcome
  | .error e => { exit := 1, stderr := s!"Error: {e.message}\n" }

/-- What the program writes for some arguments. -/
def run (w : Workspace) (args : List String) : Output :=
  match Command.parse w args with
  | .ok .help => { stdout := helpText }
  | .ok .version => { stdout := versionText }
  | .ok (.detect i) => runDetection w i
  | .error e => { exit := 2, stdout := helpText, stderr := s!"Error: {e.message}\n\n" }

end Program

end CloneDetection
