import CloneDetection.Decimal.Read
import CloneDetection.Error
import CloneDetection.FileTree.Resolve
import CloneDetection.Settings.Reader
import CloneDetection.SourceTree.Load

/-!
# Arguments

`Selection.read` reads arguments one after the other: flags, options with a value and roots. After
`--` every argument is a root. `Invocation.ofSelection` takes the settings from the file that was
named, if one was, puts the options over them and checks the result. `Command.parse` does both.
-/

namespace CloneDetection

/-- An option without a value. -/
inductive Flag
  | json
  | stats
  | strict
  | includeComments
  | dropNoise
  | noIgnoreFiles
  deriving DecidableEq, Repr

namespace Flag

/-- Every flag. -/
def all : List Flag := [json, stats, strict, includeComments, dropNoise, noIgnoreFiles]

/-- The argument that stands for a flag. -/
def spelling : Flag → String
  | json => "--json"
  | stats => "--stats"
  | strict => "--strict"
  | includeComments => "--include-comments"
  | dropNoise => "--drop-noise"
  | noIgnoreFiles => "--no-gitignore"

/-- The flag that an argument stands for. -/
def ofSpelling? (arg : String) : Option Flag :=
  all.find? (·.spelling == arg)

end Flag

/-- An option whose value is the next argument. -/
inductive Parameter
  | targetRoot
  | config
  | normalization
  | index
  | minTokens
  | maxGap
  | containment
  | maxBucket
  | workers
  | maxFileSize
  | ignoreFolder
  deriving DecidableEq, Repr

namespace Parameter

/-- Every option with a value. -/
def all : List Parameter :=
  [targetRoot, config, normalization, index, minTokens, maxGap, containment, maxBucket, workers,
    maxFileSize, ignoreFolder]

/-- The argument that stands for an option. -/
def spelling : Parameter → String
  | targetRoot => "--target-root"
  | config => "--config"
  | normalization => "--normalization"
  | index => "--index"
  | minTokens => "--min-tokens"
  | maxGap => "--max-gap"
  | containment => "--containment"
  | maxBucket => "--max-bucket"
  | workers => "--workers"
  | maxFileSize => "--max-file-size"
  | ignoreFolder => "--ignore-dir"

/-- The option that an argument stands for. -/
def ofSpelling? (arg : String) : Option Parameter :=
  all.find? (·.spelling == arg)

end Parameter

/-- Why arguments cannot be used. -/
inductive UsageError
  | missingValue (option : Parameter)
  | notInteger (option : Parameter)
  | notPositive (option : Parameter)
  | notNumber (option : Parameter)
  | notShare (option : Parameter)
  | unknownNormalization
  | unknownIndex
  | unknownOption (arg : String)
  | unreadableConfig (path : String) (cause : FileError)
  | malformedConfig (path : String)
  | settings (cause : SettingsError)

/-- What is wrong with the arguments, in words. -/
def UsageError.message : UsageError → String
  | missingValue option => s!"{option.spelling} requires a value"
  | notInteger option => s!"{option.spelling} must be an integer"
  | notPositive option => s!"{option.spelling} must be >= 1"
  | notNumber option => s!"{option.spelling} must be a number"
  | notShare option => s!"{option.spelling} must be in (0, 1]"
  | unknownNormalization => "--normalization must be one of: raw, identifier-blind, full"
  | unknownIndex => "--index must be one of: suffix-array, winnowing"
  | unknownOption arg => s!"Unknown option: {arg}"
  | unreadableConfig path cause => s!"--config {path}: {cause.message}"
  | malformedConfig path => s!"--config {path}"
  | settings cause => (DetectError.invalidConfiguration cause).message

/-! ## What arguments select -/

/-- What the arguments say, before a settings file is read. A later value of an option takes the
place of an earlier one; roots and ignored folders add up. -/
structure Selection where
  json : Bool := false
  stats : Bool := false
  strict : Bool := false
  includeComments : Bool := false
  dropNoise : Bool := false
  obeyIgnoreFiles : Bool := true
  roots : List String := []
  targetRoot : Option String := none
  config : Option String := none
  normalization : Option Normalization := none
  index : Option Strategy := none
  minTokens : Option Nat := none
  maxGap : Option Nat := none
  containment : Option Float := none
  maxBucket : Option Nat := none
  workers : Option Nat := none
  maxFileSize : Option Nat := none
  ignoredFolders : List String := []

namespace Selection

/-- The value of an option that is a natural number. -/
def natural (option : Parameter) (value : String) : Except UsageError Nat :=
  match Decimal.natural? value with
  | some n => .ok n
  | none => .error (.notInteger option)

/-- The value of an option that is a natural number other than zero. -/
def positive (option : Parameter) (value : String) : Except UsageError Nat := do
  let n ← natural option value
  if n = 0 then .error (.notPositive option) else .ok n

/-- The value of an option that is a share of a whole. -/
def share (option : Parameter) (value : String) : Except UsageError Float :=
  match Decimal.float? value with
  | none => .error (.notNumber option)
  | some x => if Settings.isShare x then .ok x else .error (.notShare option)

/-- The selection after a flag. -/
def setFlag (s : Selection) : Flag → Selection
  | .json => { s with json := true }
  | .stats => { s with stats := true }
  | .strict => { s with strict := true }
  | .includeComments => { s with includeComments := true }
  | .dropNoise => { s with dropNoise := true }
  | .noIgnoreFiles => { s with obeyIgnoreFiles := false }

/-- The selection after an option with its value. -/
def setParameter (s : Selection) (option : Parameter) (value : String) :
    Except UsageError Selection :=
  match option with
  | .targetRoot => .ok { s with targetRoot := some value }
  | .config => .ok { s with config := some value }
  | .normalization =>
    match Normalization.parse? value with
    | some level => .ok { s with normalization := some level }
    | none => .error .unknownNormalization
  | .index =>
    match Strategy.parse? value with
    | some strategy => .ok { s with index := some strategy }
    | none => .error .unknownIndex
  | .minTokens => return { s with minTokens := some (← positive option value) }
  | .maxGap => return { s with maxGap := some (← natural option value) }
  | .containment => return { s with containment := some (← share option value) }
  | .maxBucket => return { s with maxBucket := some (← positive option value) }
  | .workers => return { s with workers := some (← positive option value) }
  | .maxFileSize => return { s with maxFileSize := some (← natural option value) }
  | .ignoreFolder => .ok { s with ignoredFolders := s.ignoredFolders ++ [value] }

/-- The selection after some roots. -/
def addRoots (s : Selection) (roots : List String) : Selection :=
  { s with roots := s.roots ++ roots }

end Selection

/-- What the arguments ask for. -/
inductive Request
  | help
  | version
  | detect (selection : Selection)

namespace Selection

/-- Reads arguments after those of a selection. The first argument that asks for help or the version
settles what is asked for, and the first that cannot be used is the answer. -/
def read (s : Selection) : List String → Except UsageError Request
  | [] => .ok (.detect s)
  | arg :: rest =>
    if arg = "--" then .ok (.detect (s.addRoots rest))
    else if arg = "-h" || arg = "--help" then .ok .help
    else if arg = "-V" || arg = "--version" then .ok .version
    else
      match Flag.ofSpelling? arg with
      | some flag => read (s.setFlag flag) rest
      | none =>
        match Parameter.ofSpelling? arg with
        | some option =>
          match rest with
          | [] => .error (.missingValue option)
          | value :: rest =>
            match s.setParameter option value with
            | .ok s => read s rest
            | .error e => .error e
        | none =>
          if arg.toList.head? = some '-' then .error (.unknownOption arg)
          else read (s.addRoots [arg]) rest

/-- Settings with the options put over them. -/
def override (s : Selection) (base : Settings) : Settings :=
  { base with
    normalization := s.normalization.getD base.normalization
    minTokens := s.minTokens.getD base.minTokens
    maxGap := s.maxGap.getD base.maxGap
    strategy := s.index.getD base.strategy
    containment := s.containment.getD base.containment
    maxBucket := s.maxBucket.getD base.maxBucket
    maxWorkers := s.workers.or base.maxWorkers
    includeComments := base.includeComments || s.includeComments
    dropNoise := base.dropNoise || s.dropNoise
    strict := base.strict || s.strict }

/-- What is loaded. -/
def loadOptions (s : Selection) : LoadOptions :=
  let defaults : LoadOptions := {}
  { ignoredFolders := defaults.ignoredFolders ++ s.ignoredFolders
    maxFileSize := s.maxFileSize.or defaults.maxFileSize
    obeyIgnoreFiles := s.obeyIgnoreFiles }

/-- The settings of the file that was named, or the usual ones. -/
def baseSettings (s : Selection) (w : Workspace) : Except UsageError Settings :=
  match s.config with
  | none => .ok {}
  | some path =>
    match w.readText path with
    | .error cause => .error (.unreadableConfig path cause)
    | .ok text =>
      match Settings.parse? text with
      | none => .error (.malformedConfig path)
      | some settings => .ok settings

end Selection

/-! ## What is carried out -/

/-- A detection to be carried out. -/
structure Invocation where
  json : Bool
  stats : Bool
  roots : List String
  targetRoot : Option String
  settings : Settings
  load : LoadOptions

/-- The detection that was selected. Without any root it is about the folder in which the program
runs. -/
def Invocation.ofSelection (w : Workspace) (s : Selection) : Except UsageError Invocation := do
  let settings := s.override (← s.baseSettings w)
  settings.validate.mapError .settings
  return {
    json := s.json
    stats := s.stats
    roots := if s.roots.isEmpty && s.targetRoot.isNone then [w.currentPath] else s.roots
    targetRoot := s.targetRoot
    settings
    load := s.loadOptions }

/-- What the program is asked to do. -/
inductive Command
  | help
  | version
  | detect (invocation : Invocation)

/-- What some arguments ask for. -/
def Command.parse (w : Workspace) (args : List String) : Except UsageError Command := do
  match ← Selection.read {} args with
  | .help => return .help
  | .version => return .version
  | .detect s => return .detect (← Invocation.ofSelection w s)

end CloneDetection
