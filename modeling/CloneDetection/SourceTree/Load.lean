import CloneDetection.ClonePair.Basic
import CloneDetection.Language
import CloneDetection.Path.Roots
import CloneDetection.SourceTree.Walk

/-!
# Loading the files of a detection

`load` reads the source files of some roots. A file is loaded if its extension is that of a language,
it is not too large and no byte of it is zero; the others are counted by the reason. The roots are
walked by a `Walker`, which `Load.admits` keeps out of links and ignored folders.
-/

namespace CloneDetection

/-- What is loaded. -/
structure LoadOptions where
  /-- The names of folders that are left out. -/
  ignoredFolders : List String :=
    [".git", ".hg", ".svn", "node_modules", "target", "dist", "build", "out", ".next", ".turbo",
      ".cache"]
  /-- The greatest size of a file in bytes, if there is one. -/
  maxFileSize : Option Nat := some (10 * 1024 * 1024)
  /-- Whether ignore files are obeyed. -/
  obeyIgnoreFiles : Bool := true
  deriving DecidableEq, Repr

/-- The names of folders that are left out, each once and in order. -/
def LoadOptions.sortedFolders (options : LoadOptions) : List String :=
  options.ignoredFolders.mergeSort.eraseReps

/-! ## Counts -/

namespace Counter

/-- The greatest count. -/
def most : Nat := UInt64.size - 1

/-- Two counts together, or the greatest count if they are more. -/
def add (m n : Nat) : Nat :=
  min (m + n) most

end Counter

/-- The counts of a loading. -/
structure LoadStatistics where
  candidateFiles : Nat := 0
  loadedFiles : Nat := 0
  loadedBytes : Nat := 0
  skippedUnknownLanguage : Nat := 0
  skippedTooLarge : Nat := 0
  skippedBinary : Nat := 0
  skippedNotFound : Nat := 0
  skippedPermissionDenied : Nat := 0
  skippedWalkErrors : Nat := 0
  deriving DecidableEq, Repr

namespace LoadStatistics

/-- Whether something was left out that a strict detection needs. -/
def isFatal (s : LoadStatistics) : Bool :=
  0 < s.skippedPermissionDenied || 0 < s.skippedWalkErrors

/-- Two counts together. -/
def add (s t : LoadStatistics) : LoadStatistics where
  candidateFiles := Counter.add s.candidateFiles t.candidateFiles
  loadedFiles := Counter.add s.loadedFiles t.loadedFiles
  loadedBytes := Counter.add s.loadedBytes t.loadedBytes
  skippedUnknownLanguage := Counter.add s.skippedUnknownLanguage t.skippedUnknownLanguage
  skippedTooLarge := Counter.add s.skippedTooLarge t.skippedTooLarge
  skippedBinary := Counter.add s.skippedBinary t.skippedBinary
  skippedNotFound := Counter.add s.skippedNotFound t.skippedNotFound
  skippedPermissionDenied := Counter.add s.skippedPermissionDenied t.skippedPermissionDenied
  skippedWalkErrors := Counter.add s.skippedWalkErrors t.skippedWalkErrors

/-- The counts of an error. -/
def ofError : ReadError → LoadStatistics
  | .notFound => { skippedNotFound := 1 }
  | .permissionDenied => { skippedPermissionDenied := 1 }
  | .other => { skippedWalkErrors := 1 }

end LoadStatistics

/-- A root that cannot be loaded. -/
inductive LoadError
  | unreachable (root : String) (cause : FileError)
  | notFolder (root : String)
  deriving DecidableEq, Repr

/-- What is wrong with a root, in words. -/
def LoadError.message : LoadError → String
  | unreachable root cause => s!"root {root}: {cause.message}"
  | notFolder root => s!"root {root} is not a directory"

/-- What was loaded. -/
structure Loaded where
  files : List SourceFile := []
  statistics : LoadStatistics := {}

namespace Load

/-! ## Files -/

/-- Whether an entry on a walk is wanted: the start always, a link never, and a folder unless its
name is one of the ignored. -/
def admits (options : LoadOptions) (entry : WalkEntry) : Bool :=
  match entry.names.getLast?, entry.kind with
  | none, _ => true
  | some _, .link => false
  | some name, .folder => name.text?.all fun text => !options.ignoredFolders.contains text
  | some _, _ => true

/-- Whether the bytes from position `i` on have a zero. -/
def hasZeroFrom (content : ByteArray) (i : Nat) : Bool :=
  if h : i < content.size then
    if content[i] = 0 then true else hasZeroFrom content (i + 1)
  else false
termination_by content.size - i

/-- Whether a file has a byte that is zero, as no text has. -/
def isBinary (content : ByteArray) : Bool :=
  hasZeroFrom content 0

/-- Whether a file is too large. -/
def exceeds (limit : Option Nat) (content : ByteArray) : Bool :=
  match limit with
  | none => false
  | some most => most < content.size

/-- The language of a file by its name. -/
def languageOf? (names : List FileName) : Option Language :=
  ((names.getLast?.bind FileName.extension?).bind FileName.text?).bind Language.ofExtension?

/-- The path of a file that some names lead to from a root. -/
def pathOf (root : String) (names : List FileName) : String :=
  Path.join root ("/".intercalate (names.map FileName.lossy))

/-- The cause of an error, as far as causes are told apart. -/
def causeOf : FileError → ReadError
  | .notFound => .notFound
  | _ => .other

/-- What becomes of a result of a walk. -/
inductive Fate
  /-- The start, or what is no file. -/
  | passed
  /-- An error of the walk. -/
  | failed (cause : ReadError)
  | unknownLanguage
  | unreadable (cause : ReadError)
  | tooLarge
  | binary
  | loaded (file : SourceFile)

namespace Fate

/-- The file that is loaded. -/
def file? : Fate → Option SourceFile
  | loaded file => some file
  | _ => none

/-- What is counted. A file of a language is a candidate. -/
def counts : Fate → LoadStatistics
  | passed => {}
  | failed cause => .ofError cause
  | unknownLanguage => { skippedUnknownLanguage := 1 }
  | unreadable cause => { LoadStatistics.ofError cause with candidateFiles := 1 }
  | tooLarge => { candidateFiles := 1, skippedTooLarge := 1 }
  | binary => { candidateFiles := 1, skippedBinary := 1 }
  | loaded file => { candidateFiles := 1, loadedFiles := 1, loadedBytes := file.content.size }

end Fate

/-- What becomes of a file of a language with the given bytes. -/
def fateOfContent (options : LoadOptions) (label id : String) (language : Language)
    (content : ByteArray) : Fate :=
  if exceeds options.maxFileSize content then .tooLarge
  else if isBinary content then .binary
  else .loaded ⟨id, label, language.tag, content⟩

/-- What becomes of a file that some names lead to from the root. -/
def fateOfFile (w : Workspace) (options : LoadOptions) (root : Root) (place : Place)
    (names : List FileName) : Fate :=
  match languageOf? names with
  | none => .unknownLanguage
  | some language =>
    match Path.fileId? root.path (pathOf root.path names) with
    | none => .unreadable .other
    | some id =>
      match w.readFrom place names with
      | .error cause => .unreadable (causeOf cause)
      | .ok content => fateOfContent options root.label id language content

/-- What becomes of a result of the walk of a root. -/
def fate (w : Workspace) (options : LoadOptions) (root : Root) (place : Place) :
    Except ReadError WalkEntry → Fate
  | .error cause => .failed cause
  | .ok entry =>
    if entry.names.isEmpty || entry.kind != .file then .passed
    else fateOfFile w options root place entry.names

/-! ## Roots -/

/-- Whether a folder holds an entry of the given name that leads somewhere. -/
def holds (w : Workspace) (place : Place) (name : String) : Bool :=
  (w.follow Workspace.maxLinks place [.ofString name]).isOk

/-- The walk of a root. Exclusions hold where the root has a folder of its own for them. -/
def request (w : Workspace) (options : LoadOptions) (place : Place) : WalkRequest where
  workspace := w
  start := place
  obeyIgnoreFiles := options.obeyIgnoreFiles
  obeyExclusions := options.obeyIgnoreFiles && holds w place ".git"
  admits := admits options

/-- Loads the folder at a place, after what was loaded before. -/
def loadRoot (walk : Walker) (w : Workspace) (options : LoadOptions) (loaded : Loaded)
    (root : Root × Place) : Loaded :=
  let fates := (walk (request w options root.2)).map (fate w options root.1 root.2)
  { files := loaded.files ++ fates.filterMap Fate.file?
    statistics := fates.foldl (fun s f => s.add f.counts) loaded.statistics }

/-- The place of a root, which has to be a folder. -/
def placeOf (w : Workspace) (root : Root) : Except LoadError Place :=
  match w.find root.path with
  | .error cause => .error (.unreachable root.path cause)
  | .ok place => if (w.treeAt place).isFolder then .ok place else .error (.notFolder root.path)

end Load

/-- Loads the roots in their order on the walks of a walker. The first root that cannot be loaded is
the answer, before anything is loaded. -/
def loadWith (walk : Walker) (w : Workspace) (options : LoadOptions) (roots : List Root) :
    Except LoadError Loaded := do
  let places ← roots.mapM (Load.placeOf w)
  return (roots.zip places).foldl (Load.loadRoot walk w options) {}

/-- Loads the roots in their order. -/
def load (w : Workspace) (options : LoadOptions) (roots : List Root) : Except LoadError Loaded :=
  loadWith Walk.visit w options roots

end CloneDetection
