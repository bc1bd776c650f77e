import CloneDetection.FileTree.Resolve
import CloneDetection.Ignore.Rules

/-!
# Walking a folder

A `Walker` answers a `WalkRequest` with the entries at and below a folder, or with what went wrong on
the way. `Walk.visit` is one: it leaves out what ignore files leave out and what the request does not
admit, with all that is below, and goes in the order of the names, a folder before what it holds.
Symbolic links are not followed.
-/

namespace CloneDetection

/-- An entry on a walk: the names that lead to it from the start, which has none, and what it is. -/
structure WalkEntry where
  names : List FileName
  kind : EntryKind
  deriving DecidableEq, Repr

/-- What a walk is about. -/
structure WalkRequest where
  workspace : Workspace
  /-- The folder at which the walk starts. -/
  start : Place
  /-- Whether ignore files are obeyed. -/
  obeyIgnoreFiles : Bool
  /-- Whether the exclusions of a repository are obeyed. -/
  obeyExclusions : Bool
  /-- Whether an entry is wanted. What is below one that is not is left out with it. -/
  admits : WalkEntry → Bool

/-- Why something cannot be read, as far as causes are told apart. -/
inductive ReadError
  | notFound
  | permissionDenied
  | other
  deriving DecidableEq, Repr

/-- The results of a walk, in order. -/
abbrev Walker := WalkRequest → List (Except ReadError WalkEntry)

/-- The ignore rules of a folder on the way to the current one. -/
structure IgnoreScope where
  /-- The names from the folder to the current one. -/
  names : List FileName
  rules : List Ignore.Rule
  /-- The rules that hold where those of no ignore file on the way decide. -/
  exclusions : List Ignore.Rule

namespace IgnoreScope

/-- A scope seen from a folder below the current one. -/
def enter (name : FileName) (scope : IgnoreScope) : IgnoreScope :=
  { scope with names := scope.names ++ [name] }

/-- The path of an entry of the current folder from the folder of the rules. -/
def pathOf (scope : IgnoreScope) (name : FileName) : List UInt8 :=
  FileName.join (scope.names ++ [name])

/-- Whether rules leave out an entry of the current folder. The nearest folder whose rules decide
has the word, and the exclusions only where no ignore file decides. -/
def leavesOut (scopes : List IgnoreScope) (name : FileName) (isFolder : Bool) : Bool :=
  let byRules := scopes.findSome? fun s => Ignore.Rules.verdict? s.rules (s.pathOf name) isFolder
  let byExclusions :=
    scopes.findSome? fun s => Ignore.Rules.verdict? s.exclusions (s.pathOf name) isFolder
  byRules.or byExclusions == some .ignored

end IgnoreScope

namespace Walk

/-- The name of the file of ignore rules. -/
def ignoreFile : String := ".gitignore"

/-- The names that lead to the file of exclusions. -/
def exclusionFile : List String := [".git", "info", "exclude"]

/-- The bytes of a file, none if there is no such file. -/
def contentAt (w : Workspace) (names : List FileName) : ByteArray :=
  (w.readFrom [] names).toOption.getD .empty

/-- The rules in a file, none if files of that kind are not obeyed. -/
def rulesAt (obeyed : Bool) (w : Workspace) (names : List FileName) : List Ignore.Rule :=
  if obeyed then Ignore.Rules.parse (contentAt w names) else []

/-- The rules of the folder that some names lead to. -/
def scopeAt (r : WalkRequest) (folder : List FileName) : IgnoreScope where
  names := []
  rules := rulesAt r.obeyIgnoreFiles r.workspace (folder ++ [.ofString ignoreFile])
  exclusions := rulesAt r.obeyExclusions r.workspace (folder ++ exclusionFile.map .ofString)

/-- Whether an entry of a folder is visited. -/
def passes (r : WalkRequest) (names : List FileName) (scopes : List IgnoreScope) (name : FileName)
    (kind : EntryKind) : Bool :=
  !IgnoreScope.leavesOut scopes name (kind == .folder) && r.admits ⟨names ++ [name], kind⟩

mutual

/-- The entries at and below a tree that stands under a name in the folder that `names` lead to from
the start. The place of the start in the workspace is `start`. -/
def visitTree (r : WalkRequest) (start names : List FileName) (scopes : List IgnoreScope)
    (name : FileName) : FileTree → List WalkEntry
  | .file _ => if passes r names scopes name .file then [⟨names ++ [name], .file⟩] else []
  | .link _ => if passes r names scopes name .link then [⟨names ++ [name], .link⟩] else []
  | .special _ => if passes r names scopes name .special then [⟨names ++ [name], .special⟩] else []
  | .folder entries =>
    if passes r names scopes name .folder then
      let inner := names ++ [name]
      let scopes := scopeAt r (start ++ inner) :: scopes.map (·.enter name)
      ⟨inner, .folder⟩ :: visitEntries r start inner scopes entries
    else []

/-- The entries at and below an entry of a folder. -/
def visitEntry (r : WalkRequest) (start names : List FileName) (scopes : List IgnoreScope) :
    FileName × FileTree → List WalkEntry
  | (name, tree) => visitTree r start names scopes name tree

/-- The entries at and below some entries of a folder. -/
def visitEntries (r : WalkRequest) (start names : List FileName) (scopes : List IgnoreScope) :
    List (FileName × FileTree) → List WalkEntry
  | [] => []
  | entry :: rest => visitEntry r start names scopes entry ++ visitEntries r start names scopes rest

end

/-- The entries at and below the start. -/
def entries (r : WalkRequest) : List WalkEntry :=
  let tree := r.workspace.treeAt r.start
  let start := Workspace.namesOf r.start
  if r.admits ⟨[], tree.kind⟩ then
    ⟨[], tree.kind⟩ :: visitEntries r start [] [scopeAt r start] tree.entries
  else []

/-- Whether an ignore file has a malformed line. -/
def hasMalformedLine (w : Workspace) (names : List FileName) : Bool :=
  (Ignore.Rules.parseLines (contentAt w names)).contains .malformed

/-- Whether an ignore file of a folder above the start has a malformed line. Those files are read,
though their rules do not hold, and such a line is an error of the walk. -/
def failsAbove (r : WalkRequest) : Bool :=
  let above := (Workspace.namesOf r.start).dropLast
  r.obeyIgnoreFiles && !r.start.isEmpty &&
    (List.range (above.length + 1)).any fun n =>
      hasMalformedLine r.workspace (above.take n ++ [.ofString ignoreFile]) ||
        r.obeyExclusions && hasMalformedLine r.workspace (above.take n ++ exclusionFile.map .ofString)

/-- The walk that ignore files and the request direct. -/
def visit : Walker := fun r =>
  (if failsAbove r then [.error .other] else []) ++ (entries r).map .ok

end Walk

end CloneDetection
