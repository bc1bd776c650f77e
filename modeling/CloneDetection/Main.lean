import CloneDetection.CommandLine.Program

/-!
# The command

Reads what the arguments name from the file system into a `Workspace`, runs the program on it and
writes what it says. What cannot be read is left out.
-/

namespace CloneDetection.Snapshot

/-- The names of a path, from the root. -/
def namesOf (path : String) : List String :=
  (Path.segments path).filter (!Path.isIdle ·)

/-- The tree with another one put where the names of a path lead. -/
def putAt (tree : FileTree) (names : List String) (added : FileTree) : FileTree :=
  tree.put (names.map .ofString) added

/-- The bytes of a file, if it can be read. -/
def content? (path : String) : IO (Option ByteArray) := do
  try
    return some (← IO.FS.readBinFile path)
  catch _ =>
    return none

/-- The tree below a folder, without what the folders of the given names hold. A link is kept
without its target, but an ignore file is read through links. -/
partial def folder (skipped : List String) (path : String) : IO FileTree := do
  let mut tree : FileTree := .folder []
  try
    for item in ← (← IO.FS.realPath path).readDir do
      let name := item.fileName
      let inner := path ++ "/" ++ name
      match (← item.path.symlinkMetadata).type with
      | .dir =>
        let below ← if skipped.contains name then pure (.folder []) else folder skipped inner
        tree := putAt tree [name] below
      | .file =>
        if let some bytes ← content? inner then tree := putAt tree [name] (.file bytes)
      | .symlink =>
        let bytes ← if name == Walk.ignoreFile then content? inner else pure none
        tree := putAt tree [name] ((bytes.map .file).getD (.link [FileName.dot]))
      | .other => tree := putAt tree [name] (.special .empty)
  catch _ => pure ()
  return tree

/-- The workspace with a file, and the folders on the way to it. -/
def addFile (w : Workspace) (path : String) : IO Workspace := do
  match ← content? path with
  | none => return w
  | some bytes => return { w with tree := putAt w.tree (namesOf path) (.file bytes) }

/-- The workspace with the folder or file at a path from the root, the file of exclusions in each
folder, and the ignore files above it. -/
def addRoot (skipped : List String) (w : Workspace) (path : String) : IO Workspace := do
  let names := namesOf path
  let mut w := w
  try
    match (← (← IO.FS.realPath path).metadata).type with
    | .dir => w := { w with tree := putAt w.tree names (← folder skipped path) }
    | _ => w ← addFile w path
  catch _ => pure ()
  for n in List.range (names.length + 1) do
    let above := "/" ++ "/".intercalate (names.take n)
    w ← addFile w (Path.join above Walk.ignoreFile)
    w ← addFile w (Path.join above ("/".intercalate Walk.exclusionFile))
  return w

/-- What some arguments name. -/
def workspace (args : List String) : IO Workspace := do
  let current := (← IO.currentDir).toString
  let names := namesOf current
  let start : Workspace := { tree := putAt default names (.folder []), current := names }
  match Selection.read {} args with
  | .ok (.detect s) =>
    let w ← s.config.toList.foldlM (fun w path => addFile w (Path.resolve current path)) start
    let roots := if s.roots.isEmpty && s.targetRoot.isNone then [current] else s.roots
    (Plan.paths current roots s.targetRoot).foldlM (addRoot s.loadOptions.ignoredFolders) w
  | _ => return start

end CloneDetection.Snapshot

/-- Runs the program on the arguments. -/
def main (args : List String) : IO UInt32 := do
  let output := CloneDetection.Program.run (← CloneDetection.Snapshot.workspace args) args
  IO.print output.stdout
  IO.eprint output.stderr
  return output.exit.toUInt32
