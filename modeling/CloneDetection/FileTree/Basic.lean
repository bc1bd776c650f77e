import CloneDetection.FileTree.Name

/-!
# File trees

A `FileTree` is a file, a symbolic link, a folder or something else that a folder may hold. The
entries of a folder stand in the order of their names, which `FileTree.put` keeps.
-/

namespace CloneDetection

/-- What an entry of a folder is. -/
inductive EntryKind
  | file
  | link
  | folder
  | special
  deriving DecidableEq, Repr

/-- A file, a symbolic link, a folder, or something special: a device, a pipe or a socket, with the
bytes that are read from it. -/
inductive FileTree
  | file (content : ByteArray)
  | link (target : List UInt8)
  | folder (entries : List (FileName × FileTree))
  | special (content : ByteArray)

namespace FileTree

/-- An empty folder. -/
instance : Inhabited FileTree := ⟨folder []⟩

/-- The entries of a folder. Nothing else has any. -/
def entries : FileTree → List (FileName × FileTree)
  | folder entries => entries
  | _ => []

/-- What a tree is. -/
def kind : FileTree → EntryKind
  | file _ => .file
  | link _ => .link
  | folder _ => .folder
  | special _ => .special

/-- Whether a tree is a folder. -/
def isFolder : FileTree → Bool
  | folder _ => true
  | _ => false

/-- The entry of a folder with the given name. -/
def child? (name : FileName) (tree : FileTree) : Option FileTree :=
  tree.entries.lookup name

/-- Entries in the order of their names, with one of them set. -/
def setEntry (name : FileName) (tree : FileTree) :
    List (FileName × FileTree) → List (FileName × FileTree)
  | [] => [(name, tree)]
  | (other, present) :: rest =>
    if name < other then (name, tree) :: (other, present) :: rest
    else if name = other then (name, tree) :: rest
    else (other, present) :: setEntry name tree rest

/-- A tree put where another stands. A folder adds its entries to those of a folder. -/
def replacing (tree whole : FileTree) : FileTree :=
  match tree with
  | folder added => folder (added.foldl (fun entries e => setEntry e.1 e.2 entries) whole.entries)
  | tree => tree

/-- Puts a tree where the names lead, and makes the folders on the way. -/
def put (whole : FileTree) (path : List FileName) (tree : FileTree) : FileTree :=
  match path with
  | [] => tree.replacing whole
  | name :: rest =>
    folder (setEntry name (put ((whole.child? name).getD default) rest tree) whole.entries)

end FileTree

end CloneDetection
