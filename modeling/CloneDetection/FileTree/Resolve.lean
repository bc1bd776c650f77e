import CloneDetection.FileTree.Basic

/-!
# Finding files

A `Workspace` is a whole file tree together with the folder in which a program runs.
`Workspace.find` follows a path through it, and through the symbolic links on the way, of which a
path may use forty.
-/

namespace CloneDetection

/-- Why a path leads to nothing, or to nothing of the kind that is asked for. -/
inductive FileError
  | notFound
  | notFolder
  | isFolder
  | nameTooLong
  | tooManyLinks
  | zeroByte
  | notText
  deriving DecidableEq, Repr

/-- What is wrong with a path, in words. -/
def FileError.message : FileError → String
  | notFound => "No such file or directory (os error 2)"
  | notFolder => "Not a directory (os error 20)"
  | isFolder => "Is a directory (os error 21)"
  | nameTooLong => "File name too long (os error 36)"
  | tooManyLinks => "Too many levels of symbolic links (os error 40)"
  | zeroByte => "file name contained an unexpected NUL byte"
  | notText => "stream did not contain valid UTF-8"

/-- What is read from a tree. -/
def FileTree.read : FileTree → Except FileError ByteArray
  | file content => .ok content
  | special content => .ok content
  | _ => .error .isFolder

/-- A file tree, and the names that lead to the folder in which a program runs. -/
structure Workspace where
  tree : FileTree
  current : List String := []

/-- A place in a tree: the names and trees on the way there, the last one first. -/
abbrev Place := List (FileName × FileTree)

namespace Workspace

/-- The most bytes of a path, with one more at its end. -/
def maxPath : Nat := 4096

/-- The most links that a path may use. -/
def maxLinks : Nat := 40

/-- What stands at a place. -/
def treeAt (w : Workspace) : Place → FileTree
  | [] => w.tree
  | (_, tree) :: _ => tree

/-- The place from which a path is followed: the top of the tree, if the path starts with a
slash. -/
def startOf (path : List UInt8) (place : Place) : Place :=
  if path.head? = some FileName.slash then [] else place

/-- Follows some names from a place, with a number of links left. A name can be followed only from a
folder. -/
def follow (w : Workspace) (links : Nat) (place : Place) :
    List FileName → Except FileError Place
  | [] => .ok place
  | name :: rest =>
    if !(w.treeAt place).isFolder then .error .notFolder
    else if name.isIdle then follow w links place rest
    else if name.isParent then follow w links place.tail rest
    else if FileName.maxLength < name.bytes.length then .error .nameTooLong
    else
      match (w.treeAt place).child? name with
      | none => .error .notFound
      | some (.link target) =>
        match links with
        | 0 => .error .tooManyLinks
        | left + 1 => follow w left (startOf target place) (FileName.split target ++ rest)
      | some tree => follow w links ((name, tree) :: place) rest
termination_by names => (links, names.length)

/-- The place of the folder in which the program runs. -/
def currentPlace (w : Workspace) : Place :=
  match w.follow maxLinks [] (w.current.map FileName.ofString) with
  | .ok place => place
  | .error _ => []

/-- The place that a path leads to. -/
def find (w : Workspace) (path : String) : Except FileError Place :=
  if path.toList.contains '\x00' then .error .zeroByte
  else if path = "" then .error .notFound
  else if maxPath ≤ path.utf8ByteSize then .error .nameTooLong
  else
    let bytes := path.toUTF8.data.toList
    w.follow maxLinks (startOf bytes w.currentPlace) (FileName.split bytes)

/-- The names that lead to a place. -/
def namesOf (place : Place) : List FileName :=
  (place.map (·.1)).reverse

/-- The path of the folder in which the program runs. -/
def currentPath (w : Workspace) : String :=
  "/" ++ "/".intercalate w.current

/-- What a path leads to. -/
def look (w : Workspace) (path : String) : Except FileError FileTree :=
  (w.find path).map w.treeAt

/-- The bytes of a file. -/
def readBytes (w : Workspace) (path : String) : Except FileError ByteArray := do
  (← w.look path).read

/-- The bytes of the file that some names lead to from a place. -/
def readFrom (w : Workspace) (place : Place) (names : List FileName) :
    Except FileError ByteArray := do
  (w.treeAt (← w.follow maxLinks place names)).read

/-- The text of a file. -/
def readText (w : Workspace) (path : String) : Except FileError String := do
  match Text.decode (← w.readBytes path) with
  | .ok text => .ok text
  | .error _ => .error .notText

end Workspace

end CloneDetection
