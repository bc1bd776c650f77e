import CloneDetection.Path.Basic

/-!
# The roots of a detection

Each root is a directory that holds one revision, and has a label that names the revision.
`Plan.make` resolves the roots that a user gives, drops repeated ones and labels the others.
-/

namespace CloneDetection

/-- A directory that holds a revision. -/
structure Root where
  path : String
  label : String
  deriving DecidableEq, Repr

namespace Path

/-- The labels of the roots from number `index` on, when some labels are in use. A root is labelled
by the name of its directory, or by its number where it has none; a label in use is made longer by
the number. -/
def labelsFrom (index : Nat) (used : List String) : List String → List String
  | [] => []
  | root :: rest =>
    let name := (fileName? root).getD s!"rev{index}"
    let label := if used.contains name then s!"{name}#{index}" else name
    label :: labelsFrom (index + 1) (label :: used) rest

/-- The labels of some roots, in their order. -/
def labels (roots : List String) : List String :=
  labelsFrom 0 [] roots

end Path

/-- The roots of a detection, and the label of the target. -/
structure Plan where
  roots : List Root
  target : Option String
  deriving DecidableEq, Repr

namespace Plan

/-- A path added at the end of a list, unless the list has it. -/
def addPath (paths : List String) (path : String) : List String :=
  if paths.contains path then paths else paths ++ [path]

/-- The paths of some roots, taken from a directory, with the target after them, each once. -/
def paths (base : String) (roots : List String) (target : Option String) : List String :=
  ((roots ++ target.toList).map (Path.resolve base)).foldl addPath []

/-- The roots that a user gives, taken from a directory, with the target among them. -/
def make (base : String) (roots : List String) (target : Option String) : Plan :=
  let paths := Plan.paths base roots target
  let roots := List.zipWith Root.mk paths (Path.labels paths)
  { roots
    target := target.bind fun target =>
      (roots.find? (·.path == Path.resolve base target)).map (·.label) }

end Plan

end CloneDetection
