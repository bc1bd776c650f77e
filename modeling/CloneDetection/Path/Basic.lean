/-!
# Paths

A path is a text whose slashes separate segments. `components` reads it as a list of steps: empty
segments say nothing, and neither does `.`, unless a relative path starts with it. `render` writes
steps as a path, and `normalize` carries out the steps that can be carried out without looking at
any directory.
-/

namespace CloneDetection.Path

/-- A step of a path. -/
inductive Component
  | root
  | here
  | parent
  | name (segment : String)
  deriving DecidableEq, Repr

/-! ## Reading -/

/-- The segments of a text between its slashes, those of `read`, the last character first, before
the first slash of the rest. There is always one. -/
def segmentsFrom (read : List Char) : List Char → List String
  | [] => [String.ofList read.reverse]
  | c :: rest =>
    if c = '/' then String.ofList read.reverse :: segmentsFrom [] rest
    else segmentsFrom (c :: read) rest

/-- The segments of a path between its slashes. -/
def segments (path : String) : List String :=
  segmentsFrom [] path.toList

/-- Whether a segment says nothing inside a path. -/
def isIdle (segment : String) : Bool :=
  segment == "" || segment == "."

/-- The step that a segment stands for. -/
def Component.ofSegment (segment : String) : Component :=
  if segment = ".." then .parent else .name segment

/-- The steps of some segments, each with the segments after it. -/
def stepsOf : List String → List (Component × List String)
  | [] => []
  | segment :: rest =>
    if isIdle segment then stepsOf rest else (.ofSegment segment, rest) :: stepsOf rest

/-- Whether a path starts at the root. -/
def isAbsolute (path : String) : Bool :=
  path.toList.head? == some '/'

/-- The steps of a path, each with the segments after it. -/
def steps (path : String) : List (Component × List String) :=
  match segments path with
  | [] => []
  | first :: rest =>
    if isAbsolute path then (.root, rest) :: stepsOf rest
    else if first == "." then (.here, rest) :: stepsOf rest
    else stepsOf (first :: rest)

/-- The steps of a path. -/
def components (path : String) : List Component :=
  (steps path).map (·.1)

/-! ## Writing -/

/-- A step as a segment. The root is the empty one. -/
def Component.segment : Component → String
  | root => ""
  | here => "."
  | parent => ".."
  | name segment => segment

/-- Steps as a path. -/
def render (steps : List Component) : String :=
  match steps with
  | [.root] => "/"
  | steps => "/".intercalate (steps.map Component.segment)

/-! ## Normal form -/

/-- One more step after some that are in normal form, the last step first. The parent of a step is
what stood before it, the root is its own parent, and a parent that nothing stands before stays. -/
def normalizeStep (done : List Component) (step : Component) : List Component :=
  match step with
  | .here => done
  | .parent =>
    match done with
    | [] => [.parent]
    | [.root] => [.root]
    | _ :: before => before
  | step => step :: done

/-- Steps with every `.` and, where a step stands before it, every `..` carried out. -/
def normalizeSteps (steps : List Component) : List Component :=
  (steps.foldl normalizeStep []).reverse

/-- A path in normal form. -/
def normalize (path : String) : String :=
  render (normalizeSteps (components path))

/-- A path taken from a directory: an absolute path stays. -/
def join (base path : String) : String :=
  if isAbsolute path then path
  else if base = "" || base.toList.getLast? == some '/' then base ++ path
  else base ++ "/" ++ path

/-- A path in normal form, taken from a directory. -/
def resolve (base path : String) : String :=
  normalize (join base path)

/-! ## Names -/

/-- The name at the end of a path. -/
def fileName? (path : String) : Option String :=
  match (components path).getLast? with
  | some (.name name) => some name
  | _ => none

/-- What follows the last `mark` of some items. A mark at the start does not count. -/
def afterLast? {α : Type} [BEq α] (mark : α) (items : List α) : Option (List α) :=
  let ending := (items.reverse.takeWhile (· != mark)).reverse
  if items.length - ending.length ≤ 1 then none else some ending

/-- What follows the last dot of a name. A dot at the start does not count. -/
def extensionOf? (name : String) : Option String :=
  (afterLast? '.' name.toList).map String.ofList

/-- The extension of the name at the end of a path. -/
def extension? (path : String) : Option String :=
  (fileName? path).bind extensionOf?

/-! ## Paths below a directory -/

/-- Segments without the idle ones at the end. -/
def trimEnd (segments : List String) : List String :=
  (segments.reverse.dropWhile isIdle).reverse

/-- The segments after the steps of a directory, if those are the first steps. -/
def afterSteps? : List Component → List (Component × List String) → Option (List String)
  | [], _ => none
  | [base], (step, rest) :: _ => if base = step then some rest else none
  | base :: bases, (step, _) :: steps => if base = step then afterSteps? bases steps else none
  | _, [] => none

/-- A whole path without what is idle at its end. -/
def trimmed (path : String) : String :=
  match segments path with
  | [] => ""
  | first :: rest =>
    if isAbsolute path then "/" ++ "/".intercalate (trimEnd rest)
    else if first == "." then "/".intercalate (first :: trimEnd rest)
    else "/".intercalate (trimEnd (first :: rest))

/-- The rest of a path below a directory, as it is written in the path. -/
def below? (base path : String) : Option String :=
  match components base with
  | [] => some (trimmed path)
  | bases =>
    (afterSteps? bases (steps path)).map fun rest =>
      "/".intercalate (trimEnd (rest.dropWhile isIdle))

/-- A text with a slash for each backslash. -/
def withSlashes (text : String) : String :=
  String.ofList (text.toList.map fun c => if c = '\\' then '/' else c)

/-- The identifier of a file below a directory: its path from there, with a slash for each
backslash. The directory itself has none. -/
def fileId? (base path : String) : Option String :=
  ((below? base path).map withSlashes).filter (· != "")

end CloneDetection.Path
