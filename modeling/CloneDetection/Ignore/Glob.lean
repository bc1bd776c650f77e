import CloneDetection.FileTree.Name

/-!
# Globs

A glob is a pattern for the paths below a folder. `?` and `*` stand for characters other than the
slash, `**` as a whole segment for any number of segments, brackets for one character of a set and
braces for a choice. `Glob.parse?` reads a glob, `Glob.accepts` compares it with a path, byte by
byte.
-/

namespace CloneDetection.Ignore

open FileName (slash)

/-! ## Atoms -/

/-- A pattern without choices is a list of atoms. -/
inductive Atom
  /-- The character itself. -/
  | char (c : Char)
  /-- One byte other than the slash. -/
  | one
  /-- Any number of bytes other than the slash. -/
  | many
  /-- One byte of a set, or outside it. -/
  | set (negated : Bool) (ranges : List (Char × Char))
  /-- Any number of whole segments at the start. -/
  | leading
  /-- Any number of whole segments between two slashes, which may be one slash. -/
  | between
  /-- A slash and all that follows. -/
  | trailing
  /-- Everything. -/
  | all
  deriving DecidableEq, Repr

/-- The bytes of a character. -/
def charBytes (c : Char) : List UInt8 :=
  (String.singleton c).toUTF8.toList

/-- The rests of a path, the whole and the empty one included. -/
def rests : List UInt8 → List (List UInt8)
  | [] => [[]]
  | b :: bs => (b :: bs) :: rests bs

/-- The rests of a path up to its first slash. -/
def restsInSegment : List UInt8 → List (List UInt8)
  | [] => [[]]
  | b :: bs => (b :: bs) :: if b = slash then [] else restsInSegment bs

/-- What follows each slash of a path. -/
def restsAfterSlash : List UInt8 → List (List UInt8)
  | [] => []
  | b :: bs => if b = slash then bs :: restsAfterSlash bs else restsAfterSlash bs

/-- The ranges of bytes that a range of characters stands for. The bytes before the last one of its
first character, and those after the first one of its last character, count each for itself. -/
def byteRanges (range : Char × Char) : List (UInt8 × UInt8) :=
  let low := charBytes range.1
  let high := charBytes range.2
  let single (bs : List UInt8) := bs.map fun b => (b, b)
  if range.1 = range.2 then single low
  else
    single low.dropLast ++ [(low.getLastD 0, high.headD 0)] ++ single high.tail

/-- Whether a byte is in a set. -/
def inSet (ranges : List (Char × Char)) (b : UInt8) : Bool :=
  (ranges.flatMap byteRanges).any fun (low, high) => low ≤ b && b ≤ high

/-- What can be left of a path when an atom has taken its part from the start. -/
def Atom.leave (atom : Atom) (path : List UInt8) : List (List UInt8) :=
  match atom, path with
  | .char c, path =>
    let bytes := charBytes c
    if bytes.isPrefixOf path then [path.drop bytes.length] else []
  | .one, b :: bs => if b = slash then [] else [bs]
  | .many, path => restsInSegment path
  | .set negated ranges, b :: bs => if inSet ranges b != negated then [bs] else []
  | .leading, path => path :: restsAfterSlash path
  | .between, b :: bs => if b = slash then bs :: restsAfterSlash bs else []
  | .trailing, b :: bs => if b = slash then rests bs else []
  | .all, _ => [[]]
  | _, [] => []

/-- What can be left of some paths when atoms have taken their parts one after the other, each rest
once. -/
def leaveAll (atoms : List Atom) (paths : List (List UInt8)) : List (List UInt8) :=
  atoms.foldl (fun paths atom => (paths.flatMap atom.leave).eraseDups) paths

/-- Whether atoms can take a whole path. -/
def covers (atoms : List Atom) (path : List UInt8) : Bool :=
  (leaveAll atoms [path]).any List.isEmpty

/-! ## Choices -/

/-- A part of a glob. -/
inductive Part
  | atom (atom : Atom)
  | choice (branches : List (List Part))

mutual

/-- The patterns without choices that the parts stand for. -/
def expand : List Part → List (List Atom)
  | [] => [[]]
  | .atom a :: parts => (expand parts).map (a :: ·)
  | .choice branches :: parts =>
    let heads := expandBranches branches
    (if heads.isEmpty then [[]] else heads).flatMap fun head => (expand parts).map (head ++ ·)

/-- The patterns of some branches. An empty branch does not count. -/
def expandBranches : List (List Part) → List (List Atom)
  | [] => []
  | branch :: branches => (expand branch).filter (!·.isEmpty) ++ expandBranches branches

end

/-! ## Reading -/

/-- What stands between brackets. -/
inductive SetReading
  /-- A set, with the number of characters up to its closing bracket. -/
  | closed (negated : Bool) (ranges : List (Char × Char)) (length : Nat)
  /-- No closing bracket follows. -/
  | unclosed
  /-- A range ends before it starts. -/
  | reversed

/-- Reads a set after some ranges, the last one first, of which the last is still open if `ranging`,
and `length` characters. A closing bracket and a dash at the start stand for themselves, and so does
a dash at the end. -/
def readSetFrom (negated : Bool) (ranges : List (Char × Char)) (ranging : Bool) (length : Nat) :
    List Char → SetReading
  | [] => .unclosed
  | c :: rest =>
    match ranges with
    | [] => readSetFrom negated [(c, c)] false (length + 1) rest
    | (low, high) :: others =>
      if c = ']' then
        let ranges := if ranging then ('-', '-') :: ranges else ranges
        .closed negated ranges.reverse (length + 1)
      else if ranging then
        if c < low then .reversed
        else readSetFrom negated ((low, c) :: others) false (length + 1) rest
      else if c = '-' then readSetFrom negated ((low, high) :: others) true (length + 1) rest
      else readSetFrom negated ((c, c) :: ranges) false (length + 1) rest

/-- Reads a set after its opening bracket. -/
def readSet : List Char → SetReading
  | [] => .unclosed
  | c :: rest =>
    if c = '!' || c = '^' then readSetFrom true [] false 1 rest
    else readSetFrom false [] false 0 (c :: rest)

/-- A glob while it is read: the parts of the branch that is being read, the last one first, and for
each choice around it the parts before the choice and the finished branches, the last ones first. -/
structure Reading where
  parts : List Part := []
  choices : List (List Part × List (List Part)) := []

namespace Reading

/-- The reading after one more atom. -/
def push (r : Reading) (atom : Atom) : Reading :=
  { r with parts := .atom atom :: r.parts }

/-- The reading after an opening brace. -/
def openChoice (r : Reading) : Reading :=
  { parts := [], choices := (r.parts, []) :: r.choices }

/-- The reading after a comma, which is an ordinary character outside choices. -/
def comma (r : Reading) : Reading :=
  match r.choices with
  | [] => r.push (.char ',')
  | (before, done) :: choices => { parts := [], choices := (before, r.parts.reverse :: done) :: choices }

/-- The reading after a closing brace, if a choice is open. -/
def closeChoice? (r : Reading) : Option Reading :=
  match r.choices with
  | [] => none
  | (before, done) :: choices =>
    some { parts := .choice (r.parts.reverse :: done).reverse :: before, choices }

/-- Puts whole segments in the place of the slash before two stars. -/
def replaceSlash (r : Reading) (atom : Atom) : Reading :=
  match r.parts with
  | .atom .leading :: _ => r
  | .atom .trailing :: _ => r
  | _ :: before => { r with parts := .atom atom :: before }
  | [] => r

/-- The reading after two stars between the given characters, and whether the next character belongs
to them. They stand for whole segments where they make up a segment, else for two single stars. -/
def doubleStar (r : Reading) (previous next : Option Char) : Reading × Bool :=
  let plain := (r.push .many).push .many
  let inside := !r.choices.isEmpty
  if r.parts.isEmpty then
    if next.isNone then (r.push .leading, false)
    else if next = some '/' then (r.push .leading, true)
    else (plain, false)
  else if previous ≠ some '/' && !(inside && (previous = some ',' || previous = some '\x7b')) then
    (plain, false)
  else if next.isNone || inside && (next = some ',' || next = some '\x7d') then
    (r.replaceSlash .trailing, false)
  else if next = some '/' then (r.replaceSlash .between, true)
  else (plain, false)

end Reading

/-- Reads a glob after some of it, which ended in `previous`. Without `sets` an opening bracket stands
for itself: it is so from the first one on that is not closed. -/
def readParts (sets : Bool) (previous : Option Char) (r : Reading) :
    List Char → Option (List Part)
  | [] => if r.choices.isEmpty then some r.parts.reverse else none
  | '?' :: rest => readParts sets (some '?') (r.push .one) rest
  | '*' :: '*' :: rest =>
    let (r, taken) := r.doubleStar previous rest.head?
    if taken then readParts sets (some '/') r (rest.drop 1) else readParts sets (some '*') r rest
  | '*' :: rest => readParts sets (some '*') (r.push .many) rest
  | '[' :: rest =>
    if sets then
      match readSet rest with
      | .closed negated ranges length =>
        readParts sets (some ']') (r.push (.set negated ranges)) (rest.drop length)
      | .unclosed => readParts false (some '[') (r.push (.char '[')) rest
      | .reversed => none
    else readParts sets (some '[') (r.push (.char '[')) rest
  | '\x7b' :: rest => readParts sets (some '\x7b') r.openChoice rest
  | '\x7d' :: rest =>
    match r.closeChoice? with
    | some r => readParts sets (some '\x7d') r rest
    | none => none
  | ',' :: rest => readParts sets (some ',') r.comma rest
  | '\\' :: c :: rest => readParts sets (some c) (r.push (.char c)) rest
  | ['\\'] => none
  | c :: rest => readParts sets (some c) (r.push (.char c)) rest
termination_by chars => chars.length
decreasing_by all_goals simp_wf; try omega

/-- The patterns of a glob, any of which a path may match. -/
structure Glob where
  patterns : List (List Atom)
  deriving DecidableEq, Repr

namespace Glob

/-- Reads a glob. A choice that is not closed or not opened, a range that ends before it starts and
a backslash at the end make a text no glob. -/
def parse? (text : String) : Option Glob := do
  match ← readParts true none {} text.toList with
  | [.atom .leading] => some ⟨[[.all]]⟩
  | parts => some ⟨expand parts⟩

/-- Whether a path matches. -/
def accepts (glob : Glob) (path : List UInt8) : Bool :=
  glob.patterns.any (covers · path)

end Glob

end CloneDetection.Ignore
