import CloneDetection.Ignore.Glob
import CloneDetection.Text.Blank
import CloneDetection.Text.Utf8

/-!
# Ignore files

An ignore file holds a rule a line. `Rule.parseLine` reads a line, `Rules.parse` a file, and
`Rules.verdict?` says what the rules decide about a path below the folder of the file: the last rule
that matches decides.
-/

namespace CloneDetection.Ignore

/-- A line of an ignore file. -/
structure Rule where
  /-- Whether the rule takes back what earlier ones ignore. -/
  keeps : Bool
  /-- Whether the rule is for folders only. -/
  foldersOnly : Bool
  glob : Glob
  deriving DecidableEq, Repr

/-- What a line says. -/
inductive Line
  | nothing
  | rule (rule : Rule)
  | malformed
  deriving DecidableEq, Repr

/-- What a rule decides about a path. -/
inductive Verdict
  | ignored
  | kept
  deriving DecidableEq, Repr

namespace Rule

/-- A line without the blanks at its end, unless the last one is a space after a backslash. -/
def withoutEnd (line : List Char) : List Char :=
  match line.reverse with
  | ' ' :: '\\' :: _ => line
  | reversed => (reversed.dropWhile Text.isBlank).reverse

/-- The sign at the start of a line: whether the rule keeps, whether it is anchored to the folder of
the file, and the rest. A sign after a backslash stands for itself. -/
def splitSign (line : List Char) : Bool × Bool × List Char :=
  match line with
  | '\\' :: '!' :: rest => (false, false, '!' :: rest)
  | '\\' :: '#' :: rest => (false, false, '#' :: rest)
  | '!' :: '/' :: rest => (true, true, rest)
  | '!' :: rest => (true, false, rest)
  | '/' :: rest => (false, true, rest)
  | rest => (false, false, rest)

/-- A slash at the end, which makes a rule one for folders, and the rest. A backslash before it says
nothing. -/
def splitSlash (line : List Char) : Bool × List Char :=
  match line.reverse with
  | '/' :: '\\' :: rest => (true, rest.reverse)
  | '/' :: rest => (true, rest.reverse)
  | _ => (false, line)

/-- The glob of a rule. Without a slash in it a rule holds at any depth; where it ends in whole
segments, it holds for what is below a folder and not for the folder. -/
def globText (anchored : Bool) (line : List Char) : List Char :=
  let anywhere := !anchored && !line.contains '/' && line != ['*', '*']
  let line := if anywhere then '*' :: '*' :: '/' :: line else line
  if ['*', '*', '/'].isPrefixOf line.reverse then line ++ ['/', '*'] else line

/-- What a line says. -/
def parseLine (line : String) : Line :=
  if line.toList.head? = some '#' then .nothing
  else
    match withoutEnd line.toList with
    | [] => .nothing
    | line =>
      let (keeps, anchored, line) := splitSign line
      let (foldersOnly, line) := splitSlash line
      match Glob.parse? (String.ofList (globText anchored line)) with
      | none => .malformed
      | some glob => .rule { keeps, foldersOnly, glob }

/-- Whether a rule is about a path. -/
def applies (rule : Rule) (path : List UInt8) (isFolder : Bool) : Bool :=
  (isFolder || !rule.foldersOnly) && rule.glob.accepts path

end Rule

namespace Rules

/-- The lines of a file without their ends, the bytes of `read`, the last one first, before the rest.
A line ends in a line feed, with or without a carriage return. -/
def splitLines (read : List UInt8) : List UInt8 → List (List UInt8)
  | [] => [read.reverse]
  | b :: rest =>
    if b = 0x0a then
      let line := if read.head? = some 0x0d then read.tail else read
      line.reverse :: splitLines [] rest
    else splitLines (b :: read) rest

/-- The lines up to the first one that is not text. -/
def textLines (content : ByteArray) : List String :=
  ((splitLines [] content.toList).map fun line => (Text.decode ⟨line.toArray⟩).toOption)
    |>.takeWhile Option.isSome |>.filterMap id

/-- Lines without the byte order marks at the start. -/
def withoutMark (lines : List String) : List String :=
  match lines with
  | [] => []
  | first :: rest => String.ofList (first.toList.dropWhile (· == '\ufeff')) :: rest

/-- What the lines of an ignore file say. -/
def parseLines (content : ByteArray) : List Line :=
  (withoutMark (textLines content)).map Rule.parseLine

/-- The rules of an ignore file. A malformed line has none. -/
def parse (content : ByteArray) : List Rule :=
  (parseLines content).filterMap fun
    | .rule rule => some rule
    | _ => none

/-- What some rules decide about a path, if they decide anything. -/
def verdict? (rules : List Rule) (path : List UInt8) (isFolder : Bool) : Option Verdict :=
  (rules.reverse.find? (·.applies path isFolder)).map fun rule =>
    if rule.keeps then .kept else .ignored

end Rules

end CloneDetection.Ignore
