/-!
# Comments and directives

Where a comment or a directive ends. Each function counts the characters it takes from the text, so
that what is taken and what is left always make up the text. A block comment that is not closed has
no length.

* `lineLength`: up to the end of the line, without carriage returns before it;
* `directiveLength`: up to the first line end that no backslash escapes;
* `nestedLength`, `flatLength`: up to the closing mark of a block comment.
-/

namespace CloneDetection.Lexeme

/-- The characters of the first line, without the carriage returns at its end. -/
def lineLength (cs : List Char) : Nat :=
  let line := cs.takeWhile (· != '\n')
  (line.reverse.dropWhile (· == '\r')).length

/-- The characters up to the first line end that no backslash escapes, added to `n`. -/
def directiveLength (n : Nat) : List Char → Nat
  | [] => n
  | '\\' :: '\n' :: cs => directiveLength (n + 2) cs
  | '\\' :: '\r' :: '\n' :: cs => directiveLength (n + 3) cs
  | c :: cs => if c = '\n' then n else directiveLength (n + 1) cs

/-- The characters of the body of a comment up to and with the mark that closes its level `depth`,
added to `n`. A mark that opens a comment inside raises the level. -/
def nestedLength (depth n : Nat) : List Char → Option Nat
  | [] => none
  | '*' :: '/' :: cs => if depth ≤ 1 then some (n + 2) else nestedLength (depth - 1) (n + 2) cs
  | '/' :: '*' :: cs => nestedLength (depth + 1) (n + 2) cs
  | _ :: cs => nestedLength depth (n + 1) cs

/-- The characters of the body of a comment up to and with the first closing mark, added to `n`. -/
def flatLength (n : Nat) : List Char → Option Nat
  | [] => none
  | '*' :: '/' :: _ => some (n + 2)
  | _ :: cs => flatLength (n + 1) cs

/-- The length of a block comment whose opening mark is the start of the text. -/
def blockLength (nested : Bool) (cs : List Char) : Option Nat :=
  if nested then nestedLength 1 2 (cs.drop 2) else flatLength 2 (cs.drop 2)

end CloneDetection.Lexeme
