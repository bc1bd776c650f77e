import CloneDetection.Grammar.Basic

/-!
# String, character and pattern literals

Where a literal ends. Every function here takes the text after the opening mark and adds the number
of characters up to and with the closing mark to `n`; a literal that is not closed has no length.

* `quotedLength`: between two equal marks, `tripleLength`: between two runs of three;
* `verbatimLength`: a doubled mark stands for one and a backslash is plain;
* `rawLength`: up to a mark with as many `#` as at the opening;
* `regexLength`: a pattern between slashes, with the letters after it.
-/

namespace CloneDetection.Lexeme

/-- The rest of a literal between two marks of the given kind. -/
def quotedLength (q : Quote) (n : Nat) : List Char → Option Nat
  | [] => none
  | c :: cs =>
    if q.escapes && c == '\\' then
      match cs with
      | [] => none
      | _ :: rest => quotedLength q (n + 2) rest
    else if c = q.mark then some (n + 1)
    else if c == '\n' && !q.multiline then none
    else quotedLength q (n + 1) cs

/-- The rest of a literal between two runs of three marks. A longer run closes with its last mark. -/
def tripleLength (mark : Char) (escapes : Bool) (n : Nat) : List Char → Option Nat
  | [] => none
  | c :: cs =>
    if escapes && c == '\\' then
      match cs with
      | [] => none
      | _ :: rest => tripleLength mark escapes (n + 2) rest
    else if [mark, mark, mark].isPrefixOf (c :: cs) then
      some (n + ((c :: cs).takeWhile (· == mark)).length)
    else tripleLength mark escapes (n + 1) cs

/-- The rest of a literal in which a doubled mark stands for one. -/
def verbatimLength (n : Nat) : List Char → Option Nat
  | [] => none
  | '"' :: '"' :: cs => verbatimLength (n + 2) cs
  | c :: cs => if c = '"' then some (n + 1) else verbatimLength (n + 1) cs

/-- The rest of a literal that a mark with `hashes` signs `#` closes. -/
def rawLength (hashes n : Nat) : List Char → Option Nat
  | [] => none
  | c :: cs =>
    if c == '"' && (List.replicate hashes '#').isPrefixOf cs then some (n + 1 + hashes)
    else rawLength hashes (n + 1) cs

/-- The number of characters up to and with the mark that opens a raw literal, and the number of
signs `#` in front of that mark. -/
def rawOpening? (cs : List Char) : Option (Nat × Nat) :=
  let afterLetter :=
    match cs with
    | 'b' :: 'r' :: rest | 'c' :: 'r' :: rest => some (2, rest)
    | 'r' :: rest => some (1, rest)
    | _ => none
  afterLetter.bind fun (letters, rest) =>
    let hashes := (rest.takeWhile (· == '#')).length
    if (rest.drop hashes).head? = some '"' then some (letters + hashes + 1, hashes) else none

/-- The rest of a pattern with the letters after its closing slash. A slash between brackets does
not close, and a pattern ends on its line. -/
def regexLength (inBrackets : Bool) (n : Nat) : List Char → Option Nat
  | [] => none
  | ['\\'] => none
  | '\\' :: c :: cs => if c = '\n' then none else regexLength inBrackets (n + 2) cs
  | c :: cs =>
    if c = '\n' then none
    else if c == '/' && !inBrackets then some (n + 1 + (cs.takeWhile Char.isAlpha).length)
    else regexLength (c == '[' || inBrackets && c != ']') (n + 1) cs

end CloneDetection.Lexeme
