import CloneDetection.Json.Basic

/-!
# Reading JSON

`parse?` reads a text that is one JSON value with nothing but JSON blanks around it. The grammar is
followed strictly: no trailing commas, no leading zeros, no control characters in strings.
-/

namespace CloneDetection.Json

/-- The characters that may stand between the tokens of a JSON text. -/
def isJsonBlank (c : Char) : Bool :=
  c == ' ' || c == '\n' || c == '\t' || c == '\r'

/-- The text after the blanks at its start. -/
def skipBlanks (cs : List Char) : List Char :=
  cs.dropWhile isJsonBlank

/-! ## Strings -/

/-- A piece of a string: a character, or a 16-bit unit written as an escape. -/
inductive Fragment
  | char (c : Char)
  | unit (n : Nat)

/-- The value of a hexadecimal digit. -/
def hexDigit? (c : Char) : Option Nat :=
  if c.isDigit then some (c.toNat - 48)
  else if 'a' ≤ c ∧ c ≤ 'f' then some (c.toNat - 87)
  else if 'A' ≤ c ∧ c ≤ 'F' then some (c.toNat - 55)
  else none

/-- The character that a one-letter escape stands for. -/
def shortEscape? (c : Char) : Option Char :=
  match c with
  | '"' => some '"'
  | '\\' => some '\\'
  | '/' => some '/'
  | 'b' => some '\x08'
  | 'f' => some '\x0c'
  | 'n' => some '\n'
  | 'r' => some '\r'
  | 't' => some '\t'
  | _ => none

/-- The fragments of a string up to its closing mark, after those of `found`, the last one first. -/
def fragments (found : List Fragment) : List Char → Option (List Fragment × List Char)
  | [] => none
  | '"' :: rest => some (found.reverse, rest)
  | '\\' :: 'u' :: a :: b :: c :: d :: rest =>
    match hexDigit? a, hexDigit? b, hexDigit? c, hexDigit? d with
    | some a, some b, some c, some d =>
      fragments (.unit (((a * 16 + b) * 16 + c) * 16 + d) :: found) rest
    | _, _, _, _ => none
  | '\\' :: c :: rest =>
    match shortEscape? c with
    | some e => fragments (.char e :: found) rest
    | none => none
  | c :: rest => if c.toNat < 0x20 || c == '\\' then none else fragments (.char c :: found) rest

/-- The text of some fragments, after that of `found`, the last character first. A surrogate needs
its partner. -/
def joinFragments (found : List Char) : List Fragment → Option String
  | [] => some (String.ofList found.reverse)
  | .char c :: rest => joinFragments (c :: found) rest
  | .unit n :: rest =>
    if n < 0xD800 ∨ 0xE000 ≤ n then joinFragments (Char.ofNat n :: found) rest
    else
      match rest with
      | .unit m :: rest =>
        if n < 0xDC00 ∧ 0xDC00 ≤ m ∧ m < 0xE000 then
          joinFragments (Char.ofNat (0x10000 + (n - 0xD800) * 0x400 + (m - 0xDC00)) :: found) rest
        else none
      | _ => none

/-- A string after its opening mark, and the text after it. -/
def string? (cs : List Char) : Option (Option String × List Char) :=
  (fragments [] cs).map fun (parts, rest) => (joinFragments [] parts, rest)

/-! ## Numbers -/

/-- The fraction at the start of a text. None when a point has no digit after it. -/
def fraction? (cs : List Char) : Option (Option (List Char) × List Char) :=
  match cs with
  | '.' :: rest =>
    let digits := rest.takeWhile Char.isDigit
    if digits.isEmpty then none else some (some digits, rest.drop digits.length)
  | _ => some (none, cs)

/-- The exponent at the start of a text. None when its letter has no digit after it. -/
def exponent? (cs : List Char) : Option (Option (Bool × List Char) × List Char) :=
  match cs with
  | [] => some (none, [])
  | c :: rest =>
    if c == 'e' || c == 'E' then
      let (below, rest) :=
        match rest with
        | '+' :: r => (false, r)
        | '-' :: r => (true, r)
        | r => (false, r)
      let digits := rest.takeWhile Char.isDigit
      if digits.isEmpty then none else some (some (below, digits), rest.drop digits.length)
    else some (none, cs)

/-- The number at the start of a text, and the text after it. -/
def number? (cs : List Char) : Option (Numeral × List Char) :=
  let (negative, cs) :=
    match cs with
    | '-' :: rest => (true, rest)
    | rest => (false, rest)
  let whole := cs.takeWhile Char.isDigit
  if whole.isEmpty || whole.head? == some '0' && 1 < whole.length then none
  else
    (fraction? (cs.drop whole.length)).bind fun (fraction, rest) =>
      (exponent? rest).map fun (exponent, rest) =>
        ({ negative, whole, fraction, exponent }, rest)

/-! ## Values -/

mutual

/-- A value at the start of a text, and the text after it. -/
def value? (fuel : Nat) (cs : List Char) : Option (Value × List Char) :=
  match fuel with
  | 0 => none
  | fuel + 1 =>
    match skipBlanks cs with
    | '"' :: rest => (string? rest).map fun (s, rest) => (.string s, rest)
    | '[' :: rest =>
      match skipBlanks rest with
      | ']' :: rest => some (.array [], rest)
      | rest => items? fuel [] rest
    | '\x7b' :: rest =>
      match skipBlanks rest with
      | '\x7d' :: rest => some (.object [], rest)
      | rest => members? fuel [] rest
    | 't' :: 'r' :: 'u' :: 'e' :: rest => some (.bool true, rest)
    | 'f' :: 'a' :: 'l' :: 's' :: 'e' :: rest => some (.bool false, rest)
    | 'n' :: 'u' :: 'l' :: 'l' :: rest => some (.null, rest)
    | rest => (number? rest).map fun (n, rest) => (.number n, rest)

/-- The items of an array up to its closing bracket, after those of `found`, the last one first. -/
def items? (fuel : Nat) (found : List Value) (cs : List Char) : Option (Value × List Char) :=
  match fuel with
  | 0 => none
  | fuel + 1 =>
    match value? fuel cs with
    | none => none
    | some (item, rest) =>
      match skipBlanks rest with
      | ',' :: rest => items? fuel (item :: found) rest
      | ']' :: rest => some (.array (item :: found).reverse, rest)
      | _ => none

/-- The members of an object up to its closing brace, after those of `found`, the last one first. -/
def members? (fuel : Nat) (found : List (Option String × Value)) (cs : List Char) :
    Option (Value × List Char) :=
  match fuel with
  | 0 => none
  | fuel + 1 =>
    match skipBlanks cs with
    | '"' :: rest =>
      match string? rest with
      | none => none
      | some (name, rest) =>
        match skipBlanks rest with
        | ':' :: rest =>
          match value? fuel rest with
          | none => none
          | some (value, rest) =>
            match skipBlanks rest with
            | ',' :: rest => members? fuel ((name, value) :: found) rest
            | '\x7d' :: rest => some (.object ((name, value) :: found).reverse, rest)
            | _ => none
        | _ => none
    | _ => none

end

/-- The value that a text writes, with nothing but blanks around it. Each nested call has read at
least every second character, so twice the length bounds their depth. -/
def parse? (text : String) : Option Value :=
  let cs := text.toList
  match value? (2 * cs.length + 2) cs with
  | some (value, rest) => if (skipBlanks rest).isEmpty then some value else none
  | none => none

end CloneDetection.Json
