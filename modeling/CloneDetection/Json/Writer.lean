import CloneDetection.Json.Basic

/-!
# Writing JSON

`Value.pretty` writes a value over several lines, two spaces a level, the members of an object in
their order. `Value.compact` writes it on one line.
-/

namespace CloneDetection.Json

/-- A character inside a string. -/
def escapeChar (c : Char) : List Char :=
  if c = '"' then ['\\', '"']
  else if c = '\\' then ['\\', '\\']
  else if c = '\x08' then ['\\', 'b']
  else if c = '\x0c' then ['\\', 'f']
  else if c = '\n' then ['\\', 'n']
  else if c = '\r' then ['\\', 'r']
  else if c = '\t' then ['\\', 't']
  else if c.toNat < 0x20 then
    ['\\', 'u', '0', '0', (c.toNat / 16).digitChar, (c.toNat % 16).digitChar]
  else [c]

/-- A text between quotation marks. -/
def quote (s : String) : String :=
  "\"" ++ String.ofList (s.toList.flatMap escapeChar) ++ "\""

/-- The text of a string, empty when it is none. -/
def quoteOption (s : Option String) : String :=
  quote (s.getD "")

/-- A numeral as it is written. -/
def Numeral.write (n : Numeral) : String :=
  let sign := if n.negative then "-" else ""
  let fraction :=
    match n.fraction with
    | none => ""
    | some digits => "." ++ String.ofList digits
  let exponent :=
    match n.exponent with
    | none => ""
    | some (below, digits) => (if below then "e-" else "e") ++ String.ofList digits
  sign ++ String.ofList n.whole ++ fraction ++ exponent

/-- The indentation of a level. -/
def indent (level : Nat) : String :=
  String.ofList (List.replicate (2 * level) ' ')

/-- Items on lines of their own between two brackets. -/
def block (opening closing : String) (level : Nat) (items : List String) : String :=
  let lines := items.map (indent (level + 1) ++ ·)
  opening ++ "\n" ++ ",\n".intercalate lines ++ "\n" ++ indent level ++ closing

namespace Value

mutual

/-- A value over several lines, as part of a text at the given level. -/
def prettyAt (level : Nat) : Value → String
  | .null => "null"
  | .bool b => if b then "true" else "false"
  | .number n => n.write
  | .string s => quoteOption s
  | .array [] => "[]"
  | .array items => block "[" "]" level (prettyItems (level + 1) items)
  | .object [] => "\x7b\x7d"
  | .object members => block "\x7b" "\x7d" level (prettyMembers (level + 1) members)

/-- The items of an array, each over several lines. -/
def prettyItems (level : Nat) : List Value → List String
  | [] => []
  | item :: items => prettyAt level item :: prettyItems level items

/-- The members of an object, each over several lines. -/
def prettyMembers (level : Nat) : List (Option String × Value) → List String
  | [] => []
  | (name, value) :: members =>
    (quoteOption name ++ ": " ++ prettyAt level value) :: prettyMembers level members

end

/-- A value over several lines. -/
def pretty (value : Value) : String :=
  value.prettyAt 0

mutual

/-- A value on one line. -/
def compact : Value → String
  | .null => "null"
  | .bool b => if b then "true" else "false"
  | .number n => n.write
  | .string s => quoteOption s
  | .array items => "[" ++ ",".intercalate (compactItems items) ++ "]"
  | .object members => "\x7b" ++ ",".intercalate (compactMembers members) ++ "\x7d"

/-- The items of an array, each on one line. -/
def compactItems : List Value → List String
  | [] => []
  | item :: items => compact item :: compactItems items

/-- The members of an object, each on one line. -/
def compactMembers : List (Option String × Value) → List String
  | [] => []
  | (name, value) :: members =>
    (quoteOption name ++ ":" ++ compact value) :: compactMembers members

end

end Value

end CloneDetection.Json
