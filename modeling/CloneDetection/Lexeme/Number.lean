/-!
# Number literals

A number is read generously: letters, digits and `_` belong to it, a dot or an apostrophe does in
front of a digit, and a sign does between an exponent letter and a digit unless the number is
hexadecimal.
-/

namespace CloneDetection.Lexeme

/-- Whether a text starts with a decimal digit. -/
def startsWithDigit : List Char → Bool
  | [] => false
  | c :: _ => c.isDigit

/-- Whether a number is written in base sixteen. -/
def isHexNumber : List Char → Bool
  | '0' :: 'x' :: _ | '0' :: 'X' :: _ => true
  | _ => false

/-- The characters of the rest of a number, added to `n`; `afterExponent` tells whether the last
character was an exponent letter. -/
def numberRest (hex afterExponent : Bool) (n : Nat) : List Char → Nat
  | [] => n
  | c :: cs =>
    if c.isAlphanum || c == '_' then numberRest hex (c == 'e' || c == 'E') (n + 1) cs
    else if (c == '\'' || c == '.') && startsWithDigit cs then numberRest hex false (n + 1) cs
    else if (c == '+' || c == '-') && !hex && afterExponent && startsWithDigit cs then
      numberRest hex false (n + 1) cs
    else n

/-- The characters of the number at the start of a text. -/
def numberLength (cs : List Char) : Nat :=
  numberRest (isHexNumber cs) false 0 cs

end CloneDetection.Lexeme
