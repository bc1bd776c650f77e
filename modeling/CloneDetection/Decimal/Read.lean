/-!
# Reading decimals

* `natural?` reads a natural number of at most 64 bits, with an optional `+`;
* `float?` reads a decimal with a sign, a point and an exponent, an infinity or a NaN as the nearest
  double.
-/

namespace CloneDetection.Decimal

/-- One more than the greatest natural number of 64 bits. -/
def wordLimit : Nat := 0x10000000000000000

/-- The value of a run of decimal digits. -/
def ofDigits (digits : List Char) : Nat :=
  digits.foldl (fun n c => 10 * n + (c.toNat - 48)) 0

/-- The natural number below `wordLimit` that a text writes with at least one decimal digit and an
optional `+`. -/
def natural? (text : String) : Option Nat :=
  let digits :=
    match text.toList with
    | '+' :: rest => rest
    | cs => cs
  if !digits.isEmpty && digits.all Char.isDigit then
    let n := ofDigits digits
    if n < wordLimit then some n else none
  else none

/-- The double nearest to `n * 10 ^ e`. Exponents beyond the range of doubles are cut off first, so
that no huge power is computed. -/
def scaled (n : Nat) (e : Int) : Float :=
  let length : Int := (Nat.toDigits 10 n).length
  if n = 0 || e + length < -400 then 0
  else if 400 < e + length then 1.0 / 0.0
  else if 0 ≤ e then Float.ofScientific n false e.toNat
  else Float.ofScientific n true (-e).toNat

/-- The exponent that a text writes after the letter `e`, nothing being no exponent. -/
def exponent? (cs : List Char) : Option Int :=
  match cs with
  | [] => some 0
  | c :: rest =>
    if c == 'e' || c == 'E' then
      let (negative, digits) :=
        match rest with
        | '-' :: r => (true, r)
        | '+' :: r => (false, r)
        | r => (false, r)
      if !digits.isEmpty && digits.all Char.isDigit then
        let n : Int := ofDigits digits
        some (if negative then -n else n)
      else none
    else none

/-- The magnitude that a text without a sign writes. -/
def magnitude? (cs : List Char) : Option Float :=
  let word := cs.map Char.toLower
  if word == ['i', 'n', 'f'] || word == ['i', 'n', 'f', 'i', 'n', 'i', 't', 'y'] then
    some (1.0 / 0.0)
  else if word == ['n', 'a', 'n'] then some (0.0 / 0.0)
  else
    let whole := cs.takeWhile Char.isDigit
    let afterWhole := cs.drop whole.length
    let fraction :=
      match afterWhole with
      | '.' :: rest => rest.takeWhile Char.isDigit
      | _ => []
    let afterFraction :=
      match afterWhole with
      | '.' :: rest => rest.drop fraction.length
      | rest => rest
    if whole.isEmpty && fraction.isEmpty then none
    else
      (exponent? afterFraction).map fun e =>
        scaled (ofDigits (whole ++ fraction)) (e - fraction.length)

/-- The double that a text writes. -/
def float? (text : String) : Option Float :=
  match text.toList with
  | '-' :: rest => (magnitude? rest).map (- ·)
  | '+' :: rest => magnitude? rest
  | cs => magnitude? cs

end CloneDetection.Decimal
