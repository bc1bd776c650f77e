import CloneDetection.Decimal.Read

/-!
# JSON values

A value keeps what a reader of it may ask for: a number as it is written, the members of an object
in order and repeated ones too, and of a string whether its escapes make up a text at all.
-/

namespace CloneDetection.Json

/-- A number as written: sign, digits before and after the point, sign and digits of the exponent. -/
structure Numeral where
  negative : Bool := false
  whole : List Char
  fraction : Option (List Char) := none
  exponent : Option (Bool × List Char) := none
  deriving DecidableEq, Repr

/-- A JSON value. A string or the name of a member is `none` when its escapes leave a surrogate
without its partner. -/
inductive Value
  | null
  | bool (b : Bool)
  | number (n : Numeral)
  | string (s : Option String)
  | array (items : List Value)
  | object (members : List (Option String × Value))

namespace Numeral

/-- A natural number as a numeral. -/
def ofNat (n : Nat) : Numeral where
  whole := Nat.toDigits 10 n

/-- The natural number below 2^64 that a numeral without sign, fraction and exponent stands for. -/
def toNat? (n : Numeral) : Option Nat :=
  if n.negative || n.fraction.isSome || n.exponent.isSome then none
  else
    let value := Decimal.ofDigits n.whole
    if value < Decimal.wordLimit then some value else none

/-- A significand of 64 bits and a power of ten. -/
structure Scaled where
  significand : Nat
  power : Int

/-- Appends digits to a significand while it stays below 2^64; the digits left over are counted. -/
def absorb (significand : Nat) : List Char → Nat × Nat
  | [] => (significand, 0)
  | c :: cs =>
    let next := 10 * significand + (c.toNat - 48)
    if next < Decimal.wordLimit then absorb next cs else (significand, cs.length + 1)

/-- The leading digits of a numeral that fit 64 bits, with their power of ten; the exponent aside.
Digits of the fraction that do not fit are dropped. -/
def leading (n : Numeral) : Scaled :=
  let (whole, beyond) := absorb 0 n.whole
  let digits := n.fraction.getD []
  let (significand, dropped) := absorb whole digits
  ⟨significand, (beyond : Int) - (digits.length - dropped : Nat)⟩

/-- Multiplies by a power of ten of the range of doubles in one step, dividing by the greatest such
power as often as the exponent is below it. None when the result is out of range. -/
def scale (x : Float) (power : Int) : Option Float :=
  if power.natAbs ≤ 308 then
    if 0 ≤ power then
      let y := x * Float.ofScientific 1 false power.toNat
      if y.isInf then none else some y
    else some (x / Float.ofScientific 1 false power.natAbs)
  else if x == 0 then some x
  else if 0 ≤ power then none
  else scale (x / Float.ofScientific 1 false 308) (power + 308)
termination_by power.natAbs
decreasing_by omega

/-- The greatest magnitude of an exponent that is read in full. -/
def exponentLimit : Nat := 0x80000000

/-- The double that a numeral stands for: its leading digits, scaled by one power of ten. None when
it is out of range. -/
def toFloat? (n : Numeral) : Option Float :=
  let lead := n.leading
  let magnitude :=
    match n.exponent with
    | none =>
      if n.fraction.isNone && lead.power == 0 then some (Float.ofNat lead.significand)
      else scale (Float.ofNat lead.significand) lead.power
    | some (below, digits) =>
      let e := Decimal.ofDigits digits
      if exponentLimit ≤ e then if lead.significand ≠ 0 ∧ !below then none else some 0
      else scale (Float.ofNat lead.significand) (if below then lead.power - e else lead.power + e)
  magnitude.map fun x => if n.negative then -x else x

end Numeral

namespace Value

/-- A text as a value. -/
def ofString (s : String) : Value :=
  .string (some s)

/-- A natural number as a value. -/
def ofNat (n : Nat) : Value :=
  .number (.ofNat n)

/-- An object with the given members. -/
def ofMembers (members : List (String × Value)) : Value :=
  .object (members.map fun (name, value) => (some name, value))

/-- A value that may be absent, as null when it is. -/
def ofOption {α : Type} (f : α → Value) : Option α → Value
  | none => .null
  | some x => f x

end Value

end CloneDetection.Json
