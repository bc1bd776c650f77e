/-!
# The shortest decimal of a double

`shortest` gives the fewest decimal digits that read back as a positive double, and of those the
nearest to it; `positional` writes a finite double with them, without an exponent.

A positive double is `m * 2 ^ q`. The reals that round to it form an interval around it that reaches
half way to its neighbours, ends included exactly when `m` is even. Multiples of `10 ^ k` are tried
for falling `k`; the first grid with a point in the interval has the fewest digits.
-/

namespace CloneDetection.Decimal

/-- A positive double `m * 2 ^ q` with the reals that round to it, all scaled by one factor that
makes them natural numbers: `value`, `low` and `high` are the double and the ends of the interval,
and `unit` is the scaled one. -/
structure Interval where
  unit : Nat
  value : Nat
  low : Nat
  high : Nat
  closed : Bool
  deriving Repr

namespace Interval

/-- The interval of `m * 2 ^ q`. The lower neighbour of a power of two is half as far away, unless
the double is subnormal. -/
def ofParts (m : Nat) (q : Int) (lowerIsNear : Bool) : Interval :=
  let shift := if 2 ≤ q then 1 <<< (q - 2).toNat else 1
  { unit := if q < 2 then 1 <<< (2 - q).toNat else 1
    value := 4 * m * shift
    low := (4 * m - if lowerIsNear then 1 else 2) * shift
    high := (4 * m + 2) * shift
    closed := m % 2 == 0 }

/-- Whether a scaled real lies in the interval. -/
def contains (i : Interval) (x : Nat) : Bool :=
  if i.closed then i.low ≤ x && x ≤ i.high else i.low < x && x < i.high

/-- The point of the interval on the grid of the scaled multiples of `step`, if there is one: the
nearer of the two neighbours of the value, and of two equally near ones the greater. -/
def gridPoint? (i : Interval) (step : Nat) : Option Nat :=
  let below := i.value / step
  let rest := i.value % step
  match i.contains (below * step), i.contains ((below + 1) * step) with
  | true, true => some (if step ≤ 2 * rest then below + 1 else below)
  | true, false => some below
  | false, true => some (below + 1)
  | false, false => none

end Interval

/-- The first grid, from `10 ^ k` downwards, with a point in the interval: the point's multiple and
the exponent. At most `fuel` grids are tried. -/
def search (i : Interval) (k : Int) : Nat → Nat × Int
  | 0 => (i.value, k)
  | fuel + 1 =>
    let found :=
      if 0 ≤ k then i.gridPoint? (i.unit * 10 ^ k.toNat)
      else
        let scale := 10 ^ (-k).toNat
        { i with value := i.value * scale, low := i.low * scale, high := i.high * scale }.gridPoint?
          i.unit
    match found with
    | some d => (d, k)
    | none => search i (k - 1) fuel

/-- The number of decimal digits of a natural number, one for zero. -/
def digitCount (n : Nat) : Nat :=
  (Nat.toDigits 10 n).length

/-- The digits `d` and exponent `e` of the shortest decimal `d * 10 ^ e` of a positive double with
the given bits. -/
def shortest (bits : UInt64) : Nat × Int :=
  let mantissa := (bits &&& 0xFFFFFFFFFFFFF).toNat
  let exponent := ((bits >>> 52) &&& 0x7FF).toNat
  let interval :=
    if exponent = 0 then Interval.ofParts mantissa (-1074) false
    else
      Interval.ofParts (mantissa + 0x10000000000000) (exponent - 1075) (mantissa == 0 && exponent != 1)
  -- no point of the grid above the leading digit of the value is in the interval but its successor
  let top : Int := digitCount (interval.value / interval.unit)
  search interval top 400

/-- Writes `d * 10 ^ e` in positional notation, without zeros at the end of a fraction. -/
def positionalDigits (d : Nat) (e : Int) : List Char :=
  let digits := Nat.toDigits 10 d
  if 0 ≤ e then
    if d = 0 then digits else digits ++ List.replicate e.toNat '0'
  else
    let places := (-e).toNat
    let padded := List.replicate (places + 1 - digits.length) '0' ++ digits
    let whole := padded.take (padded.length - places)
    let fraction := ((padded.drop whole.length).reverse.dropWhile (· == '0')).reverse
    if fraction.isEmpty then whole else whole ++ '.' :: fraction

/-- A finite double in positional notation, with the fewest digits that read back. -/
def positional (x : Float) : String :=
  let bits := x.toBits
  let sign := if bits >>> 63 == 0 then [] else ['-']
  let magnitude := bits &&& 0x7FFFFFFFFFFFFFFF
  if magnitude == 0 then String.ofList (sign ++ ['0'])
  else
    let (d, e) := shortest magnitude
    String.ofList (sign ++ positionalDigits d e)

end CloneDetection.Decimal
