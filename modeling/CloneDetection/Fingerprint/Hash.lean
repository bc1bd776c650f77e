/-!
# Hashes of runs of symbols

The hash of `k` symbols is the value, modulo 2^64, of the polynomial in `base` whose coefficients are
the symbols plus one (`gramHash`). `gramHashes` lists the hashes of all runs of `k` symbols of a list;
each is found from the one before it by dropping a symbol and taking up another.
-/

namespace CloneDetection.Fingerprint

/-- The base of the hash polynomial. -/
def base : UInt64 := 911382323

/-- The coefficient of a symbol. -/
def digit (symbol : Nat) : UInt64 :=
  UInt64.ofNat symbol + 1

/-- The hash of a run of symbols. -/
def gramHash (symbols : List Nat) : UInt64 :=
  symbols.foldl (fun hash symbol => hash * base + digit symbol) 0

/-- The hash of a run after `leaving` is dropped at its start and `entering` put at its end; `weight`
is the weight of the first symbol. -/
def roll (weight hash : UInt64) (leaving entering : Nat) : UInt64 :=
  (hash - digit leaving * weight) * base + digit entering

/-- The hashes of the runs after the one with the given hash. -/
def rollAll (weight hash : UInt64) : (leaving entering : List Nat) → List UInt64
  | old :: olds, new :: news =>
    let next := roll weight hash old new
    next :: rollAll weight next olds news
  | _, _ => []

/-- The hashes of all runs of `k` symbols, in order; none when there are fewer symbols. -/
def gramHashes (k : Nat) (symbols : List Nat) : List UInt64 :=
  if symbols.length < k then []
  else
    let first := gramHash (symbols.take k)
    first :: rollAll (base ^ (k - 1)) first symbols (symbols.drop k)

end CloneDetection.Fingerprint
