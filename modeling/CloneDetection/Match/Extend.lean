/-!
# Growing a seed

`maximalMatch` grows `k` equal symbols of two lists to the longest equal run around them.
-/

namespace CloneDetection.Match

/-- The number of equal symbols of `a` from `i` on and of `b` from `j` on. -/
def runFrom (a b : Array Nat) (i j : Nat) : Nat :=
  if h : i < a.size ∧ j < b.size then
    if a[i] = b[j] then runFrom a b (i + 1) (j + 1) + 1 else 0
  else 0
termination_by a.size - i

/-- The number of equal symbols of `a` before `i` and of `b` before `j`. -/
def runBefore (a b : Array Nat) : (i j : Nat) → Nat
  | i + 1, j + 1 =>
    match a[i]?, b[j]? with
    | some x, some y => if x = y then runBefore a b i j + 1 else 0
    | _, _ => 0
  | _, _ => 0

/-- The longest equal run around `k` symbols at `i` and `j`: where it starts in both lists and its
length. None when the symbols differ or reach over an end. -/
def maximalMatch (a : Array Nat) (i : Nat) (b : Array Nat) (j k : Nat) : Option (Nat × Nat × Nat) :=
  let after := runFrom a b i j
  if k = 0 ∨ after < k then none
  else
    let before := runBefore a b i j
    some (i - before, j - before, before + after)

end CloneDetection.Match
