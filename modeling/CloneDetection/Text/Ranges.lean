/-!
# Sets of characters given by ranges

A character property is a list of closed ranges of code points. `Ranges.has` tests membership; the
tables that use it are `Text.Blank`, `Text.Alphabetic` and `Text.Numeric`.
-/

namespace CloneDetection.Text

/-- Closed ranges of code points, in increasing order. -/
abbrev Ranges := List (Nat × Nat)

/-- Whether the code point of `c` lies in one of the ranges. -/
def Ranges.has (ranges : Ranges) (c : Char) : Bool :=
  ranges.any fun (low, high) => low ≤ c.toNat && c.toNat ≤ high

theorem Ranges.has_eq_true_iff {ranges : Ranges} {c : Char} :
    ranges.has c = true ↔ ∃ r ∈ ranges, r.1 ≤ c.toNat ∧ c.toNat ≤ r.2 := by
  simp [Ranges.has]

end CloneDetection.Text
