/-!
# Sorting the suffixes of a text

The suffixes of a text of symbols are sorted by prefix doubling. After the round `r` they are sorted
by their first `2 ^ (r + 1)` symbols, and `rank` numbers the classes of suffixes that agree on them.
A round sorts by the rank of the second half, then stably by the rank of the first half, each time
by counting (`countingSort?`). Counting fails on a key that has no place in the table.
-/

namespace CloneDetection.SuffixArray

/-! ## Sorting by counting -/

/-- The counts after some more items. The items of a key are counted one place after the key. -/
def countKeys? (key : Nat → Nat) (counts : Array Nat) : List Nat → Option (Array Nat)
  | [] => some counts
  | i :: rest =>
    if key i + 1 < counts.size then countKeys? key (counts.modify (key i + 1) (· + 1)) rest
    else none

/-- Adds to each count from place `k` on the one before it. -/
def sumUp (counts : Array Nat) (k : Nat) : Array Nat :=
  if _h : k < counts.size then
    let before := counts[k - 1]?.getD 0
    sumUp (counts.modify k (· + before)) (k + 1)
  else counts
termination_by counts.size - k
decreasing_by
  rw [Array.size_modify]
  omega

/-- Puts each item into the slot of its key, which moves on to the next place. -/
def place? (key : Nat → Nat) (slots out : Array Nat) : List Nat → Option (Array Nat)
  | [] => some out
  | i :: rest =>
    match slots[key i]? with
    | none => none
    | some slot =>
      if slot < out.size then
        place? key (slots.modify (key i) (· + 1)) (out.setIfInBounds slot i) rest
      else none

/-- Sorts stably by a key below `buckets`. The counts of the keys, summed up, are the slots at which
the items of each key start. -/
def countingSort? (buckets : Nat) (key : Nat → Nat) (items : List Nat) : Option (List Nat) := do
  let counts ← countKeys? key (Array.replicate (buckets + 1) 0) items
  let out ← place? key (sumUp counts 1) (Array.replicate items.length 0) items
  return out.toList

/-! ## Prefix doubling -/

/-- The rank of the suffix at a position; past the end of the text it is zero, the least. -/
def rankAt (rank : Array Nat) (i : Nat) : Nat :=
  rank[i]?.getD 0

/-- Numbers the classes of neighbours with equal keys, counting on from the class of `previous`. -/
def classesAfter (key : Nat → Nat × Nat) (previous : Nat) (count : Nat) (done : List (Nat × Nat)) :
    List Nat → List (Nat × Nat)
  | [] => done.reverse
  | i :: rest =>
    let count := if key previous = key i then count else count + 1
    classesAfter key i count ((i, count) :: done) rest

/-- Each item of a sorted list with the number of its class of equal keys, counted from one. -/
def classes (key : Nat → Nat × Nat) : List Nat → List (Nat × Nat)
  | [] => []
  | i :: rest => classesAfter key i 1 [(i, 1)] rest

/-- The ranks that some classes give. -/
def ranksOf (size : Nat) (classes : List (Nat × Nat)) : Array Nat :=
  classes.foldl (fun rank (i, r) => rank.setIfInBounds i r) (Array.replicate size 0)

/-- Sorts suffixes by their own rank, and by the rank of those `gap` symbols on where it is equal. -/
def sortByRanks? (buckets : Nat) (rank : Array Nat) (gap : Nat) (suffixes : List Nat) :
    Option (List Nat) := do
  let halves ← countingSort? buckets (fun i => rankAt rank (i + gap)) suffixes
  countingSort? buckets (rankAt rank) halves

/-- Sorts suffixes that `rank` sorts by their first `2 ^ round` symbols by twice as many, and goes on
until all ranks differ or the text is covered. -/
def double? (size buckets round : Nat) (rank : Array Nat) (suffixes : List Nat) :
    Option (List Nat) :=
  match sortByRanks? buckets rank (1 <<< round) suffixes with
  | none => none
  | some sorted =>
    let numbered := classes (fun i => (rankAt rank i, rankAt rank (i + 1 <<< round))) sorted
    let count := (numbered.getLast?.map (·.2)).getD 0
    if _h : count = size ∨ size ≤ 1 <<< round then some sorted
    else double? size buckets (round + 1) (ranksOf size numbered) sorted
termination_by size - 1 <<< round
decreasing_by
  have : 1 <<< (round + 1) = 2 * 1 <<< round := Nat.shiftLeft_succ 1 round
  have : 0 < 1 <<< round := by rw [Nat.one_shiftLeft]; exact Nat.two_pow_pos round
  omega

/-- The positions of a text in the order of the suffixes that start there, if every key has a place
in the tables. It has one when every symbol is below `alphabet`. -/
def sortSuffixes? (text : Array Nat) (alphabet : Nat) : Option (List Nat) :=
  if text.size = 0 then some []
  else double? text.size (max alphabet text.size + 2) 0 (text.map (· + 1)) (List.range text.size)

/-- The positions of a text in the order of the suffixes that start there. Every symbol is below
`alphabet`. -/
def sortSuffixes (text : Array Nat) (alphabet : Nat) : List Nat :=
  (sortSuffixes? text alphabet).getD []

end CloneDetection.SuffixArray
