import CloneDetection.SuffixArray.Sort

/-!
# Common prefixes of neighbouring suffixes

`commonPrefixes` lists, for each suffix in sorted order, how many symbols it shares with the one
before. The lengths are found in the order of the text: a suffix shares at least one symbol less with
the one before it than the previous suffix of the text does, so only the rest is compared.
-/

namespace CloneDetection

namespace SuffixArray

/-- The number of symbols from the `n`-th on that agree in the suffixes at `i` and `j`, with `n`. -/
def agree (text : Array Nat) (i j n : Nat) : Nat :=
  if _h : i + n < text.size ∧ j + n < text.size then
    if text[i + n]? = text[j + n]? then agree text i j (n + 1) else n
  else n
termination_by text.size - (i + n)

/-- The suffix before each suffix in sorted order, by position; the first one has none. -/
def predecessors (size : Nat) (suffixes : List Nat) : Array (Option Nat) :=
  (suffixes.zip suffixes.tail).foldl (fun table (p, q) => table.setIfInBounds q (some p))
    (Array.replicate size none)

/-- The lengths shared with the predecessor for the suffixes from position `i` on, the text's order
being kept; `n` symbols are known to agree at `i`. -/
def sharedFrom (text : Array Nat) (before : Array (Option Nat)) (i n : Nat) (done : Array Nat) :
    Array Nat :=
  if _h : i < text.size then
    match (before[i]?).join with
    | none => sharedFrom text before (i + 1) 0 (done.push 0)
    | some j =>
      let shared := agree text i j n
      sharedFrom text before (i + 1) (shared - 1) (done.push shared)
  else done
termination_by text.size - i

/-- For each suffix in sorted order the number of symbols it shares with the one before it. -/
def commonPrefixes (text : Array Nat) (suffixes : List Nat) : List Nat :=
  let shared := sharedFrom text (predecessors text.size suffixes) 0 0 #[]
  suffixes.map fun i => shared[i]?.getD 0

end SuffixArray

/-- The sorted suffixes of a text and, for each, the length shared with the one before it. -/
structure SuffixArray where
  suffixes : List Nat
  shared : List Nat
  deriving DecidableEq, Repr

namespace SuffixArray

/-- The suffix array of a text whose symbols are below `alphabet`. -/
def build (text : Array Nat) (alphabet : Nat) : SuffixArray :=
  let suffixes := sortSuffixes text alphabet
  ⟨suffixes, commonPrefixes text suffixes⟩

end SuffixArray

end CloneDetection
