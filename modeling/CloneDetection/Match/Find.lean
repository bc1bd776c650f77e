import CloneDetection.Match.Extend
import CloneDetection.Match.Gap
import CloneDetection.Match.Index

/-!
# Finding equal runs

`find` lists the longest equal runs of two different streams as candidates, in order and without
repetition, and bridges gaps between them when gaps are allowed.

In a suffix array the neighbours after a suffix share with it the least of the lengths in between
(`neighbours`). In a table of fingerprints any two places of a bucket are seeds of a run.
-/

namespace CloneDetection.Match

/-- What is searched for. -/
structure Query where
  minLength : Nat
  maxGap : Nat := 0
  maxBucket : Nat
  /-- Whether runs within one revision are left out. -/
  acrossRevisions : Bool := false
  deriving DecidableEq, Repr

/-- The candidates found, the number of places left out because of the limit, and the number of
joins over gaps. -/
structure Matches where
  candidates : List Candidate
  truncated : Nat
  gapMerges : Nat
  deriving DecidableEq, Repr

/-- Whether two places may be paired: in different streams and, if asked for, revisions. -/
def accepts (index : TokenIndex) (query : Query) (x y : TokenRef) : Bool :=
  x.stream != y.stream &&
    (!query.acrossRevisions || index.revision x.stream != index.revision y.stream)

/-! ## Suffix arrays -/

/-- At most `limit` of the suffixes that follow, as long as the least shared length stays at least
`minLength`, each with that length. An entry is a suffix with the length shared with the one before
it, and `shared` is the least of the lengths so far. -/
def neighbours (minLength : Nat) : (limit shared : Nat) → List (Nat × Nat) → List (Nat × Nat)
  | 0, _, _ => []
  | _ + 1, _, [] => []
  | limit + 1, shared, (suffix, length) :: rest =>
    let shared := min shared length
    if shared < minLength then []
    else (suffix, shared) :: neighbours minLength limit shared rest

/-- Whether the tokens before two places are equal, so that the run starts further to the left. -/
def extendsLeft (index : TokenIndex) (p q : Nat) : Bool :=
  0 < (index.ref p).pos && 0 < (index.ref q).pos &&
    index.symbols[p - 1]? == index.symbols[q - 1]?

/-- The candidate of two corpus positions that share `length` symbols, if they may be paired and the
run cannot be extended to the left. -/
def candidateAt? (index : TokenIndex) (query : Query) (p q length : Nat) : Option Candidate :=
  if accepts index query (index.ref p) (index.ref q) && !extendsLeft index p q then
    some (.exact (index.ref p) (index.ref q) length)
  else none

/-- The candidates of each suffix with its neighbours, after those of `found`, and the number of
suffixes with more neighbours than the limit, added to `capped`. -/
def scanSuffixes (index : TokenIndex) (query : Query) (found : List Candidate) (capped : Nat) :
    List (Nat × Nat) → List Candidate × Nat
  | [] => (found, capped)
  | (p, _) :: rest =>
    if index.isSentinel p then scanSuffixes index query found capped rest
    else
      let near := neighbours query.minLength (query.maxBucket + 1) index.symbols.size rest
      let pairs := (near.take query.maxBucket).filterMap fun (q, length) =>
        candidateAt? index query p q length
      let excess := if query.maxBucket < near.length then 1 else 0
      scanSuffixes index query (pairs ++ found) (capped + excess) rest

/-! ## Fingerprints -/

/-- The pairs of items of a list, the earlier item first. -/
def pairsOf {α : Type} : List α → List (α × α)
  | [] => []
  | x :: rest => rest.map (x, ·) ++ pairsOf rest

/-- The candidate of the longest equal run around two seeds of `k` tokens. -/
def candidateAround? (index : TokenIndex) (query : Query) (k : Nat) (x y : TokenRef) :
    Option Candidate :=
  if accepts index query x y then
    match maximalMatch (index.streamSymbols x.stream) x.pos (index.streamSymbols y.stream) y.pos k with
    | none => none
    | some (i, j, length) =>
      if length < query.minLength then none
      else some (.exact ⟨x.stream, i⟩ ⟨y.stream, j⟩ length)
  else none

/-- The candidates of the pairs of places in each bucket. -/
def scanBuckets (index : TokenIndex) (query : Query) (table : Fingerprint.Table) : List Candidate :=
  table.buckets.flatMap fun (_, places) =>
    (pairsOf places).filterMap fun (x, y) => candidateAround? index query table.runLength x y

/-! ## Both -/

/-- The candidates that a lookup yields, in no particular order and with repetitions, and the number
of places left out. -/
def scan (index : TokenIndex) (query : Query) : List Candidate × Nat :=
  match index.lookup with
  | .suffixArray array => scanSuffixes index query [] 0 (array.suffixes.zip array.shared)
  | .fingerprints table => (scanBuckets index query table, index.truncated)

/-- The longest equal runs of at least `minLength` tokens of two different streams, with gaps
bridged. -/
def find (index : TokenIndex) (query : Query) : Matches :=
  let (found, truncated) := scan index query
  let candidates := (Candidate.sort found).eraseReps
  if 0 < query.maxGap ∧ 1 < candidates.length then
    let (bridged, gapMerges) := bridgeGaps candidates query.maxGap
    { candidates := bridged, truncated, gapMerges }
  else { candidates, truncated, gapMerges := 0 }

/-- The equal runs, unless the search was called off before. -/
def search (cancelled : Bool) (index : TokenIndex) (query : Query) : Except DetectError Matches :=
  if cancelled then .error .cancelled else .ok (find index query)

end CloneDetection.Match
