import CloneDetection.Match.Range

/-!
# Matches inside others

`Oriented` is a candidate with its sides told apart. `suppress` visits the matches of each pair of
streams from the longest on and drops one that an earlier kept one subsumes.
-/

namespace CloneDetection

/-- A candidate whose sides are the target and the source. -/
structure Oriented where
  target : TokenRange
  source : TokenRange
  matched : Nat
  deriving DecidableEq, Repr

namespace Oriented

/-- The pair of streams of a match. -/
def streamPair (m : Oriented) : Nat × Nat :=
  (m.target.stream, m.source.stream)

/-- Matches are visited by streams, the longest first, then by starts and ends. -/
def visitKey (m : Oriented) : Key :=
  [m.target.stream, m.source.stream, -(m.matched : Int), m.target.start, m.source.start,
   m.target.stop, m.source.stop]

/-- Matches are reported the longest first, then by target and source. -/
def reportKey (m : Oriented) : Key :=
  -(m.matched : Int) :: (m.target.key ++ m.source.key)

theorem reportKey_injective {m n : Oriented} (h : m.reportKey = n.reportKey) : m = n := by
  rcases m with ⟨⟨_, _, _⟩, ⟨_, _, _⟩, _⟩
  rcases n with ⟨⟨_, _, _⟩, ⟨_, _, _⟩, _⟩
  simp only [reportKey, TokenRange.key, List.cons_append, List.nil_append, List.cons.injEq] at h
  simp only [mk.injEq, TokenRange.mk.injEq]
  omega

/-- Whether `s` covers at least the share `threshold` of `r`. -/
def covered (threshold : Float) (r s : TokenRange) : Bool :=
  threshold * Float.ofNat r.length ≤ Float.ofNat (r.overlap s)

/-- Whether a match is covered by another on both sides, or starts with it on one side and overlaps
it on the other. -/
def isSubsumed (threshold : Float) (m other : Oriented) : Bool :=
  covered threshold m.target other.target && covered threshold m.source other.source ||
    m.target.start == other.target.start && 0 < m.source.overlap other.source ||
    m.source.start == other.source.start && 0 < m.target.overlap other.target

/-- The matches of a group that no kept one before them subsumes, after those of `kept`, the last one
first. -/
def keep (threshold : Float) (kept : List Oriented) : List Oriented → List Oriented
  | [] => kept.reverse
  | m :: rest =>
    if kept.any (m.isSubsumed threshold) then keep threshold kept rest
    else keep threshold (m :: kept) rest

/-- The matches that no longer one of the same streams subsumes, in the order of a report. -/
def suppress (threshold : Float) (matches_ : List Oriented) : List Oriented :=
  let sorted := matches_.mergeSort fun m n => m.visitKey.le n.visitKey
  let groups := sorted.splitBy fun m n => m.streamPair == n.streamPair
  (groups.flatMap (keep threshold [])).mergeSort fun m n => m.reportKey.le n.reportKey

end Oriented

end CloneDetection
