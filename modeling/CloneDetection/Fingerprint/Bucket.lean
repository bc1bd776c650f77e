import CloneDetection.Fingerprint.Winnow
import CloneDetection.Match.Range
import CloneDetection.Sum

/-!
# Buckets of equal fingerprints

The places of equal fingerprints form a bucket. A bucket over a limit is cut down fairly: places are
taken in turn from each revision (`roundRobin`), so that a revision with many copies does not crowd
out the others.
-/

namespace CloneDetection.Fingerprint

/-- The greatest length of a fingerprinted run. -/
def maxLength : Nat := 25

/-- The length of a fingerprinted run when runs of `minLength` tokens are searched for. -/
def runLength (minLength : Nat) : Nat :=
  min (max minLength 1) maxLength

/-- The number of fingerprints in a window. A run of `minLength` tokens holds a full window, so that
two equal ones select a fingerprint in the same place. -/
def windowLength (minLength : Nat) : Nat :=
  minLength - runLength minLength + 1

/-! ## Cutting a bucket down -/

/-- The first items of the groups that have one. -/
def heads {α : Type} (groups : List (List α)) : List α :=
  groups.filterMap List.head?

/-- The groups without their first items. -/
def dropHeads {α : Type} (groups : List (List α)) : List (List α) :=
  groups.map List.tail

/-- The number of items of all groups. -/
def total {α : Type} (groups : List (List α)) : Nat :=
  sumBy List.length groups

theorem total_dropHeads_le {α : Type} (groups : List (List α)) :
    total (dropHeads groups) ≤ total groups := by
  induction groups with
  | nil => simp [dropHeads]
  | cons g groups ih =>
    simp only [total, dropHeads, List.map_cons, sumBy_cons, List.length_tail] at ih ⊢
    omega

theorem total_dropHeads_lt {α : Type} {groups : List (List α)} (h : heads groups ≠ []) :
    total (dropHeads groups) < total groups := by
  induction groups with
  | nil => simp [heads] at h
  | cons g groups ih =>
    cases g with
    | nil => simpa [total, dropHeads] using ih (by simpa [heads] using h)
    | cons x g =>
      have := total_dropHeads_le groups
      simp only [total, dropHeads, List.map_cons, sumBy_cons, List.tail_cons,
        List.length_cons] at this ⊢
      omega

/-- The items of some groups, one of each group in turn. -/
def roundRobin {α : Type} (groups : List (List α)) : List α :=
  if _h : heads groups = [] then [] else heads groups ++ roundRobin (dropHeads groups)
termination_by total groups
decreasing_by exact total_dropHeads_lt _h

/-- The revision of a place; a stream without one belongs to the first. -/
def revisionOf (revisions : Array Nat) (place : TokenRef) : Nat :=
  revisions[place.stream]?.getD 0

/-- The places of a bucket by revision, in the order of revisions, each group in the order of
places. -/
def byRevision (revisions : Array Nat) (places : List TokenRef) : List (List TokenRef) :=
  let key := fun place : TokenRef => (revisionOf revisions place : Int) :: place.key
  let sorted := places.mergeSort fun p q => Key.le (key p) (key q)
  sorted.splitBy fun p q => revisionOf revisions p == revisionOf revisions q

/-- A bucket cut down to `limit` places, taken in turn from each revision. A bucket within the limit
stays as it is, and a limit of zero drops nothing. -/
def truncate (places : List TokenRef) (revisions : Array Nat) (limit : Nat) : List TokenRef :=
  if places.length ≤ limit then places
  else
    let fair := roundRobin (byRevision revisions places)
    if limit = 0 then fair else fair.take limit

/-! ## All buckets -/

/-- The places of equal fingerprints, by increasing hash. -/
structure Table where
  runLength : Nat
  buckets : List (UInt64 × List TokenRef)

/-- The fingerprints of the streams that hold a run of `minLength` tokens, with their places. -/
def places (minLength : Nat) (streams : Array (Array Nat)) : List (UInt64 × TokenRef) :=
  streams.toList.zipIdx.flatMap fun (symbols, s) =>
    if symbols.size < minLength then []
    else
      (fingerprints symbols.toList (runLength minLength) (windowLength minLength)).map
        fun (hash, pos) => (hash, ⟨s, pos⟩)

/-- The places of each fingerprint, by increasing hash and in the order of the list. -/
def group (entries : List (UInt64 × TokenRef)) : List (UInt64 × List TokenRef) :=
  let sorted := entries.mergeSort fun e f => e.1 ≤ f.1
  (sorted.splitBy fun e f => e.1 == f.1).filterMap fun bucket =>
    bucket.head?.map fun e => (e.1, bucket.map (·.2))

/-- The table of the fingerprints with more than one place, and the number of places dropped. -/
def Table.build (streams : Array (Array Nat)) (revisions : Array Nat) (minLength limit : Nat) :
    Table × Nat :=
  let full := (group (places minLength streams)).filter fun bucket => 1 < bucket.2.length
  let cut := full.map fun (hash, refs) => (hash, truncate refs revisions limit)
  let size := sumBy fun bucket : UInt64 × List TokenRef => bucket.2.length
  (⟨Fingerprint.runLength minLength, cut⟩, size full - size cut)

end CloneDetection.Fingerprint
