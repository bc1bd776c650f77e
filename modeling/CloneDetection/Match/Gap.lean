import CloneDetection.Match.Range
import CloneDetection.Sum

/-!
# Bridging gaps

Candidates of one pair of streams that follow each other with a small gap are joined to chains. The
candidates of a pair are visited by their starts; each extends the first open chain that it can
follow, or opens a new one. A chain that ends too far before the candidate at hand is retired: no
later candidate can follow it either.
-/

namespace CloneDetection.Match

/-- The pair of streams of a candidate. -/
def streamPair (c : Candidate) : Nat × Nat :=
  (c.a.stream, c.b.stream)

/-- Candidates are visited by streams, then by starts. -/
def visitKey (c : Candidate) : Key :=
  [c.a.stream, c.b.stream, c.a.start, c.b.start, c.a.stop]

/-- Whether a run may start at `start` after one that ends at `stop`. -/
def bridges (maxGap stop start : Nat) : Bool :=
  stop ≤ start && start - stop ≤ maxGap

/-- The part of `next` that extends `chain`, if it can follow it. Tokens of `next` that lie inside
the chain on one side are cut off on both sides before the gaps are measured. -/
def follow? (maxGap : Nat) (chain next : Candidate) : Option Candidate :=
  let inside := max (chain.a.stop - next.a.start) (chain.b.stop - next.b.start)
  if next.matched ≤ inside then none
  else
    let tail : Candidate :=
      { a := { next.a with start := next.a.start + inside }
        b := { next.b with start := next.b.start + inside }
        matched := next.matched - inside }
    if bridges maxGap chain.a.stop tail.a.start && bridges maxGap chain.b.stop tail.b.start then
      some tail
    else none

/-- A chain with the run `tail` added at its end. -/
def join (chain tail : Candidate) : Candidate where
  a := { chain.a with stop := max chain.a.stop tail.a.stop }
  b := { chain.b with stop := max chain.b.stop tail.b.stop }
  matched := chain.matched + tail.matched

/-- The open chains after the first one that `next` can follow has taken it up; none when there is
no such chain. -/
def attach? (maxGap : Nat) (next : Candidate) : List Candidate → Option (List Candidate)
  | [] => none
  | chain :: rest =>
    match follow? maxGap chain next with
    | some tail => some (join chain tail :: rest)
    | none => (attach? maxGap next rest).map (chain :: ·)

/-- Chains of one pair of streams: those that later candidates may follow, in the order of their
opening, those that none will, and the number of joins. -/
structure Chains where
  opened : List Candidate := []
  retired : List Candidate := []
  joins : Nat := 0

/-- Whether a chain ends close enough to the start of `next`. The end and the gap are added as
machine words, which start again after `2 ^ 64 - 1`. -/
def inReach (maxGap : Nat) (next chain : Candidate) : Bool :=
  next.a.start ≤ (chain.a.stop + maxGap) % UInt64.size

/-- The chains after one more candidate. -/
def Chains.visit (maxGap : Nat) (chains : Chains) (next : Candidate) : Chains :=
  let reachable := chains.opened.filter (inReach maxGap next)
  let retired := chains.opened.filter (fun chain => !inReach maxGap next chain) ++ chains.retired
  match attach? maxGap next reachable with
  | some opened => { opened, retired, joins := chains.joins + 1 }
  | none => { opened := reachable ++ [next], retired, joins := chains.joins }

/-- The chains of the candidates of one pair of streams, and the number of joins. -/
def chainGroup (maxGap : Nat) (group : List Candidate) : List Candidate × Nat :=
  let chains := group.foldl (Chains.visit maxGap) {}
  (chains.retired ++ chains.opened, chains.joins)

/-- Candidates with gaps of at most `maxGap` tokens bridged, in order, and the number of joins. -/
def bridgeGaps (candidates : List Candidate) (maxGap : Nat) : List Candidate × Nat :=
  let sorted := candidates.mergeSort fun c d => (visitKey c).le (visitKey d)
  let groups := (sorted.splitBy fun c d => streamPair c == streamPair d).map (chainGroup maxGap)
  (Candidate.sort (groups.flatMap (·.1)), sumBy (·.2) groups)

end CloneDetection.Match
