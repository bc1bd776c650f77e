import CloneDetection.Key

/-!
# Places and matches of tokens

A `TokenRef` is the place of one token, a `TokenRange` a run of tokens of one stream, and a
`Candidate` two runs with the number of tokens that they have in common. Candidates are listed in
the order of their `key`.
-/

namespace CloneDetection

/-- The place of a token: a stream and a position in it. -/
structure TokenRef where
  stream : Nat
  pos : Nat
  deriving DecidableEq, Repr

namespace TokenRef

/-- Places are ordered by stream, then by position. -/
def key (r : TokenRef) : Key :=
  [r.stream, r.pos]

end TokenRef

/-- The tokens `start`, …, `stop - 1` of a stream. -/
structure TokenRange where
  stream : Nat
  start : Nat
  stop : Nat
  deriving DecidableEq, Repr

namespace TokenRange

/-- The number of tokens of a range. -/
def length (r : TokenRange) : Nat :=
  r.stop - r.start

/-- The number of tokens that two ranges share. -/
def overlap (r s : TokenRange) : Nat :=
  if r.stream = s.stream then min r.stop s.stop - max r.start s.start else 0

/-- Ranges are ordered by stream, then by start, then by end. -/
def key (r : TokenRange) : Key :=
  [r.stream, r.start, r.stop]

/-- The range of `length` tokens that starts at a place. -/
def ofRef (r : TokenRef) (length : Nat) : TokenRange :=
  ⟨r.stream, r.pos, r.pos + length⟩

@[simp]
theorem length_ofRef (r : TokenRef) (n : Nat) : (ofRef r n).length = n := by
  simp [length, ofRef]

end TokenRange

/-- Two ranges of tokens, of which `matched` tokens correspond. -/
structure Candidate where
  a : TokenRange
  b : TokenRange
  matched : Nat
  deriving DecidableEq, Repr

namespace Candidate

/-- Candidates are ordered by their first, then by their second range. -/
def key (c : Candidate) : Key :=
  c.a.key ++ c.b.key ++ [(c.matched : Int)]

theorem key_injective {c d : Candidate} (h : c.key = d.key) : c = d := by
  rcases c with ⟨⟨_, _, _⟩, ⟨_, _, _⟩, _⟩
  rcases d with ⟨⟨_, _, _⟩, ⟨_, _, _⟩, _⟩
  simp only [key, TokenRange.key, List.cons_append, List.nil_append, List.cons.injEq] at h
  simp only [mk.injEq, TokenRange.mk.injEq]
  omega

/-- The candidate of two equal runs of `length` tokens, the lesser place first. -/
def exact (x y : TokenRef) (length : Nat) : Candidate :=
  if x.key.le y.key then ⟨.ofRef x length, .ofRef y length, length⟩
  else ⟨.ofRef y length, .ofRef x length, length⟩

/-- Candidates in order. -/
def sort (candidates : List Candidate) : List Candidate :=
  candidates.mergeSort fun c d => c.key.le d.key

end Candidate

end CloneDetection
