import CloneDetection.Decimal.Shortest
import CloneDetection.Token.Stream

/-!
# Settings of a detection

`Settings` holds what a user can choose. `Settings.validate` finds the first setting out of its
range, in a fixed order, and `Settings.seedTokens` is the shortest exact run that is searched for.
-/

namespace CloneDetection

/-- The two ways to find equal runs of tokens. -/
inductive Strategy
  | suffixArray
  | winnowing
  deriving DecidableEq, Repr

namespace Strategy

/-- The strategy used when none is chosen. -/
instance : Inhabited Strategy := ⟨suffixArray⟩

/-- Every strategy. -/
def all : List Strategy := [suffixArray, winnowing]

/-- The name of a strategy in configurations. -/
def name : Strategy → String
  | suffixArray => "suffixArray"
  | winnowing => "winnowing"

/-- The strategy with exactly the given name. -/
def ofName? (name : String) : Option Strategy :=
  all.find? (·.name == name)

/-- The spellings of a strategy on the command line. -/
def spellings : Strategy → List String
  | suffixArray => ["suffix-array", "suffix_array", "suffixarray", "sa"]
  | winnowing => ["winnowing", "kgram", "k-gram"]

/-- The strategy with the given spelling, blanks around it and case aside. -/
def parse? (text : String) : Option Strategy :=
  let spelling := Text.lower (Text.trim text)
  all.find? fun strategy => strategy.spellings.contains spelling

end Strategy

/-- What a user can choose about a detection. -/
structure Settings where
  normalization : Normalization := default
  /-- The least number of tokens that two copies have in common. -/
  minTokens : Nat := 50
  /-- The greatest number of tokens between two matches that are joined. -/
  maxGap : Nat := 0
  /-- Whether a file that cannot be read as tokens stops the detection. -/
  strict : Bool := false
  includeComments : Bool := false
  dropNoise : Bool := false
  strategy : Strategy := default
  /-- The share of a match that a longer one must cover on both sides to replace it. -/
  containment : Float := 1.0
  /-- The revision that one side of every pair must belong to. -/
  targetRevision : Option String := none
  /-- The greatest number of places with equal tokens that are compared with one another. -/
  maxBucket : Nat := 512
  /-- The number of workers, which never changes a result. -/
  maxWorkers : Option Nat := none

/-- A setting out of its range. -/
inductive SettingsError
  | minTokens
  | containment (given : Float)
  | maxBucket
  | maxWorkers
  | targetRevision

/-- The range that a setting left, in words. -/
def SettingsError.message : SettingsError → String
  | minTokens => "minCloneLengthTokens must be >= 1"
  | containment given =>
    "containmentThreshold must be in (0, 1], got " ++ Decimal.positional given
  | maxBucket => "maxBucket must be >= 1"
  | maxWorkers => "maxWorkers must be >= 1"
  | targetRevision => "targetRevision must not be empty"

namespace Settings

/-- Whether a share is greater than zero and at most one. -/
def isShare (x : Float) : Bool :=
  0 < x && x ≤ 1

/-- The first setting out of its range, if there is one. -/
def validate (s : Settings) : Except SettingsError Unit :=
  if s.minTokens = 0 then .error .minTokens
  else if !isShare s.containment then .error (.containment s.containment)
  else if s.maxBucket = 0 then .error .maxBucket
  else if s.maxWorkers = some 0 then .error .maxWorkers
  else if s.targetRevision = some "" then .error .targetRevision
  else .ok ()

/-- The shortest exact run that is searched for. A clone with gaps is found from its pieces, so with
gaps allowed runs of half the least length count. -/
def seedTokens (s : Settings) : Nat :=
  if s.maxGap = 0 then s.minTokens else max (s.minTokens / 2) 1

/-- What the settings say about tokens. -/
def tokenizeOptions (s : Settings) : TokenizeOptions where
  normalization := s.normalization
  includeComments := s.includeComments
  dropNoise := s.dropNoise

end Settings

end CloneDetection
