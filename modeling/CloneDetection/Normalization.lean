import CloneDetection.Text.Blank

/-!
# Levels of normalization

How far tokens are told apart: `raw` keeps every text, `identifierBlind` takes all identifiers for
equal, and `full` also all numbers and all strings.
-/

namespace CloneDetection

/-- How far tokens are told apart. -/
inductive Normalization
  | raw
  | identifierBlind
  | full
  deriving DecidableEq, Repr

namespace Normalization

/-- The level used when none is chosen. -/
instance : Inhabited Normalization := ⟨identifierBlind⟩

/-- Every level, from the finest to the coarsest. -/
def all : List Normalization := [raw, identifierBlind, full]

/-- The name of a level in configurations. -/
def name : Normalization → String
  | raw => "raw"
  | identifierBlind => "identifierBlind"
  | full => "full"

/-- The level with exactly the given name. -/
def ofName? (name : String) : Option Normalization :=
  all.find? (·.name == name)

/-- The spellings of a level on the command line. -/
def spellings : Normalization → List String
  | raw => ["raw"]
  | identifierBlind => ["identifier-blind", "identifier_blind", "identifierblind", "blind"]
  | full => ["full"]

/-- The level with the given spelling, blanks around it and case aside. -/
def parse? (text : String) : Option Normalization :=
  let spelling := Text.lower (Text.trim text)
  all.find? fun level => level.spellings.contains spelling

/-- Whether identifiers are taken for equal. -/
def blindsIdentifiers : Normalization → Bool
  | raw => false
  | identifierBlind | full => true

/-- Whether numbers and strings are taken for equal. -/
def blindsLiterals : Normalization → Bool
  | raw | identifierBlind => false
  | full => true

end Normalization

end CloneDetection
