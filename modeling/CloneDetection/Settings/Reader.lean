import CloneDetection.Json.Reader
import CloneDetection.Settings.Basic

/-!
# Settings as JSON

Settings are read from an object by the names of their fields, or from an array in the order of
`fieldNames`. A field that is left out has its default; a field that is not known is passed over; a
known field given twice, or with a value of another type, makes the whole unreadable.
-/

namespace CloneDetection.Settings

open Json

/-- The names of the fields, in the order of the array form. -/
def fieldNames : List String :=
  ["normalizationLevel", "minCloneLengthTokens", "maxGapTokens", "strictMode", "includeComments",
   "dropNoiseTokens", "index", "containmentThreshold", "targetRevision", "maxBucket", "maxWorkers"]

/-- The value of the field with a name, read as `read?` says, or the default when it is left out. -/
def field? {α : Type} (members : List (String × Value)) (name : String) (read? : Value → Option α)
    (default : α) : Option α :=
  match members.lookup name with
  | none => some default
  | some value => read? value

/-- A truth value. -/
def bool? : Value → Option Bool
  | .bool b => some b
  | _ => none

/-- A natural number of 64 bits. -/
def natural? : Value → Option Nat
  | .number n => n.toNat?
  | _ => none

/-- A double. -/
def float? : Value → Option Float
  | .number n => n.toFloat?
  | _ => none

/-- A text. -/
def text? : Value → Option String
  | .string s => s
  | _ => none

/-- A value that may be null. -/
def nullable? {α : Type} (read? : Value → Option α) : Value → Option (Option α)
  | .null => some none
  | value => (read? value).map some

/-- One of some names, given as a string or as the name of a single member that is null. -/
def choice? {α : Type} (ofName? : String → Option α) : Value → Option α
  | .string s => s.bind ofName?
  | .object [(name, .null)] => name.bind ofName?
  | _ => none

/-- Settings from named values without repetition. -/
def ofMembers? (members : List (String × Value)) : Option Settings := do
  let d : Settings := {}
  let normalization ←
    field? members "normalizationLevel" (choice? Normalization.ofName?) d.normalization
  let minTokens ← field? members "minCloneLengthTokens" natural? d.minTokens
  let maxGap ← field? members "maxGapTokens" natural? d.maxGap
  let strict ← field? members "strictMode" bool? d.strict
  let includeComments ← field? members "includeComments" bool? d.includeComments
  let dropNoise ← field? members "dropNoiseTokens" bool? d.dropNoise
  let strategy ← field? members "index" (choice? Strategy.ofName?) d.strategy
  let containment ← field? members "containmentThreshold" float? d.containment
  let targetRevision ← field? members "targetRevision" (nullable? text?) d.targetRevision
  let maxBucket ← field? members "maxBucket" natural? d.maxBucket
  let maxWorkers ← field? members "maxWorkers" (nullable? natural?) d.maxWorkers
  return { normalization, minTokens, maxGap, strict, includeComments, dropNoise, strategy,
           containment, targetRevision, maxBucket, maxWorkers }

/-- Whether no known field occurs twice. -/
def noFieldTwice (members : List (String × Value)) : Bool :=
  fieldNames.all fun name => (members.filter (·.1 == name)).length ≤ 1

/-- Settings from a JSON value. -/
def ofJson? : Value → Option Settings
  | .object members => do
    let named ← members.mapM fun (name, value) => name.map (·, value)
    if noFieldTwice named then ofMembers? named else none
  | .array items =>
    if items.length ≤ fieldNames.length then ofMembers? (fieldNames.zip items) else none
  | _ => none

/-- Settings from a JSON text. -/
def parse? (text : String) : Option Settings :=
  (Json.parse? text).bind ofJson?

end CloneDetection.Settings
