import CloneDetection.Hash.Fnv
import CloneDetection.Match.Range
import CloneDetection.Token.Basic

/-!
# Files and clone pairs

A `SourceFile` is handed in, a `Document` is a file with its tokens, and a `ClonePair` is what is
reported: two locations with equal tokens and an identifier that the two locations determine.
-/

namespace CloneDetection

/-- A file of a revision. -/
structure SourceFile where
  id : String
  revision : String
  language : String
  content : ByteArray

/-- A file is known by its identifier and its revision. -/
def SourceFile.identity (file : SourceFile) : String × String :=
  (file.id, file.revision)

/-- A file with its tokens. -/
structure Document where
  file : SourceFile
  tokens : TokenStream

/-- A part of a file, with the text in it. Lines count from one. -/
structure Location where
  file : String
  revision : String
  startOffset : Nat
  endOffset : Nat
  startLine : Nat
  endLine : Nat
  content : String
  deriving DecidableEq, Repr

/-- Two locations with `matchedTokens` tokens in common. -/
structure ClonePair where
  id : String
  matchedTokens : Nat
  target : Location
  source : Location
  deriving DecidableEq, Repr

/-- The UTF-8 bytes of a text. -/
def utf8Bytes (s : String) : List UInt8 :=
  s.toUTF8.toList

namespace Location

/-- What of a location enters the identifier of a pair. -/
def idFields (l : Location) : List String :=
  [l.file, l.revision, toString l.startOffset, toString l.endOffset]

end Location

namespace ClonePair

/-- The identifier of a pair of locations. -/
def idOf (target source : Location) : String :=
  Hash.hex (Hash.fnvFields ((target.idFields ++ source.idFields).map utf8Bytes))

/-- The pair of two locations. -/
def ofLocations (matchedTokens : Nat) (target source : Location) : ClonePair where
  id := idOf target source
  matchedTokens := matchedTokens
  target := target
  source := source

end ClonePair

end CloneDetection
