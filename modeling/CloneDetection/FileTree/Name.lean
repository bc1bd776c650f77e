import CloneDetection.Path.Basic
import CloneDetection.Text.Utf8

/-!
# Names of files

The name of an entry of a folder is a sequence of bytes (`FileName`), mostly those of a text but not
always. Names are compared byte by byte. `FileName.text?` is the text of a name, if it is one, and
`FileName.lossy` a text for every name.
-/

namespace CloneDetection

/-- The name of an entry of a folder: some bytes, which need not be those of a text. -/
@[ext]
structure FileName where
  bytes : List UInt8
  deriving DecidableEq, Repr

namespace FileName

/-- The byte that separates the names of a path. -/
def slash : UInt8 := 0x2f

/-- The byte of a dot. -/
def dot : UInt8 := 0x2e

/-- The most bytes of a name. -/
def maxLength : Nat := 255

/-- The name that is a text. -/
def ofString (text : String) : FileName :=
  ⟨text.toUTF8.data.toList⟩

instance : Coe String FileName := ⟨ofString⟩

instance : LT FileName := ⟨fun x y => x.bytes < y.bytes⟩

instance (x y : FileName) : Decidable (x < y) :=
  inferInstanceAs (Decidable (x.bytes < y.bytes))

/-- The text that a name is, if it is one. -/
def text? (name : FileName) : Option String :=
  String.fromUTF8? name.bytes.toByteArray

/-- A name as a text, with a replacement for the bytes that are no text. -/
def lossy (name : FileName) : String :=
  Text.lossy name.bytes

/-- What follows the last dot of a name. A dot at the start does not count. -/
def extension? (name : FileName) : Option FileName :=
  (Path.afterLast? dot name.bytes).map FileName.mk

/-- Whether a name says nothing inside a path. -/
def isIdle (name : FileName) : Bool :=
  name.bytes == [] || name.bytes == [dot]

/-- Whether a name stands for the folder above. -/
def isParent (name : FileName) : Bool :=
  name.bytes == [dot, dot]

/-- The names between the slashes of a path. -/
def split (path : List UInt8) : List FileName :=
  (path.splitOn slash).map FileName.mk

/-- Names with slashes between them. -/
def join (names : List FileName) : List UInt8 :=
  [slash].intercalate (names.map bytes)

end FileName

end CloneDetection
