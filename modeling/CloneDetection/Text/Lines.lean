/-!
# Lines of a file

A line ends after each newline byte. `lineStarts` lists the offsets where lines begin, and `lineOf`
finds the line, counted from one, that holds an offset.
-/

namespace CloneDetection.Text

/-- The byte that ends a line. -/
def newlineByte : UInt8 := 10

/-- The offset of the first byte of every line; the first line starts at 0. -/
def lineStarts (bytes : ByteArray) : List Nat :=
  0 :: ((List.range bytes.size).filter fun i => bytes[i]? == some newlineByte).map (· + 1)

/-- The greatest line number that a location can carry. -/
def lineLimit : Nat := 0xFFFFFFFF

/-- The line that holds `offset`, counted from one, given the increasing list of line starts. -/
def lineOf (starts : List Nat) (offset : Nat) : Nat :=
  min (max (starts.takeWhile (· ≤ offset)).length 1) lineLimit

end CloneDetection.Text
