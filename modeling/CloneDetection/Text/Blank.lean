import CloneDetection.Text.Ranges

/-!
# Blank characters

`isBlank` is the `White_Space` property of Unicode. `trim` drops blanks at both ends of a text and
`words` cuts a text at its blanks; `collapse` writes the words with one space between them.
-/

namespace CloneDetection.Text

/-- The code points with the `White_Space` property. -/
def blankRanges : Ranges :=
  [(0x9, 0xD), (0x20, 0x20), (0x85, 0x85), (0xA0, 0xA0), (0x1680, 0x1680), (0x2000, 0x200A),
   (0x2028, 0x2029), (0x202F, 0x202F), (0x205F, 0x205F), (0x3000, 0x3000)]

/-- Whether `c` is white space. -/
def isBlank (c : Char) : Bool :=
  blankRanges.has c

/-- The text without the blanks at its two ends. -/
def trimChars (cs : List Char) : List Char :=
  ((cs.dropWhile isBlank).reverse.dropWhile isBlank).reverse

/-- The text without the blanks at its two ends. -/
def trim (s : String) : String :=
  String.ofList (trimChars s.toList)

/-- The maximal runs of characters that are not blank, in order. -/
def words (cs : List Char) : List (List Char) :=
  match _h : cs.dropWhile isBlank with
  | [] => []
  | c :: rest =>
    (c :: rest.takeWhile fun d => !isBlank d) :: words (rest.dropWhile fun d => !isBlank d)
termination_by cs.length
decreasing_by
  have h₁ : (cs.dropWhile isBlank).length ≤ cs.length := (List.dropWhile_sublist _).length_le
  have h₂ : (rest.dropWhile fun d => !isBlank d).length ≤ rest.length :=
    (List.dropWhile_sublist _).length_le
  simp only [_h, List.length_cons] at h₁
  omega

/-- The words of a text with one space between neighbours. -/
def collapse (cs : List Char) : List Char :=
  [' '].intercalate (words cs)

/-- The text with its ASCII capitals in lower case. -/
def lower (s : String) : String :=
  s.map Char.toLower

end CloneDetection.Text
