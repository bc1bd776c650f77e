import CloneDetection.Sum

/-!
# Text as UTF-8 bytes

`decode` reads bytes as text. When they are not well formed the error is the length of the longest
prefix that is (`wellFormedLength`). `lossy` reads any bytes as text, with a replacement for what is
not well formed. `byteSize` measures characters in bytes of UTF-8.
-/

namespace CloneDetection.Text

/-- The number of UTF-8 bytes of a list of characters. -/
def byteSize (cs : List Char) : Nat :=
  sumBy Char.utf8Size cs

@[simp]
theorem byteSize_nil : byteSize [] = 0 := rfl

@[simp]
theorem byteSize_cons (c : Char) (cs : List Char) :
    byteSize (c :: cs) = c.utf8Size + byteSize cs := rfl

@[simp]
theorem byteSize_append (cs ds : List Char) : byteSize (cs ++ ds) = byteSize cs + byteSize ds := by
  simp [byteSize]

theorem byteSize_pos {cs : List Char} (h : cs ≠ []) : 0 < byteSize cs := by
  cases cs with
  | nil => exact absurd rfl h
  | cons c cs =>
    have := c.utf8Size_pos
    simp only [byteSize_cons]
    omega

/-- The end of the longest run of well-formed characters of `bytes` that starts at `i`. -/
def wellFormedLength (bytes : ByteArray) (i : Nat) : Nat :=
  if _h : i < bytes.size then
    match bytes.utf8DecodeChar? i with
    | some c => wellFormedLength bytes (i + c.utf8Size)
    | none => i
  else i
termination_by bytes.size - i
decreasing_by
  have := c.utf8Size_pos
  omega

/-- The text that the bytes encode, or the length of their longest well-formed prefix. -/
def decode (bytes : ByteArray) : Except Nat String :=
  match String.fromUTF8? bytes with
  | some s => .ok s
  | none => .error (wellFormedLength bytes 0)

/-! ## Bytes that need not be text -/

/-- The least and the greatest byte that may follow the first one of a character of three or four
bytes. -/
def secondBytes? (first : UInt8) : Option (UInt8 × UInt8) :=
  if first = 0xe0 then some (0xa0, 0xbf)
  else if first = 0xed then some (0x80, 0x9f)
  else if first = 0xf0 then some (0x90, 0xbf)
  else if first = 0xf4 then some (0x80, 0x8f)
  else if 0xe0 < first && first < 0xf4 then some (0x80, 0xbf)
  else none

/-- The number of bytes at the start of a text, no character of which is whole, that one replacement
stands for: as many as start a character, but at least one. -/
def brokenLength : List UInt8 → Nat
  | first :: second :: rest =>
    match secondBytes? first with
    | none => 1
    | some (low, high) =>
      if second < low || high < second then 1
      else if 0xf0 ≤ first && rest.head?.any fun third => 0x80 ≤ third && third ≤ 0xbf then 3
      else 2
  | _ => 1

/-- The characters of some bytes without the first `skipped` of them. -/
def lossyFrom (skipped : Nat) : List UInt8 → List Char
  | [] => []
  | b :: rest =>
    match skipped with
    | n + 1 => lossyFrom n rest
    | 0 =>
      match (b :: rest).toByteArray.utf8DecodeChar? 0 with
      | some c => c :: lossyFrom (c.utf8Size - 1) rest
      | none => '\ufffd' :: lossyFrom (brokenLength (b :: rest) - 1) rest

/-- The text of some bytes, with a replacement for those that are part of no character. -/
def lossy (bytes : List UInt8) : String :=
  String.ofList (lossyFrom 0 bytes)

end CloneDetection.Text
