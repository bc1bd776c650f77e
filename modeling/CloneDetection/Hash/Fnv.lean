/-!
# The 64-bit FNV-1a hash

`fnv` hashes bytes. `fnvFields` hashes a list of fields and feeds the byte `0xff`, which occurs in
no UTF-8 text, after each of them.
-/

namespace CloneDetection.Hash

/-- The start value of the hash. -/
def fnvBasis : UInt64 := 0xcbf29ce484222325

/-- The factor of each round. -/
def fnvPrime : UInt64 := 0x100000001b3

/-- The hash after one more byte. -/
def fnvStep (hash : UInt64) (byte : UInt8) : UInt64 :=
  (hash ^^^ byte.toUInt64) * fnvPrime

/-- The hash after more bytes. -/
def fnvExtend (hash : UInt64) (bytes : List UInt8) : UInt64 :=
  bytes.foldl fnvStep hash

/-- The hash of some bytes. -/
def fnv (bytes : List UInt8) : UInt64 :=
  fnvExtend fnvBasis bytes

/-- The byte that closes a field. -/
def fieldEnd : UInt8 := 0xff

/-- The bytes of some fields, each closed by `fieldEnd`. -/
def encodeFields (fields : List (List UInt8)) : List UInt8 :=
  fields.flatMap (· ++ [fieldEnd])

/-- The hash of some fields, each closed by `fieldEnd`. -/
def fnvFields (fields : List (List UInt8)) : UInt64 :=
  fields.foldl (fun hash field => fnvStep (fnvExtend hash field) fieldEnd) fnvBasis

/-- A hash as sixteen hexadecimal digits. -/
def hex (hash : UInt64) : String :=
  let digits := Nat.toDigits 16 hash.toNat
  String.ofList (List.replicate (16 - digits.length) '0' ++ digits)

end CloneDetection.Hash
