/-!
# Tokens

A token is a piece of source text with its kind, the text that stands for it in comparisons and its
place in bytes. A file is compared as the array of its tokens, a `TokenStream`.
-/

namespace CloneDetection

/-- What a token is. -/
inductive TokenKind
  | keyword
  | identifier
  | number
  | string
  | punctuation
  | comment
  | unknown
  deriving DecidableEq, Repr

namespace TokenKind

/-- The name of a kind. -/
def name : TokenKind → String
  | keyword => "keyword"
  | identifier => "identifier"
  | number => "number"
  | string => "string"
  | punctuation => "punctuation"
  | comment => "comment"
  | unknown => "unknown"

end TokenKind

/-- A token: `text` is compared, `start` and `stop` bound its bytes in the source. -/
structure Token where
  kind : TokenKind
  text : String
  start : Nat
  stop : Nat
  deriving DecidableEq, Repr

/-- The tokens of a file, in source order. -/
abbrev TokenStream := Array Token

namespace TokenStream

/-- The bytes from the first to the last of the tokens `first`, …, `last - 1`; none when there are
no such tokens. -/
def byteRange (tokens : TokenStream) (first last : Nat) : Option (Nat × Nat) :=
  if first < last then do
    let head ← tokens[first]?
    let tail ← tokens[last - 1]?
    return (head.start, tail.stop)
  else
    none

theorem byteRange_eq_some_iff {tokens : TokenStream} {first last a b : Nat} :
    tokens.byteRange first last = some (a, b) ↔
      first < last ∧ ∃ head tail, tokens[first]? = some head ∧ tokens[last - 1]? = some tail ∧
        head.start = a ∧ tail.stop = b := by
  unfold byteRange
  split
  · rename_i h
    simp only [Option.bind_eq_bind, Option.bind_eq_some_iff, Option.pure_def, Option.some.injEq,
      Prod.mk.injEq, h, true_and]
    exact ⟨fun ⟨x, hx, y, hy, e⟩ => ⟨x, y, hx, hy, e⟩, fun ⟨x, y, hx, hy, e⟩ => ⟨x, hx, y, hy, e⟩⟩
  · rename_i h
    simp [h]

end TokenStream

end CloneDetection
