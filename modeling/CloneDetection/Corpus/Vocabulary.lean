import Std.Data.HashMap
import CloneDetection.Token.Basic

/-!
# The vocabulary of some token streams

Equal token texts get equal symbols: `intern` numbers the texts of a stream in the order in which
they first occur, continuing a vocabulary that is already there.
-/

namespace CloneDetection

/-- The symbols of the texts seen so far. -/
abbrev Vocabulary := Std.HashMap String Nat

namespace Vocabulary

/-- The vocabulary with a text in it, and the symbol of that text. A new text gets the number of
texts before it. -/
def add (v : Vocabulary) (text : String) : Vocabulary × Nat :=
  match v[text]? with
  | some symbol => (v, symbol)
  | none => (v.insert text v.size, v.size)

/-- The vocabulary with the texts of a stream in it, and the symbols of the stream. -/
def intern (v : Vocabulary) (tokens : TokenStream) : Vocabulary × Array Nat :=
  tokens.foldl
    (fun (v, symbols) token =>
      let (v, symbol) := v.add token.text
      (v, symbols.push symbol))
    (v, #[])

/-- The vocabulary with the texts of some streams in it, and the symbols of each stream. -/
def internAll (v : Vocabulary) (streams : List TokenStream) : Vocabulary × Array (Array Nat) :=
  streams.foldl
    (fun (v, done) tokens =>
      let (v, symbols) := v.intern tokens
      (v, done.push symbols))
    (v, #[])

end Vocabulary

end CloneDetection
