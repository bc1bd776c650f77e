import CloneDetection.Corpus.Vocabulary
import CloneDetection.Match.Range
import CloneDetection.Sum

/-!
# The corpus of some token streams

All streams one after the other, as symbols. After the stream `s` stands the symbol `vocabulary + s`,
which occurs nowhere else, so that no run of equal symbols reaches over the end of a stream.
-/

namespace CloneDetection

/-- The symbols of some streams, all below `vocabulary`. -/
structure Corpus where
  streams : Array (Array Nat)
  vocabulary : Nat

namespace Corpus

/-- The corpus of some token streams. -/
def ofStreams (streams : List TokenStream) : Corpus :=
  let (vocabulary, symbols) := Vocabulary.internAll ∅ streams
  ⟨symbols, vocabulary.size⟩

/-- The symbol after a stream. -/
def sentinel (c : Corpus) (stream : Nat) : Nat :=
  c.vocabulary + stream

/-- The symbols of all streams, each stream with its sentinel. -/
def symbols (c : Corpus) : Array Nat :=
  (c.streams.toList.zipIdx.flatMap fun (stream, s) => stream.toList ++ [c.sentinel s]).toArray

/-- The place of every symbol of the corpus; that of a sentinel is the end of its stream. -/
def refs (c : Corpus) : Array TokenRef :=
  (c.streams.toList.zipIdx.flatMap fun (stream, s) =>
    (List.range (stream.size + 1)).map (TokenRef.mk s)).toArray

/-- One more than the greatest symbol. -/
def alphabet (c : Corpus) : Nat :=
  c.vocabulary + c.streams.size

/-- The number of positions of the corpus, sentinels included. -/
def positions (c : Corpus) : Nat :=
  sumBy (·.size + 1) c.streams.toList

end Corpus

end CloneDetection
