import CloneDetection.Corpus.Basic
import CloneDetection.Error
import CloneDetection.Fingerprint.Bucket
import CloneDetection.SuffixArray.CommonPrefix
import CloneDetection.Sum

/-!
# The index of some token streams

The corpus of the streams with what the chosen strategy looks up in it: a suffix array of the whole
corpus, or a table of fingerprints.
-/

namespace CloneDetection

/-- What a strategy looks up. -/
inductive Lookup
  | suffixArray (array : SuffixArray)
  | fingerprints (table : Fingerprint.Table)

/-- Some streams, ready to be searched for equal runs. -/
structure TokenIndex where
  corpus : Corpus
  /-- All symbols of the corpus. -/
  symbols : Array Nat
  /-- The place of every symbol. -/
  refs : Array TokenRef
  /-- The group of each stream; streams of one revision share it. -/
  revisions : Array Nat
  lookup : Lookup
  /-- The number of places dropped from buckets over the limit. -/
  truncated : Nat

namespace TokenIndex

/-- One more than the greatest number of positions of a corpus. -/
def positionLimit : Nat := 0x100000000

/-- The index of some streams, in which runs of at least `minLength` tokens are to be found. -/
def build (streams : List TokenStream) (revisions : List Nat) (strategy : Strategy)
    (minLength maxBucket : Nat) : Except InternalError TokenIndex :=
  let positions := sumBy (·.size + 1) streams
  if streams.length ≠ revisions.length then
    .error (.revisionLabels streams.length revisions.length)
  else if positionLimit ≤ positions then .error (.corpusSize positions)
  else
    let corpus := Corpus.ofStreams streams
    let symbols := corpus.symbols
    let revisions := revisions.toArray
    let (lookup, truncated) :=
      match strategy with
      | .suffixArray => (Lookup.suffixArray (SuffixArray.build symbols corpus.alphabet), 0)
      | .winnowing =>
        let (table, dropped) := Fingerprint.Table.build corpus.streams revisions minLength maxBucket
        (Lookup.fingerprints table, dropped)
    .ok { corpus, symbols, refs := corpus.refs, revisions, lookup, truncated }

/-- The number of streams. -/
def streamCount (index : TokenIndex) : Nat :=
  index.corpus.streams.size

/-- The symbols of a stream, none when there is no such stream. -/
def streamSymbols (index : TokenIndex) (stream : Nat) : Array Nat :=
  index.corpus.streams[stream]?.getD #[]

/-- The place of a symbol of the corpus. -/
def ref (index : TokenIndex) (position : Nat) : TokenRef :=
  index.refs[position]?.getD ⟨0, 0⟩

/-- Whether the symbol at a position ends a stream. -/
def isSentinel (index : TokenIndex) (position : Nat) : Bool :=
  index.corpus.vocabulary ≤ index.symbols[position]?.getD 0

/-- The revision group of a stream; zero when there is no such stream. -/
def revision (index : TokenIndex) (stream : Nat) : Nat :=
  index.revisions[stream]?.getD 0

/-- The number of tokens of all streams. -/
def tokenCount (index : TokenIndex) : Nat :=
  index.symbols.size - index.streamCount

end TokenIndex

end CloneDetection
