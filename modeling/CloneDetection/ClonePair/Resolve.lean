import CloneDetection.ClonePair.Basic
import CloneDetection.ClonePair.Suppress
import CloneDetection.Error
import CloneDetection.Text.Lines

/-!
# From candidates to clone pairs

`resolve` turns candidates, whose streams are the numbers of documents, into the clone pairs to
report: it drops those that are too short, gives the others a target and a source, drops pairs of
overlapping parts of one file and matches inside others, and quotes the text.
-/

namespace CloneDetection

/-- What is reported of the candidates. -/
structure ResolveOptions where
  minLength : Nat
  containment : Float := 1.0
  targetRevision : Option String := none

namespace Resolve

/-- The document of a stream. -/
def document (docs : Array Document) (stream : Nat) : Except InternalError Document :=
  match docs[stream]? with
  | some doc => .ok doc
  | none => .error (.unknownStream stream docs.size)

/-- The candidate with its sides told apart. Without a target revision the first side is the target.
With one, the side in that revision is, and candidates with both or neither side in it are left
out. -/
def orient (docs : Array Document) (targetRevision : Option String) (c : Candidate) :
    Except InternalError (Option Oriented) :=
  match targetRevision with
  | none => .ok (some ⟨c.a, c.b, c.matched⟩)
  | some revision => do
    let first ← document docs c.a.stream
    let second ← document docs c.b.stream
    match first.file.revision == revision, second.file.revision == revision with
    | true, false => return some ⟨c.a, c.b, c.matched⟩
    | false, true => return some ⟨c.b, c.a, c.matched⟩
    | _, _ => return none

/-- The bytes of a range of tokens of a document. -/
def byteSpan (doc : Document) (range : TokenRange) : Except InternalError (Nat × Nat) :=
  match doc.tokens.byteRange range.start range.stop with
  | some span => .ok span
  | none => .error (.tokenRange range.start range.stop doc.file.id doc.tokens.size)

/-- Whether the two sides are overlapping bytes of files of one name, such as an unchanged file in
two revisions. -/
def isSelfPair (docs : Array Document) (m : Oriented) : Except InternalError Bool := do
  let target ← document docs m.target.stream
  let source ← document docs m.source.stream
  if target.file.id = source.file.id then
    let (targetStart, targetStop) ← byteSpan target m.target
    let (sourceStart, sourceStop) ← byteSpan source m.source
    return targetStart < sourceStop && sourceStart < targetStop
  else return false

/-- The match that a candidate stands for, if it is long enough and its sides are apart. -/
def orientDistinct (docs : Array Document) (options : ResolveOptions) (c : Candidate) :
    Except InternalError (Option Oriented) :=
  if c.matched < options.minLength then .ok none
  else do
    match ← orient docs options.targetRevision c with
    | none => return none
    | some m => if ← isSelfPair docs m then return none else return some m

/-- The matches that some candidates stand for, after those of `done`, the last one first. -/
def orientAll (docs : Array Document) (options : ResolveOptions) (done : List Oriented) :
    List Candidate → Except InternalError (List Oriented)
  | [] => .ok done.reverse
  | c :: rest =>
    match orientDistinct docs options c with
    | .error e => .error e
    | .ok none => orientAll docs options done rest
    | .ok (some m) => orientAll docs options (m :: done) rest

/-- The text of some bytes of a file, none when they are not a part of it that is well formed. -/
def slice? (content : ByteArray) (start stop : Nat) : Option String :=
  if start ≤ stop ∧ stop ≤ content.size then String.fromUTF8? (content.extract start stop) else none

/-- The location of a range of tokens; `lines` holds the line starts of each document. -/
def locate (docs : Array Document) (lines : Array (List Nat)) (range : TokenRange) :
    Except InternalError Location := do
  let doc ← document docs range.stream
  let (start, stop) ← byteSpan doc range
  match slice? doc.file.content start stop with
  | none => .error (.byteRange start stop doc.file.id)
  | some content =>
    let starts := lines[range.stream]?.getD []
    return {
      file := doc.file.id
      revision := doc.file.revision
      startOffset := start
      endOffset := stop
      startLine := Text.lineOf starts start
      endLine := Text.lineOf starts (max (stop - 1) start)
      content }

/-- The clone pair of a match. -/
def pairOf (docs : Array Document) (lines : Array (List Nat)) (m : Oriented) :
    Except InternalError ClonePair := do
  let target ← locate docs lines m.target
  let source ← locate docs lines m.source
  return .ofLocations m.matched target source

end Resolve

/-- The clone pairs of some candidates, the longest first. -/
def resolve (candidates : List Candidate) (docs : Array Document) (options : ResolveOptions) :
    Except InternalError (List ClonePair) := do
  let oriented ← Resolve.orientAll docs options [] candidates
  let lines := docs.map fun doc => Text.lineStarts doc.file.content
  (Oriented.suppress options.containment oriented).mapM (Resolve.pairOf docs lines)

end CloneDetection
