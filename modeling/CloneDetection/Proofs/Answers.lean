import CloneDetection.Match.Find
import CloneDetection.Proofs.CorpusLayout

/-!
# What a query asks for

`IsMatch streams revisions query c` says, in terms of the texts of some token streams, that `c` is
the candidate of a maximal equal run that a query asks for. `Answers index query x y n` says the
same in terms of the symbols of an index, for two places in either order. `exists_answers_iff` takes
one to the other.
-/

namespace CloneDetection

/-! ## Built indexes -/

/-- An index holds the corpus of some streams, with the revision group of each. -/
structure TokenIndex.Holds (index : TokenIndex) (streams : List TokenStream)
    (revisions : List Nat) : Prop where
  length_eq : streams.length = revisions.length
  corpus_eq : index.corpus = Corpus.ofStreams streams
  symbols_eq : index.symbols = index.corpus.symbols
  refs_eq : index.refs = index.corpus.refs
  revisions_eq : index.revisions = revisions.toArray

namespace TokenIndex

variable {index : TokenIndex} {streams : List TokenStream} {revisions : List Nat}
  {strategy : Strategy} {minLength maxBucket : Nat}

/-- A build fails only if the labels do not fit the streams or the positions do not fit 32 bits. -/
theorem build_eq_ok_iff :
    build streams revisions strategy minLength maxBucket = .ok index ↔
      index.Holds streams revisions ∧ sumBy (·.size + 1) streams < positionLimit ∧
        match strategy with
        | .suffixArray => index.truncated = 0 ∧ index.lookup =
            .suffixArray (SuffixArray.build index.corpus.symbols index.corpus.alphabet)
        | .winnowing => index.lookup = .fingerprints (Fingerprint.Table.build index.corpus.streams
              index.revisions minLength maxBucket).1 ∧
            index.truncated = (Fingerprint.Table.build index.corpus.streams index.revisions
              minLength maxBucket).2 := by
  obtain ⟨corpus, symbols, refs, labels, lookup, truncated⟩ := index
  rw [build]
  constructor
  · intro h
    split at h
    · contradiction
    · split at h
      · contradiction
      · rename_i hlen hpos
        cases strategy with
        | suffixArray =>
          simp only [Except.ok.injEq, mk.injEq] at h
          obtain ⟨rfl, rfl, rfl, rfl, rfl, rfl⟩ := h
          exact ⟨⟨by simpa using hlen, rfl, rfl, rfl, rfl⟩, by omega, rfl, rfl⟩
        | winnowing =>
          simp only [Except.ok.injEq, mk.injEq] at h
          obtain ⟨rfl, rfl, rfl, rfl, rfl, rfl⟩ := h
          exact ⟨⟨by simpa using hlen, rfl, rfl, rfl, rfl⟩, by omega, rfl, rfl⟩
  · rintro ⟨⟨hlen, hcorpus, hsymbols, hrefs, hlabels⟩, hpos, hlookup⟩
    simp only at hcorpus hsymbols hrefs hlabels hlookup
    subst hcorpus hsymbols hrefs hlabels
    rw [if_neg (by simpa using hlen), if_neg (by omega)]
    cases strategy with
    | suffixArray =>
      obtain ⟨rfl, rfl⟩ := hlookup
      rfl
    | winnowing =>
      obtain ⟨rfl, rfl⟩ := hlookup
      rfl

theorem streamSymbols_eq {s : Nat} {a : Array Nat} (ha : index.corpus.streams[s]? = some a) :
    index.streamSymbols s = a := by
  rw [streamSymbols, ha, Option.getD_some]

namespace Holds

variable (h : index.Holds streams revisions)

include h

theorem proper : index.corpus.Proper := by
  rw [h.corpus_eq]
  exact Corpus.proper_ofStreams streams

theorem ref_position {s i : Nat} {a : Array Nat} (ha : index.corpus.streams[s]? = some a)
    (hi : i ≤ a.size) : index.ref (index.corpus.position s i) = ⟨s, i⟩ := by
  rw [ref, h.refs_eq, Corpus.refs_position ha hi]
  rfl

theorem symbols_position {s i : Nat} {a : Array Nat} (ha : index.corpus.streams[s]? = some a)
    (hi : i < a.size) : index.symbols[index.corpus.position s i]? = a[i]? := by
  rw [h.symbols_eq, Corpus.symbols_position ha hi]

/-- The sentinels are the positions at the ends of streams. -/
theorem isSentinel_position {s i : Nat} {a : Array Nat} (ha : index.corpus.streams[s]? = some a)
    (hi : i ≤ a.size) : index.isSentinel (index.corpus.position s i) = true ↔ i = a.size := by
  rw [isSentinel, decide_eq_true_eq]
  rcases Nat.lt_or_eq_of_le hi with hlt | rfl
  · have hn := Array.getElem?_eq_getElem hlt
    have := h.proper.lt_vocabulary ha hn
    rw [h.symbols_position ha hlt, hn, Option.getD_some]
    omega
  · rw [h.symbols_eq, Corpus.symbols_position_size ha, Option.getD_some, Corpus.sentinel]
    omega

/-- Two streams are in different revisions exactly when their labels differ. -/
theorem revision_ne_iff {s t : Nat} (hs : s < streams.length) (ht : t < streams.length) :
    index.revision s ≠ index.revision t ↔ revisions[s]? ≠ revisions[t]? := by
  have hlen := h.length_eq
  have hs' : s < revisions.length := by omega
  have ht' : t < revisions.length := by omega
  simp [revision, h.revisions_eq, hs', ht']

end Holds

end TokenIndex

/-! ## Candidates of two places -/

namespace Candidate

theorem exact_of_lt {x y : TokenRef} (h : x.stream < y.stream) (n : Nat) :
    exact x y n = ⟨⟨x.stream, x.pos, x.pos + n⟩, ⟨y.stream, y.pos, y.pos + n⟩, n⟩ := by
  rw [exact, if_pos]
  · rfl
  · simp only [TokenRef.key, Key.le, Bool.or_eq_true, decide_eq_true_eq]
    exact .inl (by omega)

theorem exact_comm {x y : TokenRef} (h : x.stream ≠ y.stream) (n : Nat) :
    exact x y n = exact y x n := by
  have swap {x y : TokenRef} (h : x.stream < y.stream) : exact x y n = exact y x n := by
    rw [exact_of_lt h, exact, if_neg]
    · rfl
    · simp only [TokenRef.key, Key.le, Bool.or_eq_true, Bool.and_eq_true, decide_eq_true_eq,
        beq_iff_eq]
      omega
  rcases Nat.lt_or_gt_of_ne h with hlt | hlt
  · exact swap hlt
  · exact (swap hlt).symm

end Candidate

namespace Match

/-! ## Matches of streams -/

/-- A candidate that a query asks for: a run of at least `minLength` tokens of two streams, the
earlier stream first, whose texts are equal and which no token on either side extends. -/
def IsMatch (streams : List TokenStream) (revisions : List Nat) (query : Query) (c : Candidate) :
    Prop :=
  ∃ s t i j n x y, streams[s]? = some x ∧ streams[t]? = some y ∧ s < t ∧
    (query.acrossRevisions = true → revisions[s]? ≠ revisions[t]?) ∧ query.minLength ≤ n ∧
    MaximalRun x.texts y.texts i j n ∧ c = ⟨⟨s, i, i + n⟩, ⟨t, j, j + n⟩, n⟩

/-- Two places of an index at which a run that a query asks for starts. -/
structure Answers (index : TokenIndex) (query : Query) (x y : TokenRef) (n : Nat) : Prop where
  accepted : accepts index query x y = true
  long : query.minLength ≤ n
  left : x.stream < index.streamCount
  right : y.stream < index.streamCount
  run : MaximalRun (index.streamSymbols x.stream) (index.streamSymbols y.stream) x.pos y.pos n

variable {index : TokenIndex} {query : Query} {x y : TokenRef} {n : Nat}

theorem accepts_comm (index : TokenIndex) (query : Query) (x y : TokenRef) :
    accepts index query x y = accepts index query y x := by
  rw [accepts, accepts, bne_comm, bne_comm (b := index.revision x.stream)]

theorem accepts_iff : accepts index query x y = true ↔ x.stream ≠ y.stream ∧
    (query.acrossRevisions = true → index.revision x.stream ≠ index.revision y.stream) := by
  rw [accepts, Bool.and_eq_true, bne_iff_ne, Bool.or_eq_true, bne_iff_ne]
  cases query.acrossRevisions <;> simp

theorem Answers.symm (h : Answers index query x y n) : Answers index query y x n :=
  ⟨accepts_comm index query y x ▸ h.accepted, h.long, h.right, h.left, h.run.symm⟩

variable {streams : List TokenStream} {revisions : List Nat}

/-- The runs of the symbols of two streams are the runs of their texts. -/
theorem maximalRun_streamSymbols_iff (h : index.Holds streams revisions) {s t i j n : Nat}
    {x y : TokenStream} (hx : streams[s]? = some x) (hy : streams[t]? = some y) :
    MaximalRun (index.streamSymbols s) (index.streamSymbols t) i j n ↔
      MaximalRun x.texts y.texts i j n := by
  have symbols {s : Nat} {x : TokenStream} (hx : streams[s]? = some x) :
      (Corpus.ofStreams streams).streams[s]? = some (index.streamSymbols s) := by
    have hs : s < (Corpus.ofStreams streams).streams.size := by
      simpa using (List.getElem?_eq_some_iff.mp hx).1
    rw [TokenIndex.streamSymbols, h.corpus_eq, Array.getElem?_eq_getElem hs, Option.getD_some]
  have ha := symbols hx
  have hb := symbols hy
  have hsx := Corpus.size_eq_of_getElem? hx ha
  have hsy := Corpus.size_eq_of_getElem? hy hb
  have he {p q : Nat} (hp : p < x.size) (hq : q < y.size) :=
    Corpus.symbol_eq_iff hx hy ha hb hp hq
  constructor
  · intro hr
    exact hr.congr (by simpa using hsx) (by simpa using hsy)
      fun p q hp hq => he (by omega) (by omega)
  · intro hr
    exact hr.congr (by simpa using hsx.symm) (by simpa using hsy.symm)
      fun p q hp hq => (he (by simpa using hp) (by simpa using hq)).symm

/-- The answers of an index are the matches of the streams that it holds. -/
theorem exists_answers_iff (h : index.Holds streams revisions) {c : Candidate} :
    (∃ x y n, Answers index query x y n ∧ c = .exact x y n) ↔
      IsMatch streams revisions query c := by
  have count : index.streamCount = streams.length := by
    rw [TokenIndex.streamCount, h.corpus_eq, Corpus.size_streams]
  constructor
  · rintro ⟨x, y, n, ha, rfl⟩
    -- the earlier stream stands first
    have ordered {x y : TokenRef} (ha : Answers index query x y n) (hlt : x.stream < y.stream) :
        IsMatch streams revisions query (.exact x y n) := by
      have hx := List.getElem?_eq_getElem (count ▸ ha.left)
      have hy := List.getElem?_eq_getElem (count ▸ ha.right)
      refine ⟨x.stream, y.stream, x.pos, y.pos, n, _, _, hx, hy, hlt, fun hr => ?_, ha.long,
        (maximalRun_streamSymbols_iff h hx hy).mp ha.run, Candidate.exact_of_lt hlt n⟩
      rw [← h.revision_ne_iff (count ▸ ha.left) (count ▸ ha.right)]
      exact (accepts_iff.mp ha.accepted).2 hr
    have hne := (accepts_iff.mp ha.accepted).1
    rcases Nat.lt_or_gt_of_ne hne with hlt | hlt
    · exact ordered ha hlt
    · rw [Candidate.exact_comm hne]
      exact ordered ha.symm hlt
  · rintro ⟨s, t, i, j, n, x, y, hx, hy, hlt, hr, hn, hrun, rfl⟩
    have hs := (List.getElem?_eq_some_iff.mp hx).1
    have ht := (List.getElem?_eq_some_iff.mp hy).1
    refine ⟨⟨s, i⟩, ⟨t, j⟩, n, ⟨?_, hn, count ▸ hs, count ▸ ht, ?_⟩, ?_⟩
    · rw [accepts_iff]
      exact ⟨Nat.ne_of_lt hlt, fun e => (h.revision_ne_iff hs ht).mpr (hr e)⟩
    · exact (maximalRun_streamSymbols_iff h hx hy).mpr hrun
    · rw [Candidate.exact_of_lt hlt]

end Match

end CloneDetection
