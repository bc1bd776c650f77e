import CloneDetection.Proofs.Locality
import CloneDetection.Proofs.Suppression

/-!
# Reports without gaps

When no gaps are bridged and nothing is left out because of the limit, the matches behind a report
are those that `IsFinding` describes, whichever strategy finds them: maximal equal runs of two
documents that are long enough, face the right way and are not the same part of one file
(`exists_findings`). What is kept of them is a kernel, which tells how a report changes with the
settings:

* `clonePairs_filter_minTokens`: a greater least length leaves out the shorter pairs and nothing
  else, as a match is beaten by matches of at least its length only.
* `hasClone_targetRevision_iff`: with a target revision those pairs are reported that have one side
  in it. Some of them are turned round, which changes the order of visits, but not for two matches
  of which one subsumes the other (`Oriented.Beats.swap`).
-/

namespace CloneDetection

/-! ## Matches turned round -/

namespace Oriented

variable {threshold : Float} {m n : Oriented} {docs : List Document}

/-- The match with its sides exchanged. -/
def swap (m : Oriented) : Oriented :=
  ⟨m.source, m.target, m.matched⟩

theorem streamPair_swap (h : n.streamPair = m.streamPair) :
    n.swap.streamPair = m.swap.streamPair :=
  Prod.ext (Prod.mk.inj h).2 (Prod.mk.inj h).1

/-- A match that is a maximal equal run of the tokens of two documents. -/
structure IsRun (docs : List Document) (m : Oriented) : Prop where
  maximal : ∃ d e, docs[m.target.stream]? = some d ∧ docs[m.source.stream]? = some e ∧
    MaximalRun d.tokens.texts e.tokens.texts m.target.start m.source.start m.matched
  target_stop : m.target.stop = m.target.start + m.matched
  source_stop : m.source.stop = m.source.start + m.matched

theorem IsRun.swap (h : m.IsRun docs) : m.swap.IsRun docs := by
  obtain ⟨⟨d, e, hd, he, hrun⟩, ht, hs⟩ := h
  exact ⟨⟨e, d, he, hd, hrun.symm⟩, hs, ht⟩

theorem IsRun.hasTokens (h : m.IsRun docs) (hpos : 0 < m.matched) : m.HasTokens := by
  have ht := h.target_stop
  have hs := h.source_stop
  exact ⟨by omega, by omega⟩

theorem Faces.congr {docs : Array Document} {target : Option String} (hm : m.Faces docs target)
    (h : n.streamPair = m.streamPair) : n.Faces docs target := by
  obtain ⟨ht, hs⟩ := Prod.mk.inj h
  cases target with
  | none => simpa only [Faces, ht, hs] using hm
  | some r => simpa only [Faces, ht, hs] using hm

theorem isSubsumed_swap (threshold : Float) (m n : Oriented) :
    m.swap.isSubsumed threshold n.swap = m.isSubsumed threshold n := by
  simp only [isSubsumed, swap]
  rw [Bool.and_comm, Bool.or_assoc, Bool.or_assoc]
  congr 1
  exact Bool.or_comm _ _

/-- Shares of up to `bound` tokens are compared as numbers of tokens. -/
def CoversExactly (threshold : Float) (bound : ℕ) : Prop :=
  ∀ x ≤ bound, ∀ y ≤ bound, threshold * Float.ofNat x ≤ Float.ofNat y ↔ x ≤ y

theorem start_eq_of_covered {bound : ℕ} (hexact : CoversExactly threshold bound)
    {r s : TokenRange} (hbound : r.length ≤ bound) (hr : r.start < r.stop)
    (hlen : r.length = s.length) (h : covered threshold r s = true) : r.start = s.start := by
  have hoverlap : r.overlap s ≤ r.length := by
    rw [TokenRange.overlap, TokenRange.length]
    split <;> omega
  rw [covered, decide_eq_true_eq, hexact _ hbound _ (hoverlap.trans hbound)] at h
  simp only [TokenRange.overlap, TokenRange.length] at h hlen
  split at h <;> omega

/-- A run beats another one whichever way the two are turned. Among runs of one length only such
beat each other that start with the same token on one side, and those are visited by their starts on
the other side in either order. -/
theorem Beats.swap {bound : ℕ} (hexact : CoversExactly threshold bound) (hn : n.IsRun docs)
    (hm : m.IsRun docs) (hpos : 0 < m.matched) (hbound : m.matched ≤ bound)
    (h : Beats threshold n m) : Beats threshold n.swap m.swap := by
  obtain ⟨⟨hle, hne⟩, hstreams, hsub⟩ := h
  have hmt := hm.target_stop
  have hms := hm.source_stop
  have hnt := hn.target_stop
  have hns := hn.source_stop
  obtain ⟨hst, hss⟩ := Prod.mk.inj hstreams
  have hstart : n.matched = m.matched → m.target.start = n.target.start ∨
      m.source.start = n.source.start := by
    intro heq
    simp only [isSubsumed, Bool.or_eq_true, Bool.and_eq_true, beq_iff_eq] at hsub
    rcases hsub with (⟨hcovered, -⟩ | ⟨hstart, -⟩) | ⟨hstart, -⟩
    · refine .inl (start_eq_of_covered hexact ?_ (by omega) ?_ hcovered)
      · simp only [TokenRange.length]
        omega
      · simp only [TokenRange.length]
        omega
    · exact .inl hstart
    · exact .inr hstart
  refine ⟨⟨?_, fun heq => hne (congrArg Oriented.swap heq)⟩, streamPair_swap hstreams, ?_⟩
  · simp only [visitKey, Oriented.swap, Key.le, Bool.or_eq_true, Bool.and_eq_true,
      decide_eq_true_eq, beq_iff_eq, and_true] at hle ⊢
    omega
  · rwa [isSubsumed_swap]

/-- Without its short matches, what is kept of some matches loses its short matches. -/
theorem suppress_filter_matched {l l' : List Oriented} {k : ℕ} (h : ∀ m ∈ l, m.HasTokens)
    (hl' : ∀ m, m ∈ l' ↔ m ∈ l ∧ k ≤ m.matched) :
    suppress threshold l' = (suppress threshold l).filter fun m => decide (k ≤ m.matched) := by
  refine suppress_eq_of_isKernel (fun m hm => h m ((hl' m).mp hm).1) (fun m => ?_)
    ((nodup_suppress h).filter _) ((pairwise_mergeSort_key reportKey _).filter _)
  have hkernel := isKernel_suppress threshold l m
  simp only [Set.mem_ofPred_eq, List.mem_filter, decide_eq_true_eq] at hkernel ⊢
  rw [hkernel, hl' m]
  constructor
  · rintro ⟨⟨hm, hnot⟩, hlong⟩
    exact ⟨⟨hm, hlong⟩, fun n hn => hnot n hn.1⟩
  · rintro ⟨⟨hm, hlong⟩, hnot⟩
    refine ⟨⟨hm, fun n hn hbeats => hnot n ⟨hn, ?_⟩ hbeats⟩, hlong⟩
    exact hlong.trans (hbeats.before.matched_le hbeats.streams)

end Oriented

/-! ## Findings -/

namespace Resolve

variable {docs : Array Document} {target : Option String} {c : Candidate} {m : Oriented}

/-- A candidate is turned so that it faces the right way, if it can be. -/
theorem orient_eq_some_iff {d e : Document} (hlt : c.a.stream < c.b.stream)
    (hd : docs[c.a.stream]? = some d) (he : docs[c.b.stream]? = some e) :
    orient docs target c = .ok (some m) ↔ Sides c m ∧ m.Faces docs target := by
  refine ⟨fun h => ⟨sides_of_orient h, Oriented.faces_of_orient hlt h⟩, ?_⟩
  have hd' := document_eq_ok_iff.mpr hd
  have he' := document_eq_ok_iff.mpr he
  cases target with
  | none =>
    rintro ⟨rfl | rfl, hfaces⟩
    · rfl
    · exact absurd hlt (Nat.lt_asymm hfaces)
  | some r =>
    rintro ⟨rfl | rfl, hin, hout⟩
    · refine bind_eq_ok_iff.mpr ⟨d, hd', bind_eq_ok_iff.mpr ⟨e, he', ?_⟩⟩
      rw [beq_iff_eq.mpr (hin d hd), beq_false_of_ne (hout e he)]
      rfl
    · refine bind_eq_ok_iff.mpr ⟨d, hd', bind_eq_ok_iff.mpr ⟨e, he', ?_⟩⟩
      rw [beq_false_of_ne (hout d hd), beq_iff_eq.mpr (hin e he)]
      rfl

theorem isSelfPair_swap {b : Bool} (h : isSelfPair docs m = .ok b) :
    isSelfPair docs m.swap = .ok b := by
  obtain ⟨d, hd, h⟩ := bind_eq_ok_iff.mp h
  obtain ⟨e, he, h⟩ := bind_eq_ok_iff.mp h
  refine bind_eq_ok_iff.mpr ⟨e, he, bind_eq_ok_iff.mpr ⟨d, hd, ?_⟩⟩
  split at h
  · rename_i hid
    obtain ⟨⟨start, stop⟩, hspan, h⟩ := bind_eq_ok_iff.mp h
    obtain ⟨⟨start', stop'⟩, hspan', h⟩ := bind_eq_ok_iff.mp h
    rw [if_pos hid.symm]
    refine bind_eq_ok_iff.mpr ⟨_, hspan', bind_eq_ok_iff.mpr ⟨_, hspan, ?_⟩⟩
    rw [← h]
    exact congrArg Except.ok (Bool.and_comm _ _)
  · rename_i hid
    rw [if_neg (Ne.symm hid)]
    exact h

/-- A match faces a target revision when its locations do. -/
theorem faces_iff_of_locate {lines : Array (List ℕ)} {r : String} {l k : Location}
    (hl : locate docs lines m.target = .ok l) (hk : locate docs lines m.source = .ok k) :
    m.Faces docs (some r) ↔ l.revision = r ∧ k.revision ≠ r := by
  obtain ⟨d, hd, hld⟩ := locate_spans hl
  obtain ⟨e, he, hke⟩ := locate_spans hk
  simp only [Oriented.Faces, hd, he, Option.some.injEq, forall_eq', hld.revision, hke.revision]

end Resolve

/-- A report has a clone of `n` tokens with the given locations. -/
def Outcome.HasClone (outcome : Outcome) (target source : Location) (n : ℕ) : Prop :=
  ∃ p ∈ outcome.clonePairs, p.target = target ∧ p.source = source ∧ p.matchedTokens = n

namespace Detection

variable {settings : Settings} {files : List SourceFile} {docs : List Document}
  {outcome outcome' : Outcome} {m : Oriented}

/-- A match that is to be reported unless another one beats it. -/
structure IsFinding (settings : Settings) (docs : List Document) (m : Oriented) : Prop where
  run : m.IsRun docs
  long : settings.minTokens ≤ m.matched
  faces : m.Faces docs.toArray settings.targetRevision
  apart : Resolve.isSelfPair docs.toArray m = .ok false

theorem IsFinding.streams_ne (h : IsFinding settings docs m) :
    m.target.stream ≠ m.source.stream := by
  obtain ⟨⟨d, e, hd, -⟩, -⟩ := h.run
  intro heq
  exact h.faces.target_stream_ne h.faces (by rwa [List.getElem?_toArray]) heq heq.symm

/-- The findings of two documents, one of which comes first. -/
def findings (settings : Settings) (d e : Document) : List Oriented :=
  let lengths := List.range (d.tokens.size + 1)
  let runs := (lengths ×ˢ List.range (e.tokens.size + 1) ×ˢ lengths).map fun t =>
    (⟨⟨0, t.1, t.1 + t.2.2⟩, ⟨1, t.2.1, t.2.1 + t.2.2⟩, t.2.2⟩ : Oriented)
  runs.filter fun m => decide (settings.minTokens ≤ m.matched ∧
    MaximalRun d.tokens.texts e.tokens.texts m.target.start m.source.start m.matched ∧
    Resolve.isSelfPair #[d, e] m = .ok false)

theorem mem_findings_iff {d e : Document} (htarget : settings.targetRevision = none) :
    m ∈ findings settings d e ↔ IsFinding settings [d, e] m := by
  simp only [findings, List.mem_filter, List.mem_map, List.mem_product, List.mem_range,
    decide_eq_true_eq, Prod.exists]
  constructor
  · rintro ⟨⟨i, j, n, -, rfl⟩, hlong, hrun, hself⟩
    refine ⟨⟨⟨d, e, rfl, rfl, hrun⟩, rfl, rfl⟩, hlong, ?_, hself⟩
    rw [htarget]
    exact Nat.zero_lt_one
  · rintro ⟨⟨⟨d', e', hd, he, hrun⟩, ht, hs⟩, hlong, hfaces, hself⟩
    rw [htarget] at hfaces
    obtain ⟨⟨s, i, i'⟩, ⟨s', j, j'⟩, n⟩ := m
    have hlt : s < s' := hfaces
    have hlt' : s' < 2 := (List.getElem?_eq_some_iff.mp he).1
    obtain ⟨rfl, rfl⟩ : s = 0 ∧ s' = 1 := by omega
    cases hd
    cases he
    have hleft := hrun.run.left_le
    have hright := hrun.run.right_le
    rw [TokenStream.size_texts] at hleft hright
    dsimp only at ht hs hleft hright
    subst ht hs
    exact ⟨⟨i, j, n, ⟨by omega, by omega, by omega⟩, rfl⟩, hlong, hrun, hself⟩

/-- The matches that are asked for are runs of documents, the earlier document first. -/
theorem isMatch_iff_isRun {query : Match.Query} {c : Candidate} :
    Match.IsMatch (docs.map (·.tokens)) (revisionGroups docs) query c ↔
      c.a.stream < c.b.stream ∧ query.minLength ≤ c.matched ∧
      (query.acrossRevisions = true →
        (revisionGroups docs)[c.a.stream]? ≠ (revisionGroups docs)[c.b.stream]?) ∧
      Oriented.IsRun docs ⟨c.a, c.b, c.matched⟩ := by
  rw [Match.isMatch_iff]
  constructor
  · rintro ⟨x, y, hx, hy, hlt, hrev, hlen, hrun, ha, hb⟩
    rw [List.getElem?_map, Option.map_eq_some_iff] at hx hy
    obtain ⟨d, hd, rfl⟩ := hx
    obtain ⟨e, he, rfl⟩ := hy
    exact ⟨hlt, hlen, hrev, ⟨d, e, hd, he, hrun⟩, ha, hb⟩
  · rintro ⟨hlt, hlen, hrev, ⟨d, e, hd, he, hrun⟩, ha, hb⟩
    refine ⟨d.tokens, e.tokens, ?_, ?_, hlt, hrev, hlen, hrun, ha, hb⟩
    · rw [List.getElem?_map, hd, Option.map_some]
    · rw [List.getElem?_map, he, Option.map_some]

/-- The candidate of a finding is one that is asked for. -/
theorem IsFinding.exists_candidate (h : IsFinding settings docs m)
    (hseed : settings.seedTokens ≤ m.matched) : ∃ c, Resolve.Sides c m ∧
      Match.IsMatch (docs.map (·.tokens)) (revisionGroups docs) (query settings) c := by
  obtain ⟨⟨d, e, hd, he, -⟩, -⟩ := h.run
  have hrev (hacross : (query settings).acrossRevisions = true) :
      (revisionGroups docs)[m.target.stream]? ≠ (revisionGroups docs)[m.source.stream]? := by
    obtain ⟨r, hr⟩ := Option.isSome_iff_exists.mp hacross
    have hfaces := h.faces
    rw [hr] at hfaces
    rw [revisionGroups_ne_iff hd he, hfaces.1 d (by rwa [List.getElem?_toArray])]
    exact Ne.symm (hfaces.2 e (by rwa [List.getElem?_toArray]))
  rcases Nat.lt_or_gt_of_ne h.streams_ne with hlt | hlt
  · exact ⟨⟨m.target, m.source, m.matched⟩, .inl rfl,
      isMatch_iff_isRun.mpr ⟨hlt, hseed, hrev, h.run⟩⟩
  · exact ⟨⟨m.source, m.target, m.matched⟩, .inr rfl,
      isMatch_iff_isRun.mpr ⟨hlt, hseed, fun hacross => (hrev hacross).symm, h.run.swap⟩⟩

/-- The matches that the candidates of a search stand for are the findings. -/
theorem mem_matches_iff {index : TokenIndex} {matches_ : List Oriented}
    (hvalid : settings.validate = .ok ()) (hgap : settings.maxGap = 0)
    (hindex : TokenIndex.build (docs.map (·.tokens)) (revisionGroups docs) settings.strategy
      settings.seedTokens settings.maxBucket = .ok index)
    (ht : (Match.find index (query settings)).truncated = 0)
    (hmatches : Resolve.orientAll docs.toArray (resolveOptions settings) []
      (Match.find index (query settings)).candidates = .ok matches_) :
    m ∈ matches_ ↔ IsFinding settings docs m := by
  simp only [Resolve.mem_orientAll_iff hmatches, mem_candidates_query_iff hvalid hgap hindex ht,
    Resolve.orientDistinct_eq_some_iff]
  have horient {c : Candidate} (hc : Match.IsMatch (docs.map (·.tokens)) (revisionGroups docs)
      (query settings) c) : Resolve.orient docs.toArray settings.targetRevision c = .ok (some m) ↔
        Resolve.Sides c m ∧ m.Faces docs.toArray settings.targetRevision := by
    obtain ⟨hlt, -, -, ⟨d, e, hd, he, -⟩, -⟩ := isMatch_iff_isRun.mp hc
    exact Resolve.orient_eq_some_iff hlt (by rwa [List.getElem?_toArray])
      (by rwa [List.getElem?_toArray])
  constructor
  · rintro ⟨c, hc, hlong, ho, hself⟩
    obtain ⟨hsides, hfaces⟩ := (horient hc).mp ho
    obtain ⟨-, -, -, hrun⟩ := isMatch_iff_isRun.mp hc
    rcases hsides with rfl | rfl
    · exact ⟨hrun, hlong, hfaces, hself⟩
    · exact ⟨hrun.swap, hlong, hfaces, hself⟩
  · intro h
    have hseed : settings.seedTokens ≤ m.matched := by
      rw [Settings.seedTokens_of_maxGap_eq_zero hgap]
      exact h.long
    obtain ⟨c, hsides, hc⟩ := h.exists_candidate hseed
    refine ⟨c, hc, ?_, (horient hc).mpr ⟨hsides, h.faces⟩, h.apart⟩
    rcases hsides with rfl | rfl <;> exact h.long

/-- The documents and the findings behind an outcome. -/
theorem exists_findings (h : detect settings files = .ok outcome) (hgap : settings.maxGap = 0)
    (ht : outcome.statistics.skippedBucketTruncated = 0) : ∃ intake matches_,
      tokenizeAll settings (inOrder files) = .ok intake ∧
      (∀ m, m ∈ matches_ ↔ IsFinding settings intake.documents m) ∧
      (Oriented.suppress settings.containment matches_).mapM
        (Resolve.pairOf intake.documents.toArray (Resolve.lineStarts intake.documents)) =
          .ok outcome.clonePairs := by
  obtain ⟨hvalid, -, intake, hintake, hcompare⟩ := detect_eq_ok_iff.mp h
  refine ⟨intake, ?_⟩
  rcases Nat.lt_or_ge intake.documents.length 2 with hfew | htwo
  · refine ⟨[], hintake, fun m => ⟨fun hm => absurd hm List.not_mem_nil, fun hm => ?_⟩, ?_⟩
    · -- a finding has two documents
      have hne := hm.streams_ne
      obtain ⟨⟨d, e, hd, he, -⟩, -⟩ := hm.run
      have := (List.getElem?_eq_some_iff.mp hd).1
      have := (List.getElem?_eq_some_iff.mp he).1
      omega
    · rw [clonePairs_of_length_lt_two hfew hcompare]
      simp [Oriented.suppress, pure, Except.pure]
  · obtain ⟨index, pairs, hindex, hpairs, rfl⟩ := (compare_eq_ok_iff htwo).mp hcompare
    obtain ⟨matches_, hmatches, hpairs⟩ := bind_eq_ok_iff.mp hpairs
    exact ⟨matches_, hintake, fun m => mem_matches_iff hvalid hgap hindex ht hmatches, hpairs⟩

/-- What is read depends on what the settings say about tokens only. -/
theorem intake_eq {settings' : Settings} {intake intake' : Intake}
    (h : tokenizeAll settings files = .ok intake) (h' : tokenizeAll settings' files = .ok intake')
    (hoptions : settings.tokenizeOptions = settings'.tokenizeOptions) : intake = intake' := by
  have hdocuments : document? settings = document? settings' := by
    funext file
    rw [document?, document?, hoptions]
  have hfailures : failure? settings = failure? settings' := by
    funext file
    rw [failure?, failure?, hoptions]
  rw [(tokenizeAll_eq_ok_iff.mp h).2, (tokenizeAll_eq_ok_iff.mp h').2, hdocuments, hfailures]

/-- A request with no more positions than the limit has an outcome that leaves nothing out. -/
theorem exists_detect_of_positions_le (hvalid : settings.validate = .ok ())
    (hrequest : checkRequest files = .ok ())
    (hread : settings.strict = true → ∀ f ∈ files, ∃ doc, document? settings f = some doc)
    (hstrategy : settings.strategy = .suffixArray)
    (hlimit : positions settings files ≤ settings.maxBucket)
    (hsize : positions settings files < TokenIndex.positionLimit) :
    ∃ outcome, detect settings files = .ok outcome ∧
      outcome.statistics.skippedBucketTruncated = 0 := by
  obtain ⟨outcome, h⟩ := exists_detect_eq_ok hvalid hrequest hread hsize
  exact ⟨outcome, h, skippedBucketTruncated_eq_zero h hstrategy hlimit⟩

theorem positions_map_file {docs : List Document} (h : ∀ doc ∈ docs,
    tokenize doc.file.content doc.file.language settings.tokenizeOptions = .ok doc.tokens) :
    positions settings (docs.map (·.file)) = sumBy (·.tokens.size + 1) docs := by
  rw [positions, filterMap_document?_map_file h]

/-- Two files in order are compared, and the pairs that are reported are those of a kernel of the
findings. -/
theorem exists_detect_pair {d e : Document} {kept : List Oriented}
    (hvalid : settings.validate = .ok ()) (hstrict : settings.strict = false)
    (hgap : settings.maxGap = 0) (htarget : settings.targetRevision = none)
    (hstrategy : settings.strategy = .suffixArray)
    (hrequest : checkRequest [d.file, e.file] = .ok ())
    (horder : inOrder [d.file, e.file] = [d.file, e.file])
    (htokens : ∀ doc ∈ [d, e], tokenize doc.file.content doc.file.language
      settings.tokenizeOptions = .ok doc.tokens)
    (hlimit : sumBy (·.tokens.size + 1) [d, e] ≤ settings.maxBucket)
    (hsize : sumBy (·.tokens.size + 1) [d, e] < TokenIndex.positionLimit)
    (hkept : Oriented.IsKernel settings.containment (findings settings d e) {m | m ∈ kept}) :
    ∃ outcome, detect settings [d.file, e.file] = .ok outcome ∧
      outcome.statistics.skippedBucketTruncated = 0 ∧
      (∀ m ∈ kept, ∃ p ∈ outcome.clonePairs, p.Locates #[d, e] m) ∧
      ∀ p ∈ outcome.clonePairs, ∃ m ∈ kept, p.Locates #[d, e] m := by
  have hpositions : positions settings [d.file, e.file] = sumBy (·.tokens.size + 1) [d, e] :=
    positions_map_file htokens
  rw [← hpositions] at hlimit hsize
  obtain ⟨outcome, h, ht⟩ := exists_detect_of_positions_le hvalid hrequest
    (fun hs => absurd (hstrict.symm.trans hs) Bool.false_ne_true) hstrategy hlimit hsize
  obtain ⟨intake, matches_, hintake, hmatches, hpairs⟩ := exists_findings h hgap ht
  have hdocs : intake.documents = [d, e] := by
    have hread : tokenizeAll settings [d.file, e.file] = .ok ⟨[d, e], []⟩ :=
      tokenizeAll_map_file htokens
    rw [horder] at hintake
    rw [← Except.ok.inj (hread.symm.trans hintake)]
  rw [hdocs] at hmatches hpairs
  have hmem (m : Oriented) : m ∈ Oriented.suppress settings.containment matches_ ↔ m ∈ kept :=
    Oriented.mem_suppress_iff_of_isKernel hkept fun m =>
      (hmatches m).trans (mem_findings_iff htarget).symm
  have hall := mapM_eq_ok_iff.mp hpairs
  refine ⟨outcome, h, ht, fun m hm => ?_, fun p hp => ?_⟩
  · obtain ⟨p, hp, hpair⟩ := exists_of_forall₂ hall ((hmem m).mpr hm)
    exact ⟨p, hp, Resolve.pairOf_locates hpair⟩
  · obtain ⟨m, hm, hpair⟩ := exists_of_forall₂ hall.flip hp
    exact ⟨m, (hmem m).mp hm, Resolve.pairOf_locates hpair⟩

theorem positions_threeFiles (minTokens : ℕ) (target : Option String) :
    positions { normalization := .raw, minTokens := minTokens, targetRevision := target }
      threeFiles = 17 := by
  have h : positions { normalization := .raw } threeFiles = 17 := by
    decide +kernel
  exact h

theorem exists_detect_threeFiles (minTokens : ℕ) (target : Option String) (hmin : 1 ≤ minTokens)
    (htarget : target ≠ some "") : ∃ outcome, detect
      { normalization := .raw, minTokens := minTokens, targetRevision := target } threeFiles =
        .ok outcome ∧ outcome.statistics.skippedBucketTruncated = 0 := by
  refine exists_detect_of_positions_le ?_ (by decide +kernel) nofun rfl ?_ ?_
  · exact Settings.validate_eq_ok_iff.mpr ⟨hmin, show Settings.isShare 1.0 = true by decide +kernel,
      show 1 ≤ 512 by decide, nofun, htarget⟩
  · rw [positions_threeFiles]
    exact show 17 ≤ 512 by decide
  · rw [positions_threeFiles]
    decide

/-! ## The least length -/

/-- Without gaps, and when nothing is left out because of the limit, a greater least length leaves
out the pairs with fewer tokens and changes nothing else. -/
theorem clonePairs_filter_minTokens {k k' : ℕ} (hle : k ≤ k') (hgap : settings.maxGap = 0)
    (h : detect { settings with minTokens := k } files = .ok outcome)
    (h' : detect { settings with minTokens := k' } files = .ok outcome')
    (ht : outcome.statistics.skippedBucketTruncated = 0)
    (ht' : outcome'.statistics.skippedBucketTruncated = 0) :
    outcome'.clonePairs = outcome.clonePairs.filter fun p => decide (k' ≤ p.matchedTokens) := by
  obtain ⟨intake, matches_, hintake, hmatches, hpairs⟩ := exists_findings h hgap ht
  obtain ⟨intake', matches', hintake', hmatches', hpairs'⟩ := exists_findings h' hgap ht'
  obtain rfl := intake_eq hintake hintake' rfl
  have hmin := (Settings.validate_eq_ok_iff.mp (detect_eq_ok_iff.mp h).1).1
  have htokens : ∀ m ∈ matches_, m.HasTokens := fun m hm =>
    ((hmatches m).mp hm).run.hasTokens (hmin.trans ((hmatches m).mp hm).long)
  have hmem (m : Oriented) : m ∈ matches' ↔ m ∈ matches_ ∧ k' ≤ m.matched := by
    rw [hmatches, hmatches']
    constructor
    · rintro ⟨hrun, hlong, hfaces, hself⟩
      exact ⟨⟨hrun, hle.trans hlong, hfaces, hself⟩, hlong⟩
    · rintro ⟨⟨hrun, -, hfaces, hself⟩, hlong⟩
      exact ⟨hrun, hlong, hfaces, hself⟩
  have hall := List.rel_filter (p := fun m => decide (k' ≤ m.matched))
    (q := fun p => decide (k' ≤ p.matchedTokens))
    (fun m p hp => by simp [(Resolve.pairOf_locates hp).matched]) (mapM_eq_ok_iff.mp hpairs)
  rw [← Oriented.suppress_filter_matched htokens hmem, ← mapM_eq_ok_iff] at hall
  exact Except.ok.inj (hpairs'.symm.trans hall)

theorem clonePairs_filter_threeFiles : ∃ outcome outcome',
    detect { normalization := .raw, minTokens := 2 } threeFiles = .ok outcome ∧
      detect { normalization := .raw, minTokens := 3 } threeFiles = .ok outcome' ∧
      outcome.statistics.skippedBucketTruncated = 0 ∧
      outcome'.statistics.skippedBucketTruncated = 0 ∧
      outcome'.clonePairs = outcome.clonePairs.filter fun p => decide (3 ≤ p.matchedTokens) := by
  obtain ⟨outcome, h, ht⟩ := exists_detect_threeFiles 2 none (by decide) (by decide)
  obtain ⟨outcome', h', ht'⟩ := exists_detect_threeFiles 3 none (by decide) (by decide)
  have hgap : ({ normalization := .raw } : Settings).maxGap = 0 := rfl
  exact ⟨outcome, outcome', h, h', ht, ht',
    clonePairs_filter_minTokens (show 2 ≤ 3 by decide) hgap h h' ht ht'⟩

/-! ## The target revision -/

/-- The findings of a target revision are those findings without one that have one side in it,
turned so that this side comes first. -/
theorem isFinding_targetRevision_iff {r : String} :
    IsFinding { settings with targetRevision := some r } docs m ↔
      m.Faces docs.toArray (some r) ∧ (IsFinding { settings with targetRevision := none } docs m ∨
        IsFinding { settings with targetRevision := none } docs m.swap) := by
  constructor
  · intro h
    refine ⟨h.faces, ?_⟩
    rcases Nat.lt_or_gt_of_ne h.streams_ne with hlt | hlt
    · exact .inl ⟨h.run, h.long, hlt, h.apart⟩
    · exact .inr ⟨h.run.swap, h.long, hlt, Resolve.isSelfPair_swap h.apart⟩
  · rintro ⟨hfaces, ⟨hrun, hlong, -, hself⟩ | ⟨hrun, hlong, -, hself⟩⟩
    · exact ⟨hrun, hlong, hfaces, hself⟩
    · exact ⟨hrun.swap, hlong, hfaces, Resolve.isSelfPair_swap hself⟩

/-- What is kept for a target revision is what is kept without one, if it has one side in it, turned
so that this side comes first. -/
theorem mem_suppress_targetRevision_iff {r : String} {threshold : Float} {bound : ℕ}
    {l l' : List Oriented} (hexact : Oriented.CoversExactly threshold bound)
    (hbound : ∀ m ∈ l, 0 < m.matched ∧ m.matched ≤ bound)
    (hl : ∀ m, m ∈ l ↔ IsFinding { settings with targetRevision := none } docs m)
    (hl' : ∀ m, m ∈ l' ↔ IsFinding { settings with targetRevision := some r } docs m) :
    m ∈ Oriented.suppress threshold l' ↔ m.Faces docs.toArray (some r) ∧
      (m ∈ Oriented.suppress threshold l ∨ m.swap ∈ Oriented.suppress threshold l) := by
  have hkernel := Oriented.isKernel_suppress threshold l
  simp only [Oriented.IsKernel, Set.mem_ofPred_eq] at hkernel
  have hmem {m : Oriented} (h : m ∈ Oriented.suppress threshold l) := ((hkernel m).mp h).1
  -- without a target revision, the earlier stream comes first
  have hlt {m : Oriented} (h : m ∈ Oriented.suppress threshold l) :
      m.target.stream < m.source.stream := ((hl m).mp (hmem h)).faces
  have hgt {m : Oriented} (h : m.swap ∈ Oriented.suppress threshold l) :
      m.source.stream < m.target.stream := hlt h
  have hrun {m : Oriented} (h : m ∈ l) : m.IsRun docs := ((hl m).mp h).run
  have hturned : Oriented.IsKernel threshold l' {m | m.Faces docs.toArray (some r) ∧
      (m ∈ Oriented.suppress threshold l ∨ m.swap ∈ Oriented.suppress threshold l)} := by
    intro m
    simp only [Set.mem_ofPred_eq, hl', isFinding_targetRevision_iff, ← hl]
    constructor
    · rintro ⟨hfaces, hm⟩
      refine ⟨⟨hfaces, hm.imp hmem hmem⟩, ?_⟩
      rintro n ⟨-, hn⟩ hbeats
      obtain ⟨htarget, hsource⟩ := Prod.mk.inj hbeats.streams
      rcases hm with hm | hm <;> rcases hn with hn | hn
      · exact ((hkernel m).mp hm).2 n hn hbeats
      · have hm' := hlt hm
        have hn' := hgt hn
        omega
      · have hm' := hgt hm
        have hn' := hlt hn
        omega
      · obtain ⟨hpos, hle⟩ := hbound m.swap (hmem hm)
        exact ((hkernel m.swap).mp hm).2 n.swap hn
          (hbeats.swap hexact (hrun (hmem hn)).swap (hrun (hmem hm)).swap hpos hle)
    · rintro ⟨⟨hfaces, hm⟩, hnot⟩
      refine ⟨hfaces, hm.imp (fun hm => ?_) fun hm => ?_⟩
      · refine (hkernel m).mpr ⟨hm, fun n hn hbeats => hnot n ⟨?_, .inl hn⟩ hbeats⟩
        exact hfaces.congr hbeats.streams
      · refine (hkernel m.swap).mpr ⟨hm, fun n hn hbeats => ?_⟩
        have hturn := hbeats.swap hexact (hrun (hmem hn)) (hrun hm) (hbound m.swap hm).1
          (hbound m.swap hm).2
        exact hnot n.swap ⟨hfaces.congr hturn.streams, .inr hn⟩ hturn
  exact Set.ext_iff.mp ((Oriented.isKernel_suppress threshold l').eq hturned) m

/-- A clone is reported for each match that is kept, with the locations of its sides. -/
theorem hasClone_iff {l : List Oriented} {lines : Array (List ℕ)} {target source : Location} {n : ℕ}
    (h : l.mapM (Resolve.pairOf docs.toArray lines) = .ok outcome.clonePairs) :
    outcome.HasClone target source n ↔ ∃ m ∈ l,
      Resolve.locate docs.toArray lines m.target = .ok target ∧
      Resolve.locate docs.toArray lines m.source = .ok source ∧ m.matched = n := by
  have hall := mapM_eq_ok_iff.mp h
  constructor
  · rintro ⟨p, hp, rfl, rfl, rfl⟩
    obtain ⟨m, hm, hpair⟩ := exists_of_forall₂ hall.flip hp
    obtain ⟨target, htarget, hpair⟩ := bind_eq_ok_iff.mp hpair
    obtain ⟨source, hsource, hpair⟩ := bind_eq_ok_iff.mp hpair
    cases hpair
    exact ⟨m, hm, htarget, hsource, rfl⟩
  · rintro ⟨m, hm, htarget, hsource, rfl⟩
    obtain ⟨p, hp, hpair⟩ := exists_of_forall₂ hall hm
    have hpair' : Resolve.pairOf docs.toArray lines m =
        .ok (.ofLocations m.matched target source) :=
      bind_eq_ok_iff.mpr ⟨target, htarget, bind_eq_ok_iff.mpr ⟨source, hsource, rfl⟩⟩
    obtain rfl := Except.ok.inj (hpair.symm.trans hpair')
    exact ⟨_, hp, rfl, rfl, rfl⟩

/-- Without gaps, with coverage compared exactly, and when nothing is left out because of the limit,
a target revision selects the clones that have exactly one location in it, and makes that location
the target. -/
theorem hasClone_targetRevision_iff {r : String} (hgap : settings.maxGap = 0)
    (hone : settings.containment = 1.0)
    (hexact : Oriented.CoversExactly 1.0 (positions settings files))
    (h : detect { settings with targetRevision := none } files = .ok outcome)
    (h' : detect { settings with targetRevision := some r } files = .ok outcome')
    (ht : outcome.statistics.skippedBucketTruncated = 0)
    (ht' : outcome'.statistics.skippedBucketTruncated = 0) (target source : Location) (n : ℕ) :
    outcome'.HasClone target source n ↔ (target.revision = r ∧ source.revision ≠ r) ∧
      (outcome.HasClone target source n ∨ outcome.HasClone source target n) := by
  obtain ⟨intake, matches_, hintake, hmatches, hpairs⟩ := exists_findings h hgap ht
  obtain ⟨intake', matches', hintake', hmatches', hpairs'⟩ := exists_findings h' hgap ht'
  obtain rfl := intake_eq hintake hintake' rfl
  have hmin := (Settings.validate_eq_ok_iff.mp (detect_eq_ok_iff.mp h).1).1
  have hbound : ∀ m ∈ matches_, 0 < m.matched ∧ m.matched ≤ positions settings files := by
    intro m hm
    have hfinding := (hmatches m).mp hm
    obtain ⟨⟨d, e, hd, -, hrun⟩, -⟩ := hfinding.run
    have hsize := size_lt_positions ((mem_documents_iff hintake).mp (List.mem_of_getElem? hd))
    have hle := hrun.run.left_le
    rw [TokenStream.size_texts] at hle
    refine ⟨hmin.trans hfinding.long, ?_⟩
    exact (Nat.le_add_left _ _).trans (hle.trans hsize.le)
  rw [← hone] at hexact
  have hkept (m : Oriented) :=
    mem_suppress_targetRevision_iff (m := m) hexact hbound hmatches hmatches'
  rw [hasClone_iff hpairs', hasClone_iff hpairs, hasClone_iff hpairs]
  constructor
  · rintro ⟨m, hm, htarget, hsource, rfl⟩
    obtain ⟨hfaces, hm⟩ := (hkept m).mp hm
    refine ⟨(Resolve.faces_iff_of_locate htarget hsource).mp hfaces, hm.imp ?_ ?_⟩
    · exact fun hm => ⟨m, hm, htarget, hsource, rfl⟩
    · exact fun hm => ⟨m.swap, hm, hsource, htarget, rfl⟩
  · rintro ⟨hrevision, ⟨m, hm, htarget, hsource, rfl⟩ | ⟨m, hm, hsource, htarget, rfl⟩⟩
    · refine ⟨m, (hkept m).mpr ⟨?_, .inl hm⟩, htarget, hsource, rfl⟩
      exact (Resolve.faces_iff_of_locate htarget hsource).mpr hrevision
    · refine ⟨m.swap, (hkept m.swap).mpr ⟨?_, .inr hm⟩, htarget, hsource, rfl⟩
      exact (Resolve.faces_iff_of_locate htarget hsource).mpr hrevision

theorem hasClone_targetRevision_threeFiles : ∃ outcome outcome',
    detect { normalization := .raw, minTokens := 2 } threeFiles = .ok outcome ∧
      detect { normalization := .raw, minTokens := 2, targetRevision := some "old" } threeFiles =
        .ok outcome' ∧
      outcome.statistics.skippedBucketTruncated = 0 ∧
      outcome'.statistics.skippedBucketTruncated = 0 ∧
      Oriented.CoversExactly 1.0 17 ∧
      ∀ target source n, outcome'.HasClone target source n ↔
        (target.revision = "old" ∧ source.revision ≠ "old") ∧
        (outcome.HasClone target source n ∨ outcome.HasClone source target n) := by
  obtain ⟨outcome, h, ht⟩ := exists_detect_threeFiles 2 none (by decide) (by decide)
  obtain ⟨outcome', h', ht'⟩ := exists_detect_threeFiles 2 (some "old") (by decide) (by decide)
  have hexact : Oriented.CoversExactly 1.0 17 := by
    unfold Oriented.CoversExactly
    decide +kernel
  refine ⟨outcome, outcome', h, h', ht, ht', hexact, ?_⟩
  rw [← positions_threeFiles 2 none] at hexact
  exact hasClone_targetRevision_iff rfl rfl hexact h h' ht ht'

end Detection

end CloneDetection
