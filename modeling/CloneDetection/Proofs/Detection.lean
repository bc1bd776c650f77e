import CloneDetection.Proofs.Bridging
import CloneDetection.Proofs.Intake

/-!
# What a detection promises

* `clonePair_aligned`: every reported pair is a clone. Its locations run from the first to the last
  token of two ranges with an alignment of as many pairs as tokens are said to match.
* `exists_pair_iff_equalRun`: without gaps, and when nothing is left out because of the limit, a
  pair of two files is reported exactly when their token streams have a run of the least length in
  common.
-/

namespace CloneDetection

/-- A location is in a file. -/
def Location.In (l : Location) (f : SourceFile) : Prop :=
  l.file = f.id ∧ l.revision = f.revision

/-- A pair has one location in each of two files. -/
def ClonePair.Between (p : ClonePair) (f g : SourceFile) : Prop :=
  p.target.In f ∧ p.source.In g ∨ p.target.In g ∧ p.source.In f

/-- A location runs from the start of the first token of a range to the end of the last one. -/
def Location.Covers (l : Location) (tokens : TokenStream) (r : TokenRange) : Prop :=
  ∃ first last, tokens[r.start]? = some first ∧ tokens[r.stop - 1]? = some last ∧
    l.startOffset = first.start ∧ l.endOffset = last.stop

theorem ClonePair.Between.symm {p : ClonePair} {f g : SourceFile} (h : p.Between f g) :
    p.Between g f :=
  Or.symm h

namespace Location.Spans

variable {l : Location} {doc : Document} {r : TokenRange}

theorem in_file (h : l.Spans doc r) : l.In doc.file :=
  ⟨h.file, h.revision⟩

theorem covers (h : l.Spans doc r) : l.Covers doc.tokens r := by
  obtain ⟨-, first, last, hfirst, hlast, hstart, hstop⟩ :=
    TokenStream.byteRange_eq_some_iff.mp h.bytes
  exact ⟨first, last, hfirst, hlast, hstart.symm, hstop.symm⟩

end Location.Spans

namespace Oriented

/-- A match whose matched tokens are the pairs of an alignment of two documents. -/
def Aligned (docs : List Document) (gap : Nat) (m : Oriented) : Prop :=
  ∃ d e pairs, docs[m.target.stream]? = some d ∧ docs[m.source.stream]? = some e ∧
    Alignment d.tokens.texts e.tokens.texts gap m.target m.source pairs ∧
    pairs.length = m.matched

theorem aligned_of_sides {docs : List Document} {gap : Nat} {c : Candidate} {m : Oriented}
    (h : Match.Aligned (docs.map (·.tokens)) gap c) (hm : Resolve.Sides c m) :
    m.Aligned docs gap := by
  obtain ⟨x, y, pairs, hx, hy, halign, hlen⟩ := h
  rw [List.getElem?_map, Option.map_eq_some_iff] at hx hy
  obtain ⟨d, hd, rfl⟩ := hx
  obtain ⟨e, he, rfl⟩ := hy
  rcases hm with rfl | rfl
  · exact ⟨d, e, pairs, hd, he, halign, hlen⟩
  · exact ⟨e, d, pairs.map Prod.swap, he, hd, halign.symm, by rw [List.length_map, hlen]⟩

end Oriented

namespace Detection

variable {settings : Settings} {files : List SourceFile} {outcome : Outcome}

/-! ## Reported pairs are clones -/

/-- Every pair spans two ranges of documents that are aligned. -/
theorem exists_alignment_of_mem (h : detect settings files = .ok outcome) {p : ClonePair}
    (hp : p ∈ outcome.clonePairs) : ∃ d e r s pairs, IsDocument settings files d ∧
      IsDocument settings files e ∧ p.target.Spans d r ∧ p.source.Spans e s ∧
      Alignment d.tokens.texts e.tokens.texts settings.maxGap r s pairs ∧
      pairs.length = p.matchedTokens ∧ settings.minTokens ≤ p.matchedTokens := by
  obtain ⟨hvalid, -, intake, hintake, hcompare⟩ := detect_eq_ok_iff.mp h
  have hmin := (Settings.validate_eq_ok_iff.mp hvalid).1
  rcases Nat.lt_or_ge intake.documents.length 2 with hfew | hdocs
  · rw [clonePairs_of_length_lt_two hfew hcompare] at hp
    cases hp
  obtain ⟨index, pairs, hindex, hpairs, rfl⟩ := (compare_eq_ok_iff hdocs).mp hcompare
  obtain ⟨c, hc, m, hsides, hlen, hlocates⟩ :=
    Resolve.exists_candidate_of_mem_resolve hpairs hp
  have haligned := Match.aligned_of_mem_candidates (one_le_minLength_query hmin) hindex hc
  obtain ⟨d, e, steps, hd, he, halign, hsteps⟩ := Oriented.aligned_of_sides haligned hsides
  obtain ⟨d', hd', htarget⟩ := hlocates.target
  obtain ⟨e', he', hsource⟩ := hlocates.source
  rw [List.getElem?_toArray] at hd' he'
  obtain rfl : d = d' := Option.some.inj (hd.symm.trans hd')
  obtain rfl : e = e' := Option.some.inj (he.symm.trans he')
  have document {n : Nat} {doc : Document} (hdoc : intake.documents[n]? = some doc) :
      IsDocument settings files doc :=
    (mem_documents_iff hintake).mp (List.mem_of_getElem? hdoc)
  exact ⟨d, e, m.target, m.source, steps, document hd, document he, htarget, hsource, halign,
    hsteps.trans hlocates.matched.symm, hlen⟩

/-- Two files in different revisions whose token streams are `Match.repeating`. -/
def repeatingDocuments : List Document :=
  [⟨"one", "new", "c", "a b x a b".toUTF8⟩, ⟨"two", "old", "c", "a b y a b".toUTF8⟩].zipWith
    Document.mk Match.repeating

/-- Settings under which the first file is the target. -/
def repeatingSettings (minTokens maxGap : Nat) : Settings :=
  { normalization := .raw, minTokens, maxGap, maxBucket := 4, targetRevision := some "new" }

theorem tokenizeAll_repeating (minTokens maxGap : Nat) :
    tokenizeAll (repeatingSettings minTokens maxGap)
      (inOrder (repeatingDocuments.map (·.file))) = .ok ⟨repeatingDocuments, []⟩ := by
  have horder : inOrder (repeatingDocuments.map (·.file)) = repeatingDocuments.map (·.file) := by
    cbv
  have htokens : ∀ doc ∈ repeatingDocuments, tokenize doc.file.content doc.file.language
      ⟨.raw, false, false⟩ = .ok doc.tokens := by
    decide +kernel
  rw [horder]
  exact tokenizeAll_map_file htokens

/-- The two files are compared without failure. -/
theorem detect_repeating {minTokens maxGap : Nat} {candidates : List Candidate}
    {matches_ : List Oriented}
    (hvalid : (repeatingSettings minTokens maxGap).validate = .ok ())
    (hseed : (repeatingSettings minTokens maxGap).seedTokens = 2)
    (hcandidates : (Match.find (Match.repeatingIndex Match.repeatingArray)
      ⟨2, maxGap, 4, true⟩).candidates = candidates)
    (hmatches : Resolve.orientAll repeatingDocuments.toArray
      ⟨minTokens, 1.0, some "new"⟩ [] candidates = .ok matches_)
    (hpairs : (matches_.all fun m => (Resolve.pairOf repeatingDocuments.toArray
      (repeatingDocuments.toArray.map fun doc => Text.lineStarts doc.file.content) m).isOk) =
        true) :
    ∃ outcome, detect (repeatingSettings minTokens maxGap) (repeatingDocuments.map (·.file)) =
        .ok outcome ∧
      resolve candidates repeatingDocuments.toArray ⟨minTokens, 1.0, some "new"⟩ =
        .ok outcome.clonePairs ∧
      outcome.statistics.skippedBucketTruncated = 0 := by
  have hquery : query (repeatingSettings minTokens maxGap) = ⟨2, maxGap, 4, true⟩ := by
    rw [query, hseed]
    rfl
  have hgroups : revisionGroups repeatingDocuments = [0, 1] := by
    cbv
  obtain ⟨pairs, hpairs⟩ := Resolve.exists_resolve_eq_ok hmatches fun m hm =>
    exists_eq_ok_of_isOk (List.all_eq_true.mp hpairs m hm)
  have hindex : TokenIndex.build (repeatingDocuments.map (·.tokens))
      (revisionGroups repeatingDocuments) (repeatingSettings minTokens maxGap).strategy
      (repeatingSettings minTokens maxGap).seedTokens
      (repeatingSettings minTokens maxGap).maxBucket =
        .ok (Match.repeatingIndex Match.repeatingArray) := by
    rw [hgroups, hseed]
    exact Match.build_repeating 2 4
  refine ⟨_, detect_eq_ok_iff.mpr ⟨hvalid, by decide +kernel, ⟨repeatingDocuments, []⟩,
    tokenizeAll_repeating _ _, (compare_eq_ok_iff (by decide)).mpr
      ⟨_, pairs, hindex, ?_, rfl⟩⟩, hpairs, ?_⟩
  · rw [hquery, hcandidates]
    exact hpairs
  · simp only [hquery]
    exact Match.truncated_repeating maxGap

/-- Every reported pair is a clone of two files of the request: it covers two ranges of tokens with
an alignment of `matchedTokens` pairs, which without gaps is an equal run. -/
theorem clonePair_aligned (h : detect settings files = .ok outcome) {p : ClonePair}
    (hp : p ∈ outcome.clonePairs) :
    ∃ f ∈ files, ∃ g ∈ files, ∃ x y r s pairs,
      tokenize f.content f.language settings.tokenizeOptions = .ok x ∧
      tokenize g.content g.language settings.tokenizeOptions = .ok y ∧
      p.target.In f ∧ p.source.In g ∧ p.target.Covers x r ∧ p.source.Covers y s ∧
      Alignment x.texts y.texts settings.maxGap r s pairs ∧ pairs.length = p.matchedTokens ∧
      settings.minTokens ≤ p.matchedTokens ∧
      (settings.maxGap = 0 → EqualRun x.texts y.texts r.start s.start p.matchedTokens ∧
        r.stop = r.start + p.matchedTokens ∧ s.stop = s.start + p.matchedTokens) := by
  obtain ⟨d, e, r, s, pairs, hd, he, htarget, hsource, halign, hlen, hmin⟩ :=
    exists_alignment_of_mem h hp
  refine ⟨d.file, hd.mem, e.file, he.mem, d.tokens, e.tokens, r, s, pairs, hd.tokenize_eq,
    he.tokenize_eq, htarget.in_file, hsource.in_file, htarget.covers, hsource.covers, halign, hlen,
    hmin, fun hgap => ?_⟩
  rw [hgap] at halign
  exact hlen ▸ halign.equalRun

theorem clonePair_aligned_repeating : ∃ outcome p,
    detect (repeatingSettings 4 1) (repeatingDocuments.map (·.file)) = .ok outcome ∧
      p ∈ outcome.clonePairs ∧ ∃ x y r s pairs, p.target.Covers x r ∧ p.source.Covers y s ∧
        Alignment x.texts y.texts 1 r s pairs ∧ 4 ≤ pairs.length := by
  have hcandidates : (Match.find (Match.repeatingIndex Match.repeatingArray)
      ⟨2, 1, 4, true⟩).candidates = [⟨⟨0, 0, 2⟩, ⟨1, 3, 5⟩, 2⟩, ⟨⟨0, 0, 5⟩, ⟨1, 0, 5⟩, 4⟩,
        ⟨⟨0, 3, 5⟩, ⟨1, 0, 2⟩, 2⟩] := by
    cbv
  have hmatches (containment : Float) : Resolve.orientAll repeatingDocuments.toArray
      ⟨4, containment, some "new"⟩ [] [⟨⟨0, 0, 2⟩, ⟨1, 3, 5⟩, 2⟩, ⟨⟨0, 0, 5⟩, ⟨1, 0, 5⟩, 4⟩,
        ⟨⟨0, 3, 5⟩, ⟨1, 0, 2⟩, 2⟩] = .ok [⟨⟨0, 0, 5⟩, ⟨1, 0, 5⟩, 4⟩] := by
    cbv
  obtain ⟨outcome, h, hresolve, -⟩ :=
    detect_repeating (by rfl) rfl hcandidates (hmatches 1.0) (by cbv)
  obtain ⟨p, hp, -⟩ := Resolve.exists_pair_of_candidate hresolve
    (c := ⟨⟨0, 0, 5⟩, ⟨1, 0, 5⟩, 4⟩) (by simp) (by decide) rfl rfl (by decide) (by decide)
  obtain ⟨f, -, g, -, x, y, r, s, pairs, -, -, -, -, hx, hy, halign, hlen, hmin, -⟩ :=
    clonePair_aligned h hp
  exact ⟨outcome, p, h, hp, x, y, r, s, pairs, hx, hy, halign, hlen ▸ hmin⟩

/-! ## Shared runs are reported -/

/-- A pair that locates a match of two streams is between the files of these streams. -/
theorem between_of_locates {docs : Array Document} {p : ClonePair} {m : Oriented} {s t : Nat}
    {d e : Document} (h : p.Locates docs m) (hd : docs[s]? = some d) (he : docs[t]? = some e)
    (hm : m.streamPair = (s, t)) : p.target.In d.file ∧ p.source.In e.file := by
  obtain ⟨d', hd', htarget⟩ := h.target
  obtain ⟨e', he', hsource⟩ := h.source
  obtain ⟨rfl, rfl⟩ := Prod.mk.inj hm
  rw [hd, Option.some.injEq] at hd'
  rw [he, Option.some.injEq] at he'
  subst hd' he'
  exact ⟨htarget.in_file, hsource.in_file⟩

/-- Two documents of which one is in the target revision are in different revisions. -/
theorem revisionGroups_ne_of_targetRevision {docs : List Document} {s t : Nat} {d e : Document}
    (hd : docs[s]? = some d) (he : docs[t]? = some e)
    (htarget : ∀ r, settings.targetRevision = some r →
      (d.file.revision = r ↔ e.file.revision ≠ r))
    (hacross : (query settings).acrossRevisions = true) :
    (revisionGroups docs)[s]? ≠ (revisionGroups docs)[t]? := by
  obtain ⟨r, hr⟩ := Option.isSome_iff_exists.mp hacross
  rw [revisionGroups_ne_iff hd he]
  intro heq
  have := htarget r hr
  rw [heq] at this
  exact (iff_not_self this).elim

/-- A run of the least length that two documents share lies in a match. -/
theorem exists_isMatch_of_equalRun {docs : List Document} {s t i j n : Nat} {d e : Document}
    (hgap : settings.maxGap = 0) (hst : s < t) (hd : docs[s]? = some d) (he : docs[t]? = some e)
    (htarget : ∀ r, settings.targetRevision = some r →
      (d.file.revision = r ↔ e.file.revision ≠ r))
    (hn : settings.minTokens ≤ n) (hrun : EqualRun d.tokens.texts e.tokens.texts i j n) :
    ∃ i j n, settings.minTokens ≤ n ∧ Match.IsMatch (docs.map (·.tokens)) (revisionGroups docs)
      (query settings) ⟨⟨s, i, i + n⟩, ⟨t, j, j + n⟩, n⟩ := by
  have hseed := Settings.seedTokens_of_maxGap_eq_zero hgap
  obtain ⟨i', j', n', hmax, hi, hle, -⟩ := hrun.exists_maximal
  refine ⟨i', j', n', by omega, s, t, i', j', n', d.tokens, e.tokens, ?_, ?_, hst,
    revisionGroups_ne_of_targetRevision hd he htarget, ?_, hmax, rfl⟩
  · rw [List.getElem?_map, hd, Option.map_some]
  · rw [List.getElem?_map, he, Option.map_some]
  · show settings.seedTokens ≤ n'
    omega

/-- Without gaps, the candidates of documents are the matches when nothing is left out. -/
theorem mem_candidates_query_iff {docs : List Document} {index : TokenIndex} {c : Candidate}
    (hvalid : settings.validate = .ok ()) (hgap : settings.maxGap = 0)
    (hindex : TokenIndex.build (docs.map (·.tokens)) (revisionGroups docs) settings.strategy
      settings.seedTokens settings.maxBucket = .ok index)
    (ht : (Match.find index (query settings)).truncated = 0) :
    c ∈ (Match.find index (query settings)).candidates ↔
      Match.IsMatch (docs.map (·.tokens)) (revisionGroups docs) (query settings) c := by
  obtain ⟨hmin, -, hbucket, -⟩ := Settings.validate_eq_ok_iff.mp hvalid
  exact Match.mem_candidates_iff (one_le_minLength_query hmin) hindex (fun _ => hbucket) hgap ht

/-- A run of the least length that two documents share leads to a pair of their files. -/
theorem exists_pair_of_equalRun {docs : List Document} {index : TokenIndex}
    {pairs : List ClonePair} (hvalid : settings.validate = .ok ()) (hgap : settings.maxGap = 0)
    (hindex : TokenIndex.build (docs.map (·.tokens)) (revisionGroups docs) settings.strategy
      settings.seedTokens settings.maxBucket = .ok index)
    (hpairs : resolve (Match.find index (query settings)).candidates docs.toArray
      (resolveOptions settings) = .ok pairs)
    (htrunc : (Match.find index (query settings)).truncated = 0) {s t : Nat} {d e : Document}
    (hst : s < t) (hd : docs[s]? = some d) (he : docs[t]? = some e)
    (hid : d.file.id ≠ e.file.id)
    (htarget : ∀ r, settings.targetRevision = some r →
      (d.file.revision = r ↔ e.file.revision ≠ r))
    {i j n : Nat} (hn : settings.minTokens ≤ n)
    (hrun : EqualRun d.tokens.texts e.tokens.texts i j n) :
    ∃ p ∈ pairs, p.Between d.file e.file := by
  obtain ⟨i', j', n', hn', hmatch⟩ := exists_isMatch_of_equalRun hgap hst hd he htarget hn hrun
  have hc := (mem_candidates_query_iff hvalid hgap hindex htrunc).mpr hmatch
  rw [← List.getElem?_toArray] at hd he
  obtain ⟨p, hp, m, hlocates, hm⟩ :=
    Resolve.exists_pair_of_candidate hpairs hc hn' hd he hid htarget
  exact ⟨p, hp, hm.imp (between_of_locates hlocates hd he) (between_of_locates hlocates he hd)⟩

/-- Without gaps, a pair between two files comes from a run of the least length that they share. -/
theorem exists_equalRun_of_between (h : detect settings files = .ok outcome)
    (hgap : settings.maxGap = 0) {d e : Document} (hd : IsDocument settings files d)
    (he : IsDocument settings files e) {p : ClonePair} (hp : p ∈ outcome.clonePairs)
    (hbetween : p.Between d.file e.file) :
    ∃ i j n, settings.minTokens ≤ n ∧ EqualRun d.tokens.texts e.tokens.texts i j n := by
  have hfiles := (checkRequest_eq_ok_iff.mp (detect_eq_ok_iff.mp h).2.1).2
  obtain ⟨d', e', r, s, pairs, hd', he', hspan, hspan', halign, hlen, hmin⟩ :=
    exists_alignment_of_mem h hp
  rw [hgap] at halign
  have hrun := halign.equalRun.1
  -- the identity of a file tells which document a location is in
  have same {l : Location} {d d' : Document} {r : TokenRange} (hd : IsDocument settings files d)
      (hd' : IsDocument settings files d') (hspan : l.Spans d' r) (hin : l.In d.file) : d' = d :=
    hd'.eq_of_identity_eq hd hfiles
      (Prod.ext (hspan.file.symm.trans hin.1) (hspan.revision.symm.trans hin.2))
  rcases hbetween with ⟨hin, hin'⟩ | ⟨hin, hin'⟩
  · obtain rfl := same hd hd' hspan hin
    obtain rfl := same he he' hspan' hin'
    exact ⟨_, _, _, hlen ▸ hmin, hrun⟩
  · obtain rfl := same he hd' hspan hin
    obtain rfl := same hd he' hspan' hin'
    exact ⟨_, _, _, hlen ▸ hmin, hrun.symm⟩

/-- Without gaps, and when nothing is left out because of the limit, two files with different names
have a pair exactly when their token streams share a run of the least length. -/
theorem exists_pair_iff_equalRun (h : detect settings files = .ok outcome)
    (hgap : settings.maxGap = 0) (htrunc : outcome.statistics.skippedBucketTruncated = 0)
    {f g : SourceFile} {x y : TokenStream} (hf : f ∈ files) (hg : g ∈ files)
    (hx : tokenize f.content f.language settings.tokenizeOptions = .ok x)
    (hy : tokenize g.content g.language settings.tokenizeOptions = .ok y) (hid : f.id ≠ g.id)
    (htarget : ∀ r, settings.targetRevision = some r → (f.revision = r ↔ g.revision ≠ r)) :
    (∃ p ∈ outcome.clonePairs, p.Between f g) ↔
      ∃ i j n, settings.minTokens ≤ n ∧ EqualRun x.texts y.texts i j n := by
  have hdf : IsDocument settings files ⟨f, x⟩ := ⟨hf, hx⟩
  have hdg : IsDocument settings files ⟨g, y⟩ := ⟨hg, hy⟩
  constructor
  · rintro ⟨p, hp, hbetween⟩
    exact exists_equalRun_of_between h hgap hdf hdg hp hbetween
  · rintro ⟨i, j, n, hn, hrun⟩
    obtain ⟨hvalid, -, intake, hintake, hcompare⟩ := detect_eq_ok_iff.mp h
    obtain ⟨s, hs⟩ := List.mem_iff_getElem?.mp ((mem_documents_iff hintake).mpr hdf)
    obtain ⟨t, ht⟩ := List.mem_iff_getElem?.mp ((mem_documents_iff hintake).mpr hdg)
    have hst : s ≠ t := by
      rintro rfl
      rw [hs, Option.some.injEq] at ht
      exact hid (congrArg (·.file.id) ht)
    have hs' := (List.getElem?_eq_some_iff.mp hs).1
    have ht' := (List.getElem?_eq_some_iff.mp ht).1
    obtain ⟨index, pairs, hindex, hpairs, rfl⟩ :=
      (compare_eq_ok_iff (show 2 ≤ intake.documents.length by omega)).mp hcompare
    rcases Nat.lt_or_gt_of_ne hst with hlt | hlt
    · exact exists_pair_of_equalRun hvalid hgap hindex hpairs htrunc hlt hs ht hid htarget hn hrun
    · obtain ⟨p, hp, hbetween⟩ := exists_pair_of_equalRun hvalid hgap hindex hpairs htrunc hlt ht hs
        hid.symm (fun r hr => iff_not_comm.mp (htarget r hr)) hn hrun.symm
      exact ⟨p, hp, hbetween.symm⟩

theorem exists_pair_repeating : ∃ outcome,
    detect (repeatingSettings 2 0) (repeatingDocuments.map (·.file)) = .ok outcome ∧
      outcome.statistics.skippedBucketTruncated = 0 ∧
      ∃ p ∈ outcome.clonePairs, p.Between ⟨"one", "new", "c", "a b x a b".toUTF8⟩
        ⟨"two", "old", "c", "a b y a b".toUTF8⟩ := by
  have hcandidates : (Match.find (Match.repeatingIndex Match.repeatingArray)
      ⟨2, 0, 4, true⟩).candidates = [⟨⟨0, 0, 2⟩, ⟨1, 0, 2⟩, 2⟩, ⟨⟨0, 0, 2⟩, ⟨1, 3, 5⟩, 2⟩,
        ⟨⟨0, 3, 5⟩, ⟨1, 0, 2⟩, 2⟩, ⟨⟨0, 3, 5⟩, ⟨1, 3, 5⟩, 2⟩] := by
    cbv
  have hmatches (containment : Float) : Resolve.orientAll repeatingDocuments.toArray
      ⟨2, containment, some "new"⟩ [] [⟨⟨0, 0, 2⟩, ⟨1, 0, 2⟩, 2⟩, ⟨⟨0, 0, 2⟩, ⟨1, 3, 5⟩, 2⟩,
        ⟨⟨0, 3, 5⟩, ⟨1, 0, 2⟩, 2⟩, ⟨⟨0, 3, 5⟩, ⟨1, 3, 5⟩, 2⟩] = .ok [⟨⟨0, 0, 2⟩, ⟨1, 0, 2⟩, 2⟩,
        ⟨⟨0, 0, 2⟩, ⟨1, 3, 5⟩, 2⟩, ⟨⟨0, 3, 5⟩, ⟨1, 0, 2⟩, 2⟩, ⟨⟨0, 3, 5⟩, ⟨1, 3, 5⟩, 2⟩] := by
    cbv
  obtain ⟨outcome, h, -, ht⟩ :=
    detect_repeating (by rfl) rfl hcandidates (hmatches 1.0) (by cbv)
  have htokens : ∀ doc ∈ repeatingDocuments, tokenize doc.file.content doc.file.language
      ⟨.raw, false, false⟩ = .ok doc.tokens := by
    decide +kernel
  refine ⟨outcome, h, ht, (exists_pair_iff_equalRun h rfl ht List.mem_cons_self
    (List.mem_cons_of_mem _ List.mem_cons_self) (htokens _ List.mem_cons_self)
    (htokens _ (List.mem_cons_of_mem _ List.mem_cons_self)) (by decide) (by decide)).mpr
    ⟨0, 3, 2, Nat.le_refl 2, ?_⟩⟩
  exact ⟨by decide +kernel, by decide +kernel, by decide +kernel⟩

end Detection

end CloneDetection
