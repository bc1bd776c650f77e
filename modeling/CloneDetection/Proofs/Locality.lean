import CloneDetection.Proofs.Relabeling

/-!
# A part of a request

The pairs that a detection reports of some of its files are those that it reports when it is given
these files alone (`filter_clonePairs`). Other files change the numbers of the streams, but not their
order, and they add matches of other streams. Both make no difference for any stage: the search
(`Match.filter_candidates`), the orientation of the candidates (`Resolve.filter_orientAll`), and what
is reported of the matches (`Resolve.filter_resolve`).
-/

namespace CloneDetection

variable {docs part : List Document} {e : ℕ ↪o ℕ} {p : ℕ × ℕ → Bool}

/-- The documents of `part` are those of `docs` at the places `e`, and `p` tells the pairs of such
places. -/
structure Embeds (docs part : List Document) (e : ℕ ↪o ℕ) (p : ℕ × ℕ → Bool) : Prop where
  getElem? : ∀ i, docs[e i]? = part[i]?
  pair : ∀ s t, p (s, t) = true ↔ s ∈ Set.range e ∧ t ∈ Set.range e

theorem exists_embeds (h : part.Sublist docs) : ∃ e p, Embeds docs part e p := by
  classical
  obtain ⟨e, he⟩ := List.sublist_iff_exists_orderEmbedding_getElem?_eq.mp h
  exact ⟨e, fun k => decide (k.1 ∈ Set.range e ∧ k.2 ∈ Set.range e), fun i => (he i).symm,
    fun s t => by simp⟩

/-! ## Candidates -/

namespace Match

variable {query : Query} {c : Candidate}

theorem isMatch_iff {streams : List TokenStream} {revisions : List ℕ} :
    IsMatch streams revisions query c ↔ ∃ x y, streams[c.a.stream]? = some x ∧
      streams[c.b.stream]? = some y ∧ c.a.stream < c.b.stream ∧
      (query.acrossRevisions = true → revisions[c.a.stream]? ≠ revisions[c.b.stream]?) ∧
      query.minLength ≤ c.matched ∧ MaximalRun x.texts y.texts c.a.start c.b.start c.matched ∧
      c.IsExact := by
  constructor
  · rintro ⟨s, t, i, j, n, x, y, hx, hy, hst, hrev, hn, hrun, rfl⟩
    exact ⟨x, y, hx, hy, hst, hrev, hn, hrun, rfl, rfl⟩
  · rintro ⟨x, y, hx, hy, hst, hrev, hn, hrun, ha, hb⟩
    refine ⟨_, _, _, _, _, x, y, hx, hy, hst, hrev, hn, hrun, ?_⟩
    rw [← ha, ← hb]

/-- The matches of a part of some documents are those of all of them with both streams in the
part. -/
theorem isMatch_relabel_iff (h : Embeds docs part e p) :
    IsMatch (docs.map (·.tokens)) (Detection.revisionGroups docs) query (c.relabel e) ↔
      IsMatch (part.map (·.tokens)) (Detection.revisionGroups part) query c := by
  have tokens (s : ℕ) : (docs.map (·.tokens))[e s]? = (part.map (·.tokens))[s]? := by
    rw [List.getElem?_map, List.getElem?_map, h.getElem?]
  rw [isMatch_iff, isMatch_iff]
  refine exists_congr fun x => exists_congr fun y => ?_
  simp only [Candidate.relabel, TokenRange.relabel, Candidate.IsExact, tokens, e.lt_iff_lt]
  refine and_congr_right fun hx => and_congr_right fun hy => and_congr_right fun _ =>
    and_congr_left fun _ => imp_congr_right fun _ => ?_
  rw [List.getElem?_map, Option.map_eq_some_iff] at hx hy
  obtain ⟨d, hd, -⟩ := hx
  obtain ⟨d', hd', -⟩ := hy
  rw [Detection.revisionGroups_ne_iff hd hd',
    Detection.revisionGroups_ne_iff ((h.getElem? _).trans hd) ((h.getElem? _).trans hd')]

theorem exists_relabel (h : Embeds docs part e p) (hc : p (streamPair c) = true) :
    ∃ d : Candidate, d.relabel e = c := by
  obtain ⟨⟨i, hi⟩, ⟨j, hj⟩⟩ := (h.pair _ _).mp hc
  refine ⟨⟨{ c.a with stream := i }, { c.b with stream := j }, c.matched⟩, ?_⟩
  simp [Candidate.relabel, TokenRange.relabel, hi, hj]

theorem pair_relabel (h : Embeds docs part e p) : p (streamPair (c.relabel e)) = true :=
  (h.pair _ _).mpr ⟨⟨_, rfl⟩, ⟨_, rfl⟩⟩

/-- The exact runs found, in order. -/
def exactRuns (index : TokenIndex) (query : Query) : List Candidate :=
  (Candidate.sort (scan index query).1).eraseReps

theorem mem_exactRuns {index : TokenIndex} :
    c ∈ exactRuns index query ↔ c ∈ (scan index query).1 := by
  rw [exactRuns, mem_eraseReps, Candidate.mem_sort]

theorem bridgeGaps_of_length_le_one {l : List Candidate} (h : l.length ≤ 1) (maxGap : ℕ) :
    (bridgeGaps l maxGap).1 = l := by
  match l with
  | [] => simp [bridgeGaps, Candidate.sort]
  | [c] => simp [bridgeGaps, Candidate.sort, List.splitBy, List.splitBy.loop, chainGroup,
      Chains.visit, attach?]

theorem candidates_find (index : TokenIndex) (query : Query) : (find index query).candidates =
    if 0 < query.maxGap then (bridgeGaps (exactRuns index query) query.maxGap).1
    else exactRuns index query := by
  by_cases hgap : 0 < query.maxGap
  · by_cases hlen : 1 < (exactRuns index query).length
    · simp only [find]
      rw [if_pos ⟨hgap, hlen⟩, if_pos hgap]
      rfl
    · rw [if_pos hgap, bridgeGaps_of_length_le_one (Nat.le_of_not_lt hlen)]
      simp only [find]
      rw [if_neg fun hboth => hlen hboth.2]
      rfl
  · simp only [find]
    rw [if_neg hgap, if_neg fun hboth => hgap hboth.1]
    rfl

variable {strategy : Strategy} {index index' : TokenIndex}

/-- The exact runs of a part of some documents are those of all of them in this part. -/
theorem filter_exactRuns (h : Embeds docs part e p)
    (hscan : ∀ c, c ∈ (scan index query).1 ↔
      IsMatch (docs.map (·.tokens)) (Detection.revisionGroups docs) query c)
    (hscan' : ∀ c, c ∈ (scan index' query).1 ↔
      IsMatch (part.map (·.tokens)) (Detection.revisionGroups part) query c) :
    (exactRuns index query).filter (fun c => p (streamPair c)) =
      (exactRuns index' query).map (Candidate.relabel e) := by
  have sorted (index : TokenIndex) :
      (exactRuns index query).Pairwise fun c d => c.key.le d.key = true ∧ c ≠ d :=
    pairwise_eraseReps (fun h h' => Candidate.key_injective (Key.le_antisymm h h'))
      (Candidate.pairwise_sort _)
  have hleft := (sorted index).filter fun c => p (streamPair c)
  have hright : ((exactRuns index' query).map (Candidate.relabel e)).Pairwise
      fun c d => c.key.le d.key = true ∧ c ≠ d := by
    rw [List.pairwise_map]
    refine (sorted index').imp fun {c d} hcd => ?_
    rw [← Candidate.key_le_relabel]
    exact ⟨hcd.1, fun heq => hcd.2 (Candidate.relabel_injective e heq)⟩
  refine List.Perm.eq_of_pairwise (fun c d _ _ hcd hdc => ?_) hleft hright ?_
  · exact Candidate.key_injective (Key.le_antisymm hcd.1 hdc.1)
  rw [List.perm_ext_iff_of_nodup (hleft.imp And.right) (hright.imp And.right)]
  intro c
  simp only [List.mem_filter, List.mem_map, mem_exactRuns, hscan, hscan']
  constructor
  · rintro ⟨hmatch, hpair⟩
    obtain ⟨d, rfl⟩ := exists_relabel h hpair
    exact ⟨d, (isMatch_relabel_iff h).mp hmatch, rfl⟩
  · rintro ⟨d, hmatch, rfl⟩
    exact ⟨(isMatch_relabel_iff h).mpr hmatch, pair_relabel h⟩

/-- The candidates of a part of some documents are those of all of them in this part. -/
theorem filter_candidates (h : Embeds docs part e p) (hmin : 1 ≤ query.minLength)
    (hbucket : 1 ≤ query.maxBucket)
    (hindex : TokenIndex.build (docs.map (·.tokens)) (Detection.revisionGroups docs) strategy
      query.minLength query.maxBucket = .ok index)
    (hindex' : TokenIndex.build (part.map (·.tokens)) (Detection.revisionGroups part) strategy
      query.minLength query.maxBucket = .ok index')
    (ht : (find index query).truncated = 0) (ht' : (find index' query).truncated = 0) :
    (find index query).candidates.filter (fun c => p (streamPair c)) =
      (find index' query).candidates.map (Candidate.relabel e) := by
  rw [truncated_find] at ht ht'
  have hscan (c : Candidate) := mem_scan_iff (c := c) hindex hmin (fun _ => hbucket) ht
  have hscan' (c : Candidate) := mem_scan_iff (c := c) hindex' hmin (fun _ => hbucket) ht'
  have hruns := filter_exactRuns h hscan hscan'
  have hexact : ∀ c ∈ exactRuns index query, c.IsExact := by
    intro c hc
    rw [mem_exactRuns, hscan, isMatch_iff] at hc
    obtain ⟨x, y, -, -, -, -, -, -, hexact⟩ := hc
    exact hexact
  rw [candidates_find, candidates_find]
  split
  · rw [filter_bridgeGaps hexact, hruns, bridgeGaps_relabel]
  · exact hruns

end Match

/-! ## Matches and pairs -/

namespace Resolve

variable {options : ResolveOptions} {c : Candidate} {m : Oriented} {r : TokenRange}

theorem document_relabel_iff (h : Embeds docs part e p) {s : ℕ} {d : Document} :
    document docs.toArray (e s) = .ok d ↔ document part.toArray s = .ok d := by
  rw [document_eq_ok_iff, document_eq_ok_iff, List.getElem?_toArray, List.getElem?_toArray,
    h.getElem?]

theorem orient_relabel_iff (h : Embeds docs part e p) {target : Option String} :
    orient docs.toArray target (c.relabel e) = .ok (some (m.relabel e)) ↔
      orient part.toArray target c = .ok (some m) := by
  have same (n : Oriented) : (Except.ok (some (n.relabel e)) : Except InternalError _) =
      .ok (some (m.relabel e)) ↔ (Except.ok (some n) : Except InternalError _) = .ok (some m) := by
    simp [(Oriented.relabel_injective e).eq_iff]
  cases target with
  | none => exact same ⟨c.a, c.b, c.matched⟩
  | some revision =>
    unfold orient
    rw [bind_eq_ok_iff, bind_eq_ok_iff]
    refine exists_congr fun d => and_congr (document_relabel_iff h) ?_
    rw [bind_eq_ok_iff, bind_eq_ok_iff]
    refine exists_congr fun d' => and_congr (document_relabel_iff h) ?_
    cases d.file.revision == revision <;> cases d'.file.revision == revision
    · simp [pure, Except.pure]
    · exact same ⟨c.b, c.a, c.matched⟩
    · exact same ⟨c.a, c.b, c.matched⟩
    · simp [pure, Except.pure]

theorem isSelfPair_relabel_iff (h : Embeds docs part e p) {b : Bool} :
    isSelfPair docs.toArray (m.relabel e) = .ok b ↔ isSelfPair part.toArray m = .ok b := by
  unfold isSelfPair
  rw [bind_eq_ok_iff, bind_eq_ok_iff]
  refine exists_congr fun d => and_congr (document_relabel_iff h) ?_
  rw [bind_eq_ok_iff, bind_eq_ok_iff]
  exact exists_congr fun d' => and_congr (document_relabel_iff h) Iff.rfl

theorem orientation?_relabel (h : Embeds docs part e p) (c : Candidate) :
    orientation? docs.toArray options (c.relabel e) =
      (orientation? part.toArray options c).map (Oriented.relabel e) := by
  have hiff (m : Oriented) : orientDistinct docs.toArray options (c.relabel e) =
      .ok (some (m.relabel e)) ↔ orientDistinct part.toArray options c = .ok (some m) := by
    rw [orientDistinct_eq_some_iff, orientDistinct_eq_some_iff, orient_relabel_iff h,
      isSelfPair_relabel_iff h]
    rfl
  ext m
  rw [orientation?_eq_some_iff, Option.map_eq_some_iff]
  constructor
  · intro hm
    obtain ⟨n, rfl⟩ : ∃ n : Oriented, n.relabel e = m := by
      rcases (sides_of_orientDistinct hm).2 with rfl | rfl
      · exact ⟨⟨c.a, c.b, c.matched⟩, rfl⟩
      · exact ⟨⟨c.b, c.a, c.matched⟩, rfl⟩
    exact ⟨n, orientation?_eq_some_iff.mpr ((hiff n).mp hm), rfl⟩
  · rintro ⟨n, hn, rfl⟩
    exact (hiff n).mpr (orientation?_eq_some_iff.mp hn)

theorem pair_streamPair_of_sides (h : Embeds docs part e p) (hm : Sides c m) :
    p m.streamPair = p (Match.streamPair c) := by
  rcases hm with rfl | rfl
  · rfl
  · rw [Bool.eq_iff_iff]
    exact (h.pair _ _).trans (and_comm.trans (h.pair _ _).symm)

/-- The matches of a part of some documents are those of all of them in this part. -/
theorem filter_orientAll {candidates candidates' : List Candidate}
    {matches_ matches' : List Oriented} (h : Embeds docs part e p)
    (hcandidates : candidates.filter (fun c => p (Match.streamPair c)) =
      candidates'.map (Candidate.relabel e))
    (hmatches : orientAll docs.toArray options [] candidates = .ok matches_)
    (hmatches' : orientAll part.toArray options [] candidates' = .ok matches') :
    matches_.filter (fun m => p m.streamPair) = matches'.map (Oriented.relabel e) := by
  have hfilter (c : Candidate) : (orientation? docs.toArray options c).filter
      (fun m => p m.streamPair) = if p (Match.streamPair c) = true then
        orientation? docs.toArray options c else none := by
    cases hm : orientation? docs.toArray options c with
    | none => simp
    | some m =>
      have hsides := (sides_of_orientDistinct (orientation?_eq_some_iff.mp hm)).2
      rw [Option.filter_some, pair_streamPair_of_sides h hsides]
  rw [orientAll_eq_filterMap hmatches, orientAll_eq_filterMap hmatches', List.reverse_nil,
    List.nil_append, List.nil_append, List.filter_filterMap]
  simp only [hfilter]
  rw [← List.filterMap_filter, hcandidates, List.filterMap_map, List.map_filterMap]
  congr 1
  funext c
  exact orientation?_relabel h c

/-! ## Quotes -/

/-- The line starts of each document. -/
def lineStarts (docs : List Document) : Array (List ℕ) :=
  docs.toArray.map fun doc => Text.lineStarts doc.file.content

theorem getElem?_lineStarts (h : Embeds docs part e p) (s : ℕ) :
    (lineStarts docs)[e s]? = (lineStarts part)[s]? := by
  simp [lineStarts, h.getElem?]

theorem locate_relabel_iff (h : Embeds docs part e p) {l : Location} :
    locate docs.toArray (lineStarts docs) (r.relabel e) = .ok l ↔
      locate part.toArray (lineStarts part) r = .ok l := by
  unfold locate
  rw [bind_eq_ok_iff, bind_eq_ok_iff]
  refine exists_congr fun d => and_congr (document_relabel_iff h) ?_
  simp only [TokenRange.relabel, getElem?_lineStarts h]
  exact Iff.rfl

theorem pairOf_relabel_iff (h : Embeds docs part e p) {q : ClonePair} :
    pairOf docs.toArray (lineStarts docs) (m.relabel e) = .ok q ↔
      pairOf part.toArray (lineStarts part) m = .ok q := by
  unfold pairOf
  rw [bind_eq_ok_iff, bind_eq_ok_iff]
  refine exists_congr fun target => and_congr (locate_relabel_iff h) ?_
  rw [bind_eq_ok_iff, bind_eq_ok_iff]
  exact exists_congr fun source => and_congr (locate_relabel_iff h) Iff.rfl

/-- The pairs of a part of some documents are those of all of them in this part. -/
theorem filter_resolve {candidates candidates' : List Candidate} {pairs pairs' : List ClonePair}
    (h : Embeds docs part e p)
    (hcandidates : candidates.filter (fun c => p (Match.streamPair c)) =
      candidates'.map (Candidate.relabel e))
    (hpairs : resolve candidates docs.toArray options = .ok pairs)
    (hpairs' : resolve candidates' part.toArray options = .ok pairs') {inside : ClonePair → Bool}
    (hinside : ∀ m q, q.Locates docs.toArray m → (p m.streamPair = true ↔ inside q = true)) :
    pairs.filter inside = pairs' := by
  obtain ⟨matches_, hmatches, hpairs⟩ := bind_eq_ok_iff.mp hpairs
  obtain ⟨matches', hmatches', hpairs'⟩ := bind_eq_ok_iff.mp hpairs'
  have hkept : (Oriented.suppress options.containment matches_).filter (fun m => p m.streamPair) =
      (Oriented.suppress options.containment matches').map (Oriented.relabel e) := by
    rw [Oriented.filter_suppress, filter_orientAll h hcandidates hmatches hmatches',
      Oriented.suppress_relabel]
  have hall := List.rel_filter (p := fun m => p m.streamPair) (q := inside)
    (fun m q hq => hinside m q (pairOf_locates hq)) (mapM_eq_ok_iff.mp hpairs)
  have hall' : List.Forall₂ (fun m q => pairOf docs.toArray (lineStarts docs) m = .ok q)
      ((Oriented.suppress options.containment matches').map (Oriented.relabel e)) pairs' := by
    rw [List.forall₂_map_left_iff]
    exact (mapM_eq_ok_iff.mp hpairs').imp fun m q => (pairOf_relabel_iff h).mpr
  have hunique : Relator.RightUnique fun m q =>
      pairOf docs.toArray (lineStarts docs) m = .ok q :=
    fun m q q' hq hq' => Except.ok.inj (hq.symm.trans hq')
  rw [hkept] at hall
  exact hunique.forall₂ hall hall'

end Resolve

/-! ## Files -/

instance (l : Location) (f : SourceFile) : Decidable (l.In f) :=
  inferInstanceAs (Decidable (_ ∧ _))

instance (q : ClonePair) (f g : SourceFile) : Decidable (q.Between f g) :=
  inferInstanceAs (Decidable (_ ∨ _))

/-- A pair has both its locations in some of the files. -/
def ClonePair.Inside (q : ClonePair) (files : List SourceFile) : Prop :=
  (∃ f ∈ files, q.target.In f) ∧ ∃ f ∈ files, q.source.In f

instance (q : ClonePair) (files : List SourceFile) : Decidable (q.Inside files) :=
  inferInstanceAs (Decidable (_ ∧ _))

namespace Detection

variable {settings : Settings} {files chosen : List SourceFile} {outcome outcome' : Outcome}

theorem identityLE_iff {f g : SourceFile} :
    identityLE f g = true ↔ toLex f.identity ≤ toLex g.identity := by
  rw [Prod.Lex.toLex_le_toLex]
  simp [identityLE, SourceFile.identity]

theorem pairwise_inOrder (files : List SourceFile) :
    (inOrder files).Pairwise fun f g => identityLE f g = true := by
  refine List.pairwise_mergeSort (fun f g k => ?_) (fun f g => ?_) files
  · rw [identityLE_iff, identityLE_iff, identityLE_iff]
    exact le_trans
  · rw [Bool.or_eq_true, identityLE_iff, identityLE_iff]
    exact le_total _ _

/-- Some files of a request are in the same order as in the whole request. -/
theorem inOrder_sublist (hfiles : (files.map SourceFile.identity).Nodup)
    (hsome : (chosen.map SourceFile.identity).Nodup) (hsub : chosen ⊆ files) :
    (inOrder chosen).Sublist (inOrder files) := by
  have hnodup : (inOrder chosen).Nodup :=
    (List.mergeSort_perm chosen identityLE).nodup_iff.mpr hsome.of_map
  obtain ⟨l, hperm, hl⟩ := List.subperm_of_subset hnodup fun f hf =>
    mem_inOrder.mpr (hsub (mem_inOrder.mp hf))
  have heq : l = inOrder chosen := by
    refine hperm.eq_of_pairwise (fun f g hf hg hfg hgf => ?_)
      ((pairwise_inOrder files).sublist hl) (pairwise_inOrder chosen)
    rw [identityLE_iff] at hfg hgf
    exact List.inj_on_of_nodup_map hfiles (mem_inOrder.mp (hl.subset hf))
      (hsub (mem_inOrder.mp hg)) (toLex.injective (le_antisymm hfg hgf))
  exact heq ▸ hl

theorem documents_sublist {intake intake' : Intake} (hrequest : checkRequest files = .ok ())
    (hrequest' : checkRequest chosen = .ok ()) (hsub : chosen ⊆ files)
    (hintake : tokenizeAll settings (inOrder files) = .ok intake)
    (hintake' : tokenizeAll settings (inOrder chosen) = .ok intake') :
    intake'.documents.Sublist intake.documents := by
  have hfiles := (checkRequest_eq_ok_iff.mp hrequest).2
  have hchosen := (checkRequest_eq_ok_iff.mp hrequest').2
  rw [documents_tokenizeAll hintake, documents_tokenizeAll hintake']
  exact (inOrder_sublist hfiles hchosen hsub).filterMap _

/-- A document of a request with a location in some of its files is one of these files. -/
theorem IsDocument.of_spans {d : Document} {l : Location} {r : TokenRange} {f : SourceFile}
    (hd : IsDocument settings files d) (hfiles : (files.map SourceFile.identity).Nodup)
    (hsub : chosen ⊆ files) (hl : l.Spans d r) (hf : f ∈ chosen) (hin : l.In f) :
    IsDocument settings chosen d ∧ d.file = f := by
  have hfile : d.file = f := List.inj_on_of_nodup_map hfiles hd.mem (hsub hf)
    (Prod.ext (hl.file.symm.trans hin.1) (hl.revision.symm.trans hin.2))
  exact ⟨⟨hfile ▸ hf, hd.tokenize_eq⟩, hfile⟩

/-- A location is in some of the files exactly when it is in a document of these files. -/
theorem mem_range_iff_exists_in (h : Embeds docs part e p)
    (hfiles : (files.map SourceFile.identity).Nodup) (hsub : chosen ⊆ files)
    (hnodup : (docs.map (·.file.identity)).Nodup)
    (hdocs : ∀ d ∈ docs, IsDocument settings files d)
    (hpart : ∀ d, d ∈ part ↔ IsDocument settings chosen d) {l : Location} {r : TokenRange}
    {d : Document} (hd : docs[r.stream]? = some d) (hl : l.Spans d r) :
    r.stream ∈ Set.range e ↔ ∃ f ∈ chosen, l.In f := by
  constructor
  · rintro ⟨i, hi⟩
    have hmem : d ∈ part := List.mem_of_getElem? (by rw [← h.getElem? i, hi, hd])
    exact ⟨d.file, ((hpart d).mp hmem).mem, hl.in_file⟩
  · rintro ⟨f, hf, hin⟩
    have hd' := (hdocs d (List.mem_of_getElem? hd)).of_spans hfiles hsub hl hf hin
    obtain ⟨i, hi⟩ := List.mem_iff_getElem?.mp ((hpart d).mpr hd'.1)
    exact ⟨i, (identity_eq_iff hnodup ((h.getElem? i).trans hi) hd).mp rfl⟩

/-- The two locations of a pair are in different files. -/
theorem not_in_of_in (h : detect settings files = .ok outcome) {q : ClonePair}
    (hq : q ∈ outcome.clonePairs) {f : SourceFile} (hin : q.target.In f) : ¬ q.source.In f := by
  intro hin'
  obtain ⟨docs, matches_, hreports⟩ := exists_reports h
  obtain ⟨m, hm, hlocates⟩ := exists_of_forall₂ hreports.located.flip hq
  have hm := Oriented.mem_of_mem_suppress hm
  obtain ⟨d, hd, htarget⟩ := hlocates.target
  obtain ⟨d', hd', hsource⟩ := hlocates.source
  rw [List.getElem?_toArray] at hd hd'
  have hstream : m.target.stream = m.source.stream := by
    rw [← identity_eq_iff hreports.nodup hd hd', SourceFile.identity, SourceFile.identity,
      ← htarget.file, ← htarget.revision, ← hsource.file, ← hsource.revision, hin.1, hin.2, hin'.1,
      hin'.2]
  exact (hreports.faces m hm).target_stream_ne (hreports.faces m hm)
    (by rwa [List.getElem?_toArray]) hstream hstream.symm

/-- Some files of a request have the same pairs when they are compared alone. -/
theorem filter_clonePairs (h : detect settings files = .ok outcome)
    (h' : detect settings chosen = .ok outcome') (hsub : chosen ⊆ files)
    (ht : outcome.statistics.skippedBucketTruncated = 0)
    (ht' : outcome'.statistics.skippedBucketTruncated = 0) :
    outcome.clonePairs.filter (fun q => decide (q.Inside chosen)) = outcome'.clonePairs := by
  obtain ⟨hvalid, hrequest, intake, hintake, hcompare⟩ := detect_eq_ok_iff.mp h
  obtain ⟨-, hrequest', intake', hintake', hcompare'⟩ := detect_eq_ok_iff.mp h'
  obtain ⟨hmin, -, hbucket, -⟩ := Settings.validate_eq_ok_iff.mp hvalid
  have hfiles := (checkRequest_eq_ok_iff.mp hrequest).2
  have hdocs := documents_sublist hrequest hrequest' hsub hintake hintake'
  rcases Nat.lt_or_ge intake'.documents.length 2 with hfew | htwo
  · -- two locations in one document are not reported
    rw [clonePairs_of_length_lt_two hfew hcompare', List.filter_eq_nil_iff]
    intro q hq hinside
    obtain ⟨⟨f, hf, hin⟩, ⟨g, hg, hin'⟩⟩ := of_decide_eq_true hinside
    obtain ⟨d, d', r, s, -, hd, hd', htarget, hsource, -⟩ := exists_alignment_of_mem h hq
    obtain ⟨hd, rfl⟩ := hd.of_spans hfiles hsub htarget hf hin
    obtain ⟨hd', rfl⟩ := hd'.of_spans hfiles hsub hsource hg hin'
    rw [← mem_documents_iff hintake'] at hd hd'
    obtain rfl : d = d' := by
      match intake'.documents, hfew, hd, hd' with
      | [x], _, hd, hd' =>
        rw [List.mem_singleton.mp hd, List.mem_singleton.mp hd']
    exact not_in_of_in h hq hin hin'
  · obtain ⟨index', pairs', hindex', hpairs', rfl⟩ := (compare_eq_ok_iff htwo).mp hcompare'
    obtain ⟨index, pairs, hindex, hpairs, rfl⟩ :=
      (compare_eq_ok_iff (htwo.trans hdocs.length_le)).mp hcompare
    obtain ⟨e, p, hembeds⟩ := exists_embeds hdocs
    have hcandidates := Match.filter_candidates hembeds (one_le_minLength_query hmin) hbucket hindex
      hindex' ht ht'
    refine Resolve.filter_resolve hembeds hcandidates hpairs hpairs' fun m q hq => ?_
    have located {l : Location} {r : TokenRange}
        (hl : ∃ d, intake.documents.toArray[r.stream]? = some d ∧ l.Spans d r) :
        r.stream ∈ Set.range e ↔ ∃ f ∈ chosen, l.In f := by
      obtain ⟨d, hd, hl⟩ := hl
      rw [List.getElem?_toArray] at hd
      exact mem_range_iff_exists_in hembeds hfiles hsub (nodup_documents hrequest hintake)
        (fun d => (mem_documents_iff hintake).mp) (fun d => mem_documents_iff hintake') hd hl
    rw [decide_eq_true_iff, ClonePair.Inside, ← located hq.target, ← located hq.source]
    exact hembeds.pair _ _

/-- Some files of a request can be compared if all of them can. -/
theorem exists_detect_of_subset (h : detect settings files = .ok outcome)
    (hrequest : checkRequest chosen = .ok ()) (hsub : chosen ⊆ files) :
    ∃ outcome', detect settings chosen = .ok outcome' := by
  obtain ⟨hvalid, hall, intake, hintake, hcompare⟩ := detect_eq_ok_iff.mp h
  have hmin := (Settings.validate_eq_ok_iff.mp hvalid).1
  have hread := exists_tokenizeAll_eq_ok_iff.mp ⟨intake, hintake⟩
  obtain ⟨intake', hintake'⟩ : ∃ intake', tokenizeAll settings (inOrder chosen) = .ok intake' :=
    exists_tokenizeAll_eq_ok_iff.mpr fun hstrict f hf =>
      hread hstrict f (mem_inOrder.mpr (hsub (mem_inOrder.mp hf)))
  have hdocs := documents_sublist hall hrequest hsub hintake hintake'
  obtain ⟨outcome', houtcome⟩ : ∃ outcome',
      compare settings (inOrder chosen) intake' = .ok outcome' := by
    rcases Nat.lt_or_ge intake'.documents.length 2 with hfew | htwo
    · rw [compare, if_pos hfew]
      exact ⟨_, rfl⟩
    · -- the index of all documents has at least as many positions
      obtain ⟨index, pairs, hindex, -⟩ :=
        (compare_eq_ok_iff (htwo.trans hdocs.length_le)).mp hcompare
      have hsize := (TokenIndex.build_eq_ok_iff.mp hindex).2.1
      rw [sumBy_map] at hsize
      refine exists_compare_eq_ok hmin ?_ hintake'
      rw [← sumBy_documents hintake']
      exact (sumBy_le_of_sublist _ hdocs).trans_lt hsize
  exact ⟨outcome', detect_eq_ok_iff.mpr ⟨hvalid, hrequest, intake', hintake', houtcome⟩⟩

/-- A limit of at least the number of positions leaves nothing out of a suffix array. -/
theorem skippedBucketTruncated_eq_zero (h : detect settings files = .ok outcome)
    (hstrategy : settings.strategy = .suffixArray)
    (hlimit : positions settings files ≤ settings.maxBucket) :
    outcome.statistics.skippedBucketTruncated = 0 := by
  obtain ⟨-, -, intake, hintake, hcompare⟩ := detect_eq_ok_iff.mp h
  rcases Nat.lt_or_ge intake.documents.length 2 with hfew | htwo
  · rw [compare, if_pos hfew] at hcompare
    cases hcompare
    rfl
  · obtain ⟨index, pairs, hindex, -, rfl⟩ := (compare_eq_ok_iff htwo).mp hcompare
    rw [hstrategy] at hindex
    refine Match.truncated_eq_zero_of_le hindex ?_
    rw [sumBy_map, sumBy_documents hintake]
    exact hlimit

/-- Two files of a request can be compared alone, and when nothing is left out because of the limit,
the pairs between them are the same ones, in the same order, whatever the other files are. -/
theorem filter_between_clonePairs (h : detect settings files = .ok outcome)
    (ht : outcome.statistics.skippedBucketTruncated = 0) {f g : SourceFile} (hf : f ∈ files)
    (hg : g ∈ files) (hne : f ≠ g) : ∃ outcome', detect settings [f, g] = .ok outcome' ∧
      (outcome'.statistics.skippedBucketTruncated = 0 →
        outcome.clonePairs.filter (fun q => decide (q.Between f g)) = outcome'.clonePairs) := by
  have hfiles := (checkRequest_eq_ok_iff.mp (detect_eq_ok_iff.mp h).2.1).2
  have hidentity : f.identity ≠ g.identity := fun heq =>
    hne (List.inj_on_of_nodup_map hfiles hf hg heq)
  have hrequest : checkRequest [f, g] = .ok () := by
    rw [checkRequest_eq_ok_iff]
    simp [hidentity]
  have hsub : [f, g] ⊆ files := by
    simp [hf, hg]
  obtain ⟨outcome', h'⟩ := exists_detect_of_subset h hrequest hsub
  refine ⟨outcome', h', fun ht' => ?_⟩
  rw [← filter_clonePairs h h' hsub ht ht']
  refine List.filter_congr fun q hq => decide_eq_decide.mpr ?_
  have hnot {k : SourceFile} (hin : q.target.In k) := not_in_of_in h hq hin
  simp only [ClonePair.Between, ClonePair.Inside, List.mem_cons, List.not_mem_nil, or_false,
    exists_eq_or_imp, exists_eq_left]
  constructor
  · rintro (⟨htarget, hsource⟩ | ⟨htarget, hsource⟩)
    · exact ⟨.inl htarget, .inr hsource⟩
    · exact ⟨.inr htarget, .inl hsource⟩
  · rintro ⟨htarget | htarget, hsource | hsource⟩
    · exact absurd hsource (hnot htarget)
    · exact .inl ⟨htarget, hsource⟩
    · exact .inr ⟨htarget, hsource⟩
    · exact absurd hsource (hnot htarget)

/-- Three files, of which the first two share a run with a gap and the third shares parts of it with
both. -/
def threeFiles : List SourceFile :=
  [⟨"one", "new", "c", "a b x a b".toUTF8⟩, ⟨"two", "old", "c", "a b y a b".toUTF8⟩,
    ⟨"some", "old", "c", "x a b y".toUTF8⟩]

theorem filter_between_threeFiles : ∃ outcome outcome',
    detect { normalization := .raw, minTokens := 2, maxGap := 1 } threeFiles = .ok outcome ∧
      detect { normalization := .raw, minTokens := 2, maxGap := 1 } (threeFiles.take 2) =
        .ok outcome' ∧
      outcome.statistics.skippedBucketTruncated = 0 ∧
      outcome'.statistics.skippedBucketTruncated = 0 ∧
      outcome.clonePairs.filter (fun q => decide (q.Between ⟨"one", "new", "c", "a b x a b".toUTF8⟩
        ⟨"two", "old", "c", "a b y a b".toUTF8⟩)) = outcome'.clonePairs := by
  obtain ⟨outcome, h⟩ : ∃ outcome,
      detect { normalization := .raw, minTokens := 2, maxGap := 1 } threeFiles = .ok outcome :=
    exists_detect_eq_ok (by rfl) (by decide +kernel) nofun (by decide +kernel)
  have ht := skippedBucketTruncated_eq_zero h rfl (by decide +kernel)
  obtain ⟨outcome', h', hpairs⟩ := filter_between_clonePairs h ht List.mem_cons_self
    (List.mem_cons_of_mem _ List.mem_cons_self)
    fun heq => absurd (congrArg SourceFile.id heq) (by decide)
  have ht' := skippedBucketTruncated_eq_zero h' rfl (by decide +kernel)
  exact ⟨outcome, outcome', h, h', ht, ht', hpairs ht'⟩

end Detection

end CloneDetection
