import CloneDetection.Proofs.Findings

/-!
# Two copies of one file

Two files with the same texts of tokens share many runs if they repeat themselves, and with gaps
bridged many chains of such runs. The run of all tokens lies around all of them. It is visited
first, and nothing can follow it (`Match.follow?_eq_none_of_covers`), so bridging leaves it as it is
(`Match.mem_bridgeGaps_of_first`); every other match gives way to it
(`Oriented.suppress_eq_singleton`). So one pair is reported, and it spans both files
(`Detection.clonePairs_of_copies`).
-/

namespace CloneDetection

/-! ## A run around all others -/

namespace Match

variable {maxGap : ℕ} {c d : Candidate}

/-- A run inside a chain cannot follow it. -/
theorem follow?_eq_none_of_covers (hd : d.IsExact) (h : c.Covers d) :
    follow? maxGap c d = none := by
  obtain ⟨⟨-, hstart, hstop⟩, -, -⟩ := h
  obtain ⟨hexact, -⟩ := hd
  refine Option.eq_none_iff_forall_ne_some.mpr fun tail htail => ?_
  obtain ⟨inside, hinside, hlt, -⟩ := follow?_eq_some_iff.mp htail
  omega

/-- A chain that a candidate cannot follow stays as it is when the candidate is visited. -/
theorem Chains.mem_all_visit {chains : Chains} (hc : c ∈ chains.all)
    (hnone : follow? maxGap c d = none) : c ∈ (chains.visit maxGap d).all := by
  rcases chains.all_visit maxGap d with
    ⟨hperm, -⟩ | ⟨chain, tail, rest, hchains, htail, hperm, -⟩
  · exact hperm.mem_iff.mpr (List.mem_cons_of_mem d hc)
  · rcases List.mem_cons.mp (hchains.mem_iff.mp hc) with rfl | hc
    · rw [hnone] at htail
      cases htail
    · exact hperm.mem_iff.mpr (List.mem_cons_of_mem _ hc)

theorem Chains.mem_all_foldl_visit {chains : Chains} {group : List Candidate}
    (hc : c ∈ chains.all) (hnone : ∀ d ∈ group, follow? maxGap c d = none) :
    c ∈ (group.foldl (Chains.visit maxGap) chains).all := by
  induction group generalizing chains with
  | nil => exact hc
  | cons d rest ih =>
    rw [List.foldl_cons]
    exact ih (mem_all_visit hc (hnone d List.mem_cons_self))
      fun e he => hnone e (List.mem_cons_of_mem d he)

/-- Bridging leaves a run as it is that is visited before the others of its streams and that none of
them can follow. -/
theorem mem_bridgeGaps_of_first {candidates : List Candidate}
    (hexact : ∀ d ∈ candidates, d.IsExact) (hc : c ∈ candidates)
    (hfirst : ∀ d ∈ candidates, streamPair d = streamPair c →
      (visitKey c).le (visitKey d) = true)
    (hnone : ∀ d ∈ candidates, streamPair d = streamPair c → follow? maxGap c d = none) :
    c ∈ (bridgeGaps candidates maxGap).1 := by
  obtain ⟨group, hgroup, hmem⟩ := exists_mem_streamGroups hc
  have hcandidates : ∀ d ∈ group, d ∈ candidates := fun d => mem_of_mem_streamGroups hgroup
  have hstreams : ∀ d ∈ group, streamPair d = streamPair c := fun d hd =>
    streamPair_eq_of_mem_streamGroups hgroup hd hmem
  obtain ⟨first, rest, rfl⟩ := List.exists_cons_of_ne_nil (List.ne_nil_of_mem hmem)
  -- the first of its group comes before `c` and after it
  obtain rfl : c = first := by
    rcases List.mem_cons.mp hmem with heq | hrest
    · exact heq
    · have hle := List.rel_of_pairwise_cons (pairwise_of_mem_streamGroups hgroup) hrest
      have hge := hfirst first (hcandidates first List.mem_cons_self)
        (hstreams first List.mem_cons_self)
      exact eq_of_visitKey_eq (hexact c hc) (hexact first (hcandidates first List.mem_cons_self))
        (Key.le_antisymm hge hle)
  refine mem_bridgeGaps_iff.mpr ⟨c :: rest, hgroup, ?_⟩
  rw [chainGroup, List.foldl_cons]
  refine Chains.mem_all_foldl_visit (by simp [Chains.all, Chains.visit, attach?]) fun d hd => ?_
  have hd := List.mem_cons_of_mem c hd
  exact hnone d (hcandidates d hd) (hstreams d hd)

end Match

namespace Oriented

variable {threshold : Float} {l : List Oriented} {o : Oriented}

/-- A match of which all tokens correspond and in which all others lie is the only one kept. -/
theorem suppress_eq_singleton (ho : o ∈ l) (htarget : o.target.length = o.matched)
    (hsource : o.source.length = o.matched) (hin : ∀ m ∈ l, m.Within o)
    (hproper : ∀ m ∈ l, m.Proper threshold)
    (hlen : ∀ m ∈ l, m.matched ≤ m.target.length ∧ m.matched ≤ m.source.length) :
    suppress threshold l = [o] := by
  refine suppress_eq_of_isKernel (fun m hm => ⟨(hproper m hm).target_lt, (hproper m hm).source_lt⟩)
    (fun m => ?_) (List.nodup_singleton o) (List.pairwise_singleton _ o)
  simp only [List.mem_singleton, Set.mem_ofPred_eq, forall_eq]
  constructor
  · rintro rfl
    exact ⟨ho, fun hbeats => hbeats.before.2 rfl⟩
  · rintro ⟨hm, hnot⟩
    by_contra hne
    refine hnot ⟨⟨?_, Ne.symm hne⟩, ?_, isSubsumed_of_within (hproper m hm) (hin m hm)⟩
    · obtain ⟨⟨hst, htstart, htstop⟩, hss, hsstart, hsstop⟩ := hin m hm
      obtain ⟨hlt, hls⟩ := hlen m hm
      have hmt := (hproper m hm).target_lt
      have hms := (hproper m hm).source_lt
      simp only [TokenRange.length] at htarget hsource hlt hls
      simp only [visitKey, Key.le, Bool.or_eq_true, Bool.and_eq_true, decide_eq_true_eq,
        beq_iff_eq, and_true]
      omega
    · exact Prod.ext (hin m hm).1.1.symm (hin m hm).2.1.symm

end Oriented

/-! ## Copies -/

/-- Two places of a pair of which one comes first. -/
theorem getElem?_pair {α : Type} {x y x' y' : α} {i j : ℕ} (hlt : i < j)
    (hx : [x, y][i]? = some x') (hy : [x, y][j]? = some y') :
    i = 0 ∧ j = 1 ∧ x = x' ∧ y = y' := by
  have hj := (List.getElem?_eq_some_iff.mp hy).1
  simp only [List.length_cons, List.length_nil] at hj
  obtain rfl : i = 0 := by omega
  obtain rfl : j = 1 := by omega
  cases hx
  cases hy
  exact ⟨rfl, rfl, rfl, rfl⟩

namespace Match

variable {x y : TokenStream} {revisions : List ℕ} {query : Query} {index : TokenIndex}
  {strategy : Strategy} {c : Candidate}

/-- The run of all tokens of two streams of `n` tokens. -/
def whole (n : ℕ) : Candidate :=
  ⟨⟨0, 0, n⟩, ⟨1, 0, n⟩, n⟩

/-- All that two copies have in common lies in the run of all their tokens. -/
theorem covers_whole {gap : ℕ} (htexts : x.texts = y.texts) (hlt : c.a.stream < c.b.stream)
    (h : Aligned [x, y] gap c) : (whole x.size).Covers c := by
  obtain ⟨x', y', pairs, hx, hy, halign, hlen⟩ := h
  obtain ⟨ha, hb, rfl, rfl⟩ := getElem?_pair hlt hx hy
  have hle := halign.length_le
  have hstop := halign.bounds.2
  have hstop' := halign.symm.bounds.2
  rw [← htexts] at hstop'
  rw [TokenStream.size_texts] at hstop hstop'
  refine ⟨⟨ha, Nat.zero_le _, hstop⟩, ⟨hb, Nat.zero_le _, hstop'⟩, ?_⟩
  rw [hlen, TokenRange.length] at hle
  exact hle.trans ((Nat.sub_le _ _).trans hstop)

theorem isMatch_whole (htexts : x.texts = y.texts) (hlen : query.minLength ≤ x.size)
    (hrev : query.acrossRevisions = true → revisions[0]? ≠ revisions[1]?) :
    IsMatch [x, y] revisions query (whole x.size) := by
  have hend := (Nat.zero_add x.size).symm
  have hsize : 0 + x.size = x.texts.size := by
    rw [TokenStream.size_texts, Nat.zero_add]
  refine isMatch_iff.mpr
    ⟨x, y, rfl, rfl, Nat.zero_lt_one, hrev, hlen, ?_, hend, hend⟩
  rw [← htexts]
  exact ⟨⟨hsize.le, hsize.le, fun _ _ => rfl⟩, fun h => Nat.lt_irrefl 0 h.1,
    fun h => Nat.ne_of_lt h.1 hsize⟩

/-- The run of all tokens is visited before every other run of two copies. Another one that starts
with it would be as long. -/
theorem visitKey_whole_le (hmin : 1 ≤ query.minLength)
    (hwhole : IsMatch [x, y] revisions query (whole x.size))
    (h : IsMatch [x, y] revisions query c) :
    (visitKey (whole x.size)).le (visitKey c) = true := by
  obtain ⟨_, _, hx, hy, hlt, -, hlen, hrun, hstop, -⟩ := isMatch_iff.mp h
  obtain ⟨ha, hb, rfl, rfl⟩ := getElem?_pair hlt hx hy
  obtain ⟨_, _, hx', hy', -, -, hlen', hrun', -⟩ := isMatch_iff.mp hwhole
  cases hx'
  cases hy'
  have hsame : c.a.start = 0 → c.b.start = 0 → c.matched = x.size := by
    intro hi hj
    rw [hi, hj] at hrun
    exact (hrun.unique hrun' rfl (Nat.le_refl 0) (by omega) (Nat.le_refl 0)
      (by simp only [whole] at hlen' ⊢; omega)).2.2
  simp only [visitKey, whole, ha, hb, Key.le, Bool.or_eq_true, Bool.and_eq_true,
    decide_eq_true_eq, beq_iff_eq, and_true, true_and]
  omega

/-- The run of all tokens of two copies is found, with gaps bridged or not. -/
theorem whole_mem_candidates (hmin : 1 ≤ query.minLength) (hbucket : 1 ≤ query.maxBucket)
    (hindex : TokenIndex.build [x, y] revisions strategy query.minLength query.maxBucket =
      .ok index) (ht : (find index query).truncated = 0) (htexts : x.texts = y.texts)
    (hlen : query.minLength ≤ x.size)
    (hrev : query.acrossRevisions = true → revisions[0]? ≠ revisions[1]?) :
    whole x.size ∈ (find index query).candidates := by
  rw [truncated_find] at ht
  have hruns {c : Candidate} : c ∈ exactRuns index query ↔ IsMatch [x, y] revisions query c :=
    mem_exactRuns.trans (mem_scan_iff hindex hmin (fun _ => hbucket) ht)
  have hwhole := isMatch_whole htexts hlen hrev
  have hexact : ∀ d ∈ exactRuns index query, d.IsExact := by
    intro d hd
    obtain ⟨_, _, -, -, -, -, -, -, hexact⟩ := isMatch_iff.mp (hruns.mp hd)
    exact hexact
  rw [candidates_find]
  split
  · refine mem_bridgeGaps_of_first hexact (hruns.mpr hwhole) (fun d hd _ => ?_) fun d hd _ => ?_
    · exact visitKey_whole_le hmin hwhole (hruns.mp hd)
    · obtain ⟨_, _, -, -, hlt, -⟩ := isMatch_iff.mp (hruns.mp hd)
      exact follow?_eq_none_of_covers (hexact d hd)
        (covers_whole htexts hlt ((hruns.mp hd).aligned hmin 0))
  · exact hruns.mpr hwhole

end Match

/-- A match lies in another one when its candidate does, since both face the same way. -/
theorem Oriented.within_of_covers {docs : Array Document} {target : Option String} {d : Document}
    {c c' : Candidate} {m n : Oriented} (hm : m.Faces docs target) (hn : n.Faces docs target)
    (hd : docs[m.target.stream]? = some d) (hc : Resolve.Sides c m) (hc' : Resolve.Sides c' n)
    (h : c'.Covers c) : m.Within n := by
  obtain ⟨ha, hb, -⟩ := h
  rcases hc with rfl | rfl <;> rcases hc' with rfl | rfl
  · exact ⟨ha, hb⟩
  · exact absurd hb.1 (hm.target_stream_ne hn hd ha.1)
  · exact absurd ha.1 (hm.target_stream_ne hn hd hb.1)
  · exact ⟨hb, ha⟩

/-- A location runs from the start of the first token of a document to the end of the last one. -/
def Location.Whole (l : Location) (d : Document) : Prop :=
  l.In d.file ∧ ∃ first last, d.tokens[0]? = some first ∧
    d.tokens[d.tokens.size - 1]? = some last ∧
    l.startOffset = first.start ∧ l.endOffset = last.stop

theorem Location.Spans.whole {l : Location} {d : Document} {r : TokenRange} (h : l.Spans d r)
    (hstart : r.start = 0) (hstop : r.stop = d.tokens.size) : l.Whole d := by
  obtain ⟨first, last, hfirst, hlast, hbounds⟩ := h.covers
  rw [hstart] at hfirst
  rw [hstop] at hlast
  exact ⟨h.in_file, first, last, hfirst, hlast, hbounds⟩

/-- A pair of which one location is all of a document and the other one all of another. -/
def ClonePair.Joins (p : ClonePair) (d e : Document) : Prop :=
  p.target.Whole d ∧ p.source.Whole e ∨ p.target.Whole e ∧ p.source.Whole d

theorem ClonePair.Joins.symm {p : ClonePair} {d e : Document} (h : p.Joins d e) : p.Joins e d :=
  Or.symm h

namespace Detection

variable {settings : Settings} {outcome : Outcome} {d e : Document}

/-- Documents with different names and the same texts of tokens, which are enough to be reported and
can be: one document is in the target revision, if there is one, and a range of tokens covers its
share of itself. -/
structure AreCopies (settings : Settings) (d e : Document) : Prop where
  id_ne : d.file.id ≠ e.file.id
  revision : ∀ r, settings.targetRevision = some r → (d.file.revision = r ↔ e.file.revision ≠ r)
  texts : d.tokens.texts = e.tokens.texts
  long : settings.minTokens ≤ d.tokens.size
  share : ∀ n ≤ d.tokens.size, settings.containment * Float.ofNat n ≤ Float.ofNat n

theorem AreCopies.size_eq (h : AreCopies settings d e) : e.tokens.size = d.tokens.size := by
  rw [← TokenStream.size_texts, ← h.texts, TokenStream.size_texts]

theorem AreCopies.symm (h : AreCopies settings d e) : AreCopies settings e d := by
  refine ⟨h.id_ne.symm, fun r hr => iff_not_comm.mp (h.revision r hr), h.texts.symm, ?_, ?_⟩
  · rw [h.size_eq]
    exact h.long
  · rw [h.size_eq]
    exact h.share

/-- The run of all tokens of two copies is the only match that is kept. -/
theorem suppress_of_copies {index : TokenIndex} {matches_ : List Oriented}
    (hvalid : settings.validate = .ok ()) (h : AreCopies settings d e)
    (hindex : TokenIndex.build ([d, e].map (·.tokens)) (revisionGroups [d, e]) settings.strategy
      settings.seedTokens settings.maxBucket = .ok index)
    (ht : (Match.find index (query settings)).truncated = 0)
    (hmatches : Resolve.orientAll [d, e].toArray (resolveOptions settings) []
      (Match.find index (query settings)).candidates = .ok matches_) :
    ∃ o, Resolve.Sides (Match.whole d.tokens.size) o ∧
      Oriented.suppress settings.containment matches_ = [o] := by
  obtain ⟨hmin, -, hbucket, -⟩ := Settings.validate_eq_ok_iff.mp hvalid
  have hrev := revisionGroups_ne_of_targetRevision (show [d, e][0]? = some d from rfl)
    (show [d, e][1]? = some e from rfl) h.revision
  have hwhole : Match.whole d.tokens.size ∈ (Match.find index (query settings)).candidates :=
    Match.whole_mem_candidates (one_le_minLength_query hmin) hbucket hindex ht h.texts
      ((Settings.seedTokens_le_minTokens hmin).trans h.long) hrev
  obtain ⟨o, ho⟩ : ∃ o, Resolve.orientDistinct [d, e].toArray (resolveOptions settings)
      (Match.whole d.tokens.size) = .ok (some o) :=
    Resolve.orientDistinct_of_id_ne h.long rfl rfl h.id_ne h.revision
  have hsides := (Resolve.sides_of_orientDistinct ho).2
  have hfaces := Oriented.faces_of_orient Nat.zero_lt_one
    (Resolve.orientDistinct_eq_some_iff.mp ho).2.1
  have haligned : ∀ m ∈ matches_, m.Aligned [d, e] settings.maxGap := by
    intro m hm
    obtain ⟨c, hc, -, halign, -⟩ := exists_candidate_of_mem hmin hindex hmatches hm
    exact Oriented.aligned_of_sides halign hc
  have hsize : ∀ doc ∈ [d, e], doc.tokens.size ≤ d.tokens.size := by
    simp [h.size_eq]
  refine ⟨o, hsides, Oriented.suppress_eq_singleton
    ((Resolve.mem_orientAll_iff hmatches).mpr ⟨_, hwhole, ho⟩) ?_ ?_ (fun m hm => ?_)
    (fun m hm => (haligned m hm).proper hsize h.share) fun m hm => (haligned m hm).matched_le⟩
  · rcases hsides with rfl | rfl <;> rfl
  · rcases hsides with rfl | rfl <;> rfl
  · obtain ⟨c, hc, hlt, halign, hm'⟩ := exists_candidate_of_mem hmin hindex hmatches hm
    obtain ⟨d', -, -, hd', -⟩ := haligned m hm
    exact Oriented.within_of_covers hm' hfaces (by rwa [List.getElem?_toArray]) hc hsides
      (Match.covers_whole h.texts hlt halign)

/-- A pair that locates the run of all tokens joins the two documents. -/
theorem joins_of_locates {o : Oriented} {p : ClonePair} (hsize : e.tokens.size = d.tokens.size)
    (hsides : Resolve.Sides (Match.whole d.tokens.size) o) (h : p.Locates [d, e].toArray o) :
    p.Joins d e := by
  obtain ⟨-, ⟨d', hd', htarget⟩, e', he', hsource⟩ := h
  rcases hsides with rfl | rfl
  · cases hd'
    cases he'
    exact .inl ⟨htarget.whole rfl rfl, hsource.whole rfl hsize.symm⟩
  · cases hd'
    cases he'
    exact .inr ⟨htarget.whole rfl hsize.symm, hsource.whole rfl rfl⟩

theorem exists_joins_of_compare {ordered : List SourceFile} {intake : Intake}
    (hvalid : settings.validate = .ok ()) (h : AreCopies settings d e)
    (hdocs : intake.documents = [d, e])
    (hcompare : compare settings ordered intake = .ok outcome)
    (ht : outcome.statistics.skippedBucketTruncated = 0) :
    ∃ p, outcome.clonePairs = [p] ∧ p.matchedTokens = d.tokens.size ∧ p.Joins d e := by
  obtain ⟨index, pairs, hindex, hpairs, rfl⟩ :=
    (compare_eq_ok_iff (by simp [hdocs])).mp hcompare
  rw [hdocs] at hindex hpairs
  obtain ⟨matches_, hmatches, hpairs⟩ := bind_eq_ok_iff.mp hpairs
  obtain ⟨o, hsides, hkept⟩ := suppress_of_copies hvalid h hindex ht hmatches
  have hlocates := (mapM_eq_ok_iff.mp hpairs).imp fun m p => Resolve.pairOf_locates
  rw [show Oriented.suppress (resolveOptions settings).containment matches_ = [o] from hkept]
    at hlocates
  obtain ⟨p, rest, hp, hrest, rfl⟩ := List.forall₂_cons_left_iff.mp hlocates
  obtain rfl := List.forall₂_nil_left_iff.mp hrest
  refine ⟨p, rfl, hp.matched.trans ?_, joins_of_locates h.size_eq hsides hp⟩
  rcases hsides with rfl | rfl <;> rfl

/-- The documents of a request for two files that can be read. -/
theorem documents_pair {f g : SourceFile} {x y : TokenStream} {intake : Intake}
    (hx : tokenize f.content f.language settings.tokenizeOptions = .ok x)
    (hy : tokenize g.content g.language settings.tokenizeOptions = .ok y)
    (h : tokenizeAll settings (inOrder [f, g]) = .ok intake) :
    intake.documents = [⟨f, x⟩, ⟨g, y⟩] ∨ intake.documents = [⟨g, y⟩, ⟨f, x⟩] := by
  have hf : document? settings f = some ⟨f, x⟩ := document?_eq_some_iff.mpr ⟨rfl, hx⟩
  have hg : document? settings g = some ⟨g, y⟩ := document?_eq_some_iff.mpr ⟨rfl, hy⟩
  rw [documents_tokenizeAll h]
  rcases List.perm_pair.mp (List.mergeSort_perm [f, g] identityLE) with horder | horder
  · left
    rw [inOrder, horder]
    simp [hf, hg]
  · right
    rw [inOrder, horder]
    simp [hf, hg]

/-- Two files with the same texts of tokens are reported as one clone of all tokens, when nothing is
left out because of the limit. This holds with gaps bridged too, however often the files repeat
themselves. -/
theorem clonePairs_of_copies {f g : SourceFile} {x y : TokenStream} (hid : f.id ≠ g.id)
    (hx : tokenize f.content f.language settings.tokenizeOptions = .ok x)
    (hy : tokenize g.content g.language settings.tokenizeOptions = .ok y)
    (htexts : x.texts = y.texts) (hlen : settings.minTokens ≤ x.size)
    (htarget : ∀ r, settings.targetRevision = some r → (f.revision = r ↔ g.revision ≠ r))
    (hshare : ∀ n ≤ x.size, settings.containment * Float.ofNat n ≤ Float.ofNat n)
    (h : detect settings [f, g] = .ok outcome)
    (ht : outcome.statistics.skippedBucketTruncated = 0) :
    ∃ p, outcome.clonePairs = [p] ∧ p.matchedTokens = x.size ∧ p.Joins ⟨f, x⟩ ⟨g, y⟩ := by
  obtain ⟨hvalid, -, intake, hintake, hcompare⟩ := detect_eq_ok_iff.mp h
  have hcopies : AreCopies settings ⟨f, x⟩ ⟨g, y⟩ := ⟨hid, htarget, htexts, hlen, hshare⟩
  rcases documents_pair hx hy hintake with hdocs | hdocs
  · exact exists_joins_of_compare hvalid hcopies hdocs hcompare ht
  · obtain ⟨p, hp, hmatched, hjoins⟩ :=
      exists_joins_of_compare hvalid hcopies.symm hdocs hcompare ht
    exact ⟨p, hp, hmatched.trans hcopies.size_eq, hjoins.symm⟩

/-- A file that repeats itself. -/
def original : Document where
  file := ⟨"one", "old", "c", "a ; a ; a".toUTF8⟩
  tokens := #[⟨.identifier, "$id", 0, 1⟩, ⟨.punctuation, ";", 2, 3⟩, ⟨.identifier, "$id", 4, 5⟩,
    ⟨.punctuation, ";", 6, 7⟩, ⟨.identifier, "$id", 8, 9⟩]

/-- A copy of `original` in another revision with a longer name in it. -/
def renamed : Document where
  file := ⟨"two", "new", "c", "bb ; bb ; bb".toUTF8⟩
  tokens := #[⟨.identifier, "$id", 0, 2⟩, ⟨.punctuation, ";", 3, 4⟩, ⟨.identifier, "$id", 5, 7⟩,
    ⟨.punctuation, ";", 8, 9⟩, ⟨.identifier, "$id", 10, 12⟩]

/-- Settings under which parts of `original` and `renamed` match and are chained. -/
def renamedSettings : Settings :=
  { minTokens := 2, maxGap := 1, targetRevision := some "new" }

theorem clonePairs_renamed : ∃ outcome p,
    detect renamedSettings [original.file, renamed.file] = .ok outcome ∧
      outcome.statistics.skippedBucketTruncated = 0 ∧ outcome.clonePairs = [p] ∧
      p.matchedTokens = 5 ∧ p.Joins original renamed := by
  obtain ⟨outcome, h, ht⟩ : ∃ outcome,
      detect renamedSettings [original.file, renamed.file] = .ok outcome ∧
        outcome.statistics.skippedBucketTruncated = 0 :=
    exists_detect_of_positions_le (by rfl) (by decide +kernel) nofun rfl (by decide +kernel)
      (by decide +kernel)
  have htokens : ∀ doc ∈ [original, renamed], tokenize doc.file.content doc.file.language
      renamedSettings.tokenizeOptions = .ok doc.tokens := by
    decide +kernel
  have hshare : ∀ n ≤ 5, renamedSettings.containment * Float.ofNat n ≤ Float.ofNat n := by
    decide +kernel
  obtain ⟨p, hp, hmatched, hjoins⟩ := clonePairs_of_copies (show "one" ≠ "two" by decide)
    (htokens original (by simp)) (htokens renamed (by simp)) (by decide +kernel)
    (by decide) (by rintro _ ⟨⟩; decide) hshare h ht
  exact ⟨outcome, p, h, ht, hp, hmatched, hjoins⟩

end Detection

end CloneDetection
