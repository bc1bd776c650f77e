import CloneDetection.Proofs.Consistency
import CloneDetection.Proofs.Coverage
import CloneDetection.Proofs.Detection

/-!
# Pairs inside other pairs

The matches of two streams are visited from the longest on, so a kept match does not lie inside
another one that has at least as many tokens (`Oriented.pairwise_suppress`). Without gaps a match
inside another one is shorter, and no reported pair lies inside another one. With gaps bridged, a
chain may hold fewer tokens than a run between its ends; both are then reported.

The share that one range has to cover of another one is compared in floating point. All that is used
of that is that a range covers itself.
-/

namespace CloneDetection

theorem TokenRange.overlap_of_within {r s : TokenRange} (h : r.Within s) :
    r.overlap s = r.length := by
  obtain ⟨hstream, hstart, hstop⟩ := h
  rw [overlap, if_pos hstream, length]
  omega

theorem eq_of_toLex_le {a b : ℕ × ℕ} (h : toLex a ≤ toLex b) (h' : toLex b ≤ toLex a) : a = b :=
  toLex.injective (le_antisymm h h')

namespace Oriented

variable {threshold : Float} {m n : Oriented}

/-! ## What is kept -/

theorem keep_sublist (threshold : Float) (kept l : List Oriented) :
    (keep threshold kept l).Sublist (kept.reverse ++ l) := by
  induction l generalizing kept with
  | nil => simp [keep]
  | cons m l ih =>
    rw [keep]
    split
    · exact (ih kept).trans ((List.sublist_cons_self m l).append_left _)
    · simpa using ih (m :: kept)

/-- No kept match is subsumed by one that was kept before it. -/
theorem pairwise_keep {kept l : List Oriented}
    (h : kept.reverse.Pairwise fun m n => n.isSubsumed threshold m = false) :
    (keep threshold kept l).Pairwise fun m n => n.isSubsumed threshold m = false := by
  induction l generalizing kept with
  | nil => exact h
  | cons m l ih =>
    rw [keep]
    split
    · exact ih h
    · rename_i hnone
      refine ih ?_
      rw [List.reverse_cons, List.pairwise_append]
      refine ⟨h, List.pairwise_singleton _ _, fun k hk n hn => ?_⟩
      rw [List.mem_singleton.mp hn]
      simp only [List.any_eq_true, not_exists, not_and, Bool.not_eq_true] at hnone
      exact hnone k (List.mem_reverse.mp hk)

/-- A match lies inside another one of the same streams. -/
def Within (m n : Oriented) : Prop :=
  m.target.Within n.target ∧ m.source.Within n.source

instance (m n : Oriented) : Decidable (m.Within n) :=
  inferInstanceAs (Decidable (_ ∧ _))

/-- A match whose sides are not empty and cover themselves. -/
structure Proper (threshold : Float) (m : Oriented) : Prop where
  target_lt : m.target.start < m.target.stop
  source_lt : m.source.start < m.source.stop
  target_covered : threshold * Float.ofNat m.target.length ≤ Float.ofNat m.target.length
  source_covered : threshold * Float.ofNat m.source.length ≤ Float.ofNat m.source.length

theorem isSubsumed_of_within (hm : m.Proper threshold) (h : m.Within n) :
    m.isSubsumed threshold n = true := by
  have ht := hm.target_covered
  have hs := hm.source_covered
  simp only [isSubsumed, covered, TokenRange.overlap_of_within h.1,
    TokenRange.overlap_of_within h.2, decide_eq_true ht, decide_eq_true hs, Bool.and_self,
    Bool.true_or]

/-- Of two matches of which the first does not subsume the second, the second does not lie inside the
first, and the first lies inside the second only if it has more tokens. -/
theorem matched_lt_of_within (hm : m.Proper threshold) (hn : n.Proper threshold)
    (hle : m.visitKey.le n.visitKey = true) (h : n.isSubsumed threshold m = false) :
    (m.Within n → n.matched < m.matched) ∧ ¬ n.Within m := by
  refine ⟨fun hin => ?_, fun hin => ?_⟩
  · by_contra hmatched
    -- as many tokens: the first one starts no later, so both targets start with one token
    obtain ⟨⟨hst, hts, htp⟩, ⟨hss, hsstart, hsp⟩⟩ := hin
    simp only [visitKey, Key.le, Bool.or_eq_true, Bool.and_eq_true, decide_eq_true_eq,
      beq_iff_eq] at hle
    have hstart : n.target.start = m.target.start := by omega
    have hoverlap : 0 < n.source.overlap m.source := by
      have := hm.source_lt
      rw [TokenRange.overlap, if_pos hss.symm]
      omega
    simp [isSubsumed, hstart, hoverlap] at h
  · rw [isSubsumed_of_within hn hin] at h
    cases h

/-- A match inside another one has more tokens, whichever of the two comes first. -/
def Apart (m n : Oriented) : Prop :=
  (m.Within n → n.matched < m.matched) ∧ (n.Within m → m.matched < n.matched)

theorem Apart.symm (h : m.Apart n) : n.Apart m :=
  And.symm h

theorem apart_of_streamPair_ne (h : m.streamPair ≠ n.streamPair) : m.Apart n :=
  ⟨fun hin => absurd (Prod.ext hin.1.1 hin.2.1) h,
    fun hin => absurd (Prod.ext hin.1.1.symm hin.2.1.symm) h⟩

theorem streamPair_le_of_visitKey_le (h : m.visitKey.le n.visitKey = true) :
    toLex m.streamPair ≤ toLex n.streamPair := by
  simp only [visitKey, Key.le, Bool.or_eq_true, Bool.and_eq_true, decide_eq_true_eq,
    beq_iff_eq] at h
  rw [Prod.Lex.toLex_le_toLex, streamPair, streamPair]
  omega

/-- A symmetric relation holds between any two kept matches if it holds between matches of different
streams and between a match and a later one that it does not subsume. -/
theorem pairwise_suppress_of {R : Oriented → Oriented → Prop} {l : List Oriented}
    (symm : ∀ {m n}, R m n → R n m) (streams : ∀ {m n}, m.streamPair ≠ n.streamPair → R m n)
    (later : ∀ m ∈ l, ∀ n ∈ l, m.visitKey.le n.visitKey = true →
      n.isSubsumed threshold m = false → R m n) : (suppress threshold l).Pairwise R := by
  have hsorted := pairwise_mergeSort_key visitKey l
  have hclasses := pairwise_splitBy eq_of_toLex_le (hsorted.imp streamPair_le_of_visitKey_le)
  rw [suppress, (List.mergeSort_perm _ _).pairwise_iff symm, List.pairwise_flatMap]
  have members {group : List Oriented} (hgroup : group ∈ (l.mergeSort fun m n =>
      m.visitKey.le n.visitKey).splitBy fun m n => m.streamPair == n.streamPair) :
      (keep threshold [] group).Sublist (l.mergeSort fun m n => m.visitKey.le n.visitKey) := by
    have hsub := List.sublist_flatten_of_mem hgroup
    rw [List.flatten_splitBy] at hsub
    exact (keep_sublist threshold [] group).trans hsub
  constructor
  · intro group hgroup
    have hmem : ∀ m ∈ keep threshold [] group, m ∈ l := fun m hm =>
      List.mem_mergeSort.mp ((members hgroup).subset hm)
    refine ((hsorted.sublist (members hgroup)).and (pairwise_keep .nil)).imp_of_mem ?_
    exact fun {m n} hm hn h => later m (hmem m hm) n (hmem n hn) h.1 h.2
  · refine hclasses.imp fun {c d} hne m hm n hn => streams (hne m ?_ n ?_)
    · exact (mem_of_mem_keep hm).resolve_left List.not_mem_nil
    · exact (mem_of_mem_keep hn).resolve_left List.not_mem_nil

/-- No kept match lies inside another one that has at least as many tokens. -/
theorem pairwise_suppress {l : List Oriented} (h : ∀ m ∈ l, m.Proper threshold) :
    (suppress threshold l).Pairwise Apart := by
  refine pairwise_suppress_of Apart.symm apart_of_streamPair_ne fun m hm n hn hle hsubsumed => ?_
  obtain ⟨hlt, hout⟩ := matched_lt_of_within (h m hm) (h n hn) hle hsubsumed
  exact ⟨hlt, fun hin => absurd hin hout⟩

theorem pairwise_matched_suppress (threshold : Float) (l : List Oriented) :
    (suppress threshold l).Pairwise fun m n => n.matched ≤ m.matched := by
  refine (pairwise_mergeSort_key reportKey _).imp fun {m n} hle => ?_
  simp only [reportKey, Key.le, Bool.or_eq_true, Bool.and_eq_true, decide_eq_true_eq,
    beq_iff_eq] at hle
  omega

/-- The target is the earlier stream, or the side in the target revision. -/
def Faces (docs : Array Document) (targetRevision : Option String) (m : Oriented) : Prop :=
  match targetRevision with
  | none => m.target.stream < m.source.stream
  | some r => (∀ d, docs[m.target.stream]? = some d → d.file.revision = r) ∧
      ∀ e, docs[m.source.stream]? = some e → e.file.revision ≠ r

/-- Two matches of two streams have the same target. -/
theorem Faces.target_stream_ne {docs : Array Document} {targetRevision : Option String}
    {d : Document} (hm : m.Faces docs targetRevision) (hn : n.Faces docs targetRevision)
    (hd : docs[m.target.stream]? = some d) (hst : m.target.stream = n.source.stream) :
    m.source.stream ≠ n.target.stream := by
  intro hts
  cases targetRevision with
  | none =>
    simp only [Faces] at hm hn
    omega
  | some r => exact hn.2 d (hst ▸ hd) (hm.1 d hd)

end Oriented

/-! ## Locations -/

/-- A location lies inside another one of the same file. -/
def Location.Within (l k : Location) : Prop :=
  l.file = k.file ∧ l.revision = k.revision ∧ k.startOffset ≤ l.startOffset ∧
    l.endOffset ≤ k.endOffset

instance (l k : Location) : Decidable (l.Within k) :=
  inferInstanceAs (Decidable (_ ∧ _))

/-- A pair of two files lies inside another pair of these files on both sides. -/
def ClonePair.Within (p q : ClonePair) : Prop :=
  p.target.Within q.target ∧ p.source.Within q.source ∨
    p.target.Within q.source ∧ p.source.Within q.target

instance (p q : ClonePair) : Decidable (p.Within q) :=
  inferInstanceAs (Decidable (_ ∨ _))

/-- The identity of its file tells the place of a document. -/
theorem identity_eq_iff {docs : List Document} {i j : ℕ} {d e : Document}
    (hnodup : (docs.map (·.file.identity)).Nodup) (hd : docs[i]? = some d)
    (he : docs[j]? = some e) : d.file.identity = e.file.identity ↔ i = j := by
  have hi : i < (docs.map (·.file.identity)).length := by
    simpa using (List.getElem?_eq_some_iff.mp hd).1
  rw [← List.getElem?_inj hi hnodup, List.getElem?_map, List.getElem?_map, hd, he,
    Option.map_some, Option.map_some, Option.some.injEq]

/-- A location lies inside another one exactly when the tokens that it spans do. -/
theorem Location.Spans.within_iff {l k : Location} {d e : Document} {r s : TokenRange}
    {docs : List Document} (hnodup : (docs.map (·.file.identity)).Nodup)
    (hordered : ∀ d ∈ docs, d.tokens.Ordered) (hd : docs[r.stream]? = some d)
    (he : docs[s.stream]? = some e) (hl : l.Spans d r) (hk : k.Spans e s) :
    l.Within k ↔ r.Within s := by
  have hstream : l.file = k.file ∧ l.revision = k.revision ↔ r.stream = s.stream := by
    rw [← identity_eq_iff hnodup hd he, SourceFile.identity, SourceFile.identity, Prod.mk.injEq,
      hl.file, hk.file, hl.revision, hk.revision]
  unfold Location.Within TokenRange.Within
  rw [← and_assoc, hstream]
  refine and_congr_right fun hsame => ?_
  obtain rfl : d = e := Option.some.inj (hd.symm.trans (hsame ▸ he))
  obtain ⟨hr, first, last, hfirst, hlast, hls, hle⟩ := TokenStream.byteRange_eq_some_iff.mp hl.bytes
  obtain ⟨hs, first', last', hfirst', hlast', hks, hke⟩ :=
    TokenStream.byteRange_eq_some_iff.mp hk.bytes
  have hord := hordered d (List.mem_of_getElem? hd)
  rw [← hls, ← hle, ← hks, ← hke, (hord.le_iff hfirst' hfirst).1, (hord.le_iff hlast hlast').2]
  omega

/-- The locations of a match inside another one lie inside those of the other one. -/
theorem ClonePair.Locates.within_sides {p q : ClonePair} {m n : Oriented} {docs : List Document}
    (hnodup : (docs.map (·.file.identity)).Nodup) (hordered : ∀ d ∈ docs, d.tokens.Ordered)
    (hp : p.Locates docs.toArray m) (hq : q.Locates docs.toArray n) (h : m.Within n) :
    p.target.Within q.target ∧ p.source.Within q.source := by
  obtain ⟨d, hd, hpt⟩ := hp.target
  obtain ⟨e, he, hps⟩ := hp.source
  obtain ⟨d', hd', hqt⟩ := hq.target
  obtain ⟨e', he', hqs⟩ := hq.source
  rw [List.getElem?_toArray] at hd he hd' he'
  exact ⟨(hpt.within_iff hnodup hordered hd hd' hqt).mpr h.1,
    (hps.within_iff hnodup hordered he he' hqs).mpr h.2⟩

/-- The pairs of two matches lie inside each other when the matches do. -/
theorem ClonePair.Locates.within {p q : ClonePair} {m n : Oriented} {docs : List Document}
    (hnodup : (docs.map (·.file.identity)).Nodup) (hordered : ∀ d ∈ docs, d.tokens.Ordered)
    (hp : p.Locates docs.toArray m) (hq : q.Locates docs.toArray n) (h : m.Within n) :
    p.Within q :=
  .inl (hp.within_sides hnodup hordered hq h)

/-- A pair inside another one comes from a match inside the other one, or inside the other one
turned round. -/
theorem ClonePair.Locates.of_within {p q : ClonePair} {m n : Oriented} {docs : List Document}
    (hnodup : (docs.map (·.file.identity)).Nodup) (hordered : ∀ d ∈ docs, d.tokens.Ordered)
    (hp : p.Locates docs.toArray m) (hq : q.Locates docs.toArray n) (h : p.Within q) :
    m.Within n ∨ m.target.Within n.source ∧ m.source.Within n.target := by
  obtain ⟨d, hd, hpt⟩ := hp.target
  obtain ⟨e, he, hps⟩ := hp.source
  obtain ⟨d', hd', hqt⟩ := hq.target
  obtain ⟨e', he', hqs⟩ := hq.source
  rw [List.getElem?_toArray] at hd he hd' he'
  rcases h with ⟨ht, hs⟩ | ⟨ht, hs⟩
  · exact .inl ⟨(hpt.within_iff hnodup hordered hd hd' hqt).mp ht,
      (hps.within_iff hnodup hordered he he' hqs).mp hs⟩
  · exact .inr ⟨(hpt.within_iff hnodup hordered hd he' hqs).mp ht,
      (hps.within_iff hnodup hordered he hd' hqt).mp hs⟩

namespace Oriented

theorem faces_of_orient {docs : Array Document} {targetRevision : Option String} {c : Candidate}
    {m : Oriented} (hc : c.a.stream < c.b.stream)
    (h : Resolve.orient docs targetRevision c = .ok (some m)) : m.Faces docs targetRevision := by
  cases targetRevision with
  | none =>
    cases h
    exact hc
  | some revision =>
    obtain ⟨d, hd, h⟩ := bind_eq_ok_iff.mp h
    obtain ⟨e, he, h⟩ := bind_eq_ok_iff.mp h
    rw [Resolve.document_eq_ok_iff] at hd he
    split at h
    · rename_i hin hout
      cases h
      refine ⟨fun d' hd' => ?_, fun e' he' => ?_⟩
      · rw [← Option.some.inj (hd.symm.trans hd')]
        exact eq_of_beq hin
      · rw [← Option.some.inj (he.symm.trans he')]
        exact ne_of_beq_false hout
    · rename_i hout hin
      cases h
      refine ⟨fun d' hd' => ?_, fun e' he' => ?_⟩
      · rw [← Option.some.inj (he.symm.trans hd')]
        exact eq_of_beq hin
      · rw [← Option.some.inj (hd.symm.trans he')]
        exact ne_of_beq_false hout
    · cases h

namespace Aligned

variable {docs : List Document} {gap : ℕ} {threshold : Float} {m : Oriented}

theorem matched_le (h : m.Aligned docs gap) :
    m.matched ≤ m.target.length ∧ m.matched ≤ m.source.length := by
  obtain ⟨d, e, pairs, -, -, halign, hlen⟩ := h
  have hsource := halign.symm.length_le
  rw [List.length_map] at hsource
  exact ⟨hlen ▸ halign.length_le, hlen ▸ hsource⟩

theorem proper {bound : ℕ} (h : m.Aligned docs gap) (hdocs : ∀ d ∈ docs, d.tokens.size ≤ bound)
    (hshare : ∀ n ≤ bound, threshold * Float.ofNat n ≤ Float.ofNat n) : m.Proper threshold := by
  obtain ⟨d, e, pairs, hd, he, halign, -⟩ := h
  obtain ⟨ht, hts⟩ := halign.bounds
  obtain ⟨hs, hss⟩ := halign.symm.bounds
  rw [TokenStream.size_texts] at hts hss
  have hdsize := hdocs d (List.mem_of_getElem? hd)
  have hesize := hdocs e (List.mem_of_getElem? he)
  refine ⟨ht, hs, hshare _ ?_, hshare _ ?_⟩
  · rw [TokenRange.length]
    omega
  · rw [TokenRange.length]
    omega

end Aligned

end Oriented

/-! ## Reported pairs -/

theorem pairwise_of_forall₂ {α β : Type} {R : α → β → Prop} {S : α → α → Prop}
    {T : β → β → Prop} {l : List α} {out : List β} (h : List.Forall₂ R l out)
    (hl : l.Pairwise S) (hST : ∀ a ∈ l, ∀ b ∈ l, ∀ x y, S a b → R a x → R b y → T x y) :
    out.Pairwise T := by
  induction h with
  | nil => exact .nil
  | @cons a x l out hax hrest ih =>
    rw [List.pairwise_cons] at hl ⊢
    refine ⟨fun y hy => ?_, ih hl.2 fun b hb c hc => ?_⟩
    · obtain ⟨b, hb, hby⟩ := exists_of_forall₂ hrest.flip hy
      exact hST a List.mem_cons_self b (List.mem_cons_of_mem a hb) x y (hl.1 b hb) hax hby
    · exact hST b (List.mem_cons_of_mem a hb) c (List.mem_cons_of_mem a hc)

namespace Detection

variable {settings : Settings} {files : List SourceFile} {outcome : Outcome}
  {docs : List Document} {matches_ : List Oriented}

/-- The documents and the matches behind an outcome. -/
structure Reports (settings : Settings) (files : List SourceFile) (outcome : Outcome)
    (docs : List Document) (matches_ : List Oriented) : Prop where
  documents : ∀ d ∈ docs, IsDocument settings files d
  nodup : (docs.map (·.file.identity)).Nodup
  faces : ∀ m ∈ matches_, m.Faces docs.toArray settings.targetRevision
  aligned : ∀ m ∈ matches_, m.Aligned docs settings.maxGap
  located : List.Forall₂ (fun m p => p.Locates docs.toArray m)
    (Oriented.suppress settings.containment matches_) outcome.clonePairs

theorem nodup_documents {intake : Intake} (hrequest : checkRequest files = .ok ())
    (hintake : tokenizeAll settings (inOrder files) = .ok intake) :
    (intake.documents.map (·.file.identity)).Nodup := by
  have hfiles := (checkRequest_eq_ok_iff.mp hrequest).2
  have hsub (ordered : List SourceFile) :
      ((ordered.filterMap (document? settings)).map (·.file)).Sublist ordered := by
    induction ordered with
    | nil => exact .slnil
    | cons f rest ih =>
      rw [List.filterMap_cons]
      split
      · exact ih.cons f
      · rename_i doc hdoc
        rw [List.map_cons, (document?_eq_some_iff.mp hdoc).1]
        exact ih.cons_cons f
  have horder : ((inOrder files).map SourceFile.identity).Nodup :=
    (((List.mergeSort_perm files identityLE).map _).nodup_iff).mpr hfiles
  have hdocs := horder.sublist ((hsub (inOrder files)).map SourceFile.identity)
  rw [List.map_map] at hdocs
  rw [documents_tokenizeAll hintake]
  exact hdocs

/-- Every match stands for an aligned candidate. -/
theorem exists_candidate_of_mem {index : TokenIndex} {m : Oriented}
    (hmin : 1 ≤ settings.minTokens)
    (hindex : TokenIndex.build (docs.map (·.tokens)) (revisionGroups docs) settings.strategy
      settings.seedTokens settings.maxBucket = .ok index)
    (hmatches : Resolve.orientAll docs.toArray (resolveOptions settings) []
      (Match.find index (query settings)).candidates = .ok matches_) (hm : m ∈ matches_) :
    ∃ c, Resolve.Sides c m ∧ c.a.stream < c.b.stream ∧
      Match.Aligned (docs.map (·.tokens)) settings.maxGap c ∧
      m.Faces docs.toArray settings.targetRevision := by
  obtain ⟨c, hc, ho⟩ := (Resolve.mem_orientAll_iff hmatches).mp hm
  have hlt := Match.stream_lt_of_mem_candidates hindex hc
  exact ⟨c, (Resolve.sides_of_orientDistinct ho).2, hlt,
    Match.aligned_of_mem_candidates (one_le_minLength_query hmin) hindex hc,
    Oriented.faces_of_orient hlt (Resolve.orientDistinct_eq_some_iff.mp ho).2.1⟩

/-- The documents of an outcome with the matches behind it, none of which is of one part of a
file. -/
theorem exists_reports_of_compare {intake : Intake} (hmin : 1 ≤ settings.minTokens)
    (hrequest : checkRequest files = .ok ())
    (hintake : tokenizeAll settings (inOrder files) = .ok intake)
    (hcompare : compare settings (inOrder files) intake = .ok outcome) : ∃ matches_,
      Reports settings files outcome intake.documents matches_ ∧
        ∀ m ∈ matches_, Resolve.isSelfPair intake.documents.toArray m = .ok false := by
  have hdocs : ∀ d ∈ intake.documents, IsDocument settings files d :=
    fun d hd => (mem_documents_iff hintake).mp hd
  have hnodup := nodup_documents hrequest hintake
  rcases Nat.lt_or_ge intake.documents.length 2 with hfew | htwo
  · refine ⟨[], ⟨hdocs, hnodup, by simp, by simp, ?_⟩, by simp⟩
    rw [clonePairs_of_length_lt_two hfew hcompare]
    simp [Oriented.suppress]
  obtain ⟨index, pairs, hindex, hpairs, rfl⟩ := (compare_eq_ok_iff htwo).mp hcompare
  obtain ⟨matches_, hmatches, hpairs⟩ := bind_eq_ok_iff.mp hpairs
  refine ⟨matches_, ⟨hdocs, hnodup, fun m hm => ?_, fun m hm => ?_,
    (mapM_eq_ok_iff.mp hpairs).imp fun m p => Resolve.pairOf_locates⟩, fun m hm => ?_⟩
  · obtain ⟨c, -, -, -, hfaces⟩ := exists_candidate_of_mem hmin hindex hmatches hm
    exact hfaces
  · obtain ⟨c, hsides, -, halign, -⟩ := exists_candidate_of_mem hmin hindex hmatches hm
    exact Oriented.aligned_of_sides halign hsides
  · obtain ⟨c, -, ho⟩ := (Resolve.mem_orientAll_iff hmatches).mp hm
    exact (Resolve.orientDistinct_eq_some_iff.mp ho).2.2

theorem exists_reports (h : detect settings files = .ok outcome) :
    ∃ docs matches_, Reports settings files outcome docs matches_ := by
  obtain ⟨hvalid, hrequest, intake, hintake, hcompare⟩ := detect_eq_ok_iff.mp h
  obtain ⟨matches_, hreports, -⟩ := exists_reports_of_compare
    (Settings.validate_eq_ok_iff.mp hvalid).1 hrequest hintake hcompare
  exact ⟨intake.documents, matches_, hreports⟩

namespace Reports

variable {m n : Oriented} {p q : ClonePair}

theorem ordered (h : Reports settings files outcome docs matches_) :
    ∀ d ∈ docs, d.tokens.Ordered := fun d hd =>
  (placed_of_tokenize (h.documents d hd).tokenize_eq).toOrdered

theorem proper (h : Reports settings files outcome docs matches_)
    (hshare : ∀ n ≤ positions settings files,
      settings.containment * Float.ofNat n ≤ Float.ofNat n) (hm : m ∈ matches_) :
    m.Proper settings.containment :=
  (h.aligned m hm).proper (fun d hd => (size_lt_positions (h.documents d hd)).le) hshare

/-- A pair inside another one comes from a match inside the other one. -/
theorem within (h : Reports settings files outcome docs matches_) (hm : m ∈ matches_)
    (hn : n ∈ matches_) (hp : p.Locates docs.toArray m) (hq : q.Locates docs.toArray n)
    (hin : p.Within q) : m.Within n := by
  refine (hp.of_within h.nodup h.ordered hq hin).resolve_right ?_
  rintro ⟨ht, hs⟩
  obtain ⟨d, hd, -⟩ := hp.target
  exact (h.faces m hm).target_stream_ne (h.faces n hn) hd ht.1 hs.1

/-- Without gaps a match has as many tokens as its target. -/
theorem matched_eq_length (h : Reports settings files outcome docs matches_) (hm : m ∈ matches_)
    (hgap : settings.maxGap = 0) : m.matched = m.target.length := by
  obtain ⟨d, e, pairs, -, -, halign, hlen⟩ := h.aligned m hm
  rw [hgap] at halign
  have hstop := halign.equalRun.2.1
  rw [TokenRange.length]
  omega

end Reports

/-! ## A run between the ends of a chain -/

/-- The stream of some words of one letter with a blank after each. -/
def letters (texts : List String) : TokenStream :=
  (texts.zipIdx.map fun e => ⟨.identifier, e.1, 2 * e.2, 2 * e.2 + 1⟩).toArray

/-- Two files that share a run of four tokens, and a chain of three around it. -/
def nestedDocuments : List Document :=
  [⟨⟨"A", "r", "c", "t a b c d m e".toUTF8⟩, letters ["t", "a", "b", "c", "d", "m", "e"]⟩,
    ⟨⟨"B", "r", "c", "t w x y z m a b c d e".toUTF8⟩,
      letters ["t", "w", "x", "y", "z", "m", "a", "b", "c", "d", "e"]⟩]

/-- Settings under which the chain is long enough. -/
def nestedSettings : Settings :=
  { normalization := .raw, minTokens := 3, maxGap := 4 }

/-- The suffixes of the symbols of `nestedDocuments` in order. -/
def nestedArray : SuffixArray where
  suffixes := [0, 8, 1, 14, 2, 15, 3, 16, 4, 17, 13, 5, 6, 18, 9, 10, 11, 12, 7, 19]
  shared := [0, 1, 0, 4, 0, 3, 0, 2, 0, 1, 0, 1, 0, 1, 0, 0, 0, 0, 0, 0]

/-- An index of `nestedDocuments`. -/
def nestedIndex : TokenIndex :=
  let corpus : Corpus := ⟨#[#[0, 1, 2, 3, 4, 5, 6], #[0, 7, 8, 9, 10, 5, 1, 2, 3, 4, 6]], 11⟩
  ⟨corpus, corpus.symbols, corpus.refs, #[0, 0], .suffixArray nestedArray, 0⟩

/-- The run and the chain, the chain first. -/
def nestedMatches : List Oriented :=
  [⟨⟨0, 0, 7⟩, ⟨1, 0, 11⟩, 3⟩, ⟨⟨0, 1, 5⟩, ⟨1, 6, 10⟩, 4⟩]

theorem tokenize_nested : ∀ doc ∈ nestedDocuments,
    tokenize doc.file.content doc.file.language ⟨.raw, false, false⟩ = .ok doc.tokens := by
  decide +kernel

theorem build_nested : TokenIndex.build (nestedDocuments.map (·.tokens))
    (revisionGroups nestedDocuments) .suffixArray 1 512 = .ok nestedIndex := by
  have hgroups : revisionGroups nestedDocuments = [0, 0] := by
    cbv
  have hholds : nestedIndex.Holds (nestedDocuments.map (·.tokens)) [0, 0] := by
    refine ⟨rfl, ?_, rfl, rfl, rfl⟩
    simp [nestedIndex, nestedDocuments, letters, Corpus.ofStreams, Vocabulary.internAll,
      Vocabulary.intern, Vocabulary.add, Std.HashMap.getElem_insert, Std.HashMap.size_insert]
  have harray : nestedArray = SuffixArray.build nestedIndex.symbols 13 := by
    cbv
  rw [hgroups]
  exact TokenIndex.build_eq_ok_iff.mpr
    ⟨hholds, by decide +kernel, rfl, congrArg Lookup.suffixArray harray⟩

theorem candidates_nested : (Match.find nestedIndex ⟨1, 4, 512, false⟩).candidates =
    [⟨⟨0, 0, 7⟩, ⟨1, 0, 11⟩, 3⟩, ⟨⟨0, 1, 5⟩, ⟨1, 6, 10⟩, 4⟩] := by
  have hscan : Match.scan nestedIndex ⟨1, 4, 512, false⟩ = ([⟨⟨0, 6, 7⟩, ⟨1, 10, 11⟩, 1⟩,
      ⟨⟨0, 5, 6⟩, ⟨1, 5, 6⟩, 1⟩, ⟨⟨0, 1, 5⟩, ⟨1, 6, 10⟩, 4⟩, ⟨⟨0, 0, 1⟩, ⟨1, 0, 1⟩, 1⟩], 0) := by
    decide +kernel
  rw [Match.find, hscan]
  cbv

theorem suppress_nested : Oriented.suppress 1.0 nestedMatches = nestedMatches.reverse := by
  have hgroups : (nestedMatches.mergeSort fun m n => m.visitKey.le n.visitKey).splitBy
      (fun m n => m.streamPair == n.streamPair) = [nestedMatches.reverse] := by
    cbv
  have hkeep : Oriented.keep 1.0 [] nestedMatches.reverse = nestedMatches.reverse := by
    decide +kernel
  simp only [Oriented.suppress, hgroups, List.flatMap_singleton, hkeep]
  cbv

theorem share_nested : ∀ n ≤ positions nestedSettings (nestedDocuments.map (·.file)),
    nestedSettings.containment * Float.ofNat n ≤ Float.ofNat n := by
  decide +kernel

/-- Both the run and the chain are reported, the run first. -/
theorem detect_nested : ∃ outcome p q,
    detect nestedSettings (nestedDocuments.map (·.file)) = .ok outcome ∧
      outcome.clonePairs = [p, q] ∧
      p.Locates nestedDocuments.toArray ⟨⟨0, 1, 5⟩, ⟨1, 6, 10⟩, 4⟩ ∧
      q.Locates nestedDocuments.toArray ⟨⟨0, 0, 7⟩, ⟨1, 0, 11⟩, 3⟩ := by
  have horder : inOrder (nestedDocuments.map (·.file)) = nestedDocuments.map (·.file) := by
    cbv
  have hintake : tokenizeAll nestedSettings (inOrder (nestedDocuments.map (·.file))) =
      .ok ⟨nestedDocuments, []⟩ := by
    rw [horder]
    exact tokenizeAll_map_file tokenize_nested
  have horient : Resolve.orientAll nestedDocuments.toArray (resolveOptions nestedSettings) []
      [⟨⟨0, 0, 7⟩, ⟨1, 0, 11⟩, 3⟩, ⟨⟨0, 1, 5⟩, ⟨1, 6, 10⟩, 4⟩] = .ok nestedMatches := by
    rfl
  obtain ⟨outcome, hcompare⟩ : ∃ outcome, compare nestedSettings
      (inOrder (nestedDocuments.map (·.file))) ⟨nestedDocuments, []⟩ = .ok outcome :=
    exists_compare_eq_ok (by decide) (by decide +kernel) hintake
  have h : detect nestedSettings (nestedDocuments.map (·.file)) = .ok outcome :=
    detect_eq_ok_iff.mpr ⟨by rfl, by decide +kernel, _, hintake, hcompare⟩
  obtain ⟨index, pairs, hindex, hpairs, rfl⟩ := (compare_eq_ok_iff (by decide)).mp hcompare
  obtain rfl : nestedIndex = index := Except.ok.inj (build_nested.symm.trans hindex)
  obtain ⟨matches_, hmatches, hpairs⟩ := bind_eq_ok_iff.mp hpairs
  have hquery : query nestedSettings = ⟨1, 4, 512, false⟩ := rfl
  rw [hquery, candidates_nested, horient, Except.ok.injEq] at hmatches
  subst hmatches
  -- the two matches that are kept, and their pairs
  have hall := mapM_eq_ok_iff.mp hpairs
  rw [show (resolveOptions nestedSettings).containment = 1.0 from rfl, suppress_nested] at hall
  obtain ⟨p, _, hp, hrest, rfl⟩ := List.forall₂_cons_left_iff.mp hall
  obtain ⟨q, _, hq, hnil, rfl⟩ := List.forall₂_cons_left_iff.mp hrest
  obtain rfl := List.forall₂_nil_left_iff.mp hnil
  exact ⟨_, p, q, h, rfl, Resolve.pairOf_locates hp, Resolve.pairOf_locates hq⟩

/-- No reported pair lies inside one that is reported before it. It lies inside one that is reported
after it only if gaps are bridged, and then it has more tokens. -/
theorem pairwise_clonePairs (h : detect settings files = .ok outcome)
    (hshare : ∀ n ≤ positions settings files,
      settings.containment * Float.ofNat n ≤ Float.ofNat n) :
    outcome.clonePairs.Pairwise fun p q => ¬ q.Within p ∧
      (p.Within q → settings.maxGap ≠ 0 ∧ q.matchedTokens < p.matchedTokens) := by
  obtain ⟨docs, matches_, hreports⟩ := exists_reports h
  have hapart := Oriented.pairwise_suppress fun m hm => hreports.proper hshare hm
  have hsorted := Oriented.pairwise_matched_suppress settings.containment matches_
  refine pairwise_of_forall₂ hreports.located (hapart.and hsorted) ?_
  rintro m hm n hn p q ⟨hapart, hle⟩ hp hq
  have hm := Oriented.mem_of_mem_suppress hm
  have hn := Oriented.mem_of_mem_suppress hn
  refine ⟨fun hin => ?_, fun hin => ?_⟩
  · have := hapart.2 (hreports.within hn hm hq hp hin)
    omega
  · have hwithin := hreports.within hm hn hp hq hin
    have hlt := hapart.1 hwithin
    refine ⟨fun hgap => ?_, by rwa [hp.matched, hq.matched]⟩
    have hmlen := hreports.matched_eq_length hm hgap
    have hnlen := hreports.matched_eq_length hn hgap
    obtain ⟨-, hstart, hstop⟩ := hwithin.1
    simp only [TokenRange.length] at hmlen hnlen
    omega

theorem pairwise_clonePairs_nested : ∃ outcome,
    detect nestedSettings (nestedDocuments.map (·.file)) = .ok outcome ∧
      outcome.clonePairs.length = 2 ∧ outcome.clonePairs.Pairwise fun p q => ¬ q.Within p ∧
        (p.Within q → nestedSettings.maxGap ≠ 0 ∧ q.matchedTokens < p.matchedTokens) := by
  obtain ⟨outcome, p, q, h, hpairs, -, -⟩ := detect_nested
  exact ⟨outcome, h, by simp [hpairs], pairwise_clonePairs h share_nested⟩

/-- With gaps bridged, a reported pair may lie inside another one. -/
theorem exists_within_nested :
    (∀ n ≤ positions nestedSettings (nestedDocuments.map (·.file)),
      nestedSettings.containment * Float.ofNat n ≤ Float.ofNat n) ∧
    ∃ outcome, detect nestedSettings (nestedDocuments.map (·.file)) = .ok outcome ∧
      ∃ p ∈ outcome.clonePairs, ∃ q ∈ outcome.clonePairs, p ≠ q ∧ p.Within q := by
  obtain ⟨outcome, p, q, h, hpairs, hp, hq⟩ := detect_nested
  refine ⟨share_nested, outcome, h, p, by simp [hpairs], q, by simp [hpairs], ?_, ?_⟩
  · rintro rfl
    exact absurd (hp.matched.symm.trans hq.matched) (by decide)
  · have hordered : ∀ d ∈ nestedDocuments, d.tokens.Ordered := fun d hd =>
      (placed_of_tokenize (tokenize_nested d hd)).toOrdered
    exact hp.within (by decide) hordered hq (by decide)

end Detection

end CloneDetection
