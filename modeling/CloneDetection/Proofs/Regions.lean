import CloneDetection.Proofs.Coarsening
import CloneDetection.Proofs.Findings
import CloneDetection.Proofs.ReportShape

/-!
# Reported regions under coarser normalization

At a coarser level the documents of a request are the same but for the texts of their tokens
(`Detection.exists_documents_recode`), so every run found at a finer level lies in one at the
coarser level (`Oriented.IsRun.exists_recode`). This longer run need not be reported: it is left out
when its sides are overlapping parts of one file, and it may be folded into a run with at least as
many tokens (`Detection.not_exists_within_coarser`). What then is reported in its place is told by
`Detection.exists_coarser_pair`.
-/

namespace CloneDetection

/-! ## Documents with other texts -/

/-- A document with other texts. -/
def Document.recode (f : String → String) (doc : Document) : Document :=
  { doc with tokens := doc.tokens.recode f }

section Recode

variable {f : String → String} {docs : List Document} {l k : Location} {d : Document}
  {r s : TokenRange} {m n : Oriented}

theorem byteRange_recode (f : String → String) (tokens : TokenStream) (first last : ℕ) :
    (tokens.recode f).byteRange first last = tokens.byteRange first last := by
  simp only [TokenStream.byteRange, TokenStream.recode, Array.getElem?_map]
  cases tokens[first]? <;> cases tokens[last - 1]? <;> rfl

theorem Location.Spans.recode (f : String → String) (h : l.Spans d r) :
    l.Spans (d.recode f) r :=
  ⟨h.file, h.revision, (byteRange_recode f d.tokens r.start r.stop).trans h.bytes⟩

/-- A pair locates the same match among the documents with other texts. -/
theorem ClonePair.Locates.recode {p : ClonePair} (f : String → String)
    (h : p.Locates docs.toArray m) : p.Locates (docs.map (Document.recode f)).toArray m := by
  have side {i : ℕ} {l : Location} {r : TokenRange}
      (h : ∃ doc, docs.toArray[i]? = some doc ∧ l.Spans doc r) :
      ∃ doc, (docs.map (Document.recode f)).toArray[i]? = some doc ∧ l.Spans doc r := by
    obtain ⟨doc, hdoc, hspans⟩ := h
    refine ⟨doc.recode f, ?_, hspans.recode f⟩
    rw [List.getElem?_toArray] at hdoc ⊢
    rw [List.getElem?_map, hdoc, Option.map_some]
  exact ⟨h.matched, side h.target, side h.source⟩

/-- A run lies in a run of the documents with other texts. -/
theorem Oriented.IsRun.exists_recode (f : String → String) (h : m.IsRun docs) :
    ∃ run : Oriented, run.IsRun (docs.map (Document.recode f)) ∧ m.Within run ∧
      m.matched ≤ run.matched := by
  obtain ⟨⟨d, e, hd, he, hrun⟩, ht, hs⟩ := h
  obtain ⟨i, j, length, hmaximal, hstart, hstop, hdiagonal⟩ := exists_maximalRun_recode f hrun
  refine ⟨⟨⟨m.target.stream, i, i + length⟩, ⟨m.source.stream, j, j + length⟩, length⟩,
    ⟨⟨d.recode f, e.recode f, ?_, ?_, hmaximal⟩, rfl, rfl⟩, ⟨⟨rfl, hstart, ?_⟩, ⟨rfl, ?_, ?_⟩⟩, ?_⟩
  · rw [List.getElem?_map, hd, Option.map_some]
  · rw [List.getElem?_map, he, Option.map_some]
  all_goals dsimp only; omega

theorem Oriented.Faces.recode {target : Option String} (f : String → String)
    (h : m.Faces docs.toArray target) :
    m.Faces (docs.map (Document.recode f)).toArray target := by
  have document {i : ℕ} {d : Document}
      (hd : (docs.map (Document.recode f)).toArray[i]? = some d) :
      ∃ e, docs.toArray[i]? = some e ∧ d.file = e.file := by
    rw [List.getElem?_toArray, List.getElem?_map, Option.map_eq_some_iff] at hd
    obtain ⟨e, he, rfl⟩ := hd
    exact ⟨e, by rwa [List.getElem?_toArray], rfl⟩
  cases target with
  | none => exact h
  | some revision =>
    refine ⟨fun d hd => ?_, fun d hd => ?_⟩
    · obtain ⟨e, he, hfile⟩ := document hd
      rw [hfile]
      exact h.1 e he
    · obtain ⟨e, he, hfile⟩ := document hd
      rw [hfile]
      exact h.2 e he

/-- Two locations of a document overlap when the tokens they span do. -/
theorem Location.Spans.overlaps (hordered : d.tokens.Ordered) (hl : l.Spans d r) (hk : k.Spans d s)
    (h : 0 < r.overlap s) : l.Overlaps k := by
  have before {l k : Location} {r s : TokenRange} (hl : l.Spans d r) (hk : k.Spans d s)
      (hlt : r.start < s.stop) : l.startOffset < k.endOffset := by
    obtain ⟨-, first, -, hfirst, -, hstart, -⟩ := TokenStream.byteRange_eq_some_iff.mp hl.bytes
    obtain ⟨-, -, last, -, hlast, -, hend⟩ := TokenStream.byteRange_eq_some_iff.mp hk.bytes
    have hle := (hordered.le_iff hfirst hlast).1.mpr (by omega)
    have hpos := hordered.lt_of_getElem? hlast
    omega
  simp only [TokenRange.overlap] at h
  split at h
  · exact ⟨before hl hk (by omega), before hk hl (by omega)⟩
  · omega

/-- A location holds another one of its document that starts with the same token and ends no
later. -/
theorem Location.Spans.within_of_start_eq (hordered : d.tokens.Ordered) (hl : l.Spans d r)
    (hk : k.Spans d s) (hstart : r.start = s.start) (hstop : r.stop ≤ s.stop) :
    l.Within k ∧ l.startOffset = k.startOffset := by
  have hle := hl.offset_le_iff hordered hk
  have hoffset : l.startOffset = k.startOffset :=
    le_antisymm (hle.1.mpr hstart.le) ((hk.offset_le_iff hordered hl).1.mpr hstart.ge)
  exact ⟨⟨hl.file.trans hk.file.symm, hl.revision.trans hk.revision.symm, hoffset.ge,
    hle.2.mpr hstop⟩, hoffset⟩

end Recode

/-! ## What takes the place of a run -/

/-- The pair `q` of the match `n` is reported in place of the pair `r` of `run`. It is of the same
two files, has at least as many tokens, and holds `r`, covers a share of both of its sides, or
starts with one of its sides, which it holds, and overlaps the other one. -/
structure ClonePair.Replaces (threshold : Float) (q r : ClonePair) (n run : Oriented) : Prop where
  target : q.target.identity = r.target.identity
  source : q.source.identity = r.source.identity
  matched : r.matchedTokens ≤ q.matchedTokens
  sides : r.target.Within q.target ∧ r.source.Within q.source ∨
    Oriented.covered threshold run.target n.target = true ∧
      Oriented.covered threshold run.source n.source = true ∨
    r.target.Within q.target ∧ r.target.startOffset = q.target.startOffset ∧
      r.source.Overlaps q.source ∨
    r.source.Within q.source ∧ r.source.startOffset = q.source.startOffset ∧
      r.target.Overlaps q.target

/-- A run is replaced by itself, and by a run that beats it. -/
theorem ClonePair.replaces_of_beats {threshold : Float} {docs : List Document} {q r : ClonePair}
    {n run : Oriented} (hordered : ∀ d ∈ docs, d.tokens.Ordered) (hq : q.Locates docs.toArray n)
    (hr : r.Locates docs.toArray run) (hn : n.IsRun docs) (hrun : run.IsRun docs)
    (h : n = run ∨ Oriented.Beats threshold n run) : q.Replaces threshold r n run := by
  have hstreams : n.streamPair = run.streamPair := by
    rcases h with rfl | hbeats
    · rfl
    · exact hbeats.streams
  have hmatched : run.matched ≤ n.matched := by
    rcases h with rfl | hbeats
    · exact le_rfl
    · exact hbeats.before.matched_le hstreams
  obtain ⟨htarget, hsource⟩ := Prod.mk.inj hstreams
  obtain ⟨d, hd, hrt⟩ := hr.target
  obtain ⟨e, he, hrs⟩ := hr.source
  obtain ⟨d', hd', hqt⟩ := hq.target
  obtain ⟨e', he', hqs⟩ := hq.source
  obtain rfl : d = d' := Option.some.inj (hd.symm.trans (htarget ▸ hd'))
  obtain rfl : e = e' := Option.some.inj (he.symm.trans (hsource ▸ he'))
  rw [List.getElem?_toArray] at hd he
  have hdo := hordered d (List.mem_of_getElem? hd)
  have heo := hordered e (List.mem_of_getElem? he)
  refine ⟨hqt.identity_eq.trans hrt.identity_eq.symm, hqs.identity_eq.trans hrs.identity_eq.symm,
    by rwa [hr.matched, hq.matched], ?_⟩
  rcases h with rfl | hbeats
  · exact .inl ⟨(hrt.within_of_start_eq hdo hqt rfl le_rfl).1,
      (hrs.within_of_start_eq heo hqs rfl le_rfl).1⟩
  · have hsubsumed := hbeats.subsumes
    simp only [Oriented.isSubsumed, Bool.or_eq_true, Bool.and_eq_true, beq_iff_eq,
      decide_eq_true_eq] at hsubsumed
    rcases hsubsumed with (hcovered | ⟨hstart, hoverlap⟩) | ⟨hstart, hoverlap⟩
    · exact .inr (.inl hcovered)
    · have hstop : run.target.stop ≤ n.target.stop := by
        rw [hrun.target_stop, hn.target_stop]
        omega
      obtain ⟨hwithin, hoffset⟩ := hrt.within_of_start_eq hdo hqt hstart hstop
      exact .inr (.inr (.inl ⟨hwithin, hoffset, hrs.overlaps heo hqs hoverlap⟩))
    · have hstop : run.source.stop ≤ n.source.stop := by
        rw [hrun.source_stop, hn.source_stop]
        omega
      obtain ⟨hwithin, hoffset⟩ := hrs.within_of_start_eq heo hqs hstart hstop
      exact .inr (.inr (.inr ⟨hwithin, hoffset, hrt.overlaps hdo hqt hoverlap⟩))

namespace Detection

variable {settings : Settings} {files : List SourceFile} {finer coarser : Normalization}
  {language : Language}

/-- Files of one language have the same documents at each level, with other texts. -/
theorem exists_documents_recode {intake intake' : Intake}
    (hlanguage : ∀ file ∈ files, Language.ofTag? file.language = some language)
    (hle : finer.Refines coarser)
    (h : tokenizeAll { settings with normalization := finer } (inOrder files) = .ok intake)
    (h' : tokenizeAll { settings with normalization := coarser } (inOrder files) = .ok intake') :
    ∃ f : String → String, intake'.documents = intake.documents.map (Document.recode f) := by
  obtain ⟨f, hf⟩ := language.exists_recoding hle settings.includeComments settings.dropNoise
  refine ⟨f, ?_⟩
  rw [documents_tokenizeAll h, documents_tokenizeAll h', List.map_filterMap]
  refine List.filterMap_congr fun file hfile => ?_
  simp only [document?, tokenize, hlanguage file (mem_inOrder.mp hfile), Settings.tokenizeOptions,
    hf file.content]
  cases language.tokenize file.content ⟨finer, settings.includeComments, settings.dropNoise⟩ <;> rfl

/-- A run of documents has a pair. -/
theorem exists_pairOf_of_isRun {docs : List Document} {run : Oriented}
    (hdocs : ∀ d ∈ docs, d.tokens.Placed d.file.content) (hrun : run.IsRun docs)
    (hpos : 0 < run.matched) : ∃ r : ClonePair, r.Locates docs.toArray run := by
  have quotable {m : Oriented} (hrun : m.IsRun docs) (hpos : 0 < m.matched) :
      Quotable docs.toArray m.target := by
    obtain ⟨⟨d, e, hd, -, hmaximal⟩, hstop, -⟩ := hrun
    have hle := hmaximal.run.left_le
    rw [TokenStream.size_texts, ← hstop] at hle
    have hlt : m.target.start < m.target.stop := by omega
    obtain ⟨start, stop, hbytes, hstart, hend, hvalid⟩ :=
      (hdocs d (List.mem_of_getElem? hd)).exists_byteRange hlt hle
    exact ⟨d, start, stop, by rwa [List.getElem?_toArray], hlt, hle, hbytes, hstart, hend, hvalid⟩
  have hsource : Quotable docs.toArray run.source := quotable hrun.swap hpos
  obtain ⟨r, hr⟩ := Resolve.exists_locate_eq_ok #[] (quotable hrun hpos)
  obtain ⟨s, hs⟩ := Resolve.exists_locate_eq_ok #[] hsource
  exact ⟨.ofLocations run.matched r s, rfl, Resolve.locate_spans hr, Resolve.locate_spans hs⟩

/-! ## Pairs that are lost -/

/-- Some pair that is reported at the raw level lies in no pair that is reported with the
identifiers blinded. -/
def LosesPair (settings : Settings) (files : List SourceFile) : Prop :=
  ∃ language outcome outcome' p,
    (∀ file ∈ files, Language.ofTag? file.language = some language) ∧ settings.maxGap = 0 ∧
    detect { settings with normalization := .raw } files = .ok outcome ∧
    detect { settings with normalization := .identifierBlind } files = .ok outcome' ∧
    outcome.statistics.skippedBucketTruncated = 0 ∧
    outcome'.statistics.skippedBucketTruncated = 0 ∧
    p ∈ outcome.clonePairs ∧ ∀ q ∈ outcome'.clonePairs, ¬ p.Within q

/-- A file of some names of one letter and a sign after them. -/
def signed (id revision : String) (names : List String) : Document :=
  ⟨⟨id, revision, "c", (" ".intercalate (names ++ ["+"])).toUTF8⟩,
    (letters names).push ⟨.punctuation, "+", 2 * names.length, 2 * names.length + 1⟩⟩

/-- The blinded text of a token of such a file. -/
def blind (text : String) : String :=
  if text = "+" then text else "$id"

/-- Settings under which two names are enough. -/
def twoNames (level : Normalization) (containment : Float) : Settings :=
  { normalization := level, minTokens := 2, containment }

/-- The pair of a match `m` is lost if no match that is kept of the blinded documents holds `m`. -/
theorem losesPair_of_isKernel {threshold : Float} {d e : Document} (m : Oriented)
    (kept : List Oriented) (hshare : Settings.isShare threshold = true)
    (hlanguage : ∀ file ∈ [d.file, e.file], Language.ofTag? file.language = some .c)
    (hrequest : checkRequest [d.file, e.file] = .ok ())
    (horder : identityLE d.file e.file = true)
    (hsize : sumBy (·.tokens.size + 1) [d, e] ≤ 512)
    (hraw : ∀ doc ∈ [d, e],
      tokenize doc.file.content doc.file.language ⟨.raw, false, false⟩ = .ok doc.tokens)
    (hblind : ∀ doc ∈ [d.recode blind, e.recode blind],
      tokenize doc.file.content doc.file.language ⟨.identifierBlind, false, false⟩ = .ok doc.tokens)
    (hkept : Oriented.IsKernel threshold (findings (twoNames .raw threshold) d e) {n | n ∈ [m]})
    (hkept' : Oriented.IsKernel threshold (findings (twoNames .identifierBlind threshold)
      (d.recode blind) (e.recode blind)) {n | n ∈ kept})
    (hout : ∀ n ∈ kept, ¬ (m.Within n ∨ m.target.Within n.source ∧ m.source.Within n.target)) :
    LosesPair (twoNames .raw threshold) [d.file, e.file] := by
  have hvalid (level : Normalization) : (twoNames level threshold).validate = .ok () :=
    Settings.validate_eq_ok_iff.mpr
      ⟨show 1 ≤ 2 by decide, hshare, show 1 ≤ 512 by decide, nofun, nofun⟩
  have horder : inOrder [d.file, e.file] = [d.file, e.file] :=
    List.mergeSort_of_pairwise (by simpa using horder)
  have hlimit : 512 < TokenIndex.positionLimit := by decide
  have hsize' : sumBy (·.tokens.size + 1) [d.recode blind, e.recode blind] ≤ 512 := by
    simpa [Document.recode, size_recode] using hsize
  obtain ⟨outcome, h, ht, hpairs, -⟩ := exists_detect_pair (hvalid .raw) rfl rfl rfl rfl hrequest
    horder hraw hsize (hsize.trans_lt hlimit) hkept
  obtain ⟨outcome', h', ht', -, hpairs'⟩ := exists_detect_pair (d := d.recode blind)
    (e := e.recode blind) (hvalid .identifierBlind) rfl rfl rfl rfl hrequest horder hblind hsize'
    (hsize'.trans_lt hlimit) hkept'
  obtain ⟨p, hp, hpair⟩ := hpairs m (List.mem_singleton_self m)
  have hlocates : p.Locates [d, e].toArray m := hpair
  refine ⟨.c, outcome, outcome', p, hlanguage, rfl, h, h', ht, ht', hp, fun q hq hin => ?_⟩
  obtain ⟨n, hn, hlocates'⟩ := hpairs' q hq
  have hnodup : ([d.recode blind, e.recode blind].map (·.file.identity)).Nodup :=
    (checkRequest_eq_ok_iff.mp hrequest).2
  have hordered : ∀ doc ∈ [d.recode blind, e.recode blind], doc.tokens.Ordered := fun doc hdoc =>
    (placed_of_tokenize (hblind doc hdoc)).toOrdered
  exact hout n hn ((hlocates.recode blind).of_within hnodup hordered hlocates' hin)

/-- The run around the pair starts with the target of a longer run, and is folded into it. -/
theorem losesPair_target : LosesPair (twoNames .raw 1.0)
    [(signed "A" "r" ["x", "y", "z"]).file, (signed "B" "r" ["x", "y", "z", "w"]).file] := by
  refine losesPair_of_isKernel ⟨⟨0, 0, 3⟩, ⟨1, 0, 3⟩, 3⟩
    [⟨⟨0, 0, 4⟩, ⟨1, 1, 5⟩, 4⟩, ⟨⟨0, 1, 3⟩, ⟨1, 0, 2⟩, 2⟩] ?_ ?_ ?_ ?_ ?_ ?_ ?_ ?_ ?_ ?_ <;>
    decide +kernel

/-- The run around the pair starts with the source of a longer run, and is folded into it. -/
theorem losesPair_source : LosesPair (twoNames .raw 1.0)
    [(signed "A" "r" ["x", "y", "z", "w"]).file, (signed "B" "r" ["x", "y", "z"]).file] := by
  refine losesPair_of_isKernel ⟨⟨0, 0, 3⟩, ⟨1, 0, 3⟩, 3⟩
    [⟨⟨0, 1, 5⟩, ⟨1, 0, 4⟩, 4⟩, ⟨⟨0, 0, 2⟩, ⟨1, 1, 3⟩, 2⟩] ?_ ?_ ?_ ?_ ?_ ?_ ?_ ?_ ?_ ?_ <;>
    decide +kernel

/-- The run around the pair is of overlapping parts of one file. -/
theorem losesPair_overlap : LosesPair (twoNames .raw 1.0)
    [(signed "F" "1" ["x", "y", "a", "b"]).file,
      (signed "F" "2" ["p", "q", "x", "y", "c", "d"]).file] := by
  refine losesPair_of_isKernel ⟨⟨0, 0, 2⟩, ⟨1, 2, 4⟩, 2⟩
    [⟨⟨0, 0, 3⟩, ⟨1, 3, 6⟩, 3⟩, ⟨⟨0, 2, 4⟩, ⟨1, 0, 2⟩, 2⟩] ?_ ?_ ?_ ?_ ?_ ?_ ?_ ?_ ?_ ?_ <;>
    decide +kernel

/-- Half of each side of the run around the pair is covered by a longer run. -/
theorem losesPair_share : LosesPair (twoNames .raw 0.5)
    [(signed "A" "r" ["a", "x", "y"]).file, (signed "B" "r" ["x", "y", "b", "c"]).file] := by
  refine losesPair_of_isKernel ⟨⟨0, 1, 3⟩, ⟨1, 0, 2⟩, 2⟩ [⟨⟨0, 0, 4⟩, ⟨1, 1, 5⟩, 4⟩]
    ?_ ?_ ?_ ?_ ?_ ?_ ?_ ?_ ?_ ?_ <;>
    decide +kernel

/-! ## The coarser level -/

/-- **Coarser normalization takes a pair into a longer run.** Without gaps, and when nothing is left
out because of the limit, every pair that is reported at a finer level lies in a maximal run of the
tokens of the coarser level. Either the sides of this run are overlapping parts of one file, or it
is reported, or it is folded into a pair that is. -/
theorem exists_coarser_pair {outcome outcome' : Outcome} {p : ClonePair}
    (hlanguage : ∀ file ∈ files, Language.ofTag? file.language = some language)
    (hle : finer.Refines coarser) (hgap : settings.maxGap = 0)
    (h : detect { settings with normalization := finer } files = .ok outcome)
    (h' : detect { settings with normalization := coarser } files = .ok outcome')
    (ht : outcome.statistics.skippedBucketTruncated = 0)
    (ht' : outcome'.statistics.skippedBucketTruncated = 0) (hp : p ∈ outcome.clonePairs) :
    ∃ (docs : List Document) (run : Oriented) (r : ClonePair),
      (∀ d ∈ docs, IsDocument { settings with normalization := coarser } files d) ∧
      run.IsRun docs ∧ r.Locates docs.toArray run ∧
      p.target.Within r.target ∧ p.source.Within r.source ∧
      (r.target.file = r.source.file ∧ r.target.Overlaps r.source ∨
        ∃ q ∈ outcome'.clonePairs, ∃ n, q.Locates docs.toArray n ∧
          q.Replaces settings.containment r n run) := by
  obtain ⟨intake, matches_, hintake, hmatches, hpairs⟩ := exists_findings h hgap ht
  obtain ⟨intake', matches', hintake', hmatches', hpairs'⟩ := exists_findings h' hgap ht'
  obtain ⟨f, hdocs⟩ := exists_documents_recode hlanguage hle hintake hintake'
  obtain ⟨hvalid, hrequest, -⟩ := detect_eq_ok_iff.mp h
  have hmin := (Settings.validate_eq_ok_iff.mp hvalid).1
  have hnodup := nodup_documents hrequest hintake'
  have hplaced : ∀ d ∈ intake'.documents, d.tokens.Placed d.file.content :=
    fun d => placed_of_mem_documents hintake'
  have hordered : ∀ d ∈ intake'.documents, d.tokens.Ordered := fun d hd => (hplaced d hd).toOrdered
  -- the match of the pair, and the run around it at the coarser level
  obtain ⟨m, hm, hpair⟩ := exists_of_forall₂ (mapM_eq_ok_iff.mp hpairs).flip hp
  have hfinding := (hmatches m).mp (Oriented.mem_of_mem_suppress hm)
  obtain ⟨run, hrun, hwithin, hlonger⟩ := hfinding.run.exists_recode f
  have hlocates := (Resolve.pairOf_locates hpair).recode f
  have hfaces := (hfinding.faces.recode f).congr
    (show run.streamPair = m.streamPair from Prod.ext hwithin.1.1.symm hwithin.2.1.symm)
  rw [← hdocs] at hrun hlocates hfaces
  have hlong : settings.minTokens ≤ run.matched := hfinding.long.trans hlonger
  obtain ⟨r, hr⟩ := exists_pairOf_of_isRun hplaced hrun (hmin.trans hlong)
  obtain ⟨ht, hs⟩ := hlocates.within_sides hnodup hordered hr hwithin
  refine ⟨intake'.documents, run, r, fun d hd => (mem_documents_iff hintake').mp hd, hrun, hr,
    ht, hs, ?_⟩
  by_cases hself : r.target.file = r.source.file ∧ r.target.Overlaps r.source
  · exact .inl hself
  · have hapart : Resolve.isSelfPair intake'.documents.toArray run = .ok false := by
      rw [Resolve.isSelfPair_eq_ok hr, decide_eq_false hself]
    obtain ⟨n, hn, hbeats⟩ := Oriented.exists_kept
      ((hmatches' run).mpr ⟨hrun, hlong, hfaces, hapart⟩)
    have hnrun := ((hmatches' n).mp (Oriented.mem_of_mem_suppress hn)).run
    obtain ⟨q, hq, hpair'⟩ := exists_of_forall₂ (mapM_eq_ok_iff.mp hpairs') hn
    have hqn := Resolve.pairOf_locates hpair'
    exact .inr ⟨q, hq, n, hqn,
      ClonePair.replaces_of_beats hordered hqn hr hnrun hrun hbeats⟩

theorem exists_coarser_pair_signed : ∃ outcome outcome' p,
    detect (twoNames .raw 1.0) [(signed "A" "r" ["x", "y", "z"]).file,
      (signed "B" "r" ["x", "y", "z", "w"]).file] = .ok outcome ∧
    detect (twoNames .identifierBlind 1.0) [(signed "A" "r" ["x", "y", "z"]).file,
      (signed "B" "r" ["x", "y", "z", "w"]).file] = .ok outcome' ∧
    p ∈ outcome.clonePairs ∧ ∃ (docs : List Document) (run : Oriented) (r : ClonePair),
      run.IsRun docs ∧ r.Locates docs.toArray run ∧ p.target.Within r.target ∧
      p.source.Within r.source ∧
      (r.target.file = r.source.file ∧ r.target.Overlaps r.source ∨
        ∃ q ∈ outcome'.clonePairs, ∃ n, q.Locates docs.toArray n ∧ q.Replaces 1.0 r n run) := by
  obtain ⟨language, outcome, outcome', p, hlanguage, hgap, h, h', ht, ht', hp, -⟩ := losesPair_target
  obtain ⟨docs, run, r, -, hfound⟩ := exists_coarser_pair hlanguage
    (show Normalization.raw.Refines .identifierBlind by decide) hgap h h' ht ht' hp
  exact ⟨outcome, outcome', p, h, h', hp, docs, run, r, hfound⟩

/-- A pair may lie in no pair of the coarser level, for each of the reasons that
`exists_coarser_pair` gives. -/
theorem not_exists_within_coarser :
    LosesPair (twoNames .raw 1.0)
      [(signed "A" "r" ["x", "y", "z"]).file, (signed "B" "r" ["x", "y", "z", "w"]).file] ∧
    LosesPair (twoNames .raw 1.0)
      [(signed "A" "r" ["x", "y", "z", "w"]).file, (signed "B" "r" ["x", "y", "z"]).file] ∧
    LosesPair (twoNames .raw 1.0) [(signed "F" "1" ["x", "y", "a", "b"]).file,
      (signed "F" "2" ["p", "q", "x", "y", "c", "d"]).file] ∧
    LosesPair (twoNames .raw 0.5)
      [(signed "A" "r" ["a", "x", "y"]).file, (signed "B" "r" ["x", "y", "b", "c"]).file] :=
  ⟨losesPair_target, losesPair_source, losesPair_overlap, losesPair_share⟩

end Detection

end CloneDetection
