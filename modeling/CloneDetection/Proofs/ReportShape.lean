import CloneDetection.Proofs.Requests
import CloneDetection.Proofs.Suppression

/-!
# The shape of a report

What every report has in common, whatever its settings. The two locations of a pair are in different
files and do not overlap in one file, and the target is the side that comes first or that is in the
target revision (`Detection.Reports.placed`). No two pairs are of the same two locations
(`Oriented.pairwise_sides_ne`), and the pairs are in strictly increasing order of `ClonePair.rank`.

Matches are kept and listed by streams and token numbers. Documents are in the order of their
identities and tokens in the order of their offsets, so ranks of locations and ranks of the ranges
of tokens they span compare alike (`Location.Spans.rank_lt`).
-/

namespace CloneDetection

/-- The file that a location is in. -/
def Location.identity (l : Location) : String × String :=
  (l.file, l.revision)

/-- Locations are ordered by file, start and end. -/
def Location.rank (l : Location) : (String ×ₗ String) ×ₗ ℕ ×ₗ ℕ :=
  toLex (toLex l.identity, toLex (l.startOffset, l.endOffset))

/-- Pairs are ordered by the number of tokens, the greatest first, then by target and source. -/
def ClonePair.rank (p : ClonePair) :
    ℕᵒᵈ ×ₗ ((String ×ₗ String) ×ₗ ℕ ×ₗ ℕ) ×ₗ (String ×ₗ String) ×ₗ ℕ ×ₗ ℕ :=
  toLex (OrderDual.toDual p.matchedTokens, toLex (p.target.rank, p.source.rank))

/-- Two pairs of the same two locations, in either order. -/
def ClonePair.SameCouple (p q : ClonePair) : Prop :=
  p.target.rank = q.target.rank ∧ p.source.rank = q.source.rank ∨
    p.target.rank = q.source.rank ∧ p.source.rank = q.target.rank

/-- Ranges are ordered by stream, start and end. -/
def TokenRange.rank (r : TokenRange) : ℕ ×ₗ ℕ ×ₗ ℕ :=
  toLex (r.stream, toLex (r.start, r.stop))

/-! ## Locations and the tokens they span -/

section Spans

variable {docs : List Document} {l k : Location} {d e : Document} {r s : TokenRange}

theorem Location.within_of_rank_eq (h : l.rank = k.rank) : l.Within k := by
  obtain ⟨hidentity, hoffsets⟩ := Prod.mk.inj (toLex.injective h)
  obtain ⟨hfile, hrevision⟩ := Prod.mk.inj (toLex.injective hidentity)
  obtain ⟨hstart, hend⟩ := Prod.mk.inj (toLex.injective hoffsets)
  exact ⟨hfile, hrevision, hstart.ge, hend.le⟩

theorem Location.Spans.identity_eq (h : l.Spans d r) : l.identity = d.file.identity :=
  Prod.ext h.file h.revision

/-- The offsets of two locations of one document are in the order of the tokens. -/
theorem Location.Spans.offset_le_iff (hordered : d.tokens.Ordered) (hl : l.Spans d r)
    (hk : k.Spans d s) : (l.startOffset ≤ k.startOffset ↔ r.start ≤ s.start) ∧
      (l.endOffset ≤ k.endOffset ↔ r.stop ≤ s.stop) := by
  obtain ⟨hr, first, last, hfirst, hlast, hls, hle⟩ := TokenStream.byteRange_eq_some_iff.mp hl.bytes
  obtain ⟨hs, first', last', hfirst', hlast', hks, hke⟩ :=
    TokenStream.byteRange_eq_some_iff.mp hk.bytes
  rw [← hls, ← hle, ← hks, ← hke, (hordered.le_iff hfirst hfirst').1,
    (hordered.le_iff hlast hlast').2]
  omega

theorem identity_lt_of_lt
    (hsorted : docs.Pairwise fun d e => toLex d.file.identity < toLex e.file.identity)
    {i j : ℕ} (hd : docs[i]? = some d) (he : docs[j]? = some e) (hlt : i < j) :
    toLex d.file.identity < toLex e.file.identity := by
  obtain ⟨hi, rfl⟩ := List.getElem?_eq_some_iff.mp hd
  obtain ⟨hj, rfl⟩ := List.getElem?_eq_some_iff.mp he
  exact List.pairwise_iff_getElem.mp hsorted i j hi hj hlt

/-- A location comes before another one if the range that it spans does. -/
theorem Location.Spans.rank_lt
    (hsorted : docs.Pairwise fun d e => toLex d.file.identity < toLex e.file.identity)
    (hordered : ∀ d ∈ docs, d.tokens.Ordered) (hd : docs[r.stream]? = some d)
    (he : docs[s.stream]? = some e) (hl : l.Spans d r) (hk : k.Spans e s) (h : r.rank < s.rank) :
    l.rank < k.rank := by
  simp only [TokenRange.rank, Prod.Lex.toLex_lt_toLex] at h
  rw [Location.rank, Location.rank, hl.identity_eq, hk.identity_eq, Prod.Lex.toLex_lt_toLex]
  rcases h with hstream | ⟨hstream, hrange⟩
  · exact .inl (identity_lt_of_lt hsorted hd he hstream)
  · obtain rfl : d = e := Option.some.inj (hd.symm.trans (hstream ▸ he))
    have hle := hl.offset_le_iff (hordered d (List.mem_of_getElem? hd)) hk
    have hge := hk.offset_le_iff (hordered d (List.mem_of_getElem? hd)) hl
    refine .inr ⟨rfl, ?_⟩
    rw [Prod.Lex.toLex_lt_toLex]
    omega

/-- Locations of the same range are the same but for the text. -/
theorem Location.Spans.rank_eq (hd : docs[r.stream]? = some d) (he : docs[r.stream]? = some e)
    (hl : l.Spans d r) (hk : k.Spans e r) : l.rank = k.rank := by
  obtain rfl : d = e := Option.some.inj (hd.symm.trans he)
  obtain ⟨hstart, hend⟩ := Prod.mk.inj (Option.some.inj (hl.bytes.symm.trans hk.bytes))
  rw [Location.rank, Location.rank, hl.identity_eq, hk.identity_eq, hstart, hend]

end Spans

/-! ## Matches that are kept -/

theorem TokenRange.eq_of_within {r s : TokenRange} (h : r.Within s) (h' : s.Within r) : r = s := by
  obtain ⟨stream, start, stop⟩ := r
  obtain ⟨hstream, hstart, hstop⟩ := h
  obtain ⟨-, hstart', hstop'⟩ := h'
  rw [TokenRange.mk.injEq]
  exact ⟨hstream, le_antisymm hstart' hstart, le_antisymm hstop hstop'⟩

/-- Keys that start with those of two ranges are compared by the ranges first. -/
theorem TokenRange.key_append_le_iff {r s : TokenRange} {k k' : Key} :
    Key.le (r.key ++ k) (s.key ++ k') = true ↔ r.rank < s.rank ∨ r = s ∧ k.le k' = true := by
  rcases r with ⟨stream, start, stop⟩
  rcases s with ⟨stream', start', stop'⟩
  simp only [key, List.cons_append, List.nil_append, Key.le, Bool.or_eq_true, Bool.and_eq_true,
    decide_eq_true_eq, beq_iff_eq, rank, Prod.Lex.toLex_lt_toLex, mk.injEq, Int.ofNat_lt,
    Int.natCast_inj]
  tauto

namespace Oriented

variable {threshold : Float} {l : List Oriented} {m n : Oriented}

/-- No two kept matches have the same sides. -/
theorem pairwise_sides_ne (h : ∀ m ∈ l, m.HasTokens) : (suppress threshold l).Pairwise
    fun m n => ¬ (m.target = n.target ∧ m.source = n.source) := by
  refine pairwise_suppress_of (fun hne heq => hne ⟨heq.1.symm, heq.2.symm⟩) ?_ ?_
  · rintro m n hstreams ⟨ht, hs⟩
    exact hstreams (by rw [streamPair, streamPair, ht, hs])
  · rintro m hm n - - hsub ⟨ht, hs⟩
    have hself : m.isSubsumed threshold m = true := isSubsumed_self (h m hm)
    rw [isSubsumed, ht, hs] at hself
    rw [isSubsumed, ht, hs, hself] at hsub
    cases hsub

/-- Of two matches in the order of a report, the second has fewer tokens or a later side. -/
theorem rank_lt_of_reportKey_le (hle : m.reportKey.le n.reportKey = true) (hne : m ≠ n) :
    n.matched < m.matched ∨ n.matched = m.matched ∧ (m.target.rank < n.target.rank ∨
      m.target = n.target ∧ m.source.rank < n.source.rank) := by
  rw [reportKey, reportKey, ← List.append_nil m.source.key, ← List.append_nil n.source.key, Key.le,
    Bool.or_eq_true, Bool.and_eq_true, decide_eq_true_eq, beq_iff_eq, TokenRange.key_append_le_iff,
    TokenRange.key_append_le_iff] at hle
  rcases hle with hmatched | ⟨hmatched, htarget | ⟨htarget, hsource | ⟨hsource, -⟩⟩⟩
  · exact .inl (by omega)
  · exact .inr ⟨by omega, .inl htarget⟩
  · exact .inr ⟨by omega, .inr ⟨htarget, hsource⟩⟩
  · refine absurd ?_ hne
    rw [mk.injEq]
    exact ⟨htarget, hsource, by omega⟩

/-- Kept matches are listed in strictly increasing order. -/
theorem pairwise_reportKey (h : ∀ m ∈ l, m.HasTokens) : (suppress threshold l).Pairwise
    fun m n => m.reportKey.le n.reportKey = true ∧ m ≠ n :=
  (pairwise_mergeSort_key reportKey _).and (nodup_suppress h)

end Oriented

/-! ## Reported pairs -/

/-- The two locations of a pair are in different files and apart, and face the right way. -/
structure ClonePair.Placed (targetRevision : Option String) (p : ClonePair) : Prop where
  identity_ne : p.target.identity ≠ p.source.identity
  apart : p.target.file = p.source.file →
    p.target.endOffset ≤ p.source.startOffset ∨ p.source.endOffset ≤ p.target.startOffset
  faces : match targetRevision with
    | some r => p.target.revision = r ∧ p.source.revision ≠ r
    | none => toLex p.target.identity < toLex p.source.identity

/-- The bytes of two locations overlap. -/
def Location.Overlaps (l k : Location) : Prop :=
  l.startOffset < k.endOffset ∧ k.startOffset < l.endOffset

instance (l k : Location) : Decidable (l.Overlaps k) :=
  inferInstanceAs (Decidable (_ ∧ _))

/-- What is left out as one part of a file: overlapping bytes of files of one name. -/
theorem Resolve.isSelfPair_eq_ok {docs : Array Document} {m : Oriented} {p : ClonePair}
    (hp : p.Locates docs m) : isSelfPair docs m =
      .ok (decide (p.target.file = p.source.file ∧ p.target.Overlaps p.source)) := by
  obtain ⟨d, hd, ht⟩ := hp.target
  obtain ⟨e, he, hs⟩ := hp.source
  rw [isSelfPair, document_eq_ok_iff.mpr hd, document_eq_ok_iff.mpr he, ht.file, hs.file]
  by_cases hid : d.file.id = e.file.id
  · simp [hid, byteSpan_eq_ok_iff.mpr ht.bytes, byteSpan_eq_ok_iff.mpr hs.bytes, bind, Except.bind,
      pure, Except.pure, Location.Overlaps]
  · simp [hid, bind, Except.bind, pure, Except.pure]

namespace Detection

variable {settings : Settings} {files : List SourceFile} {outcome : Outcome}
  {docs : List Document} {matches_ : List Oriented} {intake : Intake}

namespace Reports

variable {m n : Oriented} {p q : ClonePair}

theorem hasTokens (h : Reports settings files outcome docs matches_) (hm : m ∈ matches_) :
    m.HasTokens := by
  obtain ⟨d, e, pairs, -, -, halign, -⟩ := h.aligned m hm
  exact ⟨halign.bounds.1, halign.symm.bounds.1⟩

/-- The pair of a match is in place. -/
theorem placed (h : Reports settings files outcome docs matches_)
    (hsorted : docs.Pairwise fun d e => toLex d.file.identity < toLex e.file.identity)
    (hapart : Resolve.isSelfPair docs.toArray m = .ok false) (hm : m ∈ matches_)
    (hp : p.Locates docs.toArray m) : p.Placed settings.targetRevision := by
  have hfaces := h.faces m hm
  have hdisjoint (hfile : p.target.file = p.source.file) : ¬ p.target.Overlaps p.source := by
    rw [Resolve.isSelfPair_eq_ok hp, Except.ok.injEq, decide_eq_false_iff_not] at hapart
    exact fun hoverlap => hapart ⟨hfile, hoverlap⟩
  obtain ⟨d, hd, ht⟩ := hp.target
  obtain ⟨e, he, hs⟩ := hp.source
  have hne : m.target.stream ≠ m.source.stream := fun heq =>
    hfaces.target_stream_ne hfaces hd heq heq.symm
  refine ⟨?_, fun hfile => ?_, ?_⟩
  · rw [ht.identity_eq, hs.identity_eq]
    rw [List.getElem?_toArray] at hd he
    exact fun heq => hne ((identity_eq_iff h.nodup hd he).mp heq)
  · have := hdisjoint hfile
    unfold Location.Overlaps at this
    omega
  · cases hr : settings.targetRevision with
    | some r =>
      rw [hr] at hfaces
      dsimp only
      rw [ht.revision, hs.revision]
      exact ⟨hfaces.1 d hd, hfaces.2 e he⟩
    | none =>
      rw [hr] at hfaces
      dsimp only
      rw [ht.identity_eq, hs.identity_eq]
      rw [List.getElem?_toArray] at hd he
      exact identity_lt_of_lt hsorted hd he hfaces

/-- Matches with different sides are located as different couples. -/
theorem not_sameCouple (h : Reports settings files outcome docs matches_) (hm : m ∈ matches_)
    (hn : n ∈ matches_) (hp : p.Locates docs.toArray m) (hq : q.Locates docs.toArray n)
    (hne : ¬ (m.target = n.target ∧ m.source = n.source)) : ¬ p.SameCouple q := by
  intro hsame
  have hpq : p.Within q := hsame.imp
    (fun h => ⟨Location.within_of_rank_eq h.1, Location.within_of_rank_eq h.2⟩)
    (fun h => ⟨Location.within_of_rank_eq h.1, Location.within_of_rank_eq h.2⟩)
  have hqp : q.Within p := hsame.imp
    (fun h => ⟨Location.within_of_rank_eq h.1.symm, Location.within_of_rank_eq h.2.symm⟩)
    (fun h => ⟨Location.within_of_rank_eq h.2.symm, Location.within_of_rank_eq h.1.symm⟩)
  have hmn := h.within hm hn hp hq hpq
  have hnm := h.within hn hm hq hp hqp
  exact hne ⟨TokenRange.eq_of_within hmn.1 hnm.1, TokenRange.eq_of_within hmn.2 hnm.2⟩

/-- The pairs of two matches in the order of a report are in order. -/
theorem rank_lt (h : Reports settings files outcome docs matches_)
    (hsorted : docs.Pairwise fun d e => toLex d.file.identity < toLex e.file.identity)
    (hp : p.Locates docs.toArray m) (hq : q.Locates docs.toArray n)
    (hle : m.reportKey.le n.reportKey = true) (hne : m ≠ n) : p.rank < q.rank := by
  obtain ⟨d, hd, hpt⟩ := hp.target
  obtain ⟨e, he, hps⟩ := hp.source
  obtain ⟨d', hd', hqt⟩ := hq.target
  obtain ⟨e', he', hqs⟩ := hq.source
  rw [List.getElem?_toArray] at hd he hd' he'
  rw [ClonePair.rank, ClonePair.rank, Prod.Lex.toLex_lt_toLex, hp.matched, hq.matched]
  rcases Oriented.rank_lt_of_reportKey_le hle hne with hmatched | ⟨hmatched, hsides⟩
  · exact .inl hmatched
  · refine .inr ⟨congrArg OrderDual.toDual hmatched.symm, ?_⟩
    rw [Prod.Lex.toLex_lt_toLex]
    rcases hsides with htarget | ⟨htarget, hsource⟩
    · exact .inl (hpt.rank_lt hsorted h.ordered hd hd' hqt htarget)
    · rw [htarget] at hd hpt
      exact .inr ⟨hpt.rank_eq hd hd' hqt, hps.rank_lt hsorted h.ordered he he' hqs hsource⟩

end Reports

/-- **The shape of a report.** The locations of each pair are in different files, apart, and the
target faces the right way; no two pairs are of the same two locations; and the pairs are in order,
those with the most tokens first. -/
theorem report_shape (h : detect settings files = .ok outcome) :
    (∀ p ∈ outcome.clonePairs, p.Placed settings.targetRevision) ∧
      (outcome.clonePairs.Pairwise fun p q => ¬ p.SameCouple q) ∧
      outcome.clonePairs.Pairwise fun p q => p.rank < q.rank := by
  obtain ⟨hvalid, hrequest, intake, hintake, hcompare⟩ := detect_eq_ok_iff.mp h
  obtain ⟨matches_, hreports, hapart⟩ := exists_reports_of_compare
    (Settings.validate_eq_ok_iff.mp hvalid).1 hrequest hintake hcompare
  have hsorted := pairwise_lt_documents hrequest hintake
  have htokens : ∀ m ∈ matches_, m.HasTokens := fun m => hreports.hasTokens
  have hmem : ∀ m ∈ Oriented.suppress settings.containment matches_, m ∈ matches_ :=
    fun m => Oriented.mem_of_mem_suppress
  refine ⟨fun p hp => ?_, ?_, ?_⟩
  · obtain ⟨m, hm, hlocates⟩ := exists_of_forall₂ hreports.located.flip hp
    exact hreports.placed hsorted (hapart m (hmem m hm)) (hmem m hm) hlocates
  · refine pairwise_of_forall₂ hreports.located (Oriented.pairwise_sides_ne htokens) ?_
    exact fun m hm n hn p q hne hp hq =>
      hreports.not_sameCouple (hmem m hm) (hmem n hn) hp hq hne
  · refine pairwise_of_forall₂ hreports.located (Oriented.pairwise_reportKey htokens) ?_
    exact fun m _ n _ p q hlt hp hq => hreports.rank_lt hsorted hp hq hlt.1 hlt.2

theorem report_shape_nested : ∃ outcome p q,
    detect nestedSettings (nestedDocuments.map (·.file)) = .ok outcome ∧
      outcome.clonePairs = [p, q] ∧ p.Placed none ∧ q.Placed none ∧ ¬ p.SameCouple q ∧
      p.rank < q.rank := by
  obtain ⟨outcome, p, q, h, hpairs, -, -⟩ := detect_nested
  obtain ⟨hplaced, hcouples, hranks⟩ := report_shape h
  rw [hpairs] at hplaced hcouples hranks
  exact ⟨outcome, p, q, h, hpairs, hplaced p (by simp), hplaced q (by simp),
    by simpa using hcouples, by simpa using hranks⟩

end Detection

end CloneDetection
