import CloneDetection.Proofs.Consistency
import CloneDetection.Proofs.Matching
import CloneDetection.Proofs.Truncation

/-!
# Searches with a limit

A limit on the places that are compared leaves out candidates, but never adds or changes one. In a
suffix array a larger limit lists the same neighbours first (`neighbours_prefix_neighbours`), and a
bucket of fingerprints keeps at least the places that it keeps under a smaller one
(`truncate_subset_truncate`). So with either strategy the candidates grow with the limit, and all of
them are maximal equal runs (`candidates_subset_of_le`).
-/

namespace CloneDetection.Match

/-- A query with another limit. -/
def Query.capped (query : Query) (limit : ℕ) : Query :=
  { query with maxBucket := limit }

variable {index : TokenIndex} {query : Query} {m m' : ℕ}

/-! ## Suffix arrays -/

/-- A larger limit lists the same neighbours first. -/
theorem neighbours_prefix_neighbours (minLength shared : ℕ) {limit limit' : ℕ}
    (hle : limit ≤ limit') (entries : List (ℕ × ℕ)) :
    neighbours minLength limit shared entries <+: neighbours minLength limit' shared entries := by
  induction entries generalizing limit limit' shared with
  | nil => cases limit <;> simp [neighbours]
  | cons e entries ih =>
    cases limit with
    | zero => simp [neighbours]
    | succ limit =>
      obtain ⟨limit', rfl⟩ := Nat.exists_eq_add_of_le' (show 1 ≤ limit' by omega)
      rw [neighbours, neighbours]
      split
      · exact List.prefix_rfl
      · rw [List.cons_prefix_cons]
        exact ⟨rfl, ih _ (by omega)⟩

theorem scanSuffixes_subset (hle : m ≤ m') (entries : List (ℕ × ℕ)) :
    (scanSuffixes index (query.capped m) [] 0 entries).1 ⊆
      (scanSuffixes index (query.capped m') [] 0 entries).1 := by
  intro c hc
  rw [mem_scanSuffixes_iff] at hc ⊢
  apply hc.imp_right
  rintro ⟨e, rest, hs, he, q, n, hq, hc⟩
  refine ⟨e, rest, hs, he, q, n, ?_, hc⟩
  have hfirst := neighbours_prefix_neighbours query.minLength index.symbols.size
    (show m + 1 ≤ m' + 1 by omega) rest
  exact ((hfirst.take m).trans (List.take_prefix_take_left hle)).subset hq

/-! ## Fingerprints -/

/-- More places in the buckets yield more candidates. -/
theorem scanBuckets_subset {table table' : Fingerprint.Table} (hk : 1 ≤ table.runLength)
    (hlength : table'.runLength = table.runLength)
    (h : ∀ bucket ∈ table.buckets, ∃ bucket' ∈ table'.buckets, bucket.2 ⊆ bucket'.2) :
    scanBuckets index query table ⊆ scanBuckets index query table' := by
  intro c hc
  obtain ⟨bucket, hbucket, hc⟩ := List.mem_flatMap.mp hc
  obtain ⟨⟨x, y⟩, hpair, hc⟩ := List.mem_filterMap.mp hc
  obtain ⟨bucket', hbucket', hsub⟩ := h bucket hbucket
  obtain ⟨rest, hs, hy⟩ := mem_pairsOf_iff.mp hpair
  obtain ⟨i, j, n, -, hi, hn, hd, ha, rfl⟩ := candidateAround?_eq_some_iff.mp hc
  have hx : x ∈ bucket'.2 := hsub (hs.mem List.mem_cons_self)
  have hy : y ∈ bucket'.2 := hsub (hs.mem (List.mem_cons_of_mem x hy))
  apply List.mem_flatMap.mpr
  refine ⟨bucket', hbucket', ?_⟩
  -- the places are where they were, at the same distance from the start of the run
  rw [hlength]
  apply mem_pairs_of_answers (d := x.pos - i) ha hk (by omega)
  · rwa [show i + (x.pos - i) = x.pos by omega]
  · rwa [show j + (x.pos - i) = y.pos by omega]

/-- What a table yields depends on the symbols and revisions of the streams only. -/
theorem scanBuckets_congr {index' : TokenIndex} (hcorpus : index'.corpus = index.corpus)
    (hrevisions : index'.revisions = index.revisions) (table : Fingerprint.Table) :
    scanBuckets index' (query.capped m') table = scanBuckets index (query.capped m) table := by
  have haccepts : accepts index' (query.capped m') = accepts index (query.capped m) := by
    funext x y
    unfold accepts TokenIndex.revision
    rw [hrevisions]
    rfl
  have hsymbols : index'.streamSymbols = index.streamSymbols := by
    funext s
    unfold TokenIndex.streamSymbols
    rw [hcorpus]
  unfold scanBuckets candidateAround?
  rw [haccepts, hsymbols]
  rfl

/-! ## Both -/

variable {streams : List TokenStream} {revisions : List ℕ} {strategy : Strategy}

theorem scan_subset_of_le {minLength : ℕ} {index' : TokenIndex}
    (hb : TokenIndex.build streams revisions strategy minLength m = .ok index)
    (hb' : TokenIndex.build streams revisions strategy minLength m' = .ok index') (hm : 1 ≤ m)
    (hle : m ≤ m') : (scan index (query.capped m)).1 ⊆ (scan index' (query.capped m')).1 := by
  obtain ⟨h, -, hlookup⟩ := TokenIndex.build_eq_ok_iff.mp hb
  obtain ⟨h', -, hlookup'⟩ := TokenIndex.build_eq_ok_iff.mp hb'
  cases strategy with
  | suffixArray =>
    obtain rfl : index = index' := Except.ok.inj (hb.symm.trans hb')
    simp only [scan, hlookup.2]
    exact scanSuffixes_subset hle _
  | winnowing =>
    have hcorpus : index'.corpus = index.corpus := h'.corpus_eq.trans h.corpus_eq.symm
    have hrevisions : index'.revisions = index.revisions :=
      h'.revisions_eq.trans h.revisions_eq.symm
    simp only [scan, hlookup.1, hlookup'.1]
    rw [scanBuckets_congr (m := m) hcorpus hrevisions, hcorpus, hrevisions]
    apply scanBuckets_subset
    · exact Fingerprint.one_le_runLength minLength
    · rfl
    · rintro ⟨hash, refs⟩ hmem
      obtain ⟨full, hfull, hlen, rfl⟩ := Fingerprint.mem_buckets_build_iff.mp hmem
      exact ⟨_, Fingerprint.mem_buckets_build_iff.mpr ⟨full, hfull, hlen, rfl⟩,
        Fingerprint.truncate_subset_truncate hm hle⟩

theorem mem_candidates_find_iff (hgap : query.maxGap = 0) {c : Candidate} :
    c ∈ (find index (query.capped m)).candidates ↔ c ∈ (scan index (query.capped m)).1 := by
  have hgap' : (query.capped m).maxGap = 0 := hgap
  rw [candidates_find_of_maxGap_eq_zero hgap', mem_eraseReps, Candidate.mem_sort]

theorem isMatch_of_mem_candidates {minLength limit : ℕ} {c : Candidate}
    (hb : TokenIndex.build streams revisions strategy minLength limit = .ok index)
    (hgap : query.maxGap = 0) (hc : c ∈ (find index (query.capped m)).candidates) :
    IsMatch streams revisions query c := by
  have hmatch := isMatch_of_mem_scan hb ((mem_candidates_find_iff hgap).mp hc)
  exact hmatch

/-- Without gaps, the candidates found under a limit are among those found under a larger one, and
all are maximal equal runs that the query asks for, whether places were left out or not. -/
theorem candidates_subset_of_le
    (hb : TokenIndex.build streams revisions strategy query.minLength m = .ok index)
    (hgap : query.maxGap = 0) (hm : 1 ≤ m) (hle : m ≤ m') :
    ∃ index', TokenIndex.build streams revisions strategy query.minLength m' = .ok index' ∧
      (find index (query.capped m)).candidates ⊆ (find index' (query.capped m')).candidates ∧
      (∀ c ∈ (find index (query.capped m)).candidates, IsMatch streams revisions query c) ∧
      ∀ c ∈ (find index' (query.capped m')).candidates, IsMatch streams revisions query c := by
  obtain ⟨h, hsize, -⟩ := TokenIndex.build_eq_ok_iff.mp hb
  obtain ⟨index', hb'⟩ :=
    TokenIndex.exists_build_eq_ok strategy query.minLength m' h.length_eq hsize
  refine ⟨index', hb', ?_, ?_, ?_⟩
  · intro c hc
    rw [mem_candidates_find_iff hgap] at hc ⊢
    exact scan_subset_of_le hb hb' hm hle hc
  · exact fun c hc => isMatch_of_mem_candidates hb hgap hc
  · exact fun c hc => isMatch_of_mem_candidates hb' hgap hc

theorem candidates_subset_repeating : ∃ index index',
    TokenIndex.build repeating [0, 1] .suffixArray 2 1 = .ok index ∧
      TokenIndex.build repeating [0, 1] .suffixArray 2 4 = .ok index' ∧
      (find index ⟨2, 0, 1, true⟩).truncated = 2 ∧
      (find index ⟨2, 0, 1, true⟩).candidates ⊆ (find index' ⟨2, 0, 4, true⟩).candidates := by
  have hgap : (⟨2, 0, 1, true⟩ : Query).maxGap = 0 := rfl
  have hb := build_repeating 2 1
  obtain ⟨index', hb', hsub, -⟩ := candidates_subset_of_le hb hgap (show 1 ≤ 1 by decide)
    (show 1 ≤ 4 by decide)
  refine ⟨_, index', hb, hb', ?_, hsub⟩
  rw [truncated_find]
  cbv

end CloneDetection.Match
