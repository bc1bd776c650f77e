import CloneDetection.Proofs.FingerprintScan
import CloneDetection.Proofs.SuffixScan
import Mathlib

/-!
# The matches of an index

With either strategy the scan of an index finds matches of the streams only
(`isMatch_of_mem_scan`), and all of them when nothing is left out because of the limit
(`mem_scan_iff`). The candidates of a search are those of the scan in strictly increasing order, so
they are determined by the streams (`mem_candidates_iff_isMatch`), and the strategy does not matter
(`find_eq_of_truncated_eq_zero`).
-/

namespace CloneDetection

/-! ## Sorted candidates -/

theorem Key.lt_of_le_of_ne {k l : Key} (h : Key.le k l) (hne : k ≠ l) : k < l := by
  induction k generalizing l with
  | nil =>
    cases l with
    | nil => contradiction
    | cons b l => exact List.nil_lt_cons b l
  | cons a k ih =>
    cases l with
    | nil => simp [Key.le] at h
    | cons b l =>
      simp only [Key.le, Bool.or_eq_true, Bool.and_eq_true, decide_eq_true_eq, beq_iff_eq] at h
      rw [List.cons_lt_cons_iff]
      rcases h with h | ⟨rfl, h⟩
      · exact .inl h
      · exact .inr ⟨rfl, ih h fun e => hne (by rw [e])⟩

namespace Candidate

theorem pairwise_sort (l : List Candidate) :
    (sort l).Pairwise fun c d => c.key.le d.key = true :=
  pairwise_mergeSort_key key l

theorem mem_sort {l : List Candidate} {c : Candidate} : c ∈ sort l ↔ c ∈ l :=
  List.mem_mergeSort

/-- Sorted candidates without repetitions are in strictly increasing order. -/
theorem pairwise_eraseReps_sort (l : List Candidate) :
    (sort l).eraseReps.Pairwise fun c d => c.key < d.key := by
  have antisymm {c d : Candidate} (h : c.key.le d.key = true) (h' : d.key.le c.key = true) :
      c = d := key_injective (Key.le_antisymm h h')
  refine (pairwise_eraseReps antisymm (pairwise_sort l)).imp fun {c d} h => ?_
  exact Key.lt_of_le_of_ne h.1 fun e => h.2 (key_injective e)

/-- The sorted candidates depend on which candidates there are only. -/
theorem eraseReps_sort_congr {l m : List Candidate} (h : ∀ c, c ∈ l ↔ c ∈ m) :
    (sort l).eraseReps = (sort m).eraseReps := by
  have hl := pairwise_eraseReps_sort l
  have hm := pairwise_eraseReps_sort m
  have nodup {l : List Candidate} (hl : l.Pairwise fun c d => c.key < d.key) : l.Nodup := by
    refine hl.imp fun {c d} h => ?_
    rintro rfl
    exact List.lt_irrefl c.key h
  refine List.Perm.eq_of_pairwise (fun c d _ _ h h' => ?_) hl hm ?_
  · exact absurd h (List.lt_asymm h')
  · rw [List.perm_ext_iff_of_nodup (nodup hl) (nodup hm)]
    intro c
    rw [mem_eraseReps, mem_eraseReps, mem_sort, mem_sort, h c]

end Candidate

namespace Match

variable {streams : List TokenStream} {revisions : List Nat} {strategy : Strategy}
  {minLength maxBucket : Nat} {index : TokenIndex} {query : Query} {c : Candidate}

/-! ## The scan -/

/-- The scan of an index finds matches of its streams only. -/
theorem isMatch_of_mem_scan
    (hb : TokenIndex.build streams revisions strategy minLength maxBucket = .ok index)
    (hc : c ∈ (scan index query).1) : IsMatch streams revisions query c := by
  obtain ⟨h, -, hlookup⟩ := TokenIndex.build_eq_ok_iff.mp hb
  rw [← exists_answers_iff h]
  cases strategy with
  | suffixArray =>
    simp only [scan, hlookup.2] at hc
    refine answers_of_mem_scanSuffixes h ?_ (fun e he => ?_) hc
    · rw [h.symbols_eq]
      exact SuffixArray.build_isChain h.proper.lt_alphabet
    · rw [h.symbols_eq]
      exact SuffixArray.lt_size_of_mem_build h.proper.lt_alphabet he
  | winnowing =>
    simp only [scan, hlookup.1] at hc
    exact answers_of_mem_scanBuckets hc

/-- The scan finds every match unless something is left out because of the limit. -/
theorem mem_scan_iff
    (hb : TokenIndex.build streams revisions strategy query.minLength query.maxBucket = .ok index)
    (hmin : 1 ≤ query.minLength) (hbucket : strategy = .winnowing → 1 ≤ query.maxBucket)
    (ht : (scan index query).2 = 0) :
    c ∈ (scan index query).1 ↔ IsMatch streams revisions query c := by
  refine ⟨isMatch_of_mem_scan hb, fun hm => ?_⟩
  obtain ⟨h, -, hlookup⟩ := TokenIndex.build_eq_ok_iff.mp hb
  obtain ⟨x, y, n, ha, rfl⟩ := (exists_answers_iff h).mpr hm
  cases strategy with
  | suffixArray =>
    simp only [scan, hlookup.2] at ht ⊢
    refine mem_scanSuffixes_of_answers h ?_ (fun p hp => ?_) ht hmin ha
    · rw [h.symbols_eq]
      exact SuffixArray.build_isChain h.proper.lt_alphabet
    · rw [h.symbols_eq] at hp
      exact SuffixArray.exists_mem_build h.proper.lt_alphabet hp
  | winnowing =>
    simp only [scan, hlookup.1, hlookup.2] at ht ⊢
    exact mem_scanBuckets_of_answers hmin (hbucket rfl) ht ha

/-! ## The search -/

theorem truncated_find (index : TokenIndex) (query : Query) :
    (find index query).truncated = (scan index query).2 := by
  simp only [find]
  split <;> rfl

/-- A limit of at least the number of positions leaves nothing out of a suffix array. -/
theorem truncated_eq_zero_of_le
    (hb : TokenIndex.build streams revisions .suffixArray minLength maxBucket = .ok index)
    (h : sumBy (·.size + 1) streams ≤ query.maxBucket) : (find index query).truncated = 0 := by
  obtain ⟨hi, -, -, hlookup⟩ := TokenIndex.build_eq_ok_iff.mp hb
  have hsize : index.corpus.symbols.size ≤ query.maxBucket := by
    rwa [hi.corpus_eq, Corpus.size_symbols_ofStreams]
  have hsuffixes := (SuffixArray.sortSuffixes_spec hi.proper.lt_alphabet).1.length_eq
  rw [List.length_range] at hsuffixes
  rw [truncated_find, scan, hlookup]
  refine scanSuffixes_of_length_le ?_
  rw [List.length_zip]
  exact (Nat.min_le_left _ _).trans (hsuffixes.le.trans hsize)

theorem candidates_find_of_maxGap_eq_zero (h : query.maxGap = 0) :
    (find index query).candidates = (Candidate.sort (scan index query).1).eraseReps := by
  simp [find, h]

/-- A search depends on which candidates the scan finds only. -/
theorem find_congr {other : TokenIndex}
    (h : ∀ c, c ∈ (scan index query).1 ↔ c ∈ (scan other query).1)
    (ht : (scan index query).2 = (scan other query).2) : find index query = find other query := by
  simp only [find, Candidate.eraseReps_sort_congr h, ht]

/-- Without gaps, the candidates of a search that leaves nothing out are the matches. -/
theorem mem_candidates_iff (hmin : 1 ≤ query.minLength)
    (hb : TokenIndex.build streams revisions strategy query.minLength query.maxBucket = .ok index)
    (hbucket : strategy = .winnowing → 1 ≤ query.maxBucket)
    (hgap : query.maxGap = 0) (ht : (find index query).truncated = 0) :
    c ∈ (find index query).candidates ↔ IsMatch streams revisions query c := by
  rw [truncated_find] at ht
  rw [candidates_find_of_maxGap_eq_zero hgap, mem_eraseReps, Candidate.mem_sort]
  exact mem_scan_iff hb hmin hbucket ht

/-- Without gaps, a search over a suffix array that leaves nothing out finds exactly the maximal
equal runs that the query asks for, in strictly increasing order. -/
theorem mem_candidates_iff_isMatch (hmin : 1 ≤ query.minLength) (hgap : query.maxGap = 0)
    (hb : TokenIndex.build streams revisions .suffixArray query.minLength query.maxBucket =
      .ok index)
    (ht : (find index query).truncated = 0) :
    (∀ c, c ∈ (find index query).candidates ↔ IsMatch streams revisions query c) ∧
      (find index query).candidates.Pairwise fun c d => c.key < d.key := by
  refine ⟨fun c => mem_candidates_iff hmin hb nofun hgap ht, ?_⟩
  rw [candidates_find_of_maxGap_eq_zero hgap]
  exact Candidate.pairwise_eraseReps_sort _

/-- Two streams that share a run twice, around a token that differs. -/
def repeating : List TokenStream :=
  [#[("a", 0), ("b", 2), ("x", 4), ("a", 6), ("b", 8)],
    #[("a", 0), ("b", 2), ("y", 4), ("a", 6), ("b", 8)]].map fun tokens =>
      tokens.map fun (text, start) => ⟨.identifier, text, start, start + 1⟩

/-- An index of `repeating`, the streams in different revisions. -/
def repeatingIndex (lookup : Lookup) : TokenIndex :=
  let corpus : Corpus := ⟨#[#[0, 1, 2, 0, 1], #[0, 1, 3, 0, 1]], 4⟩
  ⟨corpus, corpus.symbols, corpus.refs, #[0, 1], lookup, 0⟩

/-- The suffix array of the symbols of `repeating`. -/
def repeatingArray : Lookup :=
  .suffixArray (SuffixArray.build #[0, 1, 2, 0, 1, 4, 0, 1, 3, 0, 1, 5] 6)

theorem holds_repeatingIndex (lookup : Lookup) :
    (repeatingIndex lookup).Holds repeating [0, 1] := by
  refine ⟨rfl, ?_, rfl, rfl, rfl⟩
  simp [repeatingIndex, repeating, Corpus.ofStreams, Vocabulary.internAll, Vocabulary.intern,
    Vocabulary.add, Std.HashMap.getElem_insert, Std.HashMap.size_insert]

theorem build_repeating (minLength maxBucket : Nat) :
    TokenIndex.build repeating [0, 1] .suffixArray minLength maxBucket =
      .ok (repeatingIndex repeatingArray) :=
  TokenIndex.build_eq_ok_iff.mpr ⟨holds_repeatingIndex _, by decide +kernel, rfl, rfl⟩

theorem truncated_repeating (maxGap : Nat) :
    (find (repeatingIndex repeatingArray) ⟨2, maxGap, 4, true⟩).truncated = 0 := by
  rw [truncated_find]
  cbv

theorem mem_candidates_repeating : ∃ index,
    TokenIndex.build repeating [0, 1] .suffixArray 2 4 = .ok index ∧
      (find index ⟨2, 0, 4, true⟩).truncated = 0 ∧
      ⟨⟨0, 0, 2⟩, ⟨1, 3, 5⟩, 2⟩ ∈ (find index ⟨2, 0, 4, true⟩).candidates := by
  have hc : IsMatch repeating [0, 1] ⟨2, 0, 4, true⟩ ⟨⟨0, 0, 2⟩, ⟨1, 3, 5⟩, 2⟩ := by
    refine ⟨0, 1, 0, 3, 2, _, _, rfl, rfl, by decide, by decide, by decide, ⟨?_, ?_, ?_⟩, rfl⟩
    · exact ⟨by decide +kernel, by decide +kernel, by decide +kernel⟩
    · decide +kernel
    · decide +kernel
  have hb := build_repeating 2 4
  have ht := truncated_repeating 0
  exact ⟨_, hb, ht, ((mem_candidates_iff_isMatch (by decide) rfl hb ht).1 _).mpr hc⟩

/-- Two searches that leave nothing out have the same result with either strategy, and no match is
missed. -/
theorem find_eq_of_truncated_eq_zero {array table : TokenIndex} (hmin : 1 ≤ query.minLength)
    (hbucket : 1 ≤ query.maxBucket)
    (ha : TokenIndex.build streams revisions .suffixArray query.minLength query.maxBucket =
      .ok array)
    (hf : TokenIndex.build streams revisions .winnowing query.minLength query.maxBucket =
      .ok table)
    (hta : (find array query).truncated = 0) (htf : (find table query).truncated = 0) :
    find array query = find table query ∧
      ∀ c, IsMatch streams revisions query c → c ∈ (scan table query).1 := by
  rw [truncated_find] at hta htf
  have hsa (c : Candidate) := mem_scan_iff (c := c) ha hmin nofun hta
  have hsf (c : Candidate) := mem_scan_iff (c := c) hf hmin (fun _ => hbucket) htf
  exact ⟨find_congr (fun c => (hsa c).trans (hsf c).symm) (hta.trans htf.symm),
    fun c hc => (hsf c).mpr hc⟩

theorem find_eq_repeating : ∃ array table,
    TokenIndex.build repeating [0, 1] .suffixArray 2 4 = .ok array ∧
      TokenIndex.build repeating [0, 1] .winnowing 2 4 = .ok table ∧
      (find array ⟨2, 1, 4, true⟩).truncated = 0 ∧ (find table ⟨2, 1, 4, true⟩).truncated = 0 ∧
      find array ⟨2, 1, 4, true⟩ = find table ⟨2, 1, 4, true⟩ := by
  have hf : TokenIndex.build repeating [0, 1] .winnowing 2 4 = .ok (repeatingIndex (.fingerprints
      (Fingerprint.Table.build #[#[0, 1, 2, 0, 1], #[0, 1, 3, 0, 1]] #[0, 1] 2 4).1)) :=
    TokenIndex.build_eq_ok_iff.mpr ⟨holds_repeatingIndex _, by decide +kernel, rfl, by cbv⟩
  have ha := build_repeating 2 4
  have ht := truncated_repeating 1
  exact ⟨_, _, ha, hf, ht, truncated_find _ _, (find_eq_of_truncated_eq_zero (by decide) (by decide)
    ha hf ht (truncated_find _ _)).1⟩

end Match

end CloneDetection
