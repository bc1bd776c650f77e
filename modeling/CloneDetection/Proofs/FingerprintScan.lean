import CloneDetection.Proofs.Answers
import CloneDetection.Proofs.SortedLists
import CloneDetection.Proofs.Winnowing

/-!
# Scanning a table of fingerprints

Two runs that a query asks for select a fingerprint in the same place, so their places are in one
bucket, and growing these seeds gives back the runs. A collision of hashes brings further pairs into
a bucket, which are checked symbol by symbol.

* `answers_of_mem_scanBuckets`: whatever the table holds, only answers to the query are found.
* `mem_scanBuckets_of_answers`: all of them are found when the table drops no place.
-/

namespace CloneDetection

/-! ## Sums -/

theorem sumBy_map {α β : Type} (f : β → Nat) (g : α → β) (l : List α) :
    sumBy f (l.map g) = sumBy (fun x => f (g x)) l := by
  induction l with
  | nil => rfl
  | cons x l ih => simp [ih]

theorem sumBy_le_sumBy {α : Type} {f g : α → Nat} {l : List α} (h : ∀ x ∈ l, f x ≤ g x) :
    sumBy f l ≤ sumBy g l := by
  induction l with
  | nil => exact Nat.le_refl 0
  | cons x l ih =>
    have hx := h x List.mem_cons_self
    have := ih fun y hy => h y (List.mem_cons_of_mem x hy)
    simp only [sumBy_cons]
    omega

/-- Smaller terms with no smaller a sum are equal. -/
theorem eq_of_sumBy_le {α : Type} {f g : α → Nat} {l : List α} (h : ∀ x ∈ l, f x ≤ g x)
    (hsum : sumBy g l ≤ sumBy f l) : ∀ x ∈ l, f x = g x := by
  induction l with
  | nil => simp
  | cons x l ih =>
    have hx := h x List.mem_cons_self
    have hl : ∀ y ∈ l, f y ≤ g y := fun y hy => h y (List.mem_cons_of_mem x hy)
    have := sumBy_le_sumBy hl
    simp only [sumBy_cons] at hsum
    intro y hy
    rcases List.mem_cons.mp hy with rfl | hy
    · omega
    · exact ih hl (by omega) y hy

namespace Fingerprint

/-! ## Buckets -/

theorem one_le_runLength (minLength : Nat) : 1 ≤ runLength minLength := by
  simp only [runLength, maxLength]
  omega

/-- A run of `minLength` tokens holds exactly one full window. -/
theorem runLength_add_windowLength {minLength : Nat} (h : 1 ≤ minLength) :
    runLength minLength + windowLength minLength = minLength + 1 := by
  simp only [windowLength, runLength, maxLength]
  omega

theorem mem_places_iff {minLength : Nat} {streams : Array (Array Nat)} {hash : UInt64}
    {place : TokenRef} : (hash, place) ∈ places minLength streams ↔
      ∃ symbols, streams[place.stream]? = some symbols ∧ minLength ≤ symbols.size ∧
        (hash, place.pos) ∈
          fingerprints symbols.toList (runLength minLength) (windowLength minLength) := by
  simp only [places, List.mem_flatMap, Prod.exists, List.mk_mem_zipIdx_iff_getElem?,
    Array.getElem?_toList]
  constructor
  · rintro ⟨symbols, s, hs, h⟩
    split at h
    · cases h
    · rename_i hlen
      obtain ⟨⟨g, pos⟩, hg, he⟩ := List.mem_map.mp h
      simp only [Prod.mk.injEq] at he
      obtain ⟨rfl, rfl⟩ := he
      exact ⟨symbols, hs, Nat.le_of_not_lt hlen, hg⟩
  · rintro ⟨symbols, hs, hlen, h⟩
    refine ⟨symbols, place.stream, hs, ?_⟩
    rw [if_neg (Nat.not_lt.mpr hlen)]
    exact List.mem_map.mpr ⟨(hash, place.pos), h, rfl⟩

/-- Two places of one hash are in its bucket. -/
theorem exists_mem_group {entries : List (UInt64 × TokenRef)} {hash : UInt64} {x y : TokenRef}
    (hx : (hash, x) ∈ entries) (hy : (hash, y) ∈ entries) :
    ∃ refs, (hash, refs) ∈ group entries ∧ x ∈ refs ∧ y ∈ refs := by
  have hsorted : (entries.mergeSort fun e f => e.1 ≤ f.1).Pairwise fun e f => e.1 ≤ f.1 := by
    have := @List.pairwise_mergeSort _ (fun e f : UInt64 × TokenRef => decide (e.1 ≤ f.1))
      (fun a b c => by simpa using UInt64.le_trans) (fun a b => by simpa using UInt64.le_total _ _)
      entries
    simpa using this
  obtain ⟨chunk, hchunk, hxc, hyc⟩ := exists_mem_splitBy (fun h h' => UInt64.le_antisymm h h')
    hsorted (List.mem_mergeSort.mpr hx) (List.mem_mergeSort.mpr hy) rfl
  refine ⟨chunk.map (·.2), ?_, List.mem_map_of_mem hxc, List.mem_map_of_mem hyc⟩
  obtain ⟨e, rest, rfl⟩ := List.exists_cons_of_ne_nil (List.ne_nil_of_mem_splitBy hchunk)
  have he : e.1 = hash := key_eq_of_mem_splitBy hchunk List.mem_cons_self hxc
  exact List.mem_filterMap.mpr ⟨e :: rest, hchunk, by simp [he]⟩

theorem length_truncate_le {places : List TokenRef} {revisions : Array Nat} {limit : Nat}
    (h : 1 ≤ limit) : (truncate places revisions limit).length ≤ places.length := by
  rw [truncate]
  split
  · exact Nat.le_refl _
  · rw [if_neg (by omega), List.length_take]
    omega

/-- A bucket that keeps its length is not cut. -/
theorem truncate_eq_of_length {places : List TokenRef} {revisions : Array Nat} {limit : Nat}
    (h : 1 ≤ limit) (hlen : (truncate places revisions limit).length = places.length) :
    truncate places revisions limit = places := by
  rw [truncate] at hlen ⊢
  split at hlen
  · rw [if_pos ‹_›]
  · rw [if_neg (by omega), List.length_take] at hlen
    omega

/-- The buckets of a table are the full ones, cut down to the limit. -/
theorem mem_buckets_build_iff {streams : Array (Array Nat)} {revisions : Array Nat}
    {minLength limit : Nat} {hash : UInt64} {refs : List TokenRef} :
    (hash, refs) ∈ (Table.build streams revisions minLength limit).1.buckets ↔
      ∃ full, (hash, full) ∈ group (places minLength streams) ∧ 1 < full.length ∧
        refs = truncate full revisions limit := by
  simp only [Table.build, List.mem_map, List.mem_filter, decide_eq_true_eq, Prod.exists,
    Prod.mk.injEq]
  constructor
  · rintro ⟨hash', full, ⟨hmem, hlen⟩, rfl, rfl⟩
    exact ⟨full, hmem, hlen, rfl⟩
  · rintro ⟨full, hmem, hlen, rfl⟩
    exact ⟨hash, full, ⟨hmem, hlen⟩, rfl, rfl⟩

/-- A table without dropped places has every bucket of more than one place. -/
theorem mem_build_buckets {streams : Array (Array Nat)} {revisions : Array Nat}
    {minLength limit : Nat} (hlimit : 1 ≤ limit)
    (h : (Table.build streams revisions minLength limit).2 = 0)
    {bucket : UInt64 × List TokenRef} (hb : bucket ∈ group (places minLength streams))
    (hlen : 1 < bucket.2.length) :
    bucket ∈ (Table.build streams revisions minLength limit).1.buckets := by
  have hfull : bucket ∈ (group (places minLength streams)).filter
      fun bucket => 1 < bucket.2.length := by
    exact List.mem_filter.mpr ⟨hb, by simpa using hlen⟩
  simp only [Table.build, sumBy_map] at h
  have hkeep := eq_of_sumBy_le (fun e _ => length_truncate_le hlimit)
    (Nat.le_of_sub_eq_zero h) bucket hfull
  exact mem_buckets_build_iff.mpr ⟨bucket.2, hb, hlen, (truncate_eq_of_length hlimit hkeep).symm⟩

end Fingerprint

namespace Match

/-! ## Pairs of seeds -/

theorem mem_pairsOf_iff {α : Type} {l : List α} {x y : α} :
    (x, y) ∈ pairsOf l ↔ ∃ rest, x :: rest <:+ l ∧ y ∈ rest := by
  induction l with
  | nil => simp [pairsOf]
  | cons a l ih =>
    simp only [pairsOf, List.mem_append, List.mem_map, Prod.mk.injEq, ih,
      List.suffix_cons_iff, List.cons.injEq]
    constructor
    · rintro (⟨_, hy, rfl, rfl⟩ | ⟨rest, hs, hy⟩)
      · exact ⟨l, .inl ⟨rfl, rfl⟩, hy⟩
      · exact ⟨rest, .inr hs, hy⟩
    · rintro ⟨rest, ⟨rfl, rfl⟩ | hs, hy⟩
      · exact .inl ⟨y, hy, rfl, rfl⟩
      · exact .inr ⟨rest, hs, hy⟩

variable {index : TokenIndex} {query : Query}

theorem size_streamSymbols_of_le {s : Nat} (h : index.streamCount ≤ s) :
    (index.streamSymbols s).size = 0 := by
  rw [TokenIndex.streamSymbols, Array.getElem?_eq_none h]
  rfl

/-- Growing two seeds gives the answer that both lie in, and only that. -/
theorem candidateAround?_eq_some_iff {k : Nat} {x y : TokenRef} {c : Candidate} :
    candidateAround? index query k x y = some c ↔ ∃ i j n, 0 < k ∧ i ≤ x.pos ∧
      x.pos + k ≤ i + n ∧ x.pos + j = y.pos + i ∧
      Answers index query ⟨x.stream, i⟩ ⟨y.stream, j⟩ n ∧
      c = .exact ⟨x.stream, i⟩ ⟨y.stream, j⟩ n := by
  rw [candidateAround?]
  constructor
  · intro h
    split at h
    · rename_i hacc
      split at h
      · cases h
      · rename_i i j n hm
        split at h
        · cases h
        · rename_i hn
          obtain ⟨hk, hrun, hi, hle, hd⟩ := maximalMatch_eq_some_iff.mp hm
          have hx := hrun.run.left_le
          have hy := hrun.run.right_le
          -- a stream that is not there holds no seed
          have count {s : Nat} (hs : 0 < (index.streamSymbols s).size) :
              s < index.streamCount := by
            refine Nat.lt_of_not_le fun hge => ?_
            rw [size_streamSymbols_of_le hge] at hs
            exact Nat.lt_irrefl 0 hs
          have hsx : x.stream < index.streamCount := count (by omega)
          have hsy : y.stream < index.streamCount := count (by omega)
          exact ⟨i, j, n, hk, hi, hle, hd, ⟨hacc, Nat.le_of_not_lt hn, hsx, hsy, hrun⟩,
            (Option.some.inj h).symm⟩
    · cases h
  · rintro ⟨i, j, n, hk, hi, hle, hd, ha, rfl⟩
    have hm := maximalMatch_eq_some_iff.mpr ⟨hk, ha.run, hi, hle, hd⟩
    have hacc : accepts index query x y = true := ha.accepted
    have hlong := ha.long
    rw [if_pos hacc, hm]
    simp only
    rw [if_neg (by omega)]

/-- The candidates of a table are answers to the query. -/
theorem answers_of_mem_scanBuckets {table : Fingerprint.Table} {c : Candidate}
    (h : c ∈ scanBuckets index query table) :
    ∃ x y n, Answers index query x y n ∧ c = .exact x y n := by
  obtain ⟨bucket, -, hc⟩ := List.mem_flatMap.mp h
  obtain ⟨pair, -, hc⟩ := List.mem_filterMap.mp hc
  obtain ⟨i, j, n, -, -, -, -, ha, rfl⟩ := candidateAround?_eq_some_iff.mp hc
  exact ⟨_, _, n, ha, rfl⟩

/-- A table that drops no place has two seeds of an answer in one bucket. -/
theorem exists_bucket_of_answers {revisions : Array Nat} {limit : Nat}
    (hmin : 1 ≤ query.minLength) (hlimit : 1 ≤ limit)
    (hdrop : (Fingerprint.Table.build index.corpus.streams revisions query.minLength limit).2 = 0)
    {x y : TokenRef} {n : Nat} (h : Answers index query x y n) :
    ∃ d, d + Fingerprint.runLength query.minLength ≤ n ∧ ∃ bucket ∈ (Fingerprint.Table.build
      index.corpus.streams revisions query.minLength limit).1.buckets,
        ⟨x.stream, x.pos + d⟩ ∈ bucket.2 ∧ ⟨y.stream, y.pos + d⟩ ∈ bucket.2 := by
  have hlong := h.long
  have hkw := Fingerprint.runLength_add_windowLength hmin
  have ha := Array.getElem?_eq_getElem h.left
  have hb := Array.getElem?_eq_getElem h.right
  have hrun := h.run.run
  rw [TokenIndex.streamSymbols_eq ha, TokenIndex.streamSymbols_eq hb] at hrun
  have hx := hrun.left_le
  have hy := hrun.right_le
  obtain ⟨d, hash, hd, hfx, hfy⟩ := hrun.exists_fingerprint
    (Fingerprint.one_le_runLength query.minLength)
    (show 1 ≤ Fingerprint.windowLength query.minLength from Nat.le_add_left 1 _) (by omega)
  have hpx : (hash, ⟨x.stream, x.pos + d⟩) ∈
      Fingerprint.places query.minLength index.corpus.streams :=
    Fingerprint.mem_places_iff.mpr ⟨_, ha, by omega, hfx⟩
  have hpy : (hash, ⟨y.stream, y.pos + d⟩) ∈
      Fingerprint.places query.minLength index.corpus.streams :=
    Fingerprint.mem_places_iff.mpr ⟨_, hb, by omega, hfy⟩
  obtain ⟨refs, hrefs, hxr, hyr⟩ := Fingerprint.exists_mem_group hpx hpy
  have hlen : 1 < refs.length := by
    match refs with
    | [] => cases hxr
    | [r] =>
      have := (List.mem_singleton.mp hxr).trans (List.mem_singleton.mp hyr).symm
      exact absurd (TokenRef.mk.inj this).1 (accepts_iff.mp h.accepted).1
    | _ :: _ :: _ => simp
  exact ⟨d, hd, _, Fingerprint.mem_build_buckets hlimit hdrop hrefs hlen, hxr, hyr⟩

/-- Two seeds of an answer in one list grow back to it. -/
theorem mem_pairs_of_answers {places : List TokenRef} {k d n : Nat} {x y : TokenRef}
    (h : Answers index query x y n) (hk : 1 ≤ k) (hd : d + k ≤ n)
    (hx : ⟨x.stream, x.pos + d⟩ ∈ places) (hy : ⟨y.stream, y.pos + d⟩ ∈ places) :
    .exact x y n ∈ (pairsOf places).filterMap fun (x, y) => candidateAround? index query k x y := by
  have hst := (accepts_iff.mp h.accepted).1
  have grow {x y : TokenRef} (h : Answers index query x y n) {rest : List TokenRef}
      (hs : ⟨x.stream, x.pos + d⟩ :: rest <:+ places)
      (hmem : (⟨y.stream, y.pos + d⟩ : TokenRef) ∈ rest) : .exact x y n ∈
        (pairsOf places).filterMap fun (x, y) => candidateAround? index query k x y := by
    refine List.mem_filterMap.mpr ⟨_, mem_pairsOf_iff.mpr ⟨rest, hs, hmem⟩, ?_⟩
    refine candidateAround?_eq_some_iff.mpr ⟨x.pos, y.pos, n, hk, ?_, ?_, ?_, h, rfl⟩
    · exact Nat.le_add_right _ _
    · simp only
      omega
    · simp only
      omega
  have hne : (⟨x.stream, x.pos + d⟩ : TokenRef) ≠ ⟨y.stream, y.pos + d⟩ :=
    fun he => hst (TokenRef.mk.inj he).1
  rcases exists_suffix_of_mem hx hy hne with ⟨rest, hs, hmem⟩ | ⟨rest, hs, hmem⟩
  · exact grow h hs hmem
  · rw [Candidate.exact_comm hst]
    exact grow h.symm hs hmem

/-- Every answer is found in a table that drops no place. -/
theorem mem_scanBuckets_of_answers {revisions : Array Nat} {limit : Nat}
    (hmin : 1 ≤ query.minLength) (hlimit : 1 ≤ limit)
    (hdrop : (Fingerprint.Table.build index.corpus.streams revisions query.minLength limit).2 = 0)
    {x y : TokenRef} {n : Nat} (h : Answers index query x y n) :
    .exact x y n ∈ scanBuckets index query
      (Fingerprint.Table.build index.corpus.streams revisions query.minLength limit).1 := by
  obtain ⟨d, hd, bucket, hbucket, hx, hy⟩ := exists_bucket_of_answers hmin hlimit hdrop h
  refine List.mem_flatMap.mpr ⟨bucket, hbucket, ?_⟩
  exact mem_pairs_of_answers h (Fingerprint.one_le_runLength query.minLength) hd hx hy

end Match

end CloneDetection
