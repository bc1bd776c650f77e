import CloneDetection.Proofs.Answers
import CloneDetection.Proofs.CommonPrefixes
import CloneDetection.Proofs.SortedLists

/-!
# Scanning a suffix array

The entries of a suffix array ascend: each suffix comes before the next, with the number of letters
shared beside the latter. From any entry on, the least of these numbers is what its suffix shares
with the one reached, so `neighbours` lists the suffixes after it that share enough letters
(`below_of_mem_neighbours`, `mem_neighbours`).

* `answers_of_mem_scanSuffixes`: whatever the limit, only answers to the query are found.
* `mem_scanSuffixes_of_answers`: all of them are found when no suffix exceeds the limit.
-/

namespace CloneDetection.Match

open SuffixArray

/-- Each suffix comes before the next one, which has the number of shared letters beside it. -/
def Ascending (text : Array Nat) (entries : List (Nat × Nat)) : Prop :=
  entries.IsChain fun e f => Below text e.1 f.1 f.2

section Neighbours

variable {text : Array Nat} {e f : Nat × Nat} {rest : List (Nat × Nat)}
  {minLength limit shared p q x n : Nat}

theorem Ascending.head (h : Ascending text (e :: f :: rest)) : Below text e.1 f.1 f.2 :=
  (List.isChain_cons_cons.mp h).1

theorem Ascending.tail (h : Ascending text (e :: rest)) : Ascending text rest :=
  List.isChain_of_isChain_cons h

/-- The first suffix comes before all later ones. -/
theorem Ascending.exists_below (h : Ascending text (e :: rest)) (hf : f ∈ rest) :
    ∃ n, Below text e.1 f.1 n := by
  induction rest generalizing e with
  | nil => simp at hf
  | cons g rest ih =>
    rcases List.mem_cons.mp hf with rfl | hf
    · exact ⟨_, h.head⟩
    · obtain ⟨n, hn⟩ := ih h.tail hf
      exact ⟨_, h.head.trans hn⟩

/-- A neighbour listed shares with `p` the length beside it. -/
theorem below_of_mem_neighbours (h : Ascending text (e :: rest))
    (hp : ∀ q n, Below text e.1 q n → Below text p q (min shared n))
    (hq : (q, n) ∈ neighbours minLength limit shared rest) :
    Below text p q n ∧ minLength ≤ n ∧ q ∈ rest.map Prod.fst := by
  induction rest generalizing e limit shared with
  | nil => cases limit <;> simp [neighbours] at hq
  | cons f rest ih =>
    obtain ⟨r, l⟩ := f
    cases limit with
    | zero => simp [neighbours] at hq
    | succ limit =>
      rw [neighbours] at hq
      split at hq
      · simp at hq
      · rename_i hlong
        have hf : Below text p r (min shared l) := hp r l h.head
        rcases List.mem_cons.mp hq with he | hq
        · obtain ⟨rfl, rfl⟩ := Prod.mk.inj he
          exact ⟨hf, by omega, by simp⟩
        · obtain ⟨hb, hn, hr⟩ := ih h.tail (fun q n => hf.trans) hq
          exact ⟨hb, hn, by simp [hr]⟩

/-- Within the limit, every later suffix that shares enough with `p` is listed. -/
theorem mem_neighbours (h : Ascending text (e :: rest))
    (hp : ∀ q n, Below text e.1 q n → Below text p q (min shared n))
    (hlimit : (neighbours minLength limit shared rest).length < limit)
    (hq : (q, x) ∈ rest) (hb : Below text p q n) (hn : minLength ≤ n) :
    (q, n) ∈ neighbours minLength limit shared rest := by
  induction rest generalizing e limit shared with
  | nil => simp at hq
  | cons f rest ih =>
    obtain ⟨r, l⟩ := f
    cases limit with
    | zero => omega
    | succ limit =>
      have hf : Below text p r (min shared l) := hp r l h.head
      rw [neighbours] at hlimit ⊢
      by_cases hshort : min shared l < minLength
      · -- a suffix after one that shares too little shares too little
        exfalso
        rcases List.mem_cons.mp hq with he | hq
        · obtain ⟨rfl, rfl⟩ := Prod.mk.inj he
          have := hb.unique hf
          omega
        · obtain ⟨k, hk⟩ := h.tail.exists_below hq
          have := hb.unique (hf.trans hk)
          omega
      · rw [if_neg hshort] at hlimit ⊢
        rcases List.mem_cons.mp hq with he | hq
        · obtain ⟨rfl, rfl⟩ := Prod.mk.inj he
          rw [hb.unique hf]
          exact List.mem_cons_self
        · rw [List.length_cons] at hlimit
          exact List.mem_cons_of_mem _
            (ih h.tail (fun q n => hf.trans) (by omega) hq)

end Neighbours

/-! ## The scan -/

section Scan

variable {index : TokenIndex} {query : Query} {found : List Candidate} {capped : Nat}
  {entries : List (Nat × Nat)} {c : Candidate}

/-- The scan adds the candidates of each suffix with its neighbours, up to the limit. -/
theorem mem_scanSuffixes_iff :
    c ∈ (scanSuffixes index query found capped entries).1 ↔ c ∈ found ∨
      ∃ e rest, e :: rest <:+ entries ∧ index.isSentinel e.1 = false ∧
        ∃ q n, (q, n) ∈ (neighbours query.minLength (query.maxBucket + 1) index.symbols.size
          rest).take query.maxBucket ∧ candidateAt? index query e.1 q n = some c := by
  induction entries generalizing found capped with
  | nil => simp [scanSuffixes]
  | cons f entries ih =>
    obtain ⟨p, l⟩ := f
    simp only [List.suffix_cons_iff, List.cons.injEq]
    rw [scanSuffixes]
    by_cases hp : index.isSentinel p = true
    · rw [if_pos hp, ih]
      refine or_congr_right ⟨?_, ?_⟩
      · rintro ⟨e, rest, hs, h⟩
        exact ⟨e, rest, .inr hs, h⟩
      · rintro ⟨e, rest, ⟨rfl, rfl⟩ | hs, he, h⟩
        · simp [hp] at he
        · exact ⟨e, rest, hs, he, h⟩
    · rw [if_neg hp, ih, List.mem_append, List.mem_filterMap]
      constructor
      · rintro ((⟨⟨q, n⟩, hq, hc⟩ | hfound) | ⟨e, rest, hs, h⟩)
        · exact .inr ⟨(p, l), entries, .inl ⟨rfl, rfl⟩, by simpa using hp, q, n, hq, hc⟩
        · exact .inl hfound
        · exact .inr ⟨e, rest, .inr hs, h⟩
      · rintro (hfound | ⟨e, rest, ⟨rfl, rfl⟩ | hs, he, q, n, hq, hc⟩)
        · exact .inl (.inr hfound)
        · exact .inl (.inl ⟨(q, n), hq, hc⟩)
        · exact .inr ⟨e, rest, hs, he, q, n, hq, hc⟩

/-- A scan that counts no excess met no suffix with more neighbours than the limit. -/
theorem length_neighbours_le (h : (scanSuffixes index query found capped entries).2 = 0)
    {e : Nat × Nat} {rest : List (Nat × Nat)} (hs : e :: rest <:+ entries)
    (he : index.isSentinel e.1 = false) :
    (neighbours query.minLength (query.maxBucket + 1) index.symbols.size rest).length ≤
      query.maxBucket := by
  have mono : ∀ (entries : List (Nat × Nat)) (found : List Candidate) (capped : Nat),
      capped ≤ (scanSuffixes index query found capped entries).2 := by
    intro entries
    induction entries with
    | nil => simp [scanSuffixes]
    | cons f entries ih =>
      intro found capped
      rw [scanSuffixes]
      split
      · exact ih _ _
      · exact Nat.le_trans (Nat.le_add_right _ _) (ih _ _)
  induction entries generalizing found capped with
  | nil => simp at hs
  | cons f entries ih =>
    obtain ⟨p, l⟩ := f
    rw [scanSuffixes] at h
    rw [List.suffix_cons_iff, List.cons.injEq] at hs
    rcases hs with ⟨rfl, rfl⟩ | hs
    · rw [if_neg (by simp [he])] at h
      refine Nat.le_of_not_lt fun hlt => ?_
      simp only [if_pos hlt] at h
      have := mono rest _ (capped + 1) |>.trans_eq h
      omega
    · split at h
      · exact ih h hs
      · exact ih h hs

theorem length_neighbours_le_length (minLength limit shared : Nat) (l : List (Nat × Nat)) :
    (neighbours minLength limit shared l).length ≤ l.length := by
  induction l generalizing limit shared with
  | nil => cases limit <;> simp [neighbours]
  | cons e l ih =>
    cases limit with
    | zero => simp [neighbours]
    | succ limit =>
      rw [neighbours]
      split
      · simp
      · simpa using ih limit _

/-- A scan of no more suffixes than the limit counts no excess. -/
theorem scanSuffixes_of_length_le (h : entries.length ≤ query.maxBucket) :
    (scanSuffixes index query found capped entries).2 = capped := by
  induction entries generalizing found capped with
  | nil => rfl
  | cons e entries ih =>
    rw [List.length_cons] at h
    have hnear := length_neighbours_le_length query.minLength (query.maxBucket + 1)
      index.symbols.size entries
    rw [scanSuffixes]
    split
    · exact ih (by omega)
    · rw [ih (by omega), if_neg (by omega), Nat.add_zero]

end Scan

/-! ## Answers -/

section Answers

variable {index : TokenIndex} {query : Query} {streams : List TokenStream} {revisions : List Nat}
  {s t i j n : Nat} {a b : Array Nat}

theorem extendsLeft_position_iff (hi : index.Holds streams revisions)
    (ha : index.corpus.streams[s]? = some a) (hb : index.corpus.streams[t]? = some b)
    (hia : i ≤ a.size) (hjb : j ≤ b.size) :
    extendsLeft index (index.corpus.position s i) (index.corpus.position t j) = true ↔
      0 < i ∧ 0 < j ∧ a[i - 1]? = b[j - 1]? := by
  have before {s i : Nat} {a : Array Nat} (ha : index.corpus.streams[s]? = some a)
      (hia : i ≤ a.size) (hpos : 0 < i) :
      index.symbols[index.corpus.position s i - 1]? = a[i - 1]? := by
    rw [← hi.symbols_position ha (by omega), Corpus.position, Corpus.position,
      Nat.add_sub_assoc hpos]
  rw [extendsLeft, hi.ref_position ha hia, hi.ref_position hb hjb, Bool.and_eq_true,
    Bool.and_eq_true, decide_eq_true_eq, decide_eq_true_eq, beq_iff_eq, and_assoc]
  refine and_congr_right fun hpi => and_congr_right fun hpj => ?_
  rw [before ha hia hpi, before hb hjb hpj]

/-- Two suffixes of different streams that share `n` letters and are not to be extended to the left
start a maximal run of `n` symbols. -/
theorem maximalRun_iff_of_below (hi : index.Holds streams revisions)
    (ha : index.corpus.streams[s]? = some a) (hb : index.corpus.streams[t]? = some b)
    (hst : s ≠ t) (hia : i ≤ a.size) (hjb : j ≤ b.size) {k : Nat}
    (h : Below index.symbols (index.corpus.position s i) (index.corpus.position t j) k) :
    MaximalRun a b i j n ↔ n = k ∧
      extendsLeft index (index.corpus.position s i) (index.corpus.position t j) = false := by
  have hrun {m : Nat} : EqualRun a b i j m ↔ m ≤ k := by
    rw [← hi.proper.agree_position_iff ha hb hst hia hjb, ← hi.symbols_eq]
    exact h.agree_iff
  have hleft := extendsLeft_position_iff hi ha hb hia hjb
  constructor
  · intro hm
    have hle := hrun.mp hm.run
    refine ⟨Nat.le_antisymm hle (Nat.le_of_not_lt fun hlt => ?_), ?_⟩
    · have hmore := hrun.mpr hlt
      have := hmore.left_le
      have := hmore.right_le
      exact hm.after ⟨by omega, by omega, hmore.eq n (by omega)⟩
    · rw [Bool.eq_false_iff, ne_eq, hleft]
      exact hm.before
  · rintro ⟨rfl, hno⟩
    refine ⟨hrun.mpr (Nat.le_refl _), ?_, ?_⟩
    · rw [← hleft, hno]
      simp
    · rintro ⟨hx, hy, he⟩
      have := hrun.mp ((hrun.mpr (Nat.le_refl n)).extend_after hx hy he)
      omega

/-- What the scan of a suffix array finds are answers, whatever the limit. -/
theorem answers_of_mem_scanSuffixes (hi : index.Holds streams revisions)
    {entries : List (Nat × Nat)} (hasc : Ascending index.symbols entries)
    (hmem : ∀ e ∈ entries, e.1 < index.symbols.size) {c : Candidate}
    (hc : c ∈ (scanSuffixes index query [] 0 entries).1) :
    ∃ x y n, Answers index query x y n ∧ c = .exact x y n := by
  rw [mem_scanSuffixes_iff] at hc
  obtain hc | ⟨⟨p, l⟩, rest, hs, -, q, n, hq, hc⟩ := hc
  · simp at hc
  obtain ⟨pre, rfl⟩ := hs
  have hrest : Ascending index.symbols ((p, l) :: rest) := hasc.right_of_append
  obtain ⟨hb, hn, hqr⟩ := below_of_mem_neighbours hrest (fun q n h => by
    have := h.stop_lt_size
    rwa [Nat.min_eq_right (by omega)]) (List.mem_of_mem_take hq)
  obtain ⟨⟨q, m⟩, hqm, rfl⟩ := List.mem_map.mp hqr
  have hp : p < index.symbols.size := hmem (p, l) (by simp)
  have hq : q < index.symbols.size := hmem (q, m) (by simp [hqm])
  rw [hi.symbols_eq] at hp hq
  obtain ⟨s, a, i, ha, hia, rfl⟩ := Corpus.exists_position hp
  obtain ⟨t, b, j, hb', hjb, rfl⟩ := Corpus.exists_position hq
  rw [candidateAt?, hi.ref_position ha hia, hi.ref_position hb' hjb] at hc
  split at hc
  · rename_i hacc
    rw [Bool.and_eq_true, Bool.not_eq_true'] at hacc
    have hst := (accepts_iff.mp hacc.1).1
    have hrun := (maximalRun_iff_of_below hi ha hb' hst hia hjb hb).mpr ⟨rfl, hacc.2⟩
    refine ⟨⟨s, i⟩, ⟨t, j⟩, n, ⟨hacc.1, hn, ?_, ?_, ?_⟩, by simpa using hc.symm⟩
    · exact (Array.getElem?_eq_some_iff.mp ha).1
    · exact (Array.getElem?_eq_some_iff.mp hb').1
    · rw [TokenIndex.streamSymbols_eq ha, TokenIndex.streamSymbols_eq hb']
      exact hrun
  · contradiction

/-- An answer whose places come in the order of their suffixes is found within the limit. -/
theorem mem_scanSuffixes_of_suffix (hi : index.Holds streams revisions)
    {entries : List (Nat × Nat)} (hasc : Ascending index.symbols entries)
    (hcap : (scanSuffixes index query [] 0 entries).2 = 0) (hmin : 1 ≤ query.minLength)
    {x y : TokenRef} {n : Nat} (h : Answers index query x y n) {l m : Nat}
    {rest : List (Nat × Nat)}
    (hs : (index.corpus.position x.stream x.pos, l) :: rest <:+ entries)
    (hy : (index.corpus.position y.stream y.pos, m) ∈ rest) :
    .exact x y n ∈ (scanSuffixes index query [] 0 entries).1 := by
  have hst := (accepts_iff.mp h.accepted).1
  have hlong := h.long
  obtain ⟨a, ha⟩ : ∃ a, index.corpus.streams[x.stream]? = some a :=
    ⟨_, Array.getElem?_eq_getElem h.left⟩
  obtain ⟨b, hb⟩ : ∃ b, index.corpus.streams[y.stream]? = some b :=
    ⟨_, Array.getElem?_eq_getElem h.right⟩
  have hrun := h.run
  rw [TokenIndex.streamSymbols_eq ha, TokenIndex.streamSymbols_eq hb] at hrun
  have hxa := hrun.run.left_le
  have hyb := hrun.run.right_le
  have hrest : Ascending index.symbols
      ((index.corpus.position x.stream x.pos, l) :: rest) := by
    obtain ⟨pre, rfl⟩ := hs
    exact hasc.right_of_append
  obtain ⟨k, hk⟩ := hrest.exists_below hy
  obtain ⟨rfl, hleft⟩ := (maximalRun_iff_of_below hi ha hb hst (by omega) (by omega) hk).mp hrun
  -- a run of at least one token does not start at a sentinel
  have hsent : index.isSentinel (index.corpus.position x.stream x.pos) = false := by
    rw [Bool.eq_false_iff, ne_eq, hi.isSentinel_position ha (by omega)]
    omega
  have hcount := length_neighbours_le hcap hs hsent
  rw [mem_scanSuffixes_iff]
  refine .inr ⟨_, rest, hs, hsent, index.corpus.position y.stream y.pos, n, ?_, ?_⟩
  · rw [List.take_of_length_le hcount]
    refine mem_neighbours hrest (fun q n h => ?_) (by omega) hy hk hlong
    have := h.stop_lt_size
    rwa [Nat.min_eq_right (by omega)]
  · rw [candidateAt?, hi.ref_position ha (by omega), hi.ref_position hb (by omega), if_pos]
    simp [h.accepted, hleft]

/-- The scan of a suffix array finds every answer when no suffix exceeds the limit. -/
theorem mem_scanSuffixes_of_answers (hi : index.Holds streams revisions)
    {entries : List (Nat × Nat)} (hasc : Ascending index.symbols entries)
    (hall : ∀ p < index.symbols.size, ∃ l, (p, l) ∈ entries)
    (hcap : (scanSuffixes index query [] 0 entries).2 = 0) (hmin : 1 ≤ query.minLength)
    {x y : TokenRef} {n : Nat} (h : Answers index query x y n) :
    .exact x y n ∈ (scanSuffixes index query [] 0 entries).1 := by
  have hst := (accepts_iff.mp h.accepted).1
  have ha := Array.getElem?_eq_getElem h.left
  have hb := Array.getElem?_eq_getElem h.right
  have hrun := h.run
  rw [TokenIndex.streamSymbols_eq ha, TokenIndex.streamSymbols_eq hb] at hrun
  have hx := hrun.run.left_le
  have hy := hrun.run.right_le
  have hpx := Corpus.position_lt_size ha (i := x.pos) (by omega)
  have hpy := Corpus.position_lt_size hb (i := y.pos) (by omega)
  obtain ⟨l, hl⟩ := hall _ (hi.symbols_eq ▸ hpx)
  obtain ⟨m, hm⟩ := hall _ (hi.symbols_eq ▸ hpy)
  have hne : (index.corpus.position x.stream x.pos, l) ≠
      (index.corpus.position y.stream y.pos, m) := by
    intro he
    exact hst (Corpus.position_injective ha (by omega) hb (by omega) (Prod.mk.inj he).1).1
  rcases exists_suffix_of_mem hl hm hne with ⟨rest, hs, hmem⟩ | ⟨rest, hs, hmem⟩
  · exact mem_scanSuffixes_of_suffix hi hasc hcap hmin h hs hmem
  · rw [Candidate.exact_comm hst]
    exact mem_scanSuffixes_of_suffix hi hasc hcap hmin h.symm hs hmem

end Answers

end CloneDetection.Match
