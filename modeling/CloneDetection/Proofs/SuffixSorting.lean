import CloneDetection.Proofs.CountingSort
import CloneDetection.Proofs.SuffixOrder

/-!
# Prefix doubling sorts the suffixes

* `Ranks text n rank`: the numbers in `rank` compare two suffixes by their first `n` letters. A round
  turns ranks for `n` letters into ranks for `n + n` (`ranks_ranksOf`).
* `exists_sortByRanks?`: the two sorts of a round find a slot for every suffix, and order the
  suffixes by the pairs of their ranks.
* `sortSuffixes_spec`: the result lists every position once, each suffix before the next.
-/

namespace CloneDetection.SuffixArray

/-! ## Classes -/

section Classes

variable {key : Nat → Nat × Nat}

/-- Pairs are compared by their first, then by their second parts. -/
def PairLE (a b : Nat × Nat) : Prop :=
  a.1 < b.1 ∨ a.1 = b.1 ∧ a.2 ≤ b.2

/-- Strict comparison of pairs. -/
def PairLT (a b : Nat × Nat) : Prop :=
  a.1 < b.1 ∨ a.1 = b.1 ∧ a.2 < b.2

/-- The class of each item after `previous`, whose class is `count`. -/
def numberFrom (key : Nat → Nat × Nat) (previous count : Nat) : List Nat → List (Nat × Nat)
  | [] => []
  | i :: rest =>
    let count := if key previous = key i then count else count + 1
    (i, count) :: numberFrom key i count rest

theorem classesAfter_eq (previous count : Nat) (done : List (Nat × Nat)) (items : List Nat) :
    classesAfter key previous count done items =
      done.reverse ++ numberFrom key previous count items := by
  induction items generalizing previous count done with
  | nil => simp [classesAfter, numberFrom]
  | cons i items ih => simp [classesAfter, numberFrom, ih]

theorem classes_cons (i : Nat) (items : List Nat) :
    classes key (i :: items) = (i, 1) :: numberFrom key i 1 items := by
  simp [classes, classesAfter_eq]

@[simp]
theorem map_fst_numberFrom (previous count : Nat) (items : List Nat) :
    (numberFrom key previous count items).map Prod.fst = items := by
  induction items generalizing previous count with
  | nil => rfl
  | cons i items ih => simp [numberFrom, ih]

@[simp]
theorem map_fst_classes (key : Nat → Nat × Nat) (items : List Nat) :
    (classes key items).map Prod.fst = items := by
  cases items with
  | nil => rfl
  | cons i items => simp [classes_cons]

/-- In a sorted list, classes grow exactly where keys do. -/
theorem numberFrom_pairwise {previous : Nat} (count : Nat) {items : List Nat}
    (h : (previous :: items).Pairwise fun i j => PairLE (key i) (key j)) :
    ((previous, count) :: numberFrom key previous count items).Pairwise
      fun e f => e.2 ≤ f.2 ∧ (e.2 = f.2 ↔ key e.1 = key f.1) := by
  induction items generalizing previous count with
  | nil => simp [numberFrom]
  | cons i items ih =>
    obtain ⟨hprev, hrest⟩ := List.pairwise_cons.mp h
    have htail := ih (if key previous = key i then count else count + 1) hrest
    rw [numberFrom]
    refine List.pairwise_cons.mpr ⟨?_, htail⟩
    have hstep : count ≤ (if key previous = key i then count else count + 1) ∧
        (count = (if key previous = key i then count else count + 1) ↔ key previous = key i) := by
      split <;> simp_all
    intro f hf
    rcases List.mem_cons.mp hf with rfl | hf
    · exact hstep
    · have hif := (List.pairwise_cons.mp htail).1 f hf
      have hmem : f.1 ∈ items := by
        have hfst := List.mem_map_of_mem (f := Prod.fst) hf
        rwa [map_fst_numberFrom] at hfst
      have hle := hprev i (by simp)
      have hle' := (List.pairwise_cons.mp hrest).1 f.1 hmem
      -- a key between two equal ones equals them
      have hbetween : key previous = key f.1 → key previous = key i := by
        intro he
        simp only [PairLE, he] at hle hle'
        rw [he]
        exact Prod.ext (by omega) (by omega)
      simp only at hif ⊢
      refine ⟨by omega, fun he => ?_, fun he => ?_⟩
      · have hc : key previous = key i := hstep.2.mp (by omega)
        rw [hc]
        exact hif.2.mp (by omega)
      · have hc := hbetween he
        have := hif.2.mpr (hc.symm.trans he)
        have := hstep.2.mpr hc
        omega

theorem snd_le_of_mem_numberFrom {previous count : Nat} {items : List Nat} {e : Nat × Nat}
    (h : e ∈ numberFrom key previous count items) : e.2 ≤ count + items.length := by
  induction items generalizing previous count with
  | nil => simp [numberFrom] at h
  | cons i items ih =>
    rw [numberFrom] at h
    rw [List.length_cons]
    rcases List.mem_cons.mp h with rfl | h
    · simp only
      split <;> omega
    · have := ih h
      split at this <;> omega

/-- The classes of a list are numbers from one up to its length. -/
theorem snd_mem_classes {items : List Nat}
    (hs : items.Pairwise fun i j => PairLE (key i) (key j)) {e : Nat × Nat}
    (h : e ∈ classes key items) : 1 ≤ e.2 ∧ e.2 ≤ items.length := by
  cases items with
  | nil => simp [classes] at h
  | cons i items =>
    rw [classes_cons] at h
    have hp := numberFrom_pairwise 1 hs
    rcases List.mem_cons.mp h with rfl | h
    · simp
    · have := snd_le_of_mem_numberFrom h
      have := ((List.pairwise_cons.mp hp).1 e h).1
      simp only [List.length_cons] at this ⊢
      omega

/-- In a sorted list, classes compare as keys do. -/
theorem classes_lt_iff {items : List Nat}
    (hs : items.Pairwise fun i j => PairLE (key i) (key j)) :
    ∀ e ∈ classes key items, ∀ f ∈ classes key items,
      (e.2 < f.2 ↔ PairLT (key e.1) (key f.1)) := by
  have hp : (classes key items).Pairwise fun e f =>
      e.2 ≤ f.2 ∧ (e.2 = f.2 ↔ key e.1 = key f.1) := by
    cases items with
    | nil => simp [classes]
    | cons i items =>
      rw [classes_cons]
      exact numberFrom_pairwise 1 hs
  have hk : (classes key items).Pairwise fun e f => PairLE (key e.1) (key f.1) := by
    rw [← List.pairwise_map (f := Prod.fst) (R := fun i j => PairLE (key i) (key j)),
      map_fst_classes]
    exact hs
  have hboth := hp.and hk
  refine List.Pairwise.forall_of_forall_of_flip ?_ ?_ ?_
  · intro e _
    simp [PairLT]
  · refine hboth.imp ?_
    rintro e f ⟨⟨hle, heq⟩, hkey⟩
    rw [Prod.ext_iff] at heq
    simp only [PairLE, PairLT] at hkey ⊢
    omega
  · refine hboth.imp ?_
    rintro e f ⟨⟨hle, heq⟩, hkey⟩
    rw [Prod.ext_iff] at heq
    simp only [flip, PairLE, PairLT] at hkey ⊢
    omega

/-- When the last class counts all items, the keys of neighbours differ. -/
theorem isChain_of_getLast_numberFrom {previous count : Nat} {items : List Nat}
    (h : (((previous, count) :: numberFrom key previous count items).getLast (by simp)).2 =
      count + items.length) : (previous :: items).IsChain fun i j => key i ≠ key j := by
  induction items generalizing previous count with
  | nil => simp
  | cons i items ih =>
    simp only [numberFrom, List.getLast_cons_cons, List.length_cons] at h
    by_cases hk : key previous = key i
    · -- a class used twice leaves too few numbers
      simp only [hk, if_true] at h
      rcases List.mem_cons.mp (List.getLast_mem (List.cons_ne_nil _ _)) with he | he
      · rw [he] at h
        simp only at h
        omega
      · have := snd_le_of_mem_numberFrom he
        omega
    · simp only [hk, if_false] at h
      refine List.IsChain.cons_cons hk (ih (h.trans ?_))
      omega

theorem isChain_of_getLast?_classes {items : List Nat}
    (h : ((classes key items).getLast?.map (·.2)).getD 0 = items.length) :
    items.IsChain fun i j => key i ≠ key j := by
  cases items with
  | nil => simp
  | cons i items =>
    rw [classes_cons, List.getLast?_eq_some_getLast (List.cons_ne_nil _ _)] at h
    refine isChain_of_getLast_numberFrom (h.trans ?_)
    rw [List.length_cons, Nat.add_comm]

theorem pairLT_of_pairLE {a b : Nat × Nat} (h : PairLE a b) (hne : a ≠ b) : PairLT a b := by
  rw [ne_eq, Prod.ext_iff] at hne
  simp only [PairLE, PairLT] at h ⊢
  omega

end Classes

/-! ## Ranks -/

/-- The ranks compare suffixes by their first `n` letters. -/
def Ranks (text : Array Nat) (n : Nat) (rank : Array Nat) : Prop :=
  ∀ i j, rankAt rank i < rankAt rank j ↔ Before text n i j

variable {text rank : Array Nat} {n : Nat}

theorem Ranks.eq_iff (h : Ranks text n rank) (i j : Nat) :
    rankAt rank i = rankAt rank j ↔ Agree text n i j := by
  constructor
  · intro he
    rcases agree_or_before text n i j with ha | hb | hb
    · exact ha
    · have := (h i j).mpr hb
      omega
    · have := (h j i).mpr hb
      omega
  · intro ha
    rcases Nat.lt_trichotomy (rankAt rank i) (rankAt rank j) with hlt | he | hlt
    · exact absurd ha ((h i j).mp hlt).not_agree
    · exact he
    · exact absurd ha.symm ((h j i).mp hlt).not_agree

/-- Ranks of the first and of the next `n` letters compare by twice as many. -/
theorem Ranks.pairLT_iff (h : Ranks text n rank) (i j : Nat) :
    PairLT (rankAt rank i, rankAt rank (i + n)) (rankAt rank j, rankAt rank (j + n)) ↔
      Before text (n + n) i j := by
  rw [before_add, PairLT, h i j, h.eq_iff i j, h (i + n) (j + n)]

theorem ranks_map_succ (text : Array Nat) : Ranks text 1 (text.map (· + 1)) := by
  intro i j
  rw [before_one]
  rfl

/-- A table filled with entries for different places holds them, and what it held elsewhere. -/
theorem getElem?_foldl_setIfInBounds {α : Type} {entries : List (Nat × α)} (table : Array α)
    (hd : (entries.map Prod.fst).Nodup) (i : Nat) :
    (∀ c, (i, c) ∈ entries → i < table.size →
      (entries.foldl (fun table e => table.setIfInBounds e.1 e.2) table)[i]? = some c) ∧
    (i ∉ entries.map Prod.fst →
      (entries.foldl (fun table e => table.setIfInBounds e.1 e.2) table)[i]? = table[i]?) := by
  induction entries generalizing table with
  | nil => simp
  | cons e entries ih =>
    obtain ⟨j, d⟩ := e
    simp only [List.map_cons, List.nodup_cons] at hd
    obtain ⟨hmem, hnot⟩ := ih (table.setIfInBounds j d) hd.2
    rw [List.foldl_cons]
    constructor
    · intro c hc hlt
      rcases List.mem_cons.mp hc with he | hc
      · obtain ⟨rfl, rfl⟩ := Prod.mk.inj he
        rw [hnot hd.1, Array.getElem?_setIfInBounds_self_of_lt hlt]
      · exact hmem c hc (by simpa using hlt)
    · intro hi
      simp only [List.map_cons, List.mem_cons, not_or] at hi
      rw [hnot hi.2, Array.getElem?_setIfInBounds_ne (Ne.symm hi.1)]

theorem rankAt_ranksOf {size : Nat} {entries : List (Nat × Nat)}
    (hd : (entries.map Prod.fst).Nodup) {i c : Nat} (hi : (i, c) ∈ entries) (hlt : i < size) :
    rankAt (ranksOf size entries) i = c := by
  have := (getElem?_foldl_setIfInBounds (Array.replicate size 0) hd i).1 c hi (by simpa using hlt)
  exact congrArg (·.getD 0) this

theorem rankAt_ranksOf_of_le {size i : Nat} {entries : List (Nat × Nat)} (hi : size ≤ i) :
    rankAt (ranksOf size entries) i = 0 := by
  have hsize : ∀ rank : Array Nat,
      (entries.foldl (fun rank e => rank.setIfInBounds e.1 e.2) rank).size = rank.size := by
    induction entries with
    | nil => simp
    | cons e entries ih =>
      intro rank
      rw [List.foldl_cons, ih, Array.size_setIfInBounds]
  rw [rankAt, ranksOf, Array.getElem?_eq_none]
  · rfl
  · refine Nat.le_trans (Nat.le_of_eq (hsize (Array.replicate size 0))) ?_
    simpa using hi

section Round

variable {key : Nat → Nat × Nat} {sorted : List Nat}

/-- The new rank of a suffix is the number of its class. -/
theorem exists_rankAt_ranksOf_classes (key : Nat → Nat × Nat)
    (hp : sorted.Perm (List.range text.size)) {i : Nat} (hi : i < text.size) :
    ∃ c, (i, c) ∈ classes key sorted ∧
      rankAt (ranksOf text.size (classes key sorted)) i = c := by
  have hnodup : ((classes key sorted).map Prod.fst).Nodup := by
    rw [map_fst_classes]
    exact hp.nodup_iff.mpr List.nodup_range
  have hmem : i ∈ (classes key sorted).map Prod.fst := by
    rw [map_fst_classes, hp.mem_iff]
    exact List.mem_range.mpr hi
  obtain ⟨⟨_, c⟩, he, rfl⟩ := List.mem_map.mp hmem
  exact ⟨c, he, rankAt_ranksOf hnodup he hi⟩

/-- No rank exceeds the number of suffixes. -/
theorem rankAt_ranksOf_classes_le (hp : sorted.Perm (List.range text.size))
    (hs : sorted.Pairwise fun i j => PairLE (key i) (key j)) (i : Nat) :
    rankAt (ranksOf text.size (classes key sorted)) i ≤ text.size := by
  rcases Nat.lt_or_ge i text.size with hi | hi
  · obtain ⟨c, hc, he⟩ := exists_rankAt_ranksOf_classes key hp hi
    have := (snd_mem_classes hs hc).2
    have : sorted.length = text.size := by simpa using hp.length_eq
    simp only at *
    omega
  · rw [rankAt_ranksOf_of_le hi]
    omega

/-- A sorted list of pairs of ranks gives ranks for twice as many letters. -/
theorem ranks_ranksOf (h : Ranks text n rank) (hn : 0 < n)
    (hp : sorted.Perm (List.range text.size))
    (hs : sorted.Pairwise fun i j =>
      PairLE (rankAt rank i, rankAt rank (i + n)) (rankAt rank j, rankAt rank (j + n))) :
    Ranks text (n + n)
      (ranksOf text.size (classes (fun i => (rankAt rank i, rankAt rank (i + n))) sorted)) := by
  intro i j
  rcases Nat.lt_or_ge j text.size with hj | hj
  · obtain ⟨d, hd, he⟩ := exists_rankAt_ranksOf_classes
      (fun i => (rankAt rank i, rankAt rank (i + n))) hp hj
    rw [he]
    rcases Nat.lt_or_ge i text.size with hi | hi
    · obtain ⟨c, hc, he'⟩ := exists_rankAt_ranksOf_classes
        (fun i => (rankAt rank i, rankAt rank (i + n))) hp hi
      rw [he', ← h.pairLT_iff]
      exact classes_lt_iff hs _ hc _ hd
    · -- past the end every letter is the least
      rw [rankAt_ranksOf_of_le hi]
      have hlt : letter text i < letter text j := by
        rw [letter_eq_zero_iff.mpr hi]
        exact letter_pos_iff.mpr hj
      refine iff_of_true (snd_mem_classes hs hd).1 ?_
      exact ⟨0, by omega, fun k hk => absurd hk (Nat.not_lt_zero k), hlt⟩
  · rw [rankAt_ranksOf_of_le hj]
    refine iff_of_false (Nat.not_lt_zero _) ?_
    rintro ⟨k, -, hb⟩
    have := hb.stop_lt_size
    omega

end Round

/-! ## Doubling -/

/-- One round sorts by the ranks of the first and of the next letters. -/
theorem exists_sortByRanks? {buckets : Nat} {suffixes : List Nat}
    (hb : ∀ i, rankAt rank i < buckets) (hp : suffixes.Perm (List.range text.size)) (n : Nat) :
    ∃ sorted, sortByRanks? buckets rank n suffixes = some sorted ∧
      sorted.Perm (List.range text.size) ∧
      sorted.Pairwise fun i j =>
        PairLE (rankAt rank i, rankAt rank (i + n)) (rankAt rank j, rankAt rank (j + n)) := by
  let halves := bucketSort buckets (fun i => rankAt rank (i + n)) suffixes
  have hhalves : halves.Perm (List.range text.size) :=
    (bucketSort_perm fun i _ => hb (i + n)).trans hp
  have hsecond : halves.Pairwise fun i j => rankAt rank (i + n) ≤ rankAt rank (j + n) := by
    refine (bucketSort_pairwise (R := fun _ _ => True)
      (List.pairwise_of_forall fun _ _ => trivial)).imp ?_
    intro i j h
    omega
  refine ⟨bucketSort buckets (rankAt rank) halves, ?_,
    (bucketSort_perm fun i _ => hb i).trans hhalves, bucketSort_pairwise hsecond⟩
  rw [sortByRanks?, countingSort?_eq_some fun i _ => hb (i + n)]
  exact countingSort?_eq_some fun i _ => hb i

/-- When a round ends the doubling, no two suffixes have equal pairs of ranks. -/
theorem pairLT_of_stop (h : Ranks text n rank) {sorted : List Nat}
    (hp : sorted.Perm (List.range text.size))
    (hs : sorted.Pairwise fun i j =>
      PairLE (rankAt rank i, rankAt rank (i + n)) (rankAt rank j, rankAt rank (j + n)))
    (hstop : ((classes (fun i => (rankAt rank i, rankAt rank (i + n))) sorted).getLast?.map
      (·.2)).getD 0 = text.size ∨ text.size ≤ n) :
    sorted.Pairwise fun i j =>
      PairLT (rankAt rank i, rankAt rank (i + n)) (rankAt rank j, rankAt rank (j + n)) := by
  rcases hstop with hcount | hsize
  · have hlen : sorted.length = text.size := by simpa using hp.length_eq
    have hne := isChain_of_getLast?_classes (hcount.trans hlen.symm)
    have : IsTrans Nat fun i j => PairLT (rankAt rank i, rankAt rank (i + n))
        (rankAt rank j, rankAt rank (j + n)) := by
      refine ⟨fun i j k hij hjk => ?_⟩
      simp only [PairLT] at hij hjk ⊢
      omega
    rw [← List.isChain_iff_pairwise, List.isChain_iff_getElem]
    intro k hk
    exact pairLT_of_pairLE (List.isChain_iff_getElem.mp hs.isChain k hk)
      (List.isChain_iff_getElem.mp hne k hk)
  · have hnodup : sorted.Nodup := hp.nodup_iff.mpr List.nodup_range
    refine (hs.and hnodup).imp_of_mem ?_
    rintro i j hi hj ⟨hle, hne⟩
    refine pairLT_of_pairLE hle fun he => hne ?_
    rw [hp.mem_iff, List.mem_range] at hi hj
    exact ((h.eq_iff i j).mp (Prod.mk.inj he).1).eq hsize hi hj

/-- Prefix doubling lists every position once, each suffix before the next. -/
theorem exists_double? {buckets round : Nat} {suffixes : List Nat}
    (h : Ranks text (1 <<< round) rank) (hb : ∀ i, rankAt rank i < buckets)
    (hsize : text.size < buckets) (hp : suffixes.Perm (List.range text.size)) :
    ∃ sorted, double? text.size buckets round rank suffixes = some sorted ∧
      sorted.Perm (List.range text.size) ∧
      sorted.Pairwise fun i j => ∃ n, Below text i j n := by
  obtain ⟨sorted, hrun, hperm, hle⟩ := exists_sortByRanks? hb hp (1 <<< round)
  fun_induction double? text.size buckets round rank suffixes generalizing sorted with
  | case1 round rank suffixes hnone => simp [hnone] at hrun
  | case2 round rank suffixes sorted' hsome numbered count hstop =>
    obtain rfl : sorted' = sorted := Option.some.inj (hsome.symm.trans hrun)
    refine ⟨sorted', rfl, hperm, (pairLT_of_stop h hperm hle hstop).imp ?_⟩
    intro i j hlt
    obtain ⟨k, -, hbelow⟩ := (h.pairLT_iff i j).mp hlt
    exact ⟨k, hbelow⟩
  | case3 round rank suffixes sorted' hsome numbered count hstop ih =>
    obtain rfl : sorted' = sorted := Option.some.inj (hsome.symm.trans hrun)
    have hpos : 0 < 1 <<< round := by
      rw [Nat.one_shiftLeft]
      exact Nat.two_pow_pos round
    have hranks := ranks_ranksOf h hpos hperm hle
    rw [show 1 <<< round + 1 <<< round = 1 <<< (round + 1) by
      rw [Nat.shiftLeft_succ, Nat.two_mul]] at hranks
    have hb' (i : Nat) : rankAt (ranksOf text.size numbered) i < buckets :=
      Nat.lt_of_le_of_lt (rankAt_ranksOf_classes_le hperm hle i) hsize
    obtain ⟨next, hnext, hperm', hle'⟩ := exists_sortByRanks? hb' hperm (1 <<< (round + 1))
    exact ih hranks hb' hperm next hnext hperm' hle'

/-- The first ranks are at most the bound of the symbols. -/
theorem rankAt_map_succ_le {alphabet : Nat} (h : ∀ n ∈ text, n < alphabet) (i : Nat) :
    rankAt (text.map (· + 1)) i ≤ alphabet := by
  rcases Nat.lt_or_ge i text.size with hi | hi
  · have := h text[i] (Array.getElem_mem hi)
    simp only [rankAt, Array.getElem?_map, Array.getElem?_eq_getElem hi, Option.map_some,
      Option.getD_some]
    omega
  · have hz : rankAt (text.map (· + 1)) i = 0 := letter_eq_zero_iff.mpr hi
    omega

/-- Every key of every round has a place in the tables. -/
theorem exists_sortSuffixes? {alphabet : Nat} (h : ∀ n ∈ text, n < alphabet) :
    ∃ sorted, sortSuffixes? text alphabet = some sorted ∧
      sorted.Perm (List.range text.size) ∧
      sorted.Pairwise fun i j => ∃ n, Below text i j n := by
  rw [sortSuffixes?]
  by_cases hsize : text.size = 0
  · simp [hsize]
  · rw [if_neg hsize]
    refine exists_double? (by simpa using ranks_map_succ text) (fun i => ?_) (by omega) (.refl _)
    have := rankAt_map_succ_le h i
    omega

/-- The suffix array of a text: every position once, each suffix before the next. -/
theorem sortSuffixes_spec {alphabet : Nat} (h : ∀ n ∈ text, n < alphabet) :
    (sortSuffixes text alphabet).Perm (List.range text.size) ∧
      (sortSuffixes text alphabet).Pairwise fun i j => ∃ n, Below text i j n := by
  obtain ⟨sorted, hrun, hspec⟩ := exists_sortSuffixes? h
  rwa [sortSuffixes, hrun, Option.getD_some]

end CloneDetection.SuffixArray
