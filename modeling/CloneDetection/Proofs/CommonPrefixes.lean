import CloneDetection.Proofs.SuffixSorting
import Mathlib.Data.List.Chain

/-!
# Common prefixes of neighbouring suffixes

`build_isChain`: in the suffix array of a text each suffix comes before the next one, and the length
beside the next one is the number of letters that the two share.

The lengths are found in the order of the text. `Below.le_of_predecessor` is why a length known for a
suffix, less one, is a start for the next suffix of the text: dropping the first letter keeps two
suffixes in order, and what stands between them shares no fewer letters with the greater one.
-/

namespace CloneDetection.SuffixArray

variable {text : Array Nat} {suffixes : List Nat} {i j m n p q : Nat}

/-- Counting on from letters known to agree gives the number of letters shared. -/
theorem agree_eq (h : Below text j i m) (hj : j ≤ text.size) (hn : n ≤ m) :
    agree text i j n = m := by
  have hi := h.stop_lt_size
  have hjm := h.stop_le_size hj
  fun_induction agree text i j n with
  | case1 n hin he ih =>
    refine ih (Nat.lt_of_le_of_ne hn ?_)
    rintro rfl
    have := (letter_eq_iff hin.1).mpr he
    have := h.lt
    omega
  | case2 n hin he =>
    refine Nat.le_antisymm hn (Nat.le_of_not_lt fun hlt => he ?_)
    exact (letter_eq_iff hin.1).mp (h.agree n hlt).symm
  | case3 n hout => omega

/-! ## Predecessors -/

theorem mem_zip_tail_iff {α : Type} {l : List α} {a b : α} :
    (a, b) ∈ l.zip l.tail ↔ ∃ l₁ l₂, l = l₁ ++ a :: b :: l₂ := by
  induction l with
  | nil => simp
  | cons c l ih =>
    cases l with
    | nil => simp [List.cons_eq_append_iff]
    | cons d l =>
      rw [List.tail_cons, List.zip_cons_cons, List.mem_cons, Prod.mk.injEq]
      rw [List.tail_cons] at ih
      rw [ih]
      constructor
      · rintro (⟨rfl, rfl⟩ | ⟨l₁, l₂, h⟩)
        · exact ⟨[], l, rfl⟩
        · exact ⟨c :: l₁, l₂, by rw [h]; rfl⟩
      · rintro ⟨l₁, l₂, h⟩
        cases l₁ with
        | nil =>
          simp only [List.nil_append, List.cons.injEq] at h
          exact .inl ⟨h.1.symm, h.2.1.symm⟩
        | cons e l₁ =>
          simp only [List.cons_append, List.cons.injEq] at h
          exact .inr ⟨l₁, l₂, h.2⟩

/-- The table of predecessors holds the neighbour before each suffix but the first. -/
theorem predecessors_eq_some_iff {size : Nat} (hp : suffixes.Perm (List.range size)) :
    ((predecessors size suffixes)[q]?).join = some p ↔
      ∃ l₁ l₂, suffixes = l₁ ++ p :: q :: l₂ := by
  have htable : predecessors size suffixes =
      ((suffixes.zip suffixes.tail).map fun e => (e.2, some e.1)).foldl
        (fun table e => table.setIfInBounds e.1 e.2) (Array.replicate size none) := by
    rw [List.foldl_map]
    rfl
  have hfst : ((suffixes.zip suffixes.tail).map fun e => (e.2, some e.1)).map Prod.fst =
      suffixes.tail := by
    rw [List.map_map]
    exact List.map_snd_zip (by simp)
  have hnodup : (((suffixes.zip suffixes.tail).map fun e => (e.2, some e.1)).map
      Prod.fst).Nodup := by
    rw [hfst]
    exact (hp.nodup_iff.mpr List.nodup_range).tail
  have hlt (hq : q ∈ suffixes.tail) : q < (Array.replicate size (none : Option Nat)).size := by
    rw [Array.size_replicate, ← List.mem_range, ← hp.mem_iff]
    exact List.mem_of_mem_tail hq
  obtain ⟨hmem, hnot⟩ := getElem?_foldl_setIfInBounds (Array.replicate size none) hnodup q
  rw [← mem_zip_tail_iff, htable]
  constructor
  · intro h
    by_cases hq : q ∈ suffixes.tail
    · have hq' := hq
      rw [← hfst, List.mem_map] at hq'
      obtain ⟨⟨_, c⟩, he, rfl⟩ := hq'
      rw [hmem c he (hlt hq)] at h
      obtain rfl : c = some p := by simpa using h
      obtain ⟨⟨p', q'⟩, he', heq⟩ := List.mem_map.mp he
      simp only [Prod.mk.injEq, Option.some.injEq] at heq
      obtain ⟨rfl, rfl⟩ := heq
      exact he'
    · rw [hnot (by rwa [hfst]), Array.getElem?_replicate] at h
      split at h <;> simp at h
  · intro h
    rw [hmem (some p) (List.mem_map.mpr ⟨(p, q), h, rfl⟩) (hlt (List.of_mem_zip h).2)]
    rfl

/-! ## Lengths in the order of the text -/

/-- A suffix before the neighbour of another one shares no more letters with that one. -/
theorem Below.le_of_neighbour (hs : suffixes.Pairwise fun i j => ∃ n, Below text i j n)
    {l₁ l₂ : List Nat} (he : suffixes = l₁ ++ p :: q :: l₂) (hpq : Below text p q n)
    (hi : i ∈ suffixes) (hiq : Below text i q m) : m ≤ n := by
  subst he
  rw [List.pairwise_append, List.pairwise_cons, List.pairwise_cons] at hs
  obtain ⟨-, ⟨-, hq, -⟩, hl⟩ := hs
  simp only [List.mem_append, List.mem_cons] at hi
  rcases hi with hi | rfl | rfl | hi
  · obtain ⟨k, hk⟩ := hl i hi p (by simp)
    have := hiq.unique (hk.trans hpq)
    omega
  · exact (hiq.unique hpq).le
  · exact hiq.irrefl.elim
  · obtain ⟨k, hk⟩ := hq i hi
    exact (hiq.asymm hk).elim

/-- Letters shared with the neighbour before carry over to the next suffix of the text, but one. -/
theorem Below.le_of_predecessor (hp : suffixes.Perm (List.range text.size))
    (hs : suffixes.Pairwise fun i j => ∃ n, Below text i j n)
    {l₁ l₂ : List Nat} (he : suffixes = l₁ ++ p :: (i + 1) :: l₂) (hpi : Below text p (i + 1) n)
    (hji : Below text j i m) : m - 1 ≤ n := by
  rcases m with _ | _ | m
  · omega
  · omega
  · have htail := hji.tail
    have hlt := htail.stop_lt_size
    -- the first letters of the two shorter suffixes agree, so the lesser one is not empty
    have hj : j + 1 < text.size := by
      rw [← letter_pos_iff, htail.agree 0 (by omega), letter_pos_iff]
      omega
    refine Below.le_of_neighbour hs he hpi ?_ htail
    rw [hp.mem_iff]
    exact List.mem_range.mpr hj

/-- What is to be found for a suffix: zero without a neighbour before, else the letters shared. -/
def SharedWith (text : Array Nat) (i : Nat) : Option Nat → Nat → Prop
  | none, m => m = 0
  | some j, m => Below text j i m

/-- The lengths found are those shared with the neighbours. -/
theorem sharedFrom_spec {before : Array (Option Nat)} {done : Array Nat}
    (hbelow : ∀ i j, (before[i]?).join = some j → j ≤ text.size ∧ ∃ m, Below text j i m)
    (hnext : ∀ i j m, (before[i]?).join = some j → Below text j i m →
      ∀ k n, (before[i + 1]?).join = some k → Below text k (i + 1) n → m - 1 ≤ n)
    (hsize : done.size = i) (hi : i ≤ text.size)
    (hdone : ∀ k m, done[k]? = some m → SharedWith text k (before[k]?).join m)
    (hn : ∀ j m, (before[i]?).join = some j → Below text j i m → n ≤ m) :
    (sharedFrom text before i n done).size = text.size ∧
      ∀ k m, (sharedFrom text before i n done)[k]? = some m →
        SharedWith text k (before[k]?).join m := by
  fun_induction sharedFrom text before i n done with
  | case1 i n done hlt hj ih =>
    refine ih (by simp [hsize]) (by omega) (fun k m hk => ?_) (fun _ _ _ _ => Nat.zero_le _)
    rw [Array.getElem?_push] at hk
    split at hk
    · rename_i hki
      obtain rfl : 0 = m := by simpa using hk
      rw [hki, hsize, hj]
      rfl
    · exact hdone k m hk
  | case2 i n done hlt j hj shared ih =>
    obtain ⟨hle, m, hm⟩ := hbelow i j hj
    have heq : shared = m := agree_eq hm hle (hn j m hj hm)
    refine ih (by simp [hsize]) (by omega) (fun k l hk => ?_) (fun k l hk hl => ?_)
    · rw [Array.getElem?_push] at hk
      split at hk
      · rename_i hki
        obtain rfl : shared = l := by simpa using hk
        rw [hki, hsize, hj, heq]
        exact hm
      · exact hdone k l hk
    · rw [heq]
      exact hnext i j m hj hm k l hk hl
  | case3 i n done hge =>
    exact ⟨by omega, hdone⟩

/-! ## The suffix array -/

/-- The length beside a suffix is what it shares with the neighbour before it. -/
theorem sharedWith_commonPrefixes (hp : suffixes.Perm (List.range text.size))
    (hs : suffixes.Pairwise fun i j => ∃ n, Below text i j n) :
    ∀ e ∈ suffixes.zip (commonPrefixes text suffixes),
      SharedWith text e.1 ((predecessors text.size suffixes)[e.1]?).join e.2 := by
  have hmem {p q : Nat} {l₁ l₂ : List Nat} (he : suffixes = l₁ ++ p :: q :: l₂) :
      p < text.size := by
    rw [← List.mem_range, ← hp.mem_iff, he]
    simp
  have hbelow {p q : Nat} {l₁ l₂ : List Nat} (he : suffixes = l₁ ++ p :: q :: l₂) :
      ∃ m, Below text p q m := by
    rw [he, List.pairwise_append, List.pairwise_cons] at hs
    exact hs.2.1.1 q (by simp)
  have hspec : (sharedFrom text (predecessors text.size suffixes) 0 0 #[]).size = text.size ∧
      ∀ k m, (sharedFrom text (predecessors text.size suffixes) 0 0 #[])[k]? = some m →
        SharedWith text k ((predecessors text.size suffixes)[k]?).join m := by
    refine sharedFrom_spec ?_ ?_ rfl (Nat.zero_le _) (by simp) (fun _ _ _ _ => Nat.zero_le _)
    · intro i j h
      obtain ⟨l₁, l₂, he⟩ := (predecessors_eq_some_iff hp).mp h
      exact ⟨(hmem he).le, hbelow he⟩
    · intro i j m _ hm k n hk hn
      obtain ⟨l₁, l₂, he⟩ := (predecessors_eq_some_iff hp).mp hk
      exact Below.le_of_predecessor hp hs he hn hm
  obtain ⟨hsize, hshared⟩ := hspec
  rw [commonPrefixes, ← List.map_prod_left_eq_zip, List.forall_mem_map]
  intro q hq
  rw [hp.mem_iff, List.mem_range, ← hsize] at hq
  have := hshared q _ (Array.getElem?_eq_getElem hq)
  simpa [Array.getElem?_eq_getElem hq] using this

theorem commonPrefixes_isChain (hp : suffixes.Perm (List.range text.size))
    (hs : suffixes.Pairwise fun i j => ∃ n, Below text i j n) :
    (suffixes.zip (commonPrefixes text suffixes)).IsChain fun e f => Below text e.1 f.1 f.2 := by
  have hshared := sharedWith_commonPrefixes hp hs
  rw [commonPrefixes, ← List.map_prod_left_eq_zip, List.forall_mem_map] at hshared
  rw [commonPrefixes, ← List.map_prod_left_eq_zip, List.isChain_map,
    List.isChain_iff_forall_rel_of_append_cons_cons]
  intro p q l₁ l₂ he
  have := hshared q (by rw [he]; simp)
  rwa [(predecessors_eq_some_iff hp).mpr ⟨l₁, l₂, he⟩] at this

variable {alphabet : Nat}

/-- Each suffix of a suffix array comes before the next one, with which it shares the length given
there. -/
theorem build_isChain (h : ∀ n ∈ text, n < alphabet) :
    ((build text alphabet).suffixes.zip (build text alphabet).shared).IsChain
      fun e f => Below text e.1 f.1 f.2 := by
  obtain ⟨hp, hs⟩ := sortSuffixes_spec h
  exact commonPrefixes_isChain hp hs

theorem lt_size_of_mem_build (h : ∀ n ∈ text, n < alphabet) {e : Nat × Nat}
    (he : e ∈ (build text alphabet).suffixes.zip (build text alphabet).shared) :
    e.1 < text.size :=
  List.mem_range.mp ((sortSuffixes_spec h).1.mem_iff.mp (List.of_mem_zip he).1)

/-- Every suffix has an entry. -/
theorem exists_mem_build (h : ∀ n ∈ text, n < alphabet) {p : Nat} (hp : p < text.size) :
    ∃ l, (p, l) ∈ (build text alphabet).suffixes.zip (build text alphabet).shared := by
  have hlen : (build text alphabet).suffixes.length ≤ (build text alphabet).shared.length := by
    simp [build, commonPrefixes]
  have hmem : p ∈ (build text alphabet).suffixes :=
    (sortSuffixes_spec h).1.mem_iff.mpr (List.mem_range.mpr hp)
  rw [← List.map_fst_zip hlen] at hmem
  obtain ⟨⟨_, l⟩, he, rfl⟩ := List.mem_map.mp hmem
  exact ⟨l, he⟩

end CloneDetection.SuffixArray
