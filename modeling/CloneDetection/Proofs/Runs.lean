import CloneDetection.Match.Extend

/-!
# Equal runs of two arrays

* `EqualRun x y i j n`: `n` items of `x` from `i` on are `n` items of `y` from `j` on.
* `MaximalRun x y i j n`: an equal run that one more item on the left or on the right would break.

A maximal run is determined by its diagonal and any item of it (`MaximalRun.unique`), and every
equal run lies in one (`EqualRun.exists_maximal`). Growing a seed finds it: `maximalMatch` answers
with the maximal run around the seed, and only then (`maximalMatch_eq_some_iff`). So a seed has an
answer when its symbols are equal, and all seeds in a run have the same one (`maximalMatch_grows`).
-/

namespace CloneDetection

variable {α β : Type}

/-- The items `i`, …, `i + n - 1` of `x` equal the items `j`, …, `j + n - 1` of `y`. -/
structure EqualRun (x y : Array α) (i j n : Nat) : Prop where
  left_le : i + n ≤ x.size
  right_le : j + n ≤ y.size
  eq : ∀ k < n, x[i + k]? = y[j + k]?

/-- An equal run that cannot be extended by an item, neither on the left nor on the right. -/
structure MaximalRun (x y : Array α) (i j n : Nat) : Prop where
  run : EqualRun x y i j n
  before : ¬ (0 < i ∧ 0 < j ∧ x[i - 1]? = y[j - 1]?)
  after : ¬ (i + n < x.size ∧ j + n < y.size ∧ x[i + n]? = y[j + n]?)

instance [DecidableEq α] (x y : Array α) (i j n : Nat) : Decidable (EqualRun x y i j n) :=
  decidable_of_iff (i + n ≤ x.size ∧ j + n ≤ y.size ∧ ∀ k < n, x[i + k]? = y[j + k]?)
    ⟨fun h => ⟨h.1, h.2.1, h.2.2⟩, fun h => ⟨h.left_le, h.right_le, h.eq⟩⟩

instance [DecidableEq α] (x y : Array α) (i j n : Nat) : Decidable (MaximalRun x y i j n) :=
  decidable_of_iff (EqualRun x y i j n ∧ ¬ (0 < i ∧ 0 < j ∧ x[i - 1]? = y[j - 1]?) ∧
      ¬ (i + n < x.size ∧ j + n < y.size ∧ x[i + n]? = y[j + n]?))
    ⟨fun h => ⟨h.1, h.2.1, h.2.2⟩, fun h => ⟨h.run, h.before, h.after⟩⟩

/-! ## Equal runs -/

namespace EqualRun

variable {x y : Array α} {i j n : Nat}

theorem zero (hi : i ≤ x.size) (hj : j ≤ y.size) : EqualRun x y i j 0 :=
  ⟨hi, hj, fun _ hk => absurd hk (Nat.not_lt_zero _)⟩

theorem symm (h : EqualRun x y i j n) : EqualRun y x j i n :=
  ⟨h.right_le, h.left_le, fun k hk => (h.eq k hk).symm⟩

/-- A part of an equal run is an equal run. -/
theorem part (h : EqualRun x y i j n) {d m : Nat} (hm : d + m ≤ n) :
    EqualRun x y (i + d) (j + d) m := by
  have := h.left_le
  have := h.right_le
  refine ⟨by omega, by omega, fun k hk => ?_⟩
  rw [Nat.add_assoc, Nat.add_assoc]
  exact h.eq (d + k) (by omega)

/-- The items of an equal run between two places on its diagonal are an equal run. -/
theorem between (h : EqualRun x y i j n) {p q m : Nat} (hp : i ≤ p) (hm : p + m ≤ i + n)
    (hd : p + j = q + i) : EqualRun x y p q m := by
  have hpart := h.part (d := p - i) (m := m) (by omega)
  rwa [Nat.add_sub_cancel' hp, show j + (p - i) = q by omega] at hpart

/-- Two items of an equal run on its diagonal are equal. -/
theorem getElem?_eq (h : EqualRun x y i j n) {p q : Nat} (hp : i ≤ p) (hlt : p < i + n)
    (hd : p + j = q + i) : x[p]? = y[q]? := by
  have := h.eq (p - i) (by omega)
  rwa [show i + (p - i) = p by omega, show j + (p - i) = q by omega] at this

/-- An equal run with an equal item before it. -/
theorem extend_before (h : EqualRun x y i j n) (hi : 0 < i) (hj : 0 < j)
    (he : x[i - 1]? = y[j - 1]?) : EqualRun x y (i - 1) (j - 1) (n + 1) := by
  have := h.left_le
  have := h.right_le
  refine ⟨by omega, by omega, fun k hk => ?_⟩
  cases k with
  | zero => exact he
  | succ k =>
    rw [show i - 1 + (k + 1) = i + k by omega, show j - 1 + (k + 1) = j + k by omega]
    exact h.eq k (by omega)

/-- An equal run with an equal item after it. -/
theorem extend_after (h : EqualRun x y i j n) (hi : i + n < x.size) (hj : j + n < y.size)
    (he : x[i + n]? = y[j + n]?) : EqualRun x y i j (n + 1) := by
  refine ⟨by omega, by omega, fun k hk => ?_⟩
  rcases Nat.lt_succ_iff_lt_or_eq.mp hk with hk | rfl
  · exact h.eq k hk
  · exact he

/-- Equal runs are kept by a renaming of the items that keeps equal items equal. -/
theorem congr {x' y' : Array β} (h : EqualRun x y i j n) (hx : x.size = x'.size)
    (hy : y.size = y'.size)
    (he : ∀ p q, p < x.size → q < y.size → x[p]? = y[q]? → x'[p]? = y'[q]?) :
    EqualRun x' y' i j n := by
  have := h.left_le
  have := h.right_le
  exact ⟨by omega, by omega, fun k hk => he _ _ (by omega) (by omega) (h.eq k hk)⟩

/-- The items of an equal run are cut out of both arrays alike. -/
theorem iff_extract_eq : EqualRun x y i j n ↔
    i + n ≤ x.size ∧ j + n ≤ y.size ∧ x.extract i (i + n) = y.extract j (j + n) := by
  have hcut : ∀ {z : Array α} {p k : Nat}, p + n ≤ z.size →
      (z.extract p (p + n))[k]? = if k < n then z[p + k]? else none := by
    intro z p k hp
    rw [Array.getElem?_extract, Nat.min_eq_left hp, Nat.add_sub_cancel_left]
  constructor
  · intro h
    refine ⟨h.left_le, h.right_le, Array.ext_getElem? fun k => ?_⟩
    rw [hcut h.left_le, hcut h.right_le]
    split
    · exact h.eq k ‹_›
    · rfl
  · rintro ⟨hi, hj, he⟩
    refine ⟨hi, hj, fun k hk => ?_⟩
    simpa only [hcut hi, hcut hj, if_pos hk] using congrArg (·[k]?) he

/-- Every equal run lies in a maximal one on its diagonal. -/
theorem exists_maximal {i j n : Nat} (h : EqualRun x y i j n) :
    ∃ i' j' n', MaximalRun x y i' j' n' ∧ i' ≤ i ∧ i + n ≤ i' + n' ∧ i + j' = j + i' := by
  by_cases hb : 0 < i ∧ 0 < j ∧ x[i - 1]? = y[j - 1]?
  · have he := h.extend_before hb.1 hb.2.1 hb.2.2
    have := he.left_le
    obtain ⟨i', j', n', hm, hi, hn, hd⟩ := he.exists_maximal
    exact ⟨i', j', n', hm, by omega, by omega, by omega⟩
  · by_cases ha : i + n < x.size ∧ j + n < y.size ∧ x[i + n]? = y[j + n]?
    · have he := h.extend_after ha.1 ha.2.1 ha.2.2
      have := he.left_le
      obtain ⟨i', j', n', hm, hi, hn, hd⟩ := he.exists_maximal
      exact ⟨i', j', n', hm, by omega, by omega, by omega⟩
    · exact ⟨i, j, n, ⟨h, hb, ha⟩, by omega, by omega, by omega⟩
termination_by x.size - n

end EqualRun

/-! ## Maximal runs -/

namespace MaximalRun

variable {x y : Array α} {i j n i' j' n' : Nat}

theorem symm (h : MaximalRun x y i j n) : MaximalRun y x j i n :=
  ⟨h.run.symm, fun ⟨hj, hi, he⟩ => h.before ⟨hi, hj, he.symm⟩,
    fun ⟨hj, hi, he⟩ => h.after ⟨hi, hj, he.symm⟩⟩

/-- A maximal run does not start inside another one on its diagonal. -/
theorem start_le (h : MaximalRun x y i j n) (h' : MaximalRun x y i' j' n')
    (hd : i + j' = j + i') (hlt : i' < i + n) : i' ≤ i := by
  refine Nat.le_of_not_lt fun hi => h'.before ⟨by omega, by omega, ?_⟩
  exact h.run.getElem?_eq (by omega) (by omega) (by omega)

/-- A maximal run that starts before the end of another one on its diagonal ends no later. -/
theorem stop_le (h : MaximalRun x y i j n) (h' : MaximalRun x y i' j' n')
    (hd : i + j' = j + i') (hlt : i' < i + n) : i' + n' ≤ i + n := by
  have := h'.run.left_le
  have := h'.run.right_le
  refine Nat.le_of_not_lt fun hn => h.after ⟨by omega, by omega, ?_⟩
  exact h'.run.getElem?_eq (by omega) (by omega) (by omega)

/-- A maximal run is determined by its diagonal and an item of it. -/
theorem unique (h : MaximalRun x y i j n) (h' : MaximalRun x y i' j' n') (hd : i + j' = j + i')
    {p : Nat} (hp : i ≤ p) (hn : p < i + n) (hp' : i' ≤ p) (hn' : p < i' + n') :
    i = i' ∧ j = j' ∧ n = n' := by
  have h1 := h.start_le h' hd (by omega)
  have h2 := h'.start_le h (by omega) (by omega)
  have h3 := h.stop_le h' hd (by omega)
  have h4 := h'.stop_le h (by omega) (by omega)
  omega

/-- Maximal runs are kept by a renaming of the items under which equal items, and only they, stay
equal. -/
theorem congr {x' y' : Array β} (h : MaximalRun x y i j n) (hx : x.size = x'.size)
    (hy : y.size = y'.size)
    (he : ∀ p q, p < x.size → q < y.size → (x[p]? = y[q]? ↔ x'[p]? = y'[q]?)) :
    MaximalRun x' y' i j n := by
  have := h.run.left_le
  have := h.run.right_le
  refine ⟨h.run.congr hx hy fun p q hp hq => (he p q hp hq).mp, ?_, ?_⟩
  · rintro ⟨hi, hj, e⟩
    exact h.before ⟨hi, hj, (he _ _ (by omega) (by omega)).mpr e⟩
  · rintro ⟨hi, hj, e⟩
    exact h.after ⟨by omega, by omega, (he _ _ (by omega) (by omega)).mpr e⟩

end MaximalRun

/-! ## Growing a seed -/

namespace Match

variable {a b : Array Nat} {i j k n : Nat}

theorem le_runFrom_iff (hi : i ≤ a.size) (hj : j ≤ b.size) :
    n ≤ runFrom a b i j ↔ EqualRun a b i j n := by
  fun_induction runFrom a b i j generalizing n with
  | case1 i j h he ih =>
    cases n with
    | zero => simpa using EqualRun.zero hi hj
    | succ n =>
      rw [Nat.add_le_add_iff_right, ih (by omega) (by omega)]
      constructor
      · intro hr
        exact hr.extend_before (by omega) (by omega) (by simp [h, he])
      · intro hr
        exact hr.part (by omega)
  | case2 i j h he =>
    constructor
    · intro hn
      obtain rfl : n = 0 := by omega
      exact .zero hi hj
    · intro hr
      refine Nat.le_of_not_lt fun hlt => he ?_
      simpa [h] using hr.eq 0 hlt
  | case3 i j h =>
    constructor
    · intro hn
      obtain rfl : n = 0 := by omega
      exact .zero hi hj
    · intro hr
      have := hr.left_le
      have := hr.right_le
      omega

theorem le_runBefore_iff (hi : i ≤ a.size) (hj : j ≤ b.size) :
    n ≤ runBefore a b i j ↔ n ≤ i ∧ n ≤ j ∧ EqualRun a b (i - n) (j - n) n := by
  fun_induction runBefore a b i j generalizing n with
  | case1 i j y hy hx ih =>
    cases n with
    | zero => simpa using EqualRun.zero hi hj
    | succ n =>
      rw [Nat.add_le_add_iff_right, ih (by omega) (by omega), Nat.succ_sub_succ,
        Nat.succ_sub_succ, Nat.succ_le_succ_iff, Nat.succ_le_succ_iff]
      refine and_congr_right fun hni => and_congr_right fun hnj => ⟨fun hr => ?_, fun hr => ?_⟩
      · refine hr.extend_after (by omega) (by omega) ?_
        rw [Nat.sub_add_cancel hni, Nat.sub_add_cancel hnj, hx, hy]
      · exact hr.part (d := 0) (by omega)
  | case2 i j x y hy hx he =>
    constructor
    · intro hn
      obtain rfl : n = 0 := by omega
      exact ⟨by omega, by omega, .zero hi hj⟩
    · rintro ⟨hni, hnj, hr⟩
      refine Nat.le_of_not_lt fun hlt => he ?_
      simpa [hx, hy] using hr.getElem?_eq (p := i) (q := j) (by omega) (by omega) (by omega)
  | case3 i j hno =>
    exact (hno a[i] b[j] (by simp) (by simp)).elim
  | case4 i j hno =>
    constructor
    · intro hn
      obtain rfl : n = 0 := by omega
      exact ⟨by omega, by omega, .zero hi hj⟩
    · rintro ⟨hni, hnj, -⟩
      refine Nat.le_of_not_lt fun hlt => ?_
      exact hno (i - 1) (j - 1) (by omega) (by omega)

/-- Growing in both directions ends with a maximal run. -/
theorem maximalRun_runBefore_runFrom (hi : i ≤ a.size) (hj : j ≤ b.size) :
    MaximalRun a b (i - runBefore a b i j) (j - runBefore a b i j)
      (runBefore a b i j + runFrom a b i j) := by
  obtain ⟨hdi, hdj, hback⟩ := (le_runBefore_iff hi hj).mp (Nat.le_refl _)
  have hfront := (le_runFrom_iff hi hj).mp (Nat.le_refl _)
  have := hfront.left_le
  have := hfront.right_le
  generalize hd : runBefore a b i j = d at *
  generalize hm : runFrom a b i j = m at *
  refine ⟨⟨by omega, by omega, fun k hk => ?_⟩, ?_, ?_⟩
  · rcases Nat.lt_or_ge k d with h | h
    · exact hback.eq k h
    · exact hfront.getElem?_eq (by omega) (by omega) (by omega)
  · rintro ⟨hpi, hpj, he⟩
    have hmore := hback.extend_before hpi hpj he
    have := (le_runBefore_iff (n := d + 1) hi hj).mpr
      ⟨by omega, by omega, by simpa only [Nat.sub_sub] using hmore⟩
    omega
  · rintro ⟨hpi, hpj, he⟩
    rw [show i - d + (d + m) = i + m by omega, show j - d + (d + m) = j + m by omega] at he
    have := (le_runFrom_iff hi hj).mpr (hfront.extend_after (by omega) (by omega) he)
    omega

/-- The answer to a seed is the maximal run around it. -/
theorem maximalMatch_eq_some_iff {i' j' : Nat} :
    maximalMatch a i b j k = some (i', j', n) ↔
      0 < k ∧ MaximalRun a b i' j' n ∧ i' ≤ i ∧ i + k ≤ i' + n ∧ i + j' = j + i' := by
  simp only [maximalMatch]
  constructor
  · intro h
    split at h
    · contradiction
    · rename_i hk
      have hin : i < a.size ∧ j < b.size := by
        refine Decidable.byContradiction fun hout => hk (.inr ?_)
        rw [runFrom, dif_neg hout]
        omega
      have hmax := maximalRun_runBefore_runFrom (a := a) (b := b) (i := i) (j := j)
        (by omega) (by omega)
      have hback := (le_runBefore_iff (a := a) (b := b) (i := i) (j := j)
        (by omega) (by omega)).mp (Nat.le_refl _)
      simp only [Option.some.injEq, Prod.mk.injEq] at h
      obtain ⟨rfl, rfl, rfl⟩ := h
      exact ⟨by omega, hmax, by omega, by omega, by omega⟩
  · rintro ⟨hk, hmax, hi, hn, hd⟩
    have hleft := hmax.run.left_le
    have hright := hmax.run.right_le
    have hfront := (le_runFrom_iff (by omega) (by omega)).mpr (hmax.run.between hi hn hd)
    have hback := (le_runBefore_iff (a := a) (b := b) (i := i) (j := j)
      (by omega) (by omega)).mp (Nat.le_refl _)
    rw [if_neg (by omega)]
    -- both runs are maximal and hold the first symbol of the seed
    have hfound := maximalRun_runBefore_runFrom (a := a) (b := b) (i := i) (j := j)
      (by omega) (by omega)
    obtain ⟨hi', hj', hn'⟩ := hfound.unique hmax (by omega) (p := i) (by omega) (by omega)
      (by omega) (by omega)
    rw [hi', hj', hn']

/-- A seed has an answer if it is an equal run. -/
theorem isSome_maximalMatch_iff (hk : 0 < k) :
    (maximalMatch a i b j k).isSome ↔ EqualRun a b i j k := by
  rw [Option.isSome_iff_exists]
  constructor
  · rintro ⟨⟨i', j', n⟩, h⟩
    obtain ⟨-, hmax, hi, hn, hd⟩ := maximalMatch_eq_some_iff.mp h
    exact hmax.run.between hi hn hd
  · intro h
    obtain ⟨i', j', n, hmax, hi, hn, hd⟩ := h.exists_maximal
    exact ⟨(i', j', n), maximalMatch_eq_some_iff.mpr ⟨hk, hmax, hi, hn, hd⟩⟩

/-- **Growing a seed.** A seed has an answer exactly when it lies inside both lists and its symbols
are equal. The answer is an equal run around the seed, on its diagonal, that no symbol on either
side extends. Every seed in a maximal run has this run as its answer, so any two seeds in it
agree. -/
theorem maximalMatch_grows (a b : Array Nat) (i j k : Nat) (hk : 1 ≤ k) :
    ((maximalMatch a i b j k).isSome ↔
      i + k ≤ a.size ∧ j + k ≤ b.size ∧ a.extract i (i + k) = b.extract j (j + k)) ∧
    (∀ i' j' n, maximalMatch a i b j k = some (i', j', n) →
      (i' ≤ i ∧ i + k ≤ i' + n ∧ i + j' = j + i') ∧
      (i' + n ≤ a.size ∧ j' + n ≤ b.size ∧ a.extract i' (i' + n) = b.extract j' (j' + n)) ∧
      ¬ (0 < i' ∧ 0 < j' ∧ a[i' - 1]? = b[j' - 1]?) ∧
      ¬ (i' + n < a.size ∧ j' + n < b.size ∧ a[i' + n]? = b[j' + n]?)) ∧
    ∀ i' j' n, MaximalRun a b i' j' n → i' ≤ i → i + k ≤ i' + n → i + j' = j + i' →
      maximalMatch a i b j k = some (i', j', n) ∧
      ∀ p q m, 1 ≤ m → i' ≤ p → p + m ≤ i' + n → p + j' = q + i' →
        maximalMatch a p b q m = maximalMatch a i b j k := by
  refine ⟨?_, fun i' j' n h => ?_, fun i' j' n hmax hi hn hd => ?_⟩
  · rw [isSome_maximalMatch_iff hk, EqualRun.iff_extract_eq]
  · obtain ⟨-, hmax, hseed⟩ := maximalMatch_eq_some_iff.mp h
    exact ⟨hseed, EqualRun.iff_extract_eq.mp hmax.run, hmax.before, hmax.after⟩
  · have hfound := maximalMatch_eq_some_iff.mpr ⟨hk, hmax, hi, hn, hd⟩
    refine ⟨hfound, fun p q m hm hp hpn hpd => ?_⟩
    rw [hfound, maximalMatch_eq_some_iff]
    exact ⟨hm, hmax, hp, hpn, hpd⟩

/-- Two seeds in one run. -/
theorem maximalMatch_grows_bothWays :
    maximalMatch #[9, 1, 2, 3, 4, 5, 8] 3 #[1, 2, 3, 4, 5, 7] 2 2 = some (1, 0, 5) ∧
    maximalMatch #[9, 1, 2, 3, 4, 5, 8] 1 #[1, 2, 3, 4, 5, 7] 0 1 =
      maximalMatch #[9, 1, 2, 3, 4, 5, 8] 3 #[1, 2, 3, 4, 5, 7] 2 2 := by
  obtain ⟨-, -, hgrows⟩ :=
    maximalMatch_grows #[9, 1, 2, 3, 4, 5, 8] #[1, 2, 3, 4, 5, 7] 3 2 2 (by decide)
  obtain ⟨hfound, hsame⟩ := hgrows 1 0 5 (by decide) (by decide) (by decide) (by decide)
  exact ⟨hfound, hsame 1 0 1 (by decide) (by decide) (by decide) (by decide)⟩

end Match

end CloneDetection
