import CloneDetection.Proofs.ReportShape

/-!
# The matches that suppression keeps

The matches of two streams are tried by `Oriented.priority`: those with the most tokens first, then
by their starts and ends. A match is kept exactly when no kept match of its streams that was tried
before it subsumes it. This settles what is kept (`Oriented.suppress_eq_kernel`): the order is strict,
so only one set of matches has that property, and it does not depend on the order in which the matches
are given or on how often each one is.
-/

namespace CloneDetection.Oriented

variable {threshold : Float} {l l' : List Oriented} {m n : Oriented}

/-- The order in which the matches of two streams are tried: by the number of tokens, the greatest
first, then by the starts and the ends of both sides. -/
def priority (m : Oriented) : ℕᵒᵈ ×ₗ ℕ ×ₗ ℕ ×ₗ ℕ ×ₗ ℕ :=
  toLex (OrderDual.toDual m.matched, toLex (m.target.start, toLex (m.source.start,
    toLex (m.target.stop, m.source.stop))))

/-- A match is tried before another one of the same streams. -/
def TriedBefore (n m : Oriented) : Prop :=
  n.streamPair = m.streamPair ∧ n.priority < m.priority

instance (n m : Oriented) : Decidable (n.TriedBefore m) :=
  inferInstanceAs (Decidable (_ ∧ _))

/-- Matches are reported by the number of tokens, the greatest first, then by target and source. -/
def rank (m : Oriented) : ℕᵒᵈ ×ₗ (ℕ ×ₗ ℕ ×ₗ ℕ) ×ₗ ℕ ×ₗ ℕ ×ₗ ℕ :=
  toLex (OrderDual.toDual m.matched, toLex (m.target.rank, m.source.rank))

/-- Matches of the same streams are visited in the order of their priorities. -/
theorem before_iff (hstreams : n.streamPair = m.streamPair) :
    n.Before m ↔ n.priority < m.priority := by
  rcases m with ⟨⟨_, _, _⟩, ⟨_, _, _⟩, _⟩
  rcases n with ⟨⟨_, _, _⟩, ⟨_, _, _⟩, _⟩
  obtain ⟨ht, hs⟩ := Prod.mk.inj hstreams
  simp only [Before, visitKey, Key.le, Bool.or_eq_true, Bool.and_eq_true, decide_eq_true_eq,
    beq_iff_eq, ne_eq, mk.injEq, TokenRange.mk.injEq, priority, Prod.Lex.toLex_lt_toLex,
    OrderDual.toDual_lt_toDual, EmbeddingLike.apply_eq_iff_eq] at ht hs ⊢
  omega

theorem beats_iff : Beats threshold n m ↔ n.TriedBefore m ∧ m.isSubsumed threshold n = true := by
  constructor
  · intro h
    exact ⟨⟨h.streams, (before_iff h.streams).mp h.before⟩, h.subsumes⟩
  · rintro ⟨⟨hstreams, hlt⟩, hsub⟩
    exact ⟨(before_iff hstreams).mpr hlt, hstreams, hsub⟩

/-- The matches of a kernel are those that none of it that is tried before them subsumes. -/
theorem isKernel_iff {K : Set Oriented} : IsKernel threshold l K ↔ ∀ m, m ∈ K ↔
    m ∈ l ∧ ∀ n ∈ K, n.TriedBefore m → m.isSubsumed threshold n = false := by
  simp only [IsKernel, beats_iff, not_and, Bool.not_eq_true]

theorem rank_lt (hle : m.reportKey.le n.reportKey = true) (hne : m ≠ n) : m.rank < n.rank := by
  rw [rank, rank, Prod.Lex.toLex_lt_toLex]
  rcases rank_lt_of_reportKey_le hle hne with hmatched | ⟨hmatched, hsides⟩
  · exact .inl hmatched
  · refine .inr ⟨congrArg OrderDual.toDual hmatched.symm, ?_⟩
    rw [Prod.Lex.toLex_lt_toLex]
    exact hsides.imp_right fun h => ⟨congrArg TokenRange.rank h.1, h.2⟩

/-- What is kept depends on which matches are given only. -/
theorem suppress_congr (h : ∀ m ∈ l, m.HasTokens) (hl : ∀ m, m ∈ l' ↔ m ∈ l) :
    suppress threshold l' = suppress threshold l := by
  have hkernel : IsKernel threshold l' {m | m ∈ suppress threshold l} := fun m => by
    rw [hl m, isKernel_suppress threshold l m]
  exact suppress_eq_of_isKernel (fun m hm => h m ((hl m).mp hm)) hkernel (nodup_suppress h)
    (pairwise_mergeSort_key reportKey _)

/-- **Suppression computes the kernel.** The matches that are kept are those that no kept one tried
before them subsumes, and only they have that property. They are listed once each and in order,
every other match is subsumed by one with at least as many tokens, and neither order nor repetition of
the matches given changes anything. -/
theorem suppress_eq_kernel (threshold : Float) (h : ∀ m ∈ l, m.HasTokens) :
    (∀ m, m ∈ suppress threshold l ↔ m ∈ l ∧ ∀ n ∈ suppress threshold l,
        n.TriedBefore m → m.isSubsumed threshold n = false) ∧
      (∀ K : Set Oriented, (∀ m, m ∈ K ↔ m ∈ l ∧ ∀ n ∈ K, n.TriedBefore m →
        m.isSubsumed threshold n = false) → K = {m | m ∈ suppress threshold l}) ∧
      (suppress threshold l).Nodup ∧
      (∀ m ∈ l, m ∉ suppress threshold l → ∃ n ∈ suppress threshold l, n.TriedBefore m ∧
        m.isSubsumed threshold n = true ∧ m.matched ≤ n.matched) ∧
      (∀ m ∈ suppress threshold l, ∀ n ∈ suppress threshold l, n.TriedBefore m →
        m.isSubsumed threshold n = false) ∧
      ((suppress threshold l).Pairwise fun m n => m.rank < n.rank) ∧
      ∀ l', (∀ m, m ∈ l' ↔ m ∈ l) → suppress threshold l' = suppress threshold l := by
  have hkernel := isKernel_suppress threshold l
  have hmem := isKernel_iff.mp hkernel
  refine ⟨hmem, fun K hK => (isKernel_iff.mpr hK).eq hkernel, nodup_suppress h, ?_,
    fun m hm => ((hmem m).mp hm).2, ?_, fun l' => suppress_congr h⟩
  · intro m hm hdropped
    obtain ⟨n, hn, rfl | hbeats⟩ : ∃ n ∈ suppress threshold l, n = m ∨ Beats threshold n m :=
      exists_kept hm
    · exact absurd hn hdropped
    · obtain ⟨hbefore, hsub⟩ := beats_iff.mp hbeats
      exact ⟨n, hn, hbefore, hsub, hbeats.before.matched_le hbeats.streams⟩
  · exact (pairwise_reportKey h).imp fun {m n} hmn => rank_lt hmn.1 hmn.2

/-- Three matches, the longest one twice: it subsumes the second one, which subsumes the last one. -/
def ladder : List Oriented :=
  [⟨⟨0, 10, 22⟩, ⟨1, 20, 32⟩, 12⟩, ⟨⟨0, 0, 21⟩, ⟨1, 0, 21⟩, 21⟩, ⟨⟨0, 0, 20⟩, ⟨1, 20, 40⟩, 20⟩,
    ⟨⟨0, 0, 21⟩, ⟨1, 0, 21⟩, 21⟩]

/-- The last match is kept, since what subsumes it is not. -/
theorem suppress_eq_kernel_ladder : (∀ m ∈ ladder, m.HasTokens) ∧
    ⟨⟨0, 0, 20⟩, ⟨1, 20, 40⟩, 20⟩ ∈ ladder ∧
    {m | m ∈ suppress 0.8 ladder} =
      {⟨⟨0, 0, 21⟩, ⟨1, 0, 21⟩, 21⟩, ⟨⟨0, 10, 22⟩, ⟨1, 20, 32⟩, 12⟩} ∧
    suppress 0.8 ladder.reverse = suppress 0.8 ladder := by
  have h : ∀ m ∈ ladder, m.HasTokens := by simp [ladder, HasTokens]
  obtain ⟨-, hunique, -, -, -, -, hcongr⟩ := suppress_eq_kernel 0.8 h
  have hkernel : IsKernel 0.8 ladder
      {m | m ∈ [⟨⟨0, 0, 21⟩, ⟨1, 0, 21⟩, 21⟩, ⟨⟨0, 10, 22⟩, ⟨1, 20, 32⟩, 12⟩]} := by decide
  refine ⟨h, by decide, ?_, hcongr _ fun m => List.mem_reverse⟩
  rw [← hunique _ (isKernel_iff.mp hkernel)]
  simp [Set.ext_iff]

end CloneDetection.Oriented
