import CloneDetection.Proofs.Relabeling

/-!
# The kernel that suppression computes

Suppression visits the matches of two streams in a fixed order and keeps one unless a kept match
before it subsumes it. So what is kept is a kernel of the relation `Beats`: a match is kept exactly
when no kept match beats it (`isKernel_suppress`). The order of the visits is strict, so there is
only one kernel (`IsKernel.eq`), and to know what is kept of some matches it is enough to name a
list in the order of a report that is a kernel of them (`suppress_eq_of_isKernel`).
-/

namespace CloneDetection.Oriented

variable {threshold : Float} {l : List Oriented} {m n : Oriented}

/-! ## The order of visits -/

/-- A match is visited before another one. -/
def Before (n m : Oriented) : Prop :=
  n.visitKey.le m.visitKey = true ∧ n ≠ m

instance (n m : Oriented) : Decidable (n.Before m) :=
  inferInstanceAs (Decidable (_ ∧ _))

theorem Before.not_le (h : n.Before m) : ¬ m.visitKey.le n.visitKey = true := fun hle =>
  h.2 (eq_of_visitKey_eq (Key.le_antisymm h.1 hle))

instance : IsStrictOrder Oriented Before where
  irrefl _ h := h.2 rfl
  trans _ _ _ h h' := by
    refine ⟨Key.le_trans h.1 h'.1, ?_⟩
    rintro rfl
    exact h.not_le h'.1

theorem Before.matched_le (h : n.Before m) (hstreams : n.streamPair = m.streamPair) :
    m.matched ≤ n.matched := by
  obtain ⟨ht, hs⟩ := Prod.mk.inj hstreams
  have hle := h.1
  simp only [visitKey, Key.le, Bool.or_eq_true, Bool.and_eq_true, decide_eq_true_eq,
    beq_iff_eq] at hle
  omega

/-- A match beats another one of the same streams that is visited after it if it subsumes it. -/
structure Beats (threshold : Float) (n m : Oriented) : Prop where
  before : n.Before m
  streams : n.streamPair = m.streamPair
  subsumes : m.isSubsumed threshold n = true

instance (threshold : Float) (n m : Oriented) : Decidable (Beats threshold n m) :=
  decidable_of_iff (n.Before m ∧ n.streamPair = m.streamPair ∧ m.isSubsumed threshold n = true)
    ⟨fun h => ⟨h.1, h.2.1, h.2.2⟩, fun h => ⟨h.before, h.streams, h.subsumes⟩⟩

/-! ## One group -/

/-- Of a sorted group those matches are kept that no kept one before them subsumes. -/
theorem mem_keep_iff {kept : List Oriented}
    (h : (kept.reverse ++ l).Pairwise fun m n => m.visitKey.le n.visitKey = true) :
    m ∈ keep threshold kept l ↔ m ∈ kept ∨ m ∈ l ∧
      ∀ n ∈ keep threshold kept l, n.Before m → m.isSubsumed threshold n = false := by
  induction l generalizing kept with
  | nil => simp [keep]
  | cons a l ih =>
    have hkept : ∀ k ∈ kept, k.visitKey.le a.visitKey = true := fun k hk =>
      (List.pairwise_append.mp h).2.2 k (List.mem_reverse.mpr hk) a List.mem_cons_self
    have hrest : ∀ n ∈ l, a.visitKey.le n.visitKey = true :=
      (List.pairwise_cons.mp (List.pairwise_append.mp h).2.1).1
    rw [keep]
    split
    · rename_i hany
      obtain ⟨k, hk, hsub⟩ := List.any_eq_true.mp hany
      have hih := ih (h.sublist ((List.sublist_cons_self a l).append_left _))
      constructor
      · exact fun hm => (hih.mp hm).imp_right fun h => ⟨List.mem_cons_of_mem a h.1, h.2⟩
      · rintro (hm | ⟨hm, hnot⟩)
        · exact hih.mpr (.inl hm)
        · rcases List.mem_cons.mp hm with rfl | hm
          · by_cases heq : k = m
            · exact mem_keep_of_mem (heq ▸ hk)
            · have := hnot k (mem_keep_of_mem hk) ⟨hkept k hk, heq⟩
              rw [hsub] at this
              cases this
          · exact hih.mpr (.inr ⟨hm, hnot⟩)
    · rename_i hnone
      rw [Bool.not_eq_true, List.any_eq_false] at hnone
      have hih := ih (show ((a :: kept).reverse ++ l).Pairwise _ by simpa using h)
      constructor
      · intro hm
        rcases hih.mp hm with hm | ⟨hm, hnot⟩
        · rcases List.mem_cons.mp hm with rfl | hm
          · refine .inr ⟨List.mem_cons_self, fun n hn hbefore => ?_⟩
            -- what is kept before `m` was kept when it was visited
            rcases mem_of_mem_keep hn with hn | hn
            · rcases List.mem_cons.mp hn with rfl | hn
              · exact absurd rfl hbefore.2
              · exact Bool.eq_false_iff.mpr (hnone n hn)
            · exact absurd (hrest n hn) hbefore.not_le
          · exact .inl hm
        · exact .inr ⟨List.mem_cons_of_mem a hm, hnot⟩
      · rintro (hm | ⟨hm, hnot⟩)
        · exact hih.mpr (.inl (List.mem_cons_of_mem a hm))
        · rcases List.mem_cons.mp hm with rfl | hm
          · exact mem_keep_of_mem List.mem_cons_self
          · exact hih.mpr (.inr ⟨hm, hnot⟩)

theorem mem_suppress_iff_of_streamPair_eq (pair : ℕ × ℕ) (h : ∀ m ∈ l, m.streamPair = pair) :
    m ∈ suppress threshold l ↔
      m ∈ keep threshold [] (l.mergeSort fun m n => m.visitKey.le n.visitKey) := by
  rw [mem_suppress_iff]
  by_cases hnil : l = []
  · simp [hnil, keep]
  have hchain : (l.mergeSort fun m n => m.visitKey.le n.visitKey).IsChain
      fun m n => (m.streamPair == n.streamPair) = true := by
    refine (List.pairwise_of_forall_mem_list fun m hm n hn => ?_).isChain
    rw [List.mem_mergeSort] at hm hn
    rw [h m hm, h n hn, beq_self_eq_true]
  have hsorted : (l.mergeSort fun m n => m.visitKey.le n.visitKey) ≠ [] := by
    obtain ⟨k, hk⟩ := List.exists_mem_of_ne_nil l hnil
    exact List.ne_nil_of_mem (List.mem_mergeSort.mpr hk)
  rw [List.splitBy_of_isChain hsorted hchain]
  simp

/-- The matches of the streams of `m` decide whether it is kept. -/
theorem mem_suppress_iff_mem_keep : m ∈ suppress threshold l ↔ m ∈ keep threshold []
    ((l.filter fun n => n.streamPair == m.streamPair).mergeSort
      fun m n => m.visitKey.le n.visitKey) := by
  have hfilter := filter_suppress threshold l (· == m.streamPair)
  rw [← mem_suppress_iff_of_streamPair_eq m.streamPair, ← hfilter]
  · simp
  · intro n hn
    exact eq_of_beq (List.mem_filter.mp hn).2

/-! ## Kernels -/

/-- The matches in `K` are those of `l` that none in `K` beats. -/
def IsKernel (threshold : Float) (l : List Oriented) (K : Set Oriented) : Prop :=
  ∀ m, m ∈ K ↔ m ∈ l ∧ ∀ n ∈ K, ¬ Beats threshold n m

/-- What is kept is a kernel. -/
theorem isKernel_suppress (threshold : Float) (l : List Oriented) :
    IsKernel threshold l {m | m ∈ suppress threshold l} := by
  intro m
  have hsorted := pairwise_mergeSort_key visitKey (l.filter fun n => n.streamPair == m.streamPair)
  rw [Set.mem_ofPred_eq, mem_suppress_iff_mem_keep, mem_keep_iff (by simpa using hsorted)]
  simp only [List.not_mem_nil, false_or, List.mem_mergeSort, List.mem_filter, beq_self_eq_true,
    and_true, Set.mem_ofPred_eq]
  refine and_congr_right fun _ => ⟨fun h n hn hbeats => ?_, fun h n hn hbefore => ?_⟩
  · rw [mem_suppress_iff_mem_keep, hbeats.streams] at hn
    exact Bool.false_ne_true ((h n hn hbeats.before).symm.trans hbeats.subsumes)
  · have hstreams : n.streamPair = m.streamPair := by
      have := (mem_of_mem_keep hn).resolve_left List.not_mem_nil
      simpa using (List.mem_filter.mp (List.mem_mergeSort.mp this)).2
    by_contra hsub
    refine h n ?_ ⟨hbefore, hstreams, by simpa using hsub⟩
    rwa [mem_suppress_iff_mem_keep, hstreams]

/-- Of some matches each one is kept or beaten by one that is kept. -/
theorem exists_kept (h : m ∈ l) :
    ∃ n ∈ suppress threshold l, n = m ∨ Beats threshold n m := by
  by_cases hm : m ∈ suppress threshold l
  · exact ⟨m, hm, .inl rfl⟩
  · by_contra hnone
    refine hm ((isKernel_suppress threshold l m).mpr ⟨h, fun n hn hbeats => ?_⟩)
    exact hnone ⟨n, hn, .inr hbeats⟩

/-- A list has only one kernel. -/
theorem IsKernel.eq {K K' : Set Oriented} (h : IsKernel threshold l K)
    (h' : IsKernel threshold l K') : K = K' := by
  have hfinite : {m | m ∈ l}.Finite := List.finite_toSet l
  -- by induction on the order of visits: which matches before `m` are kept decides about `m`
  have hmem (m : Oriented) (hm : m ∈ l) : m ∈ K ↔ m ∈ K' := by
    refine (hfinite.wellFoundedOn (r := Before)).induction (P := fun m => m ∈ K ↔ m ∈ K') hm
      fun m _ ih => ?_
    rw [h m, h' m]
    refine and_congr_right fun _ => ⟨fun hnot n hn hbeats => ?_, fun hnot n hn hbeats => ?_⟩
    · exact hnot n ((ih n ((h' n).mp hn).1 hbeats.before).mpr hn) hbeats
    · exact hnot n ((ih n ((h n).mp hn).1 hbeats.before).mp hn) hbeats
  ext m
  exact ⟨fun hm => (hmem m ((h m).mp hm).1).mp hm, fun hm => (hmem m ((h' m).mp hm).1).mpr hm⟩

/-- To tell a kernel, it is enough to look at the matches of the list. -/
theorem isKernel_iff_forall_mem {K : List Oriented} : IsKernel threshold l {m | m ∈ K} ↔
    (∀ m ∈ K, m ∈ l) ∧ ∀ m ∈ l, m ∈ K ↔ ∀ n ∈ K, ¬ Beats threshold n m := by
  simp only [IsKernel, Set.mem_ofPred_eq]
  constructor
  · intro h
    exact ⟨fun m hm => ((h m).mp hm).1, fun m hm => by rw [h m, and_iff_right hm]⟩
  · rintro ⟨hsub, h⟩ m
    exact ⟨fun hm => ⟨hsub m hm, (h m (hsub m hm)).mp hm⟩, fun hm => (h m hm.1).mpr hm.2⟩

instance (threshold : Float) (l K : List Oriented) :
    Decidable (IsKernel threshold l {m | m ∈ K}) :=
  decidable_of_iff _ isKernel_iff_forall_mem.symm

/-- What is kept of some matches is a kernel of any list that holds the same ones. -/
theorem mem_suppress_iff_of_isKernel {l' K : List Oriented}
    (h : IsKernel threshold l {m | m ∈ K}) (hl : ∀ m, m ∈ l' ↔ m ∈ l) :
    m ∈ suppress threshold l' ↔ m ∈ K := by
  have hkernel : IsKernel threshold l' {m | m ∈ K} := fun m => by rw [h m, hl m]
  exact Set.ext_iff.mp ((isKernel_suppress threshold l').eq hkernel) m

/-! ## The report -/

/-- A match with tokens on both sides. -/
def HasTokens (m : Oriented) : Prop :=
  m.target.start < m.target.stop ∧ m.source.start < m.source.stop

theorem isSubsumed_self (h : m.HasTokens) : m.isSubsumed threshold m = true := by
  have hoverlap : 0 < m.source.overlap m.source := by
    have := h.2
    rw [TokenRange.overlap, if_pos rfl]
    omega
  simp [isSubsumed, hoverlap]

/-- No match is kept twice. -/
theorem nodup_suppress (h : ∀ m ∈ l, m.HasTokens) : (suppress threshold l).Nodup := by
  refine pairwise_suppress_of Ne.symm (fun hne heq => hne (by rw [heq])) ?_
  rintro m hm n - - hsub rfl
  rw [isSubsumed_self (h m hm)] at hsub
  cases hsub

/-- A list in the order of a report that is a kernel of some matches is what is kept of them. -/
theorem suppress_eq_of_isKernel {K : List Oriented} (h : ∀ m ∈ l, m.HasTokens)
    (hkernel : IsKernel threshold l {m | m ∈ K}) (hnodup : K.Nodup)
    (hsorted : K.Pairwise fun m n => m.reportKey.le n.reportKey = true) :
    suppress threshold l = K := by
  have hmem := (isKernel_suppress threshold l).eq hkernel
  refine List.Perm.eq_of_pairwise (fun m n _ _ hmn hnm => ?_) (pairwise_mergeSort_key reportKey _)
    hsorted ?_
  · exact reportKey_injective (Key.le_antisymm hmn hnm)
  · rw [List.perm_ext_iff_of_nodup (nodup_suppress h) hnodup]
    exact fun m => Set.ext_iff.mp hmem m

end CloneDetection.Oriented
