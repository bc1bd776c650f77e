import CloneDetection.Proofs.Coverage

/-!
# Retiring chains early

A chain is retired as soon as it ends too far before the start of the candidate at hand. Whether a
candidate can follow a chain is decided otherwise, by the parts of it that lie past the chain on both
sides. But what follows a chain is in reach of it, and candidates are visited by their starts, so no
later candidate can follow a retired chain, and which of the others comes first stays the same.

`bridgeGapsOpen` keeps every chain of a pair of streams open to the end. `Chains.Simulates` relates a
run that retires chains to one that does not; it is kept by every visit
(`Chains.Simulates.visit`), so both end with the same chains and joins (`bridgeGaps_eq_open`).
-/

namespace CloneDetection

theorem Candidate.sort_congr {l l' : List Candidate} (h : l.Perm l') : sort l = sort l' :=
  eq_mergeSort_key (fun _ _ _ _ => key_injective) ((List.mergeSort_perm l _).trans h)
    (pairwise_sort l)

/-- Measures that agree on the items of a list have the same sum. -/
theorem sumBy_map_congr {α β : Type} {f g : α → β × Nat} {l : List α}
    (h : ∀ x ∈ l, (f x).2 = (g x).2) : sumBy (·.2) (l.map f) = sumBy (·.2) (l.map g) := by
  induction l with
  | nil => rfl
  | cons x l ih =>
    obtain ⟨hx, hl⟩ := List.forall_mem_cons.mp h
    rw [List.map_cons, List.map_cons, sumBy_cons, sumBy_cons, hx, ih hl]

namespace Match

variable {maxGap start : Nat} {chain next later tail : Candidate} {l out : List Candidate}
  {chains kept : Chains}

/-! ## Bridging without retiring -/

/-- The chains after one more candidate, none of which is ever retired. -/
def Chains.visitOpen (maxGap : Nat) (chains : Chains) (next : Candidate) : Chains :=
  match attach? maxGap next chains.opened with
  | some opened => { chains with opened, joins := chains.joins + 1 }
  | none => { chains with opened := chains.opened ++ [next] }

/-- The chains of the candidates of one pair of streams, all open to the end, and the number of
joins. -/
def chainGroupOpen (maxGap : Nat) (group : List Candidate) : List Candidate × Nat :=
  let chains := group.foldl (Chains.visitOpen maxGap) {}
  (chains.opened, chains.joins)

/-- Candidates with gaps bridged, in order, and the number of joins, when every candidate may follow
any chain of its streams. -/
def bridgeGapsOpen (candidates : List Candidate) (maxGap : Nat) : List Candidate × Nat :=
  let groups := (streamGroups candidates).map (chainGroupOpen maxGap)
  (Candidate.sort (groups.flatMap (·.1)), sumBy (·.2) groups)

/-! ## Chains in reach -/

/-- A chain ends no later for what it takes up than the latter does. -/
theorem Fits.join (h : Fits maxGap chain) (hnext : Fits maxGap next)
    (htail : follow? maxGap chain next = some tail) : Fits maxGap (join chain tail) := by
  obtain ⟨inside, -, -, -, -, rfl⟩ := follow?_eq_some_iff.mp htail
  simp only [Fits, Match.join] at *
  omega

theorem Fits.inReach_join (h : Fits maxGap chain) (hnext : Fits maxGap next)
    (htail : follow? maxGap chain next = some tail) :
    inReach maxGap next (Match.join chain tail) = true := by
  have hreach := h.inReach_iff.mp (h.inReach_of_follow? htail)
  rw [(h.join hnext htail).inReach_iff]
  simp only [Match.join]
  omega

/-- A chain in reach of a later candidate is in reach of an earlier one. -/
theorem inReach_of_le (hle : next.a.start ≤ later.a.start)
    (h : inReach maxGap later chain = true) : inReach maxGap next chain = true := by
  rw [inReach, decide_eq_true_eq] at h ⊢
  omega

theorem filter_inReach_filter (hle : next.a.start ≤ later.a.start) (l : List Candidate) :
    (l.filter (inReach maxGap next)).filter (inReach maxGap later) =
      l.filter (inReach maxGap later) := by
  rw [List.filter_filter]
  refine List.filter_congr fun chain _ => ?_
  rw [Bool.and_eq_left_iff_imp]
  exact inReach_of_le hle

/-- A candidate is taken up by the same chain when those out of reach are left out. -/
theorem attach?_filter_inReach (hnext : Fits maxGap next) (hl : ∀ chain ∈ l, Fits maxGap chain) :
    attach? maxGap next (l.filter (inReach maxGap next)) =
      (attach? maxGap next l).map (List.filter (inReach maxGap next)) := by
  induction l with
  | nil => rfl
  | cons chain rest ih =>
    obtain ⟨hchain, hrest⟩ := List.forall_mem_cons.mp hl
    cases hreach : inReach maxGap next chain with
    | false =>
      have hnone : follow? maxGap chain next = none := by
        rw [Option.eq_none_iff_forall_ne_some]
        intro tail htail
        rw [hchain.inReach_of_follow? htail] at hreach
        cases hreach
      rw [List.filter_cons_of_neg (by simp [hreach]), ih hrest, attach?, hnone]
      cases attach? maxGap next rest <;> simp [hreach]
    | true =>
      rw [List.filter_cons_of_pos hreach, attach?, attach?]
      cases htail : follow? maxGap chain next with
      | some tail => simp [hchain.inReach_join hnext htail]
      | none =>
        rw [ih hrest]
        cases attach? maxGap next rest <;> simp [hreach]

/-- Chains out of reach are not touched. -/
theorem filter_not_inReach_of_attach? (hnext : Fits maxGap next)
    (hl : ∀ chain ∈ l, Fits maxGap chain) (h : attach? maxGap next l = some out) :
    out.filter (fun chain => !inReach maxGap next chain) =
      l.filter fun chain => !inReach maxGap next chain := by
  obtain ⟨l₁, chain, l₂, tail, rfl, htail, rfl⟩ := attach?_eq_some h
  have hchain : Fits maxGap chain := hl chain (by simp)
  simp [hchain.inReach_of_follow? htail, hchain.inReach_join hnext htail]

/-! ## The two runs -/

/-- A run that retires chains and one that does not have the same chains and joins, and the chains in
reach of a candidate that starts at `start` or later are the same and in the same order. -/
structure Chains.Simulates (maxGap start : Nat) (chains kept : Chains) : Prop where
  reach : ∀ next : Candidate, start ≤ next.a.start →
    kept.opened.filter (inReach maxGap next) = chains.opened.filter (inReach maxGap next)
  all : kept.opened.Perm chains.all
  fits : ∀ chain ∈ kept.opened, Fits maxGap chain
  joins : kept.joins = chains.joins

/-- The chains out of reach are those that were retired or are now. -/
theorem Chains.Simulates.perm_retired (h : chains.Simulates maxGap start kept)
    (hstart : start ≤ next.a.start) :
    (kept.opened.filter fun chain => !inReach maxGap next chain).Perm
      (chains.opened.filter (fun chain => !inReach maxGap next chain) ++ chains.retired) := by
  have hkept := List.filter_append_perm (inReach maxGap next) kept.opened
  have hopened := List.filter_append_perm (inReach maxGap next) chains.opened
  rw [h.reach next hstart] at hkept
  rw [← List.perm_append_left_iff (chains.opened.filter (inReach maxGap next)),
    ← List.append_assoc]
  calc (chains.opened.filter (inReach maxGap next) ++
        kept.opened.filter fun chain => !inReach maxGap next chain)
      |>.Perm kept.opened := hkept
    _ |>.Perm (chains.retired ++ chains.opened) := h.all
    _ |>.Perm (chains.opened ++ chains.retired) := List.perm_append_comm
    _ |>.Perm _ := (hopened.symm).append_right _

/-- One visit keeps the two runs together: the candidate is taken up by the same chain in both, or by
none in both. -/
theorem Chains.Simulates.visit (h : chains.Simulates maxGap start kept)
    (hstart : start ≤ next.a.start) (hnext : Fits maxGap next) :
    (chains.visit maxGap next).Simulates maxGap next.a.start (kept.visitOpen maxGap next) := by
  have hretired := h.perm_retired hstart
  have hattach := attach?_filter_inReach hnext h.fits
  rw [h.reach next hstart] at hattach
  rw [Chains.visit, Chains.visitOpen]
  cases hkept : attach? maxGap next kept.opened with
  | some out =>
    rw [hkept, Option.map_some] at hattach
    rw [hattach]
    have hfits : ∀ chain ∈ out, Fits maxGap chain := of_mem_attach? hkept h.fits
      fun chain hchain tail => (h.fits chain hchain).join hnext
    refine ⟨fun later hle => (filter_inReach_filter hle out).symm, ?_, hfits,
      congrArg (· + 1) h.joins⟩
    rw [← filter_not_inReach_of_attach? hnext h.fits hkept] at hretired
    calc out
      |>.Perm (_ ++ _) := (List.filter_append_perm (inReach maxGap next) out).symm
      _ |>.Perm (_ ++ _) := List.perm_append_comm
      _ |>.Perm (_ ++ _) := hretired.append_right _
  | none =>
    rw [hkept, Option.map_none] at hattach
    rw [hattach, ← h.reach next hstart]
    have hfits : ∀ chain ∈ kept.opened ++ [next], Fits maxGap chain := by
      simpa [or_imp, forall_and] using ⟨h.fits, hnext⟩
    refine ⟨fun later hle => ?_, ?_, hfits, h.joins⟩
    · simp only [List.filter_append, filter_inReach_filter hle]
    · rw [Chains.all, ← List.append_assoc]
      refine List.Perm.append_right [next] ?_
      calc kept.opened
        |>.Perm (_ ++ _) := (List.filter_append_perm (inReach maxGap next) kept.opened).symm
        _ |>.Perm (_ ++ _) := List.perm_append_comm
        _ |>.Perm (_ ++ _) := hretired.append_right _

theorem Chains.Simulates.foldl_visit {group : List Candidate}
    (h : chains.Simulates maxGap start kept) (hstart : ∀ c ∈ group, start ≤ c.a.start)
    (hfits : ∀ c ∈ group, Fits maxGap c)
    (hsorted : group.Pairwise fun c d => c.a.start ≤ d.a.start) :
    ∃ stop, (group.foldl (Chains.visit maxGap) chains).Simulates maxGap stop
      (group.foldl (Chains.visitOpen maxGap) kept) := by
  induction group generalizing start chains kept with
  | nil => exact ⟨start, h⟩
  | cons next group ih =>
    obtain ⟨hnext, hgroup⟩ := List.pairwise_cons.mp hsorted
    obtain ⟨hfit, hfits⟩ := List.forall_mem_cons.mp hfits
    exact ih (h.visit (hstart next List.mem_cons_self) hfit) hnext hfits hgroup

/-- The chains of candidates sorted by their starts are the same, and so are the joins, when all of
them are kept open. -/
theorem chainGroupOpen_perm {group : List Candidate} (hfits : ∀ c ∈ group, Fits maxGap c)
    (hsorted : group.Pairwise fun c d => c.a.start ≤ d.a.start) :
    (chainGroupOpen maxGap group).1.Perm (chainGroup maxGap group).1 ∧
      (chainGroupOpen maxGap group).2 = (chainGroup maxGap group).2 := by
  have hnone : Chains.Simulates maxGap 0 {} {} := ⟨fun _ _ => rfl, .refl _, by simp, rfl⟩
  obtain ⟨stop, hrun⟩ := hnone.foldl_visit (fun _ _ => Nat.zero_le _) hfits hsorted
  exact ⟨hrun.all, hrun.joins⟩

/-! ## All pairs of streams -/

theorem pairwise_start_of_mem_streamGroups {candidates group : List Candidate}
    (h : group ∈ streamGroups candidates) :
    group.Pairwise fun c d => c.a.start ≤ d.a.start := by
  refine (pairwise_of_mem_streamGroups h).imp_of_mem fun {c d} hc hd hle => ?_
  have hstart := start_le_of_visitKey_le hle (streamPair_eq_of_mem_streamGroups h hc hd)
  omega

theorem bridgeGaps_eq_open {candidates : List Candidate}
    (hfits : ∀ c ∈ candidates, Fits maxGap c) :
    bridgeGaps candidates maxGap = bridgeGapsOpen candidates maxGap := by
  have hgroup := fun group (h : group ∈ streamGroups candidates) =>
    chainGroupOpen_perm (fun c hc => hfits c (mem_of_mem_streamGroups h hc))
      (pairwise_start_of_mem_streamGroups h)
  refine Prod.ext (Candidate.sort_congr ?_) ?_
  · rw [List.flatMap_map, List.flatMap_map]
    exact List.Perm.flatMap_left _ fun group h => (hgroup group h).1.symm
  · exact sumBy_map_congr fun group h => (hgroup group h).2.symm

/-- The order of the candidates does not matter when no two of them have the same key. -/
theorem bridgeGaps_perm {candidates l : List Candidate} (maxGap : Nat)
    (hkeys : (candidates.map visitKey).Nodup) (hperm : l.Perm candidates) :
    bridgeGaps l maxGap = bridgeGaps candidates maxGap := by
  have hsorted : l.mergeSort (fun c d => (visitKey c).le (visitKey d)) =
      candidates.mergeSort fun c d => (visitKey c).le (visitKey d) :=
    eq_mergeSort_key (fun c hc d hd => List.inj_on_of_nodup_map hkeys hc hd)
      ((List.mergeSort_perm l _).trans hperm) (pairwise_mergeSort_key visitKey l)
  rw [bridgeGaps, bridgeGaps, hsorted]

/-- Retiring chains early changes neither the candidates after bridging nor the number of joins, as
long as no sum overflows, and neither depends on the order of candidates no two of which have the
same key. -/
theorem bridgeGaps_retirement {candidates : List Candidate} {maxGap : Nat}
    (hfits : ∀ c ∈ candidates, Fits maxGap c) (hkeys : (candidates.map visitKey).Nodup) :
    bridgeGaps candidates maxGap = bridgeGapsOpen candidates maxGap ∧
      ∀ l : List Candidate, l.Perm candidates →
        bridgeGaps l maxGap = bridgeGaps candidates maxGap :=
  ⟨bridgeGaps_eq_open hfits, fun _ => bridgeGaps_perm maxGap hkeys⟩

/-- The last piece retires the chain of the others. -/
theorem bridgeGaps_retirement_pieces : (∀ c ∈ pieces, Fits 2 c) ∧ (pieces.map visitKey).Nodup ∧
    (pieces.foldl (Chains.visit 2) {}).retired.length = 1 ∧
    bridgeGaps pieces 2 = bridgeGapsOpen pieces 2 ∧
    bridgeGaps pieces.reverse 2 = bridgeGaps pieces 2 := by
  have hfits : ∀ c ∈ pieces, Fits 2 c := by decide
  have hkeys : (pieces.map visitKey).Nodup := by decide
  obtain ⟨hopen, hperm⟩ := bridgeGaps_retirement hfits hkeys
  exact ⟨hfits, hkeys, by decide, hopen, hperm _ (List.reverse_perm pieces)⟩

end Match

end CloneDetection
