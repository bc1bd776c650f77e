import CloneDetection.Proofs.Matching

/-!
# Alignments behind bridged gaps

`Alignment x y gap r s pairs` lists equal items of a range of `x` and a range of `y`, from the first
items of both to the last ones, in steps over at most `gap` items on each side. An equal run is
aligned along its diagonal, and a run that follows a chain continues the alignment of the chain, so
every candidate of a search has an alignment of as many pairs as it counts
(`aligned_of_mem_candidates`). Without gaps an alignment is an equal run again
(`Alignment.equalRun`).

What joining keeps, bridging keeps: `bridgeGaps_induction`.
-/

namespace CloneDetection

/-! ## Alignments -/

/-- One step of an alignment goes forward on both sides, over at most `gap` items. -/
def Step (gap : Nat) (p q : Nat × Nat) : Prop :=
  p.1 < q.1 ∧ q.1 ≤ p.1 + gap + 1 ∧ p.2 < q.2 ∧ q.2 ≤ p.2 + gap + 1

/-- Pairs of equal items from the first items of two ranges to their last ones. -/
structure Alignment {α : Type} (x y : Array α) (gap : Nat) (r s : TokenRange)
    (pairs : List (Nat × Nat)) : Prop where
  equal : ∀ p ∈ pairs, p.1 < x.size ∧ p.2 < y.size ∧ x[p.1]? = y[p.2]?
  steps : pairs.IsChain (Step gap)
  first : pairs.head? = some (r.start, s.start)
  last : ∃ p, pairs.getLast? = some p ∧ r.stop = p.1 + 1 ∧ s.stop = p.2 + 1

/-- The pairs of `n` items from `i` and `j` on. -/
def diagonal (i j n : Nat) : List (Nat × Nat) :=
  (List.range n).map fun k => (i + k, j + k)

@[simp]
theorem length_diagonal (i j n : Nat) : (diagonal i j n).length = n := by
  simp [diagonal]

@[simp]
theorem getElem_diagonal {i j n k : Nat} (h : k < (diagonal i j n).length) :
    (diagonal i j n)[k] = (i + k, j + k) := by
  simp [diagonal]

theorem diagonal_succ (i j n : Nat) :
    diagonal i j (n + 1) = (i, j) :: diagonal (i + 1) (j + 1) n := by
  refine List.ext_getElem (by simp) fun k _ _ => ?_
  cases k with
  | zero => simp
  | succ k =>
    simp only [getElem_diagonal, List.getElem_cons_succ, Prod.mk.injEq]
    omega

namespace Alignment

variable {α : Type} {x y : Array α} {gap : Nat} {r s : TokenRange} {pairs : List (Nat × Nat)}

/-- An equal run is aligned along its diagonal. -/
theorem of_equalRun {i j n : Nat} (h : EqualRun x y i j n) (hn : 0 < n) (hr : r.start = i)
    (hr' : r.stop = i + n) (hs : s.start = j) (hs' : s.stop = j + n) :
    Alignment x y gap r s (diagonal i j n) := by
  have hx := h.left_le
  have hy := h.right_le
  refine ⟨fun p hp => ?_, ?_, ?_, ⟨(i + (n - 1), j + (n - 1)), ?_, ?_, ?_⟩⟩
  · obtain ⟨k, hk, rfl⟩ := List.mem_map.mp hp
    rw [List.mem_range] at hk
    exact ⟨by simp only; omega, by simp only; omega, h.eq k hk⟩
  · rw [List.isChain_iff_getElem]
    intro k hk
    simp only [getElem_diagonal, Step]
    omega
  · obtain ⟨n, rfl⟩ := Nat.exists_eq_succ_of_ne_zero (Nat.ne_of_gt hn)
    rw [diagonal_succ, List.head?_cons, hr, hs]
  · rw [List.getLast?_eq_getElem?, length_diagonal,
      List.getElem?_eq_getElem (by rw [length_diagonal]; omega), getElem_diagonal]
  · simp only
    omega
  · simp only
    omega

theorem symm (h : Alignment x y gap r s pairs) :
    Alignment y x gap s r (pairs.map Prod.swap) := by
  refine ⟨fun p hp => ?_, ?_, ?_, ?_⟩
  · obtain ⟨q, hq, rfl⟩ := List.mem_map.mp hp
    obtain ⟨hx, hy, he⟩ := h.equal q hq
    exact ⟨hy, hx, he.symm⟩
  · rw [List.isChain_map]
    exact h.steps.imp fun p q ⟨h₁, h₂, h₃, h₄⟩ => ⟨h₃, h₄, h₁, h₂⟩
  · rw [List.head?_map, h.first]
    rfl
  · obtain ⟨p, hp, hr, hs⟩ := h.last
    exact ⟨p.swap, by rw [List.getLast?_map, hp]; rfl, hs, hr⟩

/-- A second alignment continues a first one when it starts after at most `gap` items. -/
theorem append {r' s' r'' s'' : TokenRange} {more : List (Nat × Nat)}
    (h : Alignment x y gap r s pairs) (h' : Alignment x y gap r' s' more)
    (hr : r.stop ≤ r'.start) (hr' : r'.start ≤ r.stop + gap) (hs : s.stop ≤ s'.start)
    (hs' : s'.start ≤ s.stop + gap) (hstart : r''.start = r.start) (hstop : r''.stop = r'.stop)
    (hstart' : s''.start = s.start) (hstop' : s''.stop = s'.stop) :
    Alignment x y gap r'' s'' (pairs ++ more) := by
  obtain ⟨p, hp, hrp, hsp⟩ := h.last
  refine ⟨fun q hq => ?_, ?_, ?_, ?_⟩
  · exact (List.mem_append.mp hq).elim (h.equal q) (h'.equal q)
  · rw [List.isChain_append]
    refine ⟨h.steps, h'.steps, fun a ha b hb => ?_⟩
    -- from the last pair of the first alignment to the first of the second
    rw [hp, Option.mem_def, Option.some.injEq] at ha
    rw [h'.first, Option.mem_def, Option.some.injEq] at hb
    subst ha hb
    simp only [Step]
    omega
  · rw [List.head?_append, h.first, hstart, hstart']
    rfl
  · rw [List.getLast?_append, hstop, hstop']
    obtain ⟨q, hq, hq'⟩ := h'.last
    exact ⟨q, by rw [hq]; rfl, hq'⟩

end Alignment

/-- Steps over no items stay on a diagonal. -/
theorem eq_diagonal_of_isChain {pairs : List (Nat × Nat)} {i j : Nat}
    (h : pairs.IsChain (Step 0)) (hfirst : pairs.head? = some (i, j)) :
    pairs = diagonal i j pairs.length := by
  induction pairs generalizing i j with
  | nil => simp at hfirst
  | cons p rest ih =>
    rw [List.head?_cons, Option.some.injEq] at hfirst
    subst hfirst
    rw [List.length_cons, diagonal_succ]
    cases rest with
    | nil => rfl
    | cons q rest =>
      obtain ⟨hstep, hrest⟩ := List.isChain_cons_cons.mp h
      simp only [Step] at hstep
      rw [← ih hrest]
      rw [List.head?_cons, Option.some.injEq]
      exact Prod.ext (by simp only; omega) (by simp only; omega)

/-- Without gaps, two aligned ranges are an equal run. -/
theorem Alignment.equalRun {α : Type} {x y : Array α} {r s : TokenRange}
    {pairs : List (Nat × Nat)} (h : Alignment x y 0 r s pairs) :
    EqualRun x y r.start s.start pairs.length ∧ r.stop = r.start + pairs.length ∧
      s.stop = s.start + pairs.length := by
  have hd := eq_diagonal_of_isChain h.steps h.first
  obtain ⟨p, hp, hr, hs⟩ := h.last
  have hpos : 0 < pairs.length := List.length_pos_of_mem (List.mem_of_getLast? hp)
  have pair {k : Nat} (hk : k < pairs.length) :
      (r.start + k, s.start + k) ∈ pairs := by
    rw [hd]
    exact List.mem_map.mpr ⟨k, List.mem_range.mpr hk, rfl⟩
  have hlast : p = (r.start + (pairs.length - 1), s.start + (pairs.length - 1)) := by
    rw [List.getLast?_eq_getElem?, List.getElem?_eq_getElem (by omega), Option.some.injEq] at hp
    rw [← hp]
    conv_lhs => rw [List.getElem_of_eq hd]
    exact getElem_diagonal _
  subst hlast
  have hlt := h.equal _ (pair (show pairs.length - 1 < pairs.length by omega))
  simp only at hr hs hlt
  exact ⟨⟨by omega, by omega, fun k hk => (h.equal _ (pair hk)).2.2⟩, by omega, by omega⟩

namespace Match

variable {maxGap : Nat} {P : Candidate → Prop}

/-! ## The candidates of a pair of streams -/

section Groups

variable {candidates group : List Candidate} {c d : Candidate}

/-- The candidates by pairs of streams, each group in the order of visits. -/
def streamGroups (candidates : List Candidate) : List (List Candidate) :=
  (candidates.mergeSort fun c d => (visitKey c).le (visitKey d)).splitBy
    fun c d => streamPair c == streamPair d

theorem flatten_streamGroups (candidates : List Candidate) : (streamGroups candidates).flatten =
    candidates.mergeSort fun c d => (visitKey c).le (visitKey d) :=
  List.flatten_splitBy _ _

theorem exists_mem_streamGroups (hc : c ∈ candidates) :
    ∃ group ∈ streamGroups candidates, c ∈ group := by
  rw [← List.mem_flatten, flatten_streamGroups]
  exact List.mem_mergeSort.mpr hc

theorem mem_of_mem_streamGroups (hgroup : group ∈ streamGroups candidates) (hc : c ∈ group) :
    c ∈ candidates := by
  have hmem := List.mem_flatten_of_mem hgroup hc
  rwa [flatten_streamGroups, List.mem_mergeSort] at hmem

theorem streamPair_eq_of_mem_streamGroups (hgroup : group ∈ streamGroups candidates)
    (hc : c ∈ group) (hd : d ∈ group) : streamPair c = streamPair d :=
  key_eq_of_mem_splitBy hgroup hc hd

theorem pairwise_of_mem_streamGroups (hgroup : group ∈ streamGroups candidates) :
    group.Pairwise fun c d => (visitKey c).le (visitKey d) = true := by
  have hsub := List.sublist_flatten_of_mem hgroup
  rw [flatten_streamGroups] at hsub
  exact (pairwise_mergeSort_key visitKey candidates).sublist hsub

/-- The bridged candidates are the chains of the groups. -/
theorem mem_bridgeGaps_iff : c ∈ (bridgeGaps candidates maxGap).1 ↔
    ∃ group ∈ streamGroups candidates, c ∈ (chainGroup maxGap group).1 := by
  simp only [bridgeGaps, Candidate.mem_sort, List.mem_flatMap, List.mem_map, exists_exists_and_eq_and]
  rfl

end Groups

/-! ## What bridging keeps -/

/-- The open chains after a candidate was taken up: the first one that it can follow has it. -/
theorem attach?_eq_some {next : Candidate} {l out : List Candidate}
    (h : attach? maxGap next l = some out) :
    ∃ l₁ chain l₂ tail, l = l₁ ++ chain :: l₂ ∧ follow? maxGap chain next = some tail ∧
      out = l₁ ++ join chain tail :: l₂ := by
  induction l generalizing out with
  | nil => simp [attach?] at h
  | cons chain rest ih =>
    rw [attach?] at h
    split at h
    · rename_i tail htail
      cases h
      exact ⟨[], chain, rest, tail, rfl, htail, rfl⟩
    · obtain ⟨out, hout, rfl⟩ := Option.map_eq_some_iff.mp h
      obtain ⟨l₁, found, l₂, tail, rfl, htail, rfl⟩ := ih hout
      exact ⟨chain :: l₁, found, l₂, tail, rfl, htail, rfl⟩

theorem of_mem_attach? {next : Candidate} {l out : List Candidate}
    (h : attach? maxGap next l = some out) (hl : ∀ c ∈ l, P c)
    (hjoin : ∀ chain ∈ l, ∀ tail, follow? maxGap chain next = some tail → P (join chain tail)) :
    ∀ c ∈ out, P c := by
  obtain ⟨l₁, chain, l₂, tail, rfl, htail, rfl⟩ := attach?_eq_some h
  intro c hc
  rcases List.mem_append.mp hc with hc | hc
  · exact hl c (List.mem_append_left _ hc)
  · rcases List.mem_cons.mp hc with rfl | hc
    · exact hjoin chain (by simp) tail htail
    · exact hl c (List.mem_append_right _ (List.mem_cons_of_mem _ hc))

/-- All chains, open or retired, have a property. -/
structure Chains.All (P : Candidate → Prop) (chains : Chains) : Prop where
  opened : ∀ c ∈ chains.opened, P c
  retired : ∀ c ∈ chains.retired, P c

/-- Visiting a candidate keeps what joining it to a chain keeps. -/
theorem Chains.All.visit {chains : Chains} {next : Candidate} (h : chains.All P) (hnext : P next)
    (hjoin : ∀ chain tail, P chain → follow? maxGap chain next = some tail → P (join chain tail)) :
    (chains.visit maxGap next).All P := by
  have hreach : ∀ c ∈ chains.opened.filter (inReach maxGap next), P c :=
    fun c hc => h.opened c (List.mem_of_mem_filter hc)
  have hretired : ∀ c ∈ chains.opened.filter (fun chain => !inReach maxGap next chain) ++
      chains.retired, P c := by
    intro c hc
    rcases List.mem_append.mp hc with hc | hc
    · exact h.opened c (List.mem_of_mem_filter hc)
    · exact h.retired c hc
  rw [Chains.visit]
  split
  · rename_i opened hopened
    exact ⟨of_mem_attach? hopened hreach fun chain hc tail => hjoin chain tail (hreach chain hc),
      hretired⟩
  · refine ⟨fun c hc => ?_, hretired⟩
    rcases List.mem_append.mp hc with hc | hc
    · exact hreach c hc
    · exact List.mem_singleton.mp hc ▸ hnext

theorem Chains.All.foldl_visit {chains : Chains} {group : List Candidate} (h : chains.All P)
    (hgroup : ∀ next ∈ group, P next) (hjoin : ∀ next ∈ group, ∀ chain tail, P chain →
      follow? maxGap chain next = some tail → P (join chain tail)) :
    (group.foldl (Chains.visit maxGap) chains).All P := by
  induction group generalizing chains with
  | nil => exact h
  | cons next rest ih =>
    rw [List.foldl_cons]
    refine ih (h.visit (hgroup next List.mem_cons_self) (hjoin next List.mem_cons_self)) ?_ ?_
    · exact fun c hc => hgroup c (List.mem_cons_of_mem _ hc)
    · exact fun c hc => hjoin c (List.mem_cons_of_mem _ hc)

/-- A property of all candidates that joining a candidate to a chain of the same streams keeps is
one of all bridged candidates. -/
theorem bridgeGaps_induction {candidates : List Candidate} (h : ∀ c ∈ candidates, P c)
    (hjoin : ∀ next ∈ candidates, ∀ chain tail, P chain → streamPair chain = streamPair next →
      follow? maxGap chain next = some tail → P (join chain tail)) :
    ∀ c ∈ (bridgeGaps candidates maxGap).1, P c := by
  intro c hc
  obtain ⟨group, hgroup, hc⟩ := mem_bridgeGaps_iff.mp hc
  have hmem : ∀ d ∈ group, d ∈ candidates := fun d => mem_of_mem_streamGroups hgroup
  -- the streams of a group are carried along, as joining does not look at them
  obtain ⟨pair, hpair⟩ : ∃ pair, ∀ d ∈ group, streamPair d = pair := by
    obtain ⟨first, rest, rfl⟩ := List.exists_cons_of_ne_nil (List.ne_nil_of_mem_splitBy hgroup)
    exact ⟨streamPair first, fun d hd =>
      streamPair_eq_of_mem_streamGroups hgroup hd List.mem_cons_self⟩
  have hall : (group.foldl (Chains.visit maxGap) {}).All fun c => P c ∧ streamPair c = pair := by
    refine Chains.All.foldl_visit ⟨by simp, by simp⟩ (fun d hd => ⟨h d (hmem d hd), hpair d hd⟩) ?_
    rintro next hnext chain tail ⟨hchain, hstreams⟩ htail
    exact ⟨hjoin next (hmem next hnext) chain tail hchain (hstreams.trans (hpair next hnext).symm)
      htail, hstreams⟩
  rcases List.mem_append.mp hc with hc | hc
  · exact (hall.retired c hc).1
  · exact (hall.opened c hc).1

/-! ## Aligned candidates -/

/-- A candidate follows a chain with the part of it that is past the chain on both sides, when that
part is not empty and starts in reach. -/
theorem follow?_eq_some_iff {chain next tail : Candidate} :
    follow? maxGap chain next = some tail ↔ ∃ inside,
      inside = max (chain.a.stop - next.a.start) (chain.b.stop - next.b.start) ∧
      inside < next.matched ∧ next.a.start + inside ≤ chain.a.stop + maxGap ∧
      next.b.start + inside ≤ chain.b.stop + maxGap ∧
      tail = ⟨{ next.a with start := next.a.start + inside },
        { next.b with start := next.b.start + inside }, next.matched - inside⟩ := by
  rw [exists_eq_left, follow?]
  simp only [bridges, Bool.and_eq_true, decide_eq_true_eq]
  constructor
  · intro h
    split at h
    · cases h
    · split at h
      · cases h
        exact ⟨by omega, by omega, by omega, rfl⟩
      · cases h
  · rintro ⟨hlt, ha, hb, rfl⟩
    rw [if_neg (by omega), if_pos ⟨⟨by omega, by omega⟩, by omega, by omega⟩]

/-- A candidate whose matched tokens are the pairs of an alignment of its sides. -/
def Aligned (streams : List TokenStream) (gap : Nat) (c : Candidate) : Prop :=
  ∃ x y pairs, streams[c.a.stream]? = some x ∧ streams[c.b.stream]? = some y ∧
    Alignment x.texts y.texts gap c.a c.b pairs ∧ pairs.length = c.matched

variable {streams : List TokenStream} {revisions : List Nat} {query : Query} {c : Candidate}

theorem IsMatch.aligned (h : IsMatch streams revisions query c) (hmin : 1 ≤ query.minLength)
    (gap : Nat) : Aligned streams gap c := by
  obtain ⟨s, t, i, j, n, x, y, hx, hy, -, -, hn, hrun, rfl⟩ := h
  exact ⟨x, y, diagonal i j n, hx, hy,
    .of_equalRun hrun.run (by omega) rfl rfl rfl rfl, length_diagonal i j n⟩

/-- The part of a match that follows an aligned chain continues its alignment. -/
theorem Aligned.join {chain next tail : Candidate} (h : Aligned streams maxGap chain)
    (hnext : IsMatch streams revisions query next) (hstreams : streamPair chain = streamPair next)
    (htail : follow? maxGap chain next = some tail) : Aligned streams maxGap (join chain tail) := by
  obtain ⟨x, y, pairs, hx, hy, hpairs, hlen⟩ := h
  obtain ⟨s, t, i, j, n, x', y', hx', hy', -, -, -, hrun, rfl⟩ := hnext
  obtain ⟨inside, hinside, hlt, ha, hb, rfl⟩ := follow?_eq_some_iff.mp htail
  simp only at hinside hlt ha hb
  simp only [streamPair, Prod.mk.injEq] at hstreams
  obtain rfl : x = x' := Option.some.inj (hx.symm.trans (hstreams.1 ▸ hx'))
  obtain rfl : y = y' := Option.some.inj (hy.symm.trans (hstreams.2 ▸ hy'))
  have hpart := hrun.run.part (show inside + (n - inside) ≤ n by omega)
  have hmore : Alignment x.texts y.texts maxGap ⟨s, i + inside, i + n⟩ ⟨t, j + inside, j + n⟩
      (diagonal (i + inside) (j + inside) (n - inside)) := by
    refine .of_equalRun hpart (by omega) rfl ?_ rfl ?_
    · simp only
      omega
    · simp only
      omega
  refine ⟨x, y, _, hx, hy, hpairs.append hmore ?_ ?_ ?_ ?_ rfl ?_ rfl ?_, ?_⟩
  · simp only
    omega
  · exact ha
  · simp only
    omega
  · exact hb
  · simp only [Match.join]
    omega
  · simp only [Match.join]
    omega
  · rw [List.length_append, length_diagonal, hlen]
    rfl

/-- A property of all matches that joining a match to a chain of the same streams keeps is one of all
candidates of a search. -/
theorem candidates_induction {strategy : Strategy} {minLength maxBucket : Nat}
    {index : TokenIndex}
    (hb : TokenIndex.build streams revisions strategy minLength maxBucket = .ok index)
    (hmatch : ∀ c, IsMatch streams revisions query c → P c)
    (hjoin : ∀ next chain tail, IsMatch streams revisions query next → P chain →
      streamPair chain = streamPair next → follow? query.maxGap chain next = some tail →
        P (join chain tail))
    (hc : c ∈ (find index query).candidates) : P c := by
  have hfound : ∀ d ∈ (Candidate.sort (scan index query).1).eraseReps,
      IsMatch streams revisions query d := by
    intro d hd
    rw [mem_eraseReps, Candidate.mem_sort] at hd
    exact isMatch_of_mem_scan hb hd
  simp only [find] at hc
  split at hc
  · refine bridgeGaps_induction (fun d hd => hmatch d (hfound d hd)) ?_ c hc
    exact fun next hnext chain tail => hjoin next chain tail (hfound next hnext)
  · exact hmatch c (hfound c hc)

/-- Every candidate of a search is aligned. -/
theorem aligned_of_mem_candidates {strategy : Strategy} {minLength maxBucket : Nat}
    {index : TokenIndex} (hmin : 1 ≤ query.minLength)
    (hb : TokenIndex.build streams revisions strategy minLength maxBucket = .ok index)
    (hc : c ∈ (find index query).candidates) : Aligned streams query.maxGap c := by
  refine candidates_induction hb (fun d hd => hd.aligned hmin _) ?_ hc
  exact fun next chain tail hnext hchain hstreams htail => hchain.join hnext hstreams htail

/-- The first side of every candidate of a search is in the earlier stream. -/
theorem stream_lt_of_mem_candidates {strategy : Strategy} {minLength maxBucket : Nat}
    {index : TokenIndex}
    (hb : TokenIndex.build streams revisions strategy minLength maxBucket = .ok index)
    (hc : c ∈ (find index query).candidates) : c.a.stream < c.b.stream := by
  refine candidates_induction (P := fun c => c.a.stream < c.b.stream) hb ?_ ?_ hc
  · rintro _ ⟨s, t, i, j, n, x, y, -, -, hst, -, -, -, rfl⟩
    exact hst
  · intro next chain tail _ hchain _ _
    exact hchain

end Match

end CloneDetection
