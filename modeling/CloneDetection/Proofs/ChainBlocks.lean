import CloneDetection.Proofs.Coverage

/-!
# The blocks of a chain

A chain grows by the parts of candidates that lie past its end, and each of these parts is a block
of tokens that correspond one by one. The blocks do not overlap, so a chain counts no token twice.
`MadeOf maxGap candidates o blocks` says that `o` is made of such blocks. It holds of a single
candidate and is kept by every join, so it holds of all bridged candidates. Each candidate opens a
chain or is joined to one, so their number is accounted for as well (`bridgeGaps_madeOf`).
-/

namespace CloneDetection.Match

variable {maxGap : ℕ} {candidates : List Candidate} {chain next tail c : Candidate}

/-! ## Blocks -/

/-- The tokens from `x` on and from `y` on, `length` of them, correspond one by one. -/
structure Block where
  x : ℕ
  y : ℕ
  length : ℕ

namespace Block

/-- A block lies inside both ranges of a candidate, on its diagonal. -/
structure Within (k : Block) (c : Candidate) : Prop where
  a_start : c.a.start ≤ k.x
  a_stop : k.x + k.length ≤ c.a.stop
  b_start : c.b.start ≤ k.y
  b_stop : k.y + k.length ≤ c.b.stop
  diagonal : k.x + c.b.start = k.y + c.a.start

/-- A block starts after another one on both sides, over at most `maxGap` tokens. -/
structure Follows (maxGap : ℕ) (k l : Block) : Prop where
  x_le : k.x + k.length ≤ l.x
  x_gap : l.x ≤ k.x + k.length + maxGap
  y_le : k.y + k.length ≤ l.y
  y_gap : l.y ≤ k.y + k.length + maxGap

/-- The block of a candidate all of whose tokens correspond. -/
def ofCandidate (c : Candidate) : Block :=
  ⟨c.a.start, c.b.start, c.matched⟩

end Block

/-- A candidate is made of blocks of some candidates of its streams, one after the other. -/
structure MadeOf (maxGap : ℕ) (candidates : List Candidate) (o : Candidate) (blocks : List Block) :
    Prop where
  pos : ∀ k ∈ blocks, 1 ≤ k.length
  within : ∀ k ∈ blocks, ∃ c ∈ candidates, streamPair c = streamPair o ∧ k.Within c
  follow : blocks.IsChain (Block.Follows maxGap)
  first : ∃ k, blocks.head? = some k ∧ k.x = o.a.start ∧ k.y = o.b.start
  last : ∃ k, blocks.getLast? = some k ∧ k.x + k.length = o.a.stop ∧ k.y + k.length = o.b.stop
  total : sumBy Block.length blocks = o.matched

/-- A candidate all of whose tokens correspond is one block. -/
theorem madeOf_singleton (hc : c ∈ candidates) (hexact : c.IsExact) (hpos : 1 ≤ c.matched) :
    MadeOf maxGap candidates c [.ofCandidate c] := by
  obtain ⟨ha, hb⟩ := hexact
  refine ⟨?_, ?_, .singleton _, ⟨_, rfl, rfl, rfl⟩, ⟨_, rfl, ha.symm, hb.symm⟩, Nat.add_zero _⟩
  · intro k hk
    rw [List.mem_singleton.mp hk]
    exact hpos
  · intro k hk
    rw [List.mem_singleton.mp hk]
    exact ⟨c, hc, rfl, Nat.le_refl _, ha.ge, Nat.le_refl _, hb.ge, Nat.add_comm _ _⟩

/-- The part of a candidate that follows a chain is one more block. -/
theorem MadeOf.join {blocks : List Block} (h : MadeOf maxGap candidates chain blocks)
    (hnext : next ∈ candidates) (hexact : next.IsExact)
    (hstreams : streamPair chain = streamPair next)
    (htail : follow? maxGap chain next = some tail) :
    MadeOf maxGap candidates (join chain tail) (blocks ++ [.ofCandidate tail]) := by
  obtain ⟨inside, hinside, hlt, hgapa, hgapb, rfl⟩ := follow?_eq_some_iff.mp htail
  obtain ⟨ha, hb⟩ := hexact
  obtain ⟨last, hlast, hlasta, hlastb⟩ := h.last
  refine ⟨?_, ?_, ?_, ?_, ?_, ?_⟩
  · intro k hk
    rcases List.mem_append.mp hk with hk | hk
    · exact h.pos k hk
    · rw [List.mem_singleton.mp hk]
      exact Nat.sub_pos_of_lt hlt
  · intro k hk
    rcases List.mem_append.mp hk with hk | hk
    · exact h.within k hk
    · rw [List.mem_singleton.mp hk]
      refine ⟨next, hnext, hstreams.symm, ?_⟩
      constructor
      all_goals simp only [Block.ofCandidate]; omega
  · -- from the last block of the chain to the new one
    rw [List.isChain_append]
    refine ⟨h.follow, .singleton _, ?_⟩
    intro k hk l hl
    rw [hlast, Option.mem_def, Option.some.injEq] at hk
    rw [List.head?_cons, Option.mem_def, Option.some.injEq] at hl
    subst hk hl
    constructor
    all_goals simp only [Block.ofCandidate]; omega
  · obtain ⟨first, hfirst, hstart⟩ := h.first
    refine ⟨first, ?_, hstart⟩
    rw [List.head?_append, hfirst]
    rfl
  · refine ⟨_, List.getLast?_concat, ?_, ?_⟩
    all_goals simp only [Block.ofCandidate, Match.join]; omega
  · rw [sumBy_append, h.total]
    rfl

/-! ## The number of joins -/

/-- A visit adds a chain or a join. -/
theorem Chains.length_all_visit (maxGap : ℕ) (chains : Chains) (next : Candidate) :
    (chains.visit maxGap next).all.length + (chains.visit maxGap next).joins =
      chains.all.length + chains.joins + 1 := by
  rcases chains.all_visit maxGap next with
    ⟨hperm, hjoins⟩ | ⟨chain, tail, rest, hchains, -, hperm, hjoins⟩
  · rw [hperm.length_eq, hjoins, List.length_cons]
    omega
  · rw [hperm.length_eq, hchains.length_eq, hjoins, List.length_cons, List.length_cons]
    omega

theorem Chains.length_all_foldl_visit (maxGap : ℕ) (chains : Chains) (group : List Candidate) :
    (group.foldl (Chains.visit maxGap) chains).all.length +
        (group.foldl (Chains.visit maxGap) chains).joins =
      chains.all.length + chains.joins + group.length := by
  induction group generalizing chains with
  | nil => rfl
  | cons next group ih =>
    rw [List.foldl_cons, ih, chains.length_all_visit maxGap next, List.length_cons]
    omega

/-- Every candidate of a group opens a chain or is joined to one. -/
theorem length_chainGroup (maxGap : ℕ) (group : List Candidate) :
    (chainGroup maxGap group).1.length + (chainGroup maxGap group).2 = group.length := by
  have h := Chains.length_all_foldl_visit maxGap {} group
  rw [show (({} : Chains).all.length + ({} : Chains).joins) = 0 from rfl, Nat.zero_add] at h
  exact h

theorem length_flatMap_chainGroup (maxGap : ℕ) (groups : List (List Candidate)) :
    ((groups.map (chainGroup maxGap)).flatMap (·.1)).length +
        sumBy (·.2) (groups.map (chainGroup maxGap)) = groups.flatten.length := by
  induction groups with
  | nil => rfl
  | cons group groups ih =>
    have hgroup := length_chainGroup maxGap group
    rw [List.map_cons, List.flatMap_cons, sumBy_cons, List.flatten_cons, List.length_append,
      List.length_append]
    omega

theorem length_bridgeGaps (candidates : List Candidate) (maxGap : ℕ) :
    (bridgeGaps candidates maxGap).1.length + (bridgeGaps candidates maxGap).2 =
      candidates.length := by
  unfold bridgeGaps Candidate.sort
  rw [List.length_mergeSort]
  apply (length_flatMap_chainGroup maxGap (streamGroups candidates)).trans
  rw [flatten_streamGroups, List.length_mergeSort]

/-! ## All candidates -/

/-- Bridged candidates are made of blocks that follow one another without overlap, each of them a
part of a candidate. Every join takes one candidate away, and the result is in order. -/
theorem bridgeGaps_madeOf (maxGap : ℕ)
    (hexact : ∀ c ∈ candidates, c.IsExact ∧ 1 ≤ c.matched) :
    (∀ o ∈ (bridgeGaps candidates maxGap).1, ∃ blocks, MadeOf maxGap candidates o blocks) ∧
      candidates.length =
        (bridgeGaps candidates maxGap).1.length + (bridgeGaps candidates maxGap).2 ∧
      (bridgeGaps candidates maxGap).1.Pairwise fun c d => c.key.le d.key = true := by
  refine ⟨?_, (length_bridgeGaps candidates maxGap).symm, Candidate.pairwise_sort _⟩
  apply bridgeGaps_induction
  · intro c hc
    exact ⟨_, madeOf_singleton hc (hexact c hc).1 (hexact c hc).2⟩
  · rintro next hnext chain tail ⟨blocks, hblocks⟩ hstreams htail
    exact ⟨_, hblocks.join hnext (hexact next hnext).1 hstreams htail⟩

/-- The second run is cut by seven tokens before it joins the first one. -/
theorem madeOf_crossing : (bridgeGaps crossing 5).1 = [⟨⟨0, 0, 13⟩, ⟨1, 2, 10⟩, 8⟩] ∧
    ∃ blocks, MadeOf 5 crossing ⟨⟨0, 0, 13⟩, ⟨1, 2, 10⟩, 8⟩ blocks := by
  have hbridged : (bridgeGaps crossing 5).1 = [⟨⟨0, 0, 13⟩, ⟨1, 2, 10⟩, 8⟩] := by
    cbv
  refine ⟨hbridged, (bridgeGaps_madeOf 5 (by decide)).1 _ ?_⟩
  rw [hbridged]
  exact List.mem_singleton_self _

end CloneDetection.Match
