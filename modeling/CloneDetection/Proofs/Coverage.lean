import CloneDetection.Proofs.Bridging

/-!
# What bridging keeps of a candidate

A candidate that opens a chain stays in it, and chains only grow, so it is covered by a candidate
after bridging. A candidate that joins a chain is cut first: what lies before the end of the chain on
either side is dropped. Nothing is lost by that as long as the candidate starts no earlier than the
last run of the chain on both sides (`EndsWith.join`). Candidates are visited by their first sides,
so this can fail on the second side only.

`exists_covers_iff` is the exact condition: every candidate stays covered, whichever of them are
bridged together, when none of them can follow one that starts after it on the second side. Where one
can, it loses tokens (`not_exists_covers_crossing`).
-/

namespace CloneDetection

/-- A range lies inside another one of the same stream. -/
def TokenRange.Within (r s : TokenRange) : Prop :=
  r.stream = s.stream ∧ s.start ≤ r.start ∧ r.stop ≤ s.stop

instance (r s : TokenRange) : Decidable (r.Within s) :=
  inferInstanceAs (Decidable (_ ∧ _))

theorem TokenRange.Within.trans {r s t : TokenRange} (h : r.Within s) (h' : s.Within t) :
    r.Within t :=
  ⟨h.1.trans h'.1, Nat.le_trans h'.2.1 h.2.1, Nat.le_trans h.2.2 h'.2.2⟩

namespace Candidate

/-- A candidate all of whose tokens correspond. -/
def IsExact (c : Candidate) : Prop :=
  c.a.stop = c.a.start + c.matched ∧ c.b.stop = c.b.start + c.matched

instance (c : Candidate) : Decidable c.IsExact :=
  inferInstanceAs (Decidable (_ ∧ _))

/-- The ranges of `c` lie inside those of `o`, and no more of its tokens correspond. -/
def Covers (o c : Candidate) : Prop :=
  c.a.Within o.a ∧ c.b.Within o.b ∧ c.matched ≤ o.matched

instance (o c : Candidate) : Decidable (o.Covers c) :=
  inferInstanceAs (Decidable (_ ∧ _))

theorem Covers.refl (c : Candidate) : c.Covers c :=
  ⟨⟨rfl, Nat.le_refl _, Nat.le_refl _⟩, ⟨rfl, Nat.le_refl _, Nat.le_refl _⟩, Nat.le_refl _⟩

theorem Covers.trans {o c d : Candidate} (h : o.Covers c) (h' : c.Covers d) : o.Covers d :=
  ⟨h'.1.trans h.1, h'.2.1.trans h.2.1, Nat.le_trans h'.2.2 h.2.2⟩

end Candidate

namespace Match

variable {maxGap : Nat} {chain last next tail c d : Candidate}

/-! ## One join -/

/-- Whether a candidate follows a chain depends on the ends of the chain only. -/
theorem follow?_congr (ha : chain.a.stop = last.a.stop) (hb : chain.b.stop = last.b.stop) :
    follow? maxGap chain next = follow? maxGap last next := by
  simp only [follow?, ha, hb]

/-- A chain with a run added covers the chain before. -/
theorem covers_join (chain tail : Candidate) : (join chain tail).Covers chain :=
  ⟨⟨rfl, Nat.le_refl _, Nat.le_max_left _ _⟩, ⟨rfl, Nat.le_refl _, Nat.le_max_left _ _⟩,
    Nat.le_add_right _ _⟩

/-- A chain covers its last run and ends with it. -/
structure EndsWith (chain last : Candidate) : Prop where
  covers : chain.Covers last
  a_stop : chain.a.stop = last.a.stop
  b_stop : chain.b.stop = last.b.stop

theorem EndsWith.refl (c : Candidate) : EndsWith c c :=
  ⟨.refl c, rfl, rfl⟩

/-- A run that starts no earlier than the last one of a chain is covered once it has joined. -/
theorem EndsWith.join (h : EndsWith chain last) (hlast : last.IsExact) (hnext : next.IsExact)
    (hstreams : streamPair last = streamPair next) (ha : last.a.start ≤ next.a.start)
    (hb : last.b.start ≤ next.b.start) (htail : follow? maxGap chain next = some tail) :
    EndsWith (join chain tail) next := by
  obtain ⟨⟨⟨hsa, hla, -⟩, ⟨hsb, hlb, -⟩, hmatched⟩, hstopa, hstopb⟩ := h
  obtain ⟨hlasta, hlastb⟩ := hlast
  obtain ⟨hnexta, hnextb⟩ := hnext
  obtain ⟨hpa, hpb⟩ := Prod.mk.inj hstreams
  obtain ⟨inside, hinside, hlt, -, -, rfl⟩ := follow?_eq_some_iff.mp htail
  -- what is cut off lies inside the last run, all of whose tokens the chain counts
  have hcut : inside ≤ chain.matched := by omega
  have hstop : max chain.a.stop next.a.stop = next.a.stop ∧
      max chain.b.stop next.b.stop = next.b.stop := by omega
  refine ⟨⟨⟨?_, ?_, ?_⟩, ⟨?_, ?_, ?_⟩, ?_⟩, hstop.1, hstop.2⟩
  all_goals simp only [Match.join]; omega

/-! ## One visit -/

/-- All chains of a pair of streams. -/
def Chains.all (chains : Chains) : List Candidate :=
  chains.retired ++ chains.opened

/-- A visit leaves the chains as they are and opens a new one, or adds the candidate to a chain and
leaves the others as they are, which is a join. -/
theorem Chains.all_visit (maxGap : Nat) (chains : Chains) (next : Candidate) :
    (chains.visit maxGap next).all.Perm (next :: chains.all) ∧
        (chains.visit maxGap next).joins = chains.joins ∨
      ∃ chain tail rest, chains.all.Perm (chain :: rest) ∧
        follow? maxGap chain next = some tail ∧
        (chains.visit maxGap next).all.Perm (join chain tail :: rest) ∧
        (chains.visit maxGap next).joins = chains.joins + 1 := by
  have hparts : (chains.opened.filter (fun chain => !inReach maxGap next chain) ++ chains.retired ++
      chains.opened.filter (inReach maxGap next)).Perm chains.all := by
    have hsplit := List.filter_append_perm (inReach maxGap next) chains.opened
    rw [List.append_assoc]
    refine List.perm_append_comm.trans ?_
    rw [List.append_assoc, Chains.all]
    exact hsplit.append_left _
  rw [Chains.visit]
  split
  · rename_i opened hopened
    obtain ⟨l₁, chain, l₂, tail, hreach, htail, rfl⟩ := attach?_eq_some hopened
    rw [hreach, ← List.append_assoc] at hparts
    refine .inr ⟨chain, tail, _, hparts.symm.trans List.perm_middle, htail, ?_, rfl⟩
    rw [Chains.all, ← List.append_assoc]
    exact List.perm_middle
  · refine .inl ⟨?_, rfl⟩
    rw [Chains.all, ← List.append_assoc]
    exact (List.perm_append_singleton _ _).trans (hparts.cons next)

/-- The chains of the candidates seen so far: each candidate is covered, and each chain ends with a
candidate. -/
structure Chains.Keep (seen : List Candidate) (chains : Chains) : Prop where
  covered : ∀ c ∈ seen, ∃ o ∈ chains.all, o.Covers c
  ends : ∀ o ∈ chains.all, ∃ last ∈ seen, EndsWith o last

/-- The second candidate starts no earlier than the first one, on the second side if it can follow
it. -/
structure InStep (maxGap : Nat) (c d : Candidate) : Prop where
  streams : streamPair c = streamPair d
  a_start : c.a.start ≤ d.a.start
  b_start : (follow? maxGap c d).isSome = true → c.b.start ≤ d.b.start

theorem Chains.Keep.visit {seen : List Candidate} {chains : Chains} (h : chains.Keep seen)
    (hseen : ∀ c ∈ seen, c.IsExact) (hnext : next.IsExact)
    (hsteps : ∀ c ∈ seen, InStep maxGap c next) :
    (chains.visit maxGap next).Keep (seen ++ [next]) := by
  have hlast : next ∈ seen ++ [next] := List.mem_append_right seen (List.mem_singleton_self next)
  rcases chains.all_visit maxGap next with
    ⟨hperm, -⟩ | ⟨chain, tail, rest, hchains, htail, hperm, -⟩
  · constructor
    · intro c hc
      rcases List.mem_append.mp hc with hc | hc
      · obtain ⟨o, ho, hcovers⟩ := h.covered c hc
        exact ⟨o, hperm.mem_iff.mpr (List.mem_cons_of_mem next ho), hcovers⟩
      · rw [List.mem_singleton.mp hc]
        exact ⟨next, hperm.mem_iff.mpr List.mem_cons_self, .refl next⟩
    · intro o ho
      rcases List.mem_cons.mp (hperm.mem_iff.mp ho) with rfl | ho
      · exact ⟨o, hlast, .refl o⟩
      · obtain ⟨last, hmem, hends⟩ := h.ends o ho
        exact ⟨last, List.mem_append_left _ hmem, hends⟩
  · obtain ⟨last, hmem, hends⟩ := h.ends chain (hchains.mem_iff.mpr List.mem_cons_self)
    have hstep := hsteps last hmem
    have hfollow : (follow? maxGap last next).isSome = true := by
      rw [← follow?_congr hends.a_stop hends.b_stop, htail]
      rfl
    have hjoin : EndsWith (join chain tail) next :=
      hends.join (hseen last hmem) hnext hstep.streams hstep.a_start (hstep.b_start hfollow) htail
    have hnew : join chain tail ∈ (chains.visit maxGap next).all :=
      hperm.mem_iff.mpr List.mem_cons_self
    constructor
    · intro c hc
      rcases List.mem_append.mp hc with hc | hc
      · obtain ⟨o, ho, hcovers⟩ := h.covered c hc
        rcases List.mem_cons.mp (hchains.mem_iff.mp ho) with rfl | ho
        · exact ⟨join o tail, hnew, (covers_join o tail).trans hcovers⟩
        · exact ⟨o, hperm.mem_iff.mpr (List.mem_cons_of_mem _ ho), hcovers⟩
      · rw [List.mem_singleton.mp hc]
        exact ⟨join chain tail, hnew, hjoin.covers⟩
    · intro o ho
      rcases List.mem_cons.mp (hperm.mem_iff.mp ho) with rfl | ho
      · exact ⟨next, hlast, hjoin⟩
      · obtain ⟨last, hmem, hends⟩ := h.ends o (hchains.mem_iff.mpr (List.mem_cons_of_mem _ ho))
        exact ⟨last, List.mem_append_left _ hmem, hends⟩

/-! ## A whole run -/

theorem Chains.Keep.foldl_visit {seen group : List Candidate} {chains : Chains}
    (h : chains.Keep seen) (hexact : ∀ c ∈ seen ++ group, c.IsExact)
    (hsteps : (seen ++ group).Pairwise (InStep maxGap)) :
    (group.foldl (Chains.visit maxGap) chains).Keep (seen ++ group) := by
  induction group generalizing seen chains with
  | nil => simpa using h
  | cons next group ih =>
    rw [List.append_cons] at hexact hsteps ⊢
    have hfront := (List.pairwise_append.mp (List.pairwise_append.mp hsteps).1).2.2
    refine ih (h.visit ?_ ?_ ?_) hexact hsteps
    · exact fun c hc => hexact c (by simp [hc])
    · exact hexact next (by simp)
    · exact fun c hc => hfront c hc next (List.mem_singleton_self next)

/-- `d` can follow `c`, although it starts before it on the second side. -/
def Crosses (maxGap : Nat) (c d : Candidate) : Prop :=
  streamPair c = streamPair d ∧ c.a.start < d.a.start ∧ d.b.start < c.b.start ∧
    (follow? maxGap c d).isSome = true

instance (maxGap : Nat) (c d : Candidate) : Decidable (Crosses maxGap c d) :=
  inferInstanceAs (Decidable (_ ∧ _))

theorem start_le_of_visitKey_le (h : (visitKey c).le (visitKey d) = true)
    (hstreams : streamPair c = streamPair d) :
    c.a.start < d.a.start ∨ c.a.start = d.a.start ∧ c.b.start ≤ d.b.start := by
  obtain ⟨ha, hb⟩ := Prod.mk.inj hstreams
  simp only [visitKey, Key.le, Bool.or_eq_true, Bool.and_eq_true, decide_eq_true_eq,
    beq_iff_eq] at h
  omega

theorem inStep_of_visitKey_le (h : (visitKey c).le (visitKey d) = true)
    (hstreams : streamPair c = streamPair d) (hcross : ¬ Crosses maxGap c d) :
    InStep maxGap c d := by
  have hstart := start_le_of_visitKey_le h hstreams
  refine ⟨hstreams, by omega, fun hfollow => ?_⟩
  rcases hstart with hlt | ⟨-, hle⟩
  · exact Nat.le_of_not_lt fun hb => hcross ⟨hstreams, hlt, hb, hfollow⟩
  · exact hle

/-- Bridging covers every candidate when none can follow one that starts after it on the second
side. -/
theorem exists_covers_of_mem {candidates : List Candidate} (hexact : ∀ c ∈ candidates, c.IsExact)
    (hcross : ∀ c ∈ candidates, ∀ d ∈ candidates, ¬ Crosses maxGap c d) (hc : c ∈ candidates) :
    ∃ o ∈ (bridgeGaps candidates maxGap).1, o.Covers c := by
  obtain ⟨group, hgroup, hmem⟩ := exists_mem_streamGroups hc
  have hcandidates : ∀ d ∈ group, d ∈ candidates := fun d => mem_of_mem_streamGroups hgroup
  have hsteps : group.Pairwise (InStep maxGap) := by
    refine (pairwise_of_mem_streamGroups hgroup).imp_of_mem fun {c d} hc hd hle => ?_
    exact inStep_of_visitKey_le hle (streamPair_eq_of_mem_streamGroups hgroup hc hd)
      (hcross c (hcandidates c hc) d (hcandidates d hd))
  have hnone : Chains.Keep [] {} := ⟨by simp, by simp [Chains.all]⟩
  have hkeep : (group.foldl (Chains.visit maxGap) {}).Keep group :=
    hnone.foldl_visit (fun d hd => hexact d (hcandidates d hd)) hsteps
  obtain ⟨o, ho, hcovers⟩ := hkeep.covered c hmem
  exact ⟨o, mem_bridgeGaps_iff.mpr ⟨group, hgroup, ho⟩, hcovers⟩

/-- A gap after the end of a candidate does not leave the machine words. -/
def Fits (maxGap : Nat) (c : Candidate) : Prop :=
  c.a.stop + maxGap < UInt64.size

instance (maxGap : Nat) : DecidablePred (Fits maxGap) :=
  fun _ => Nat.decLt _ _

theorem Fits.inReach_iff (h : Fits maxGap c) :
    inReach maxGap d c = true ↔ d.a.start ≤ c.a.stop + maxGap := by
  rw [inReach, decide_eq_true_eq, Nat.mod_eq_of_lt h]

/-- What can follow a chain is in its reach. -/
theorem Fits.inReach_of_follow? (h : Fits maxGap c) (htail : follow? maxGap c d = some tail) :
    inReach maxGap d c = true := by
  obtain ⟨inside, -, -, hreach, -⟩ := follow?_eq_some_iff.mp htail
  rw [h.inReach_iff]
  omega

/-- Two candidates of which the second follows the first become one chain. -/
theorem bridgeGaps_pair (hstreams : streamPair c = streamPair d) (hlt : c.a.start < d.a.start)
    (hfits : Fits maxGap c) (htail : follow? maxGap c d = some tail) :
    bridgeGaps [c, d] maxGap = ([join c tail], 1) := by
  obtain ⟨ha, hb⟩ := Prod.mk.inj hstreams
  have hsorted : [c, d].mergeSort (fun c d => (visitKey c).le (visitKey d)) = [c, d] := by
    refine List.mergeSort_of_pairwise (List.pairwise_pair.mpr ?_)
    simp only [visitKey, Key.le, Bool.or_eq_true, Bool.and_eq_true, decide_eq_true_eq, beq_iff_eq]
    omega
  have hgroups : [c, d].splitBy (fun c d => streamPair c == streamPair d) = [[c, d]] := by
    simp [List.splitBy, List.splitBy.loop, hstreams]
  have hreach : inReach maxGap d c = true := hfits.inReach_of_follow? htail
  simp [bridgeGaps, hsorted, hgroups, chainGroup, Chains.visit, attach?, hreach, htail,
    Candidate.sort]

/-- The candidates stay covered, whichever of them are bridged together, exactly when none of them
can follow one that starts after it on the second side. -/
theorem exists_covers_iff {candidates : List Candidate} (hexact : ∀ c ∈ candidates, c.IsExact)
    (hfits : ∀ c ∈ candidates, Fits maxGap c) :
    (∀ l ⊆ candidates, ∀ c ∈ l, ∃ o ∈ (bridgeGaps l maxGap).1, o.Covers c) ↔
      ∀ c ∈ candidates, ∀ d ∈ candidates, ¬ Crosses maxGap c d := by
  constructor
  · rintro h c hc d hd ⟨hstreams, hlt, hb, hfollow⟩
    obtain ⟨tail, htail⟩ := Option.isSome_iff_exists.mp hfollow
    obtain ⟨o, ho, hcovers⟩ := h [c, d] (by simp [hc, hd]) d (by simp)
    rw [bridgeGaps_pair hstreams hlt (hfits c hc) htail, List.mem_singleton] at ho
    subst ho
    -- the chain starts where its first candidate does
    exact Nat.not_le_of_lt hb hcovers.2.1.2.1
  · exact fun h l hl c hc => exists_covers_of_mem (fun d hd => hexact d (hl hd))
      (fun c hc d hd => h c (hl hc) d (hl hd)) hc

/-- Pieces of a copy with an insertion, and a piece out of reach. -/
def pieces : List Candidate :=
  [⟨⟨0, 0, 4⟩, ⟨1, 0, 4⟩, 4⟩, ⟨⟨0, 5, 9⟩, ⟨1, 4, 8⟩, 4⟩, ⟨⟨0, 10, 14⟩, ⟨1, 10, 14⟩, 4⟩,
    ⟨⟨0, 30, 34⟩, ⟨1, 30, 34⟩, 4⟩]

theorem exists_covers_pieces : (bridgeGaps pieces 2).2 = 2 ∧
    ∀ c ∈ pieces, ∃ o ∈ (bridgeGaps pieces 2).1, o.Covers c := by
  refine ⟨by cbv, ?_⟩
  exact (exists_covers_iff (by decide) (by decide)).mpr (by decide) pieces (List.Subset.refl pieces)

/-- Two runs that `p q r s t p q r s t u v w` and `s t p q r s t u v w` share: the first five tokens
of the one, and all ten tokens of the other. -/
def crossing : List Candidate :=
  [⟨⟨0, 0, 5⟩, ⟨1, 2, 7⟩, 5⟩, ⟨⟨0, 3, 13⟩, ⟨1, 0, 10⟩, 10⟩]

/-- A run of ten tokens that joins a shorter one is not covered any more: eight tokens are left. -/
theorem not_exists_covers_crossing : ¬ ∀ (candidates : List Candidate) (maxGap : Nat),
    candidates.Nodup → (∀ c ∈ candidates, c.IsExact ∧ 1 ≤ c.matched ∧ c.a.stream < c.b.stream) →
      ∀ c ∈ candidates, ∃ o ∈ (bridgeGaps candidates maxGap).1, o.Covers c := by
  intro h
  have hbridged : (bridgeGaps crossing 5).1 = [⟨⟨0, 0, 13⟩, ⟨1, 2, 10⟩, 8⟩] := by
    cbv
  obtain ⟨o, ho, hcovers⟩ := h crossing 5 (by decide) (by decide) ⟨⟨0, 3, 13⟩, ⟨1, 0, 10⟩, 10⟩
    (by decide)
  rw [hbridged, List.mem_singleton] at ho
  subst ho
  exact absurd hcovers (by decide)

end Match

end CloneDetection
