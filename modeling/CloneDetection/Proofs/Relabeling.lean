import CloneDetection.Proofs.Containment
import CloneDetection.Proofs.Groupwise

/-!
# Streams under other numbers

The numbers of the streams matter for the order in which matches are visited and reported, and tell
which matches are of the same two streams. So nothing changes when streams get other numbers in the
same order (`bridgeGaps_relabel`, `suppress_relabel`), nor when all matches of some streams are left
out (`filter_bridgeGaps`, `filter_suppress`).
-/

namespace CloneDetection

variable (e : ℕ ↪o ℕ)

/-! ## New numbers -/

/-- The same tokens of the stream with a new number. -/
def TokenRange.relabel (r : TokenRange) : TokenRange :=
  { r with stream := e r.stream }

theorem TokenRange.overlap_relabel (r s : TokenRange) :
    (r.relabel e).overlap (s.relabel e) = r.overlap s := by
  simp [overlap, relabel]

/-- The candidate with new numbers for its streams. -/
def Candidate.relabel (c : Candidate) : Candidate :=
  ⟨c.a.relabel e, c.b.relabel e, c.matched⟩

/-- The match with new numbers for its streams. -/
def Oriented.relabel (m : Oriented) : Oriented :=
  ⟨m.target.relabel e, m.source.relabel e, m.matched⟩

theorem decide_lt_relabel (i j : ℕ) : decide ((e i : Int) < e j) = decide ((i : Int) < j) := by
  simp

theorem beq_relabel (i j : ℕ) : ((e i : Int) == e j) = ((i : Int) == j) := by
  rw [Bool.eq_iff_iff]
  simp

namespace Candidate

theorem key_le_relabel (c d : Candidate) :
    c.key.le d.key = (c.relabel e).key.le (d.relabel e).key := by
  simp only [relabel, TokenRange.relabel, key, TokenRange.key, List.cons_append, List.nil_append,
    Key.le, decide_lt_relabel, beq_relabel]

theorem relabel_injective : Function.Injective (relabel e) := by
  rintro ⟨⟨_, _, _⟩, ⟨_, _, _⟩, _⟩ ⟨⟨_, _, _⟩, ⟨_, _, _⟩, _⟩ h
  simpa [relabel, TokenRange.relabel] using h

end Candidate

/-! ## Bridging -/

namespace Match

variable {maxGap : ℕ}

theorem visitKey_le_relabel (c d : Candidate) :
    (visitKey c).le (visitKey d) = (visitKey (c.relabel e)).le (visitKey (d.relabel e)) := by
  simp only [visitKey, Candidate.relabel, TokenRange.relabel, Key.le, decide_lt_relabel,
    beq_relabel]

theorem streamPair_beq_relabel (c d : Candidate) :
    (streamPair c == streamPair d) = (streamPair (c.relabel e) == streamPair (d.relabel e)) := by
  rw [Bool.eq_iff_iff]
  simp [streamPair, Candidate.relabel, TokenRange.relabel]

theorem follow?_relabel (chain next : Candidate) :
    follow? maxGap (chain.relabel e) (next.relabel e) =
      (follow? maxGap chain next).map (Candidate.relabel e) := by
  unfold follow?
  simp only [apply_ite (Option.map (Candidate.relabel e)), Option.map_none, Option.map_some]
  rfl

theorem attach?_relabel (next : Candidate) (l : List Candidate) :
    attach? maxGap (next.relabel e) (l.map (Candidate.relabel e)) =
      (attach? maxGap next l).map (List.map (Candidate.relabel e)) := by
  induction l with
  | nil => rfl
  | cons chain rest ih =>
    rw [List.map_cons, attach?, attach?, follow?_relabel, ih]
    cases follow? maxGap chain next with
    | some tail => rfl
    | none => cases attach? maxGap next rest <;> rfl

/-- The chains with new numbers for their streams. -/
def Chains.relabel (chains : Chains) : Chains :=
  ⟨chains.opened.map (Candidate.relabel e), chains.retired.map (Candidate.relabel e), chains.joins⟩

theorem visit_relabel (chains : Chains) (next : Candidate) :
    (chains.relabel e).visit maxGap (next.relabel e) = (chains.visit maxGap next).relabel e := by
  have hreach : inReach maxGap (next.relabel e) ∘ Candidate.relabel e = inReach maxGap next := rfl
  have hretired : (fun chain => !inReach maxGap (next.relabel e) chain) ∘ Candidate.relabel e =
      fun chain => !inReach maxGap next chain := rfl
  unfold Chains.visit
  simp only [Chains.relabel, List.filter_map, hreach, hretired, attach?_relabel]
  cases attach? maxGap next (chains.opened.filter (inReach maxGap next)) with
  | some opened => simp only [Option.map_some, List.map_append]
  | none => simp only [Option.map_none, List.map_append, List.map_cons, List.map_nil]

theorem chainGroup_relabel (group : List Candidate) :
    (chainGroup maxGap (group.map (Candidate.relabel e))).1 =
      (chainGroup maxGap group).1.map (Candidate.relabel e) := by
  have run (chains : Chains) : (group.map (Candidate.relabel e)).foldl (Chains.visit maxGap)
      (chains.relabel e) = (group.foldl (Chains.visit maxGap) chains).relabel e := by
    induction group generalizing chains with
    | nil => rfl
    | cons next rest ih =>
      rw [List.map_cons, List.foldl_cons, List.foldl_cons, visit_relabel, ih]
  have hrun := run {}
  unfold chainGroup
  simp only [Chains.relabel, List.map_nil] at hrun
  simp only [hrun, List.map_append]

theorem bridgeGaps_eq_groupwise (l : List Candidate) (maxGap : ℕ) : (bridgeGaps l maxGap).1 =
    groupwise visitKey streamPair (fun group => (chainGroup maxGap group).1) Candidate.key l := by
  simp only [bridgeGaps, groupwise, Candidate.sort, List.flatMap_map]

/-- Bridging does not depend on the numbers of the streams. -/
theorem bridgeGaps_relabel (l : List Candidate) (maxGap : ℕ) :
    (bridgeGaps (l.map (Candidate.relabel e)) maxGap).1 =
      (bridgeGaps l maxGap).1.map (Candidate.relabel e) := by
  rw [bridgeGaps_eq_groupwise, bridgeGaps_eq_groupwise]
  exact map_groupwise (visitKey_le_relabel e) (streamPair_beq_relabel e) (chainGroup_relabel e)
    (Candidate.key_le_relabel e) l

theorem streamPair_le_of_visitKey_le {c d : Candidate}
    (h : (visitKey c).le (visitKey d) = true) : toLex (streamPair c) ≤ toLex (streamPair d) := by
  simp only [visitKey, Key.le, Bool.or_eq_true, Bool.and_eq_true, decide_eq_true_eq,
    beq_iff_eq] at h
  rw [Prod.Lex.toLex_le_toLex, streamPair, streamPair]
  omega

theorem eq_of_visitKey_eq {c d : Candidate} (hc : c.IsExact) (hd : d.IsExact)
    (h : visitKey c = visitKey d) : c = d := by
  obtain ⟨⟨_, _, _⟩, ⟨_, _, _⟩, _⟩ := c
  obtain ⟨⟨_, _, _⟩, ⟨_, _, _⟩, _⟩ := d
  simp only [visitKey, List.cons.injEq] at h
  simp only [Candidate.IsExact] at hc hd
  simp only [Candidate.mk.injEq, TokenRange.mk.injEq]
  omega

/-- The streams of the chains of a group are those of its candidates. -/
theorem streamPair_of_mem_chainGroup {group : List Candidate} {pair : ℕ × ℕ}
    (h : ∀ c ∈ group, streamPair c = pair) : ∀ c ∈ (chainGroup maxGap group).1,
      streamPair c = pair := by
  have hall : (group.foldl (Chains.visit maxGap) {}).All fun c => streamPair c = pair := by
    refine Chains.All.foldl_visit ⟨by simp, by simp⟩ h ?_
    exact fun next _ chain tail hchain _ => hchain
  intro c hc
  rcases List.mem_append.mp hc with hc | hc
  · exact hall.retired c hc
  · exact hall.opened c hc

/-- Bridging does not mix the candidates of different streams. -/
theorem filter_bridgeGaps {l : List Candidate} (hexact : ∀ c ∈ l, c.IsExact) (maxGap : ℕ)
    (p : ℕ × ℕ → Bool) : (bridgeGaps l maxGap).1.filter (fun c => p (streamPair c)) =
      (bridgeGaps (l.filter fun c => p (streamPair c)) maxGap).1 := by
  rw [bridgeGaps_eq_groupwise, bridgeGaps_eq_groupwise]
  refine filter_groupwise p eq_of_toLex_le (fun c d => streamPair_le_of_visitKey_le) ?_ ?_ ?_
  · exact fun c hc d hd => eq_of_visitKey_eq (hexact c hc) (hexact d hd)
  · exact fun c d => Candidate.key_injective
  · exact fun group pair => streamPair_of_mem_chainGroup

end Match

/-! ## Suppression -/

namespace Oriented

variable {threshold : Float}

theorem visitKey_le_relabel (m n : Oriented) :
    m.visitKey.le n.visitKey = (m.relabel e).visitKey.le (n.relabel e).visitKey := by
  simp only [visitKey, relabel, TokenRange.relabel, Key.le, decide_lt_relabel, beq_relabel]

theorem reportKey_le_relabel (m n : Oriented) :
    m.reportKey.le n.reportKey = (m.relabel e).reportKey.le (n.relabel e).reportKey := by
  simp only [reportKey, relabel, TokenRange.relabel, TokenRange.key, List.cons_append,
    List.nil_append, Key.le, decide_lt_relabel, beq_relabel]

theorem streamPair_beq_relabel (m n : Oriented) :
    (m.streamPair == n.streamPair) = ((m.relabel e).streamPair == (n.relabel e).streamPair) := by
  rw [Bool.eq_iff_iff]
  simp [streamPair, relabel, TokenRange.relabel]

theorem relabel_injective : Function.Injective (relabel e) := by
  rintro ⟨⟨_, _, _⟩, ⟨_, _, _⟩, _⟩ ⟨⟨_, _, _⟩, ⟨_, _, _⟩, _⟩ h
  simpa [relabel, TokenRange.relabel] using h

theorem isSubsumed_relabel (m n : Oriented) :
    (m.relabel e).isSubsumed threshold (n.relabel e) = m.isSubsumed threshold n := by
  unfold isSubsumed covered
  simp only [relabel, TokenRange.overlap_relabel]
  rfl

theorem keep_relabel (kept l : List Oriented) :
    keep threshold (kept.map (relabel e)) (l.map (relabel e)) =
      (keep threshold kept l).map (relabel e) := by
  induction l generalizing kept with
  | nil => exact List.map_reverse.symm
  | cons m l ih =>
    have hany : (kept.map (relabel e)).any ((m.relabel e).isSubsumed threshold) =
        kept.any (m.isSubsumed threshold) := by
      rw [List.any_map]
      congr 1
      funext n
      exact isSubsumed_relabel e m n
    rw [List.map_cons, keep, keep, hany]
    split
    · exact ih kept
    · exact ih (m :: kept)

theorem suppress_eq_groupwise (threshold : Float) (l : List Oriented) :
    suppress threshold l = groupwise visitKey streamPair (keep threshold []) reportKey l := rfl

/-- What is kept does not depend on the numbers of the streams. -/
theorem suppress_relabel (threshold : Float) (l : List Oriented) :
    suppress threshold (l.map (relabel e)) = (suppress threshold l).map (relabel e) := by
  rw [suppress_eq_groupwise, suppress_eq_groupwise]
  exact map_groupwise (visitKey_le_relabel e) (streamPair_beq_relabel e) (keep_relabel e [])
    (reportKey_le_relabel e) l

theorem eq_of_visitKey_eq {m n : Oriented} (h : m.visitKey = n.visitKey) : m = n := by
  obtain ⟨⟨_, _, _⟩, ⟨_, _, _⟩, _⟩ := m
  obtain ⟨⟨_, _, _⟩, ⟨_, _, _⟩, _⟩ := n
  simp only [visitKey, List.cons.injEq] at h
  simp only [mk.injEq, TokenRange.mk.injEq]
  omega

/-- Matches of other streams do not matter for what is kept. -/
theorem filter_suppress (threshold : Float) (l : List Oriented) (p : ℕ × ℕ → Bool) :
    (suppress threshold l).filter (fun m => p m.streamPair) =
      suppress threshold (l.filter fun m => p m.streamPair) := by
  rw [suppress_eq_groupwise, suppress_eq_groupwise]
  refine filter_groupwise p eq_of_toLex_le (fun m n => streamPair_le_of_visitKey_le) ?_ ?_ ?_
  · exact fun m _ n _ => eq_of_visitKey_eq
  · exact fun m n => reportKey_injective
  · exact fun group pair h m hm => h m ((mem_of_mem_keep hm).resolve_left List.not_mem_nil)

end Oriented

end CloneDetection
