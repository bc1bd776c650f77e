import CloneDetection.Fingerprint.Bucket
import CloneDetection.Proofs.SortedLists
import Mathlib

/-!
# Fair truncation of a bucket

Taking items in turn from groups of different keys lists all items (`roundRobin_perm`), those of one
key in the order of their group (`Grouped.filter_roundRobin`). However early it stops, no key is
more than one item ahead of another one that has items left (`Grouped.fair`).

A bucket over the limit is cut to the beginning of such a list, with the revisions as keys. So it
keeps the first places of every revision, as many of each as of any other one up to one place unless
a revision has no more, and it does not matter in which order the places were found
(`truncate_fair`).
-/

namespace CloneDetection

theorem TokenRef.key_injective {x y : TokenRef} (h : x.key = y.key) : x = y := by
  obtain ⟨s, i⟩ := x
  obtain ⟨t, j⟩ := y
  simp only [key, List.cons.injEq, Int.natCast_inj, and_true] at h
  obtain ⟨rfl, rfl⟩ := h
  rfl

namespace Fingerprint

/-! ## Taking items in turn -/

section RoundRobin

variable {α κ : Type}

@[simp]
theorem heads_cons_cons (x : α) (g : List α) (groups : List (List α)) :
    heads ((x :: g) :: groups) = x :: heads groups := rfl

@[simp]
theorem dropHeads_cons (g : List α) (groups : List (List α)) :
    dropHeads (g :: groups) = g.tail :: dropHeads groups := rfl

/-- The first items of some groups and the items after them are all items. -/
theorem heads_append_perm (groups : List (List α)) :
    (heads groups ++ (dropHeads groups).flatten).Perm groups.flatten := by
  induction groups with
  | nil => exact .refl _
  | cons g groups ih =>
    cases g with
    | nil => exact ih
    | cons x g =>
      rw [heads_cons_cons, dropHeads_cons, List.tail_cons, List.flatten_cons, List.flatten_cons,
        List.cons_append, List.cons_append]
      apply List.Perm.cons
      rw [← List.append_assoc]
      apply (List.perm_append_comm.append_right _).trans
      rw [List.append_assoc]
      exact ih.append_left g

theorem flatten_eq_nil_of_heads {groups : List (List α)} (h : heads groups = []) :
    groups.flatten = [] := by
  rw [List.flatten_eq_nil_iff]
  intro g hg
  exact List.head?_eq_none_iff.mp (List.filterMap_eq_nil_iff.mp h g hg)

/-- Taking items in turn lists all of them. -/
theorem roundRobin_perm (groups : List (List α)) : (roundRobin groups).Perm groups.flatten := by
  fun_induction roundRobin groups with
  | case1 groups h => rw [flatten_eq_nil_of_heads h]
  | case2 groups h ih => exact (ih.append_left _).trans (heads_append_perm groups)

/-- Groups of items by a key: one key in a group, and different keys in different groups. -/
structure Grouped (key : α → κ) (groups : List (List α)) : Prop where
  same : ∀ g ∈ groups, ∀ x ∈ g, ∀ y ∈ g, key x = key y
  apart : groups.Pairwise fun g h => ∀ x ∈ g, ∀ y ∈ h, key x ≠ key y

namespace Grouped

variable {key : α → κ} {x : α} {g : List α} {groups : List (List α)}

theorem of_cons (h : Grouped key (g :: groups)) : Grouped key groups :=
  ⟨fun g hg => h.same g (List.mem_cons_of_mem _ hg), h.apart.of_cons⟩

theorem dropHeads (h : Grouped key groups) : Grouped key (dropHeads groups) := by
  constructor
  · intro g hg x hx y hy
    obtain ⟨g', hg', rfl⟩ := List.mem_map.mp hg
    exact h.same g' hg' x (List.mem_of_mem_tail hx) y (List.mem_of_mem_tail hy)
  · apply h.apart.map
    intro g g' hne x hx y hy
    exact hne x (List.mem_of_mem_tail hx) y (List.mem_of_mem_tail hy)

variable [DecidableEq κ]

/-- The key of a group does not occur in later ones. -/
theorem filter_flatten_eq_nil (h : Grouped key ((x :: g) :: groups)) :
    groups.flatten.filter (key · = key x) = [] := by
  rw [List.filter_eq_nil_iff]
  intro y hy
  obtain ⟨g', hg', hy⟩ := List.mem_flatten.mp hy
  rw [decide_eq_true_eq]
  exact (List.rel_of_pairwise_cons h.apart hg' x List.mem_cons_self y hy).symm

/-- No other key occurs in a group. -/
theorem filter_eq_nil (h : Grouped key ((x :: g) :: groups)) {k : κ} (hk : key x ≠ k) :
    g.filter (key · = k) = [] := by
  rw [List.filter_eq_nil_iff]
  intro y hy
  rw [decide_eq_true_eq,
    ← h.same _ List.mem_cons_self x List.mem_cons_self y (List.mem_cons_of_mem x hy)]
  exact hk

/-- The first item of a key comes before the others. -/
theorem filter_heads_append (h : Grouped key groups) (k : κ) :
    (heads groups).filter (key · = k) ++
        (Fingerprint.dropHeads groups).flatten.filter (key · = k) =
      groups.flatten.filter (key · = k) := by
  induction groups with
  | nil => rfl
  | cons g groups ih =>
    have ih := ih h.of_cons
    cases g with
    | nil => exact ih
    | cons x g =>
      rw [heads_cons_cons, dropHeads_cons, List.tail_cons, List.flatten_cons, List.flatten_cons,
        List.cons_append, List.filter_append]
      by_cases hx : key x = k
      · subst hx
        rw [h.filter_flatten_eq_nil, List.append_eq_nil_iff] at ih
        simp [h.filter_flatten_eq_nil, ih.1, ih.2]
      · simp only [List.filter_cons, decide_eq_true_eq, if_neg hx, List.filter_append,
          h.filter_eq_nil hx, List.nil_append, ih]

/-- Of each key that occurs, one item is among the first items of the groups. -/
theorem length_filter_heads (h : Grouped key groups) (k : κ) :
    ((heads groups).filter (key · = k)).length =
      min 1 (groups.flatten.filter (key · = k)).length := by
  induction groups with
  | nil => rfl
  | cons g groups ih =>
    have ih := ih h.of_cons
    cases g with
    | nil => exact ih
    | cons x g =>
      by_cases hx : key x = k
      · subst hx
        simp [h.filter_flatten_eq_nil, ih]
      · simp [hx, h.filter_eq_nil hx, ih]

/-- Taking items in turn keeps the order of the items of one key. -/
theorem filter_roundRobin (h : Grouped key groups) (k : κ) :
    (roundRobin groups).filter (key · = k) = groups.flatten.filter (key · = k) := by
  fun_induction roundRobin groups with
  | case1 groups hnil => rw [flatten_eq_nil_of_heads hnil]
  | case2 groups hnil ih =>
    rw [List.filter_append, ih h.dropHeads, h.filter_heads_append]

/-- However many items are taken in turn, no key is more than one item ahead of another one of which
not all items are taken. -/
theorem fair (h : Grouped key groups) (n : ℕ) (k l : κ) :
    (((roundRobin groups).take n).filter (key · = l)).length ≤
        (((roundRobin groups).take n).filter (key · = k)).length + 1 ∨
      (((roundRobin groups).take n).filter (key · = k)).length =
        (groups.flatten.filter (key · = k)).length := by
  fun_induction roundRobin groups generalizing n with
  | case1 groups hnil => simp
  | case2 groups hnil ih =>
    have hk := h.length_filter_heads k
    have hl := h.length_filter_heads l
    rw [List.take_append, List.filter_append, List.filter_append, List.length_append,
      List.length_append]
    rcases Nat.lt_or_ge n (heads groups).length with hn | hn
    · -- in the first round there is at most one item of a key
      left
      have hfirst : (((heads groups).take n).filter (key · = l)).length ≤ 1 := by
        apply (((List.take_sublist n _).filter _).length_le).trans
        omega
      rw [Nat.sub_eq_zero_of_le hn.le]
      simp only [List.take_zero, List.filter_nil, List.length_nil]
      omega
    · rw [List.take_of_length_le hn]
      have hparts := congrArg List.length (h.filter_heads_append k)
      rw [List.length_append] at hparts
      have hrest := ((List.take_sublist (n - (heads groups).length)
        (roundRobin (Fingerprint.dropHeads groups))).filter (key · = k)).length_le
      rw [h.dropHeads.filter_roundRobin] at hrest
      rcases ih h.dropHeads (n - (heads groups).length) with hle | hall
      · omega
      · omega

end Grouped

end RoundRobin

/-! ## Revisions -/

/-- The places of one revision. -/
def ofRevision (revisions : Array ℕ) (r : ℕ) (places : List TokenRef) : List TokenRef :=
  places.filter (revisionOf revisions · = r)

/-- Places by stream, then by position. -/
def inOrder (places : List TokenRef) : List TokenRef :=
  places.mergeSort fun p q => p.key.le q.key

/-- The order in which places are grouped: by revision, then by stream, then by position. -/
def groupKey (revisions : Array ℕ) (place : TokenRef) : Key :=
  (revisionOf revisions place : Int) :: place.key

variable {revisions : Array ℕ} {places : List TokenRef} {limit limit' : ℕ}

theorem groupKey_injective {p q : TokenRef} (h : groupKey revisions p = groupKey revisions q) :
    p = q :=
  TokenRef.key_injective (List.tail_eq_of_cons_eq h)

theorem groupKey_le_iff {p q : TokenRef} : (groupKey revisions p).le (groupKey revisions q) = true ↔
    revisionOf revisions p < revisionOf revisions q ∨
      revisionOf revisions p = revisionOf revisions q ∧ p.key.le q.key = true := by
  simp only [groupKey, Key.le, Bool.or_eq_true, Bool.and_eq_true, decide_eq_true_eq, beq_iff_eq,
    Nat.cast_lt, Nat.cast_inj]

theorem flatten_byRevision (revisions : Array ℕ) (places : List TokenRef) :
    (byRevision revisions places).flatten =
      places.mergeSort fun p q => (groupKey revisions p).le (groupKey revisions q) :=
  List.flatten_splitBy _ _

theorem grouped_byRevision (revisions : Array ℕ) (places : List TokenRef) :
    Grouped (revisionOf revisions) (byRevision revisions places) := by
  constructor
  · intro g hg x hx y hy
    exact key_eq_of_mem_splitBy hg hx hy
  · apply pairwise_splitBy Nat.le_antisymm
    apply (pairwise_mergeSort_key (groupKey revisions) places).imp
    intro p q hpq
    rcases groupKey_le_iff.mp hpq with hlt | ⟨heq, -⟩
    · exact hlt.le
    · exact heq.le

/-- The places of one revision are grouped in their order. -/
theorem ofRevision_byRevision (revisions : Array ℕ) (places : List TokenRef) (r : ℕ) :
    ofRevision revisions r (byRevision revisions places).flatten =
      inOrder (ofRevision revisions r places) := by
  rw [flatten_byRevision]
  apply eq_mergeSort_key
  · exact fun p _ q _ => TokenRef.key_injective
  · exact (List.mergeSort_perm places _).filter _
  · apply ((pairwise_mergeSort_key (groupKey revisions) places).filter _).imp_of_mem
    intro p q hp hq hpq
    have hp := of_decide_eq_true (List.mem_filter.mp hp).2
    have hq := of_decide_eq_true (List.mem_filter.mp hq).2
    rcases groupKey_le_iff.mp hpq with hlt | ⟨-, hle⟩
    · omega
    · exact hle

theorem byRevision_perm (revisions : Array ℕ) {other : List TokenRef} (h : other.Perm places) :
    byRevision revisions other = byRevision revisions places := by
  have hsorted : other.mergeSort (fun p q => (groupKey revisions p).le (groupKey revisions q)) =
      places.mergeSort fun p q => (groupKey revisions p).le (groupKey revisions q) := by
    apply eq_mergeSort_key
    · exact fun p _ q _ => groupKey_injective
    · exact (List.mergeSort_perm other _).trans h
    · exact pairwise_mergeSort_key (groupKey revisions) other
  exact congrArg (List.splitBy fun p q => revisionOf revisions p == revisionOf revisions q) hsorted

/-! ## Truncation -/

theorem roundRobin_byRevision_perm (revisions : Array ℕ) (places : List TokenRef) :
    (roundRobin (byRevision revisions places)).Perm places := by
  apply (roundRobin_perm _).trans
  rw [flatten_byRevision]
  exact List.mergeSort_perm places _

theorem truncate_of_lt (hlimit : 1 ≤ limit) (hlong : limit < places.length) :
    truncate places revisions limit = (roundRobin (byRevision revisions places)).take limit := by
  unfold truncate
  rw [if_neg (Nat.not_le.mpr hlong)]
  exact if_neg (by omega)

theorem truncate_subset (hlimit : 1 ≤ limit) : truncate places revisions limit ⊆ places := by
  rcases Nat.lt_or_ge limit places.length with hlong | hshort
  · rw [truncate_of_lt hlimit hlong]
    intro p hp
    exact (roundRobin_byRevision_perm revisions places).mem_iff.mp (List.mem_of_mem_take hp)
  · rw [truncate, if_pos hshort]
    exact List.Subset.refl places

/-- A bucket keeps under a larger limit what it keeps under a smaller one. -/
theorem truncate_subset_truncate (hlimit : 1 ≤ limit) (hle : limit ≤ limit') :
    truncate places revisions limit ⊆ truncate places revisions limit' := by
  rcases Nat.lt_or_ge limit' places.length with hlong | hshort
  · rw [truncate_of_lt hlimit (by omega), truncate_of_lt (by omega) hlong]
    exact (List.take_prefix_take_left hle).subset
  · rw [show truncate places revisions limit' = places from if_pos hshort]
    exact truncate_subset hlimit

/-- A fair choice of `limit` places of a bucket: the first ones of each revision, and of no revision
more than one place more than of another one, unless that one has no more. -/
structure FairCut (revisions : Array ℕ) (limit : ℕ) (places kept : List TokenRef) : Prop where
  length_eq : kept.length = limit
  nodup : kept.Nodup
  subset : kept ⊆ places
  first : ∀ r, ofRevision revisions r kept <+: inOrder (ofRevision revisions r places)
  fair : ∀ r s, (ofRevision revisions s kept).length ≤ (ofRevision revisions r kept).length + 1 ∨
    ofRevision revisions r places ⊆ kept

theorem fairCut_take (hdistinct : places.Nodup) (hlong : limit ≤ places.length) :
    FairCut revisions limit places ((roundRobin (byRevision revisions places)).take limit) := by
  have hperm := roundRobin_byRevision_perm revisions places
  have hgroups := grouped_byRevision revisions places
  have hfirst (r : ℕ) :
      ofRevision revisions r ((roundRobin (byRevision revisions places)).take limit) <+:
        inOrder (ofRevision revisions r places) := by
    rw [← ofRevision_byRevision]
    unfold ofRevision
    rw [← hgroups.filter_roundRobin]
    exact (List.take_prefix _ _).filter _
  refine ⟨?_, ?_, ?_, hfirst, ?_⟩
  · rw [List.length_take, hperm.length_eq]
    omega
  · exact (hperm.nodup_iff.mpr hdistinct).sublist (List.take_sublist _ _)
  · intro p hp
    exact hperm.mem_iff.mp (List.mem_of_mem_take hp)
  · intro r s
    apply (hgroups.fair limit r s).imp_right
    intro hall p hp
    -- a beginning of full length is the whole list
    have hlen : (ofRevision revisions r ((roundRobin (byRevision revisions places)).take
        limit)).length = (inOrder (ofRevision revisions r places)).length := by
      rw [← ofRevision_byRevision]
      exact hall
    have hmem : p ∈ inOrder (ofRevision revisions r places) := List.mem_mergeSort.mpr hp
    rw [← (hfirst r).eq_of_length hlen] at hmem
    exact List.mem_of_mem_filter hmem

/-- A bucket over the limit is cut down fairly, and the order of its places does not matter. -/
theorem truncate_fair (revisions : Array ℕ) (hdistinct : places.Nodup) (hlimit : 1 ≤ limit)
    (hlong : limit < places.length) :
    FairCut revisions limit places (truncate places revisions limit) ∧
      ∀ other, other.Perm places →
        truncate other revisions limit = truncate places revisions limit := by
  constructor
  · rw [truncate_of_lt hlimit hlong]
    exact fairCut_take hdistinct hlong.le
  · intro other hother
    rw [truncate_of_lt hlimit hlong, truncate_of_lt hlimit (hother.length_eq ▸ hlong),
      byRevision_perm revisions hother]

/-- Seven places of three revisions, the last stream without a revision of its own. -/
def crowded : List TokenRef :=
  [⟨3, 8⟩, ⟨0, 6⟩, ⟨1, 5⟩, ⟨0, 4⟩, ⟨2, 7⟩, ⟨0, 2⟩, ⟨0, 9⟩]

theorem truncate_fair_crowded :
    truncate crowded #[0, 1, 2] 5 = [⟨0, 2⟩, ⟨1, 5⟩, ⟨2, 7⟩, ⟨0, 4⟩, ⟨0, 6⟩] ∧
      FairCut #[0, 1, 2] 5 crowded (truncate crowded #[0, 1, 2] 5) := by
  refine ⟨?_, (truncate_fair #[0, 1, 2] (by decide) (by decide) (by decide)).1⟩
  cbv

end Fingerprint

end CloneDetection
