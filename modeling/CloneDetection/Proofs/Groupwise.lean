import CloneDetection.Proofs.SortedLists

/-!
# What is done class by class

`groupwise` sorts a list, cuts it where a key changes, replaces each class and sorts the result. When
replacing a class keeps its key, classes do not influence each other: leaving out the items with some
keys before or after makes no difference (`filter_groupwise`). Nor does it matter what the items are
called, as long as their order is the same (`map_groupwise`).
-/

namespace CloneDetection

open List

variable {α β κ : Type}

/-- Items that are left out of a sorted list do not change the order of the others. -/
theorem filter_mergeSort_key {f : α → Key} {l : List α}
    (inj : ∀ a ∈ l, ∀ b ∈ l, f a = f b → a = b) (p : α → Bool) :
    (l.mergeSort fun a b => (f a).le (f b)).filter p =
      (l.filter p).mergeSort fun a b => (f a).le (f b) := by
  apply eq_mergeSort_key
  · intro a ha b hb
    exact inj a (mem_of_mem_filter ha) b (mem_of_mem_filter hb)
  · exact (mergeSort_perm l _).filter p
  · exact (pairwise_mergeSort_key f l).filter p

theorem flatMap_eq_flatMap_filter {f g : α → List β} {q : α → Bool} {l : List α}
    (h : ∀ a ∈ l, f a = if q a then g a else []) : l.flatMap f = (l.filter q).flatMap g := by
  induction l with
  | nil => rfl
  | cons a l ih =>
    obtain ⟨ha, hl⟩ := forall_mem_cons.mp h
    rw [flatMap_cons, ih hl, ha]
    by_cases hq : q a = true
    · rw [if_pos hq, filter_cons_of_pos hq, flatMap_cons]
    · rw [if_neg hq, filter_cons_of_neg hq, nil_append]

/-! ## Classes -/

section Classes

variable {key : α → κ}

/-- Of a list with one key, all or nothing is left when some keys are left out. -/
theorem filter_of_key_eq {c l : List α} {p : κ → Bool} (hc : c ≠ [])
    (h : ∀ x ∈ c, ∀ y ∈ l, key x = key y) :
    l.filter (fun x => p (key x)) = if c.all fun x => p (key x) then l else [] := by
  split
  · rename_i hall
    rw [filter_eq_self]
    intro y hy
    obtain ⟨x, hx⟩ := exists_mem_of_ne_nil c hc
    rw [← h x hx y hy]
    exact all_eq_true.mp hall x hx
  · rename_i hall
    rw [filter_eq_nil_iff]
    intro y hy hp
    refine hall (all_eq_true.mpr fun x hx => ?_)
    rw [h x hx y hy]
    exact hp

/-- The classes of a sorted list from which some keys are left out. -/
theorem splitBy_filter [BEq κ] [LawfulBEq κ] {le : κ → κ → Prop}
    (antisymm : ∀ {a b}, le a b → le b a → a = b) {l : List α}
    (h : l.Pairwise fun x y => le (key x) (key y)) (p : κ → Bool) :
    (l.filter fun x => p (key x)).splitBy (fun x y => key x == key y) =
      (l.splitBy fun x y => key x == key y).filter fun c => c.all fun x => p (key x) := by
  have hnil : [] ∉ l.splitBy fun x y => key x == key y := nil_notMem_splitBy _ l
  rw [splitBy_eq_iff]
  refine ⟨?_, fun hmem => hnil (mem_of_mem_filter hmem), fun c hc => ?_, ?_⟩
  · conv_lhs => rw [← flatten_splitBy (fun x y => key x == key y) l]
    rw [filter_flatten, ← flatMap_def, flatMap_eq_flatMap_filter (g := id), flatMap_id]
    intro c hc
    exact filter_of_key_eq (ne_nil_of_mem_splitBy hc) fun x hx y hy =>
      key_eq_of_mem_splitBy hc hx hy
  · exact isChain_of_mem_splitBy (mem_of_mem_filter hc)
  · -- no two classes that are left have the same key
    have hdistinct := (pairwise_splitBy antisymm h).sublist
      (filter_sublist (p := fun c => c.all fun x => p (key x)))
    refine (hdistinct.imp_of_mem fun {c d} hc hd hne => ?_).isChain
    have hc := ne_nil_of_mem_splitBy (mem_of_mem_filter hc)
    have hd := ne_nil_of_mem_splitBy (mem_of_mem_filter hd)
    exact ⟨hc, hd, beq_false_of_ne (hne _ (getLast_mem hc) _ (head_mem hd))⟩

end Classes

theorem splitBy_map (r : β → β → Bool) (f : α → β) (l : List α) :
    (l.map f).splitBy r = (l.splitBy fun x y => r (f x) (f y)).map (map f) := by
  rw [splitBy_eq_iff]
  refine ⟨?_, fun hmem => ?_, fun c hc => ?_, ?_⟩
  · rw [← map_flatten, flatten_splitBy]
  · obtain ⟨c, hc, hnil⟩ := mem_map.mp hmem
    rw [map_eq_nil_iff] at hnil
    exact ne_nil_of_mem_splitBy hc hnil
  · obtain ⟨d, hd, rfl⟩ := mem_map.mp hc
    rw [isChain_map]
    exact isChain_of_mem_splitBy hd
  · rw [isChain_map]
    refine (isChain_getLast_head_splitBy _ l).imp ?_
    rintro c d ⟨hc, hd, hr⟩
    refine ⟨by simpa using hc, by simpa using hd, ?_⟩
    rw [getLast_map, head_map]
    exact hr

/-! ## Replacing classes -/

/-- The list with each class of equal keys replaced; classes are visited in one order, and what they
are replaced by is reported in another one. -/
def groupwise [BEq κ] (visit : α → Key) (key : α → κ) (step : List α → List α) (report : α → Key)
    (l : List α) : List α :=
  (((l.mergeSort fun a b => (visit a).le (visit b)).splitBy fun a b => key a == key b).flatMap
    step).mergeSort fun a b => (report a).le (report b)

/-- Items with other keys do not matter for what becomes of a class. -/
theorem filter_groupwise [BEq κ] [LawfulBEq κ] {key : α → κ} {visit report : α → Key}
    {step : List α → List α} {le : κ → κ → Prop} {l : List α} (p : κ → Bool)
    (antisymm : ∀ {a b}, le a b → le b a → a = b)
    (sorted : ∀ a b, (visit a).le (visit b) = true → le (key a) (key b))
    (visit_inj : ∀ a ∈ l, ∀ b ∈ l, visit a = visit b → a = b)
    (report_inj : ∀ a b, report a = report b → a = b)
    (step_key : ∀ c k, (∀ a ∈ c, key a = k) → ∀ b ∈ step c, key b = k) :
    (groupwise visit key step report l).filter (fun a => p (key a)) =
      groupwise visit key step report (l.filter fun a => p (key a)) := by
  have hsorted := (pairwise_mergeSort_key visit l).imp fun {a b} => sorted a b
  unfold groupwise
  rw [filter_mergeSort_key fun a _ b _ => report_inj a b, ← filter_mergeSort_key visit_inj,
    splitBy_filter antisymm hsorted, filter_flatMap]
  congr 1
  refine flatMap_eq_flatMap_filter fun c hc => ?_
  refine filter_of_key_eq (ne_nil_of_mem_splitBy hc) fun a ha b hb => ?_
  exact (step_key c (key a) (fun x hx => key_eq_of_mem_splitBy hc hx ha) b hb).symm

/-- Items with other names give the same result under these names. -/
theorem map_groupwise [BEq κ] {key : α → κ} {visit report : α → Key} {step : List α → List α}
    {key' : β → κ} {visit' report' : β → Key} {step' : List β → List β} {f : α → β}
    (visit_map : ∀ a b, (visit a).le (visit b) = (visit' (f a)).le (visit' (f b)))
    (key_map : ∀ a b, (key a == key b) = (key' (f a) == key' (f b)))
    (step_map : ∀ c, step' (c.map f) = (step c).map f)
    (report_map : ∀ a b, (report a).le (report b) = (report' (f a)).le (report' (f b)))
    (l : List α) :
    groupwise visit' key' step' report' (l.map f) =
      (groupwise visit key step report l).map f := by
  have sort {g : α → Key} {g' : β → Key}
      (h : ∀ a b, (g a).le (g b) = (g' (f a)).le (g' (f b))) (l : List α) :
      (l.mergeSort fun a b => (g a).le (g b)).map f =
        (l.map f).mergeSort fun a b => (g' a).le (g' b) :=
    map_mergeSort fun a _ b _ => h a b
  unfold groupwise
  rw [sort report_map, ← sort visit_map, splitBy_map, flatMap_map, map_flatMap]
  simp only [step_map, key_map]

end CloneDetection
