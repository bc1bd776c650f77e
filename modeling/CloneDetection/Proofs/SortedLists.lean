import CloneDetection.Key
import Mathlib.Data.List.SplitBy

/-!
# Sorted lists

Things that their keys determine have one sorted order (`eq_mergeSort_key`). Dropping the repetitions
of a sorted list leaves a strictly sorted one (`pairwise_eraseReps`), and cutting it where the key
changes gives the classes of equal keys (`exists_mem_splitBy`).
-/

namespace CloneDetection

open List

variable {α κ : Type}

/-- Of two members of a list one comes first. -/
theorem exists_suffix_of_mem {l : List α} {x y : α} (hx : x ∈ l) (hy : y ∈ l) (hne : x ≠ y) :
    (∃ rest, x :: rest <:+ l ∧ y ∈ rest) ∨ ∃ rest, y :: rest <:+ l ∧ x ∈ rest := by
  obtain ⟨l₁, l₂, rfl⟩ := append_of_mem hx
  simp only [mem_append, mem_cons] at hy
  rcases hy with hy | rfl | hy
  · obtain ⟨l₃, l₄, rfl⟩ := append_of_mem hy
    exact .inr ⟨l₄ ++ x :: l₂, ⟨l₃, by simp⟩, by simp⟩
  · contradiction
  · exact .inl ⟨l₂, suffix_append _ _, hy⟩

/-- Things that are sorted by their keys have their keys in order. -/
theorem pairwise_mergeSort_key (f : α → Key) (l : List α) :
    (l.mergeSort fun a b => (f a).le (f b)).Pairwise fun a b => (f a).le (f b) = true := by
  refine pairwise_mergeSort ?_ ?_ l
  · exact fun _ _ _ => Key.le_trans
  · exact fun a b => Key.le_total (f a) (f b)

/-- Things that their keys determine have one sorted order. -/
theorem eq_mergeSort_key {f : α → Key} {l s : List α} (inj : ∀ a ∈ l, ∀ b ∈ l, f a = f b → a = b)
    (hs : s.Perm l) (h : s.Pairwise fun a b => (f a).le (f b) = true) :
    s = l.mergeSort fun a b => (f a).le (f b) := by
  refine Perm.eq_of_pairwise (fun a b ha hb hab hba => ?_) h (pairwise_mergeSort_key f l)
    (hs.trans (mergeSort_perm l _).symm)
  apply inj
  · exact hs.mem_iff.mp ha
  · exact mem_mergeSort.mp hb
  · exact Key.le_antisymm hab hba

/-! ## Repetitions -/

section EraseReps

variable [BEq α]

theorem eraseRepsBy_loop_eq (l : List α) (a : α) (acc : List α) :
    eraseRepsBy.loop (· == ·) a l acc = acc.reverse ++ (a :: l).eraseReps := by
  rw [eraseReps, eraseRepsBy]
  induction l generalizing a acc with
  | nil => simp [eraseRepsBy.loop]
  | cons b l ih =>
    rw [eraseRepsBy.loop, eraseRepsBy.loop]
    cases a == b with
    | true => exact ih a acc
    | false => simp only [ih b (a :: acc), ih b [a], reverse_cons, append_assoc, reverse_nil,
        nil_append]

theorem eraseReps_cons_cons (a b : α) (l : List α) :
    (a :: b :: l).eraseReps = if a == b then (a :: l).eraseReps else a :: (b :: l).eraseReps := by
  rw [eraseReps, eraseRepsBy, eraseRepsBy.loop]
  cases a == b with
  | true => simp [eraseRepsBy_loop_eq]
  | false => simp [eraseRepsBy_loop_eq]

variable [LawfulBEq α]

@[simp]
theorem mem_eraseReps {l : List α} {x : α} : x ∈ l.eraseReps ↔ x ∈ l := by
  match l with
  | [] => simp [eraseReps, eraseRepsBy]
  | [a] => simp [eraseReps, eraseRepsBy, eraseRepsBy.loop]
  | a :: b :: l =>
    rw [eraseReps_cons_cons]
    split
    · rename_i h
      rw [mem_eraseReps, eq_of_beq h]
      simp
    · rw [mem_cons, mem_eraseReps, ← mem_cons]

/-- A sorted list is strictly sorted once its repetitions are dropped. -/
theorem pairwise_eraseReps {le : α → α → Prop} (antisymm : ∀ {a b}, le a b → le b a → a = b)
    {l : List α} (h : l.Pairwise le) : l.eraseReps.Pairwise fun a b => le a b ∧ a ≠ b := by
  match l with
  | [] => simp [eraseReps, eraseRepsBy]
  | [a] => simp [eraseReps, eraseRepsBy, eraseRepsBy.loop]
  | a :: b :: l =>
    rw [pairwise_cons] at h
    rw [eraseReps_cons_cons]
    split
    · rename_i hab
      exact eq_of_beq hab ▸ pairwise_eraseReps antisymm h.2
    · rename_i hab
      refine pairwise_cons.mpr ⟨fun c hc => ?_, pairwise_eraseReps antisymm h.2⟩
      rw [mem_eraseReps] at hc
      refine ⟨h.1 c hc, ?_⟩
      rintro rfl
      rcases mem_cons.mp hc with rfl | hc
      · simp at hab
      · have := antisymm (h.1 b mem_cons_self) ((pairwise_cons.mp h.2).1 a hc)
        simp [this] at hab

end EraseReps

/-! ## Classes -/

/-- The members of a class have one key. -/
theorem key_eq_of_mem_splitBy [BEq κ] [LawfulBEq κ] {key : α → κ} {l chunk : List α}
    (h : chunk ∈ l.splitBy fun x y => key x == key y) {x y : α} (hx : x ∈ chunk)
    (hy : y ∈ chunk) : key x = key y := by
  have hchain := isChain_of_mem_splitBy h
  simp only [beq_iff_eq] at hchain
  have hpairs : chunk.Pairwise fun x y => key x = key y :=
    @IsChain.pairwise α _ _ ⟨Eq.trans⟩ hchain
  exact Pairwise.forall_of_forall_of_flip (R := fun x y => key x = key y) (fun _ _ => rfl)
    hpairs (hpairs.imp Eq.symm) hx hy

/-- Members of different classes of a sorted list have different keys. -/
theorem key_ne_of_splitBy_suffix [BEq κ] [LawfulBEq κ] {key : α → κ} {le : κ → κ → Prop}
    (antisymm : ∀ {a b}, le a b → le b a → a = b) {l : List α}
    (h : l.Pairwise fun x y => le (key x) (key y)) {c d : List α} {rest : List (List α)}
    (hs : c :: rest <:+ l.splitBy fun x y => key x == key y) (hd : d ∈ rest) {x y : α}
    (hx : x ∈ c) (hy : y ∈ d) : key x ≠ key y := by
  intro hxy
  have hmem {e : List α} (he : e ∈ c :: rest) : e ∈ l.splitBy fun x y => key x == key y :=
    hs.subset he
  cases rest with
  | nil => simp at hd
  | cons next rest =>
    -- the key changes from the last item of a class to the first of the next one
    obtain ⟨hc, hn, hchange⟩ : ∃ hc hn, (key (c.getLast hc) == key (next.head hn)) = false :=
      ((isChain_getLast_head_splitBy _ l).suffix hs).rel
    have hlast : key (c.getLast hc) = key x :=
      key_eq_of_mem_splitBy (hmem mem_cons_self) (getLast_mem hc) hx
    have hsorted : (c :: next :: rest).flatten.Pairwise fun x y => le (key x) (key y) := by
      obtain ⟨pre, hpre⟩ := hs
      rw [← flatten_splitBy (fun x y => key x == key y) l, ← hpre, flatten_append] at h
      exact (pairwise_append.mp h).2.1
    rw [pairwise_flatten] at hsorted
    have hcd := (pairwise_cons.mp hsorted.2).1 next mem_cons_self _ (getLast_mem hc) _
      (head_mem hn)
    refine absurd ?_ (by simpa using hchange)
    rcases mem_cons.mp hd with rfl | hd
    · rw [hlast, hxy]
      exact key_eq_of_mem_splitBy (hmem (by simp)) hy (head_mem hn)
    · have hdy := (pairwise_cons.mp (pairwise_cons.mp hsorted.2).2).1 d hd _ (head_mem hn) y hy
      exact antisymm hcd (by rwa [hlast, hxy])

/-- The classes of a sorted list have different keys. -/
theorem pairwise_splitBy [BEq κ] [LawfulBEq κ] {key : α → κ} {le : κ → κ → Prop}
    (antisymm : ∀ {a b}, le a b → le b a → a = b) {l : List α}
    (h : l.Pairwise fun x y => le (key x) (key y)) :
    (l.splitBy fun x y => key x == key y).Pairwise
      fun c d => ∀ x ∈ c, ∀ y ∈ d, key x ≠ key y := by
  have classes (rest : List (List α)) (hs : rest <:+ l.splitBy fun x y => key x == key y) :
      rest.Pairwise fun c d => ∀ x ∈ c, ∀ y ∈ d, key x ≠ key y := by
    induction rest with
    | nil => exact Pairwise.nil
    | cons c rest ih =>
      refine pairwise_cons.mpr ⟨fun d hd x hx y hy => ?_, ih ((suffix_cons c rest).trans hs)⟩
      exact key_ne_of_splitBy_suffix antisymm h hs hd hx hy
  exact classes _ (suffix_refl _)

/-- Members of a sorted list with one key are in one class. -/
theorem exists_mem_splitBy [BEq κ] [LawfulBEq κ] {key : α → κ} {le : κ → κ → Prop}
    (antisymm : ∀ {a b}, le a b → le b a → a = b) {l : List α}
    (h : l.Pairwise fun x y => le (key x) (key y)) {x y : α} (hx : x ∈ l) (hy : y ∈ l)
    (hxy : key x = key y) :
    ∃ chunk ∈ l.splitBy fun x y => key x == key y, x ∈ chunk ∧ y ∈ chunk := by
  rw [← flatten_splitBy (fun x y => key x == key y) l, mem_flatten] at hx hy
  obtain ⟨c, hc, hxc⟩ := hx
  obtain ⟨d, hd, hyd⟩ := hy
  by_cases hcd : c = d
  · exact ⟨c, hc, hxc, hcd ▸ hyd⟩
  · rcases exists_suffix_of_mem hc hd hcd with ⟨rest, hs, hmem⟩ | ⟨rest, hs, hmem⟩
    · exact absurd hxy (key_ne_of_splitBy_suffix antisymm h hs hmem hxc hyd)
    · exact absurd hxy.symm (key_ne_of_splitBy_suffix antisymm h hs hmem hyd hxc)

end CloneDetection
