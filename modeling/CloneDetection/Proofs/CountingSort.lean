import CloneDetection.SuffixArray.Sort
import Mathlib.Data.List.Pairwise
import Mathlib.Data.List.Perm.Basic

/-!
# Sorting by counting

`bucketSort` lists the items of each key in turn. It is a stable sort by keys (`bucketSort_perm`,
`bucketSort_pairwise`), and counting gives the same list when every key has a place in the table
(`countingSort?_eq_some`).

The counts, summed up, tell how many items have smaller keys (`getElem?_sumUp`), which is the place
in the sorted list where the items of a key start (`getElem?_bucketSort`). `Placed` says what stands
in the slots after some of the items; placing one more item keeps it (`Placed.step`).
-/

namespace CloneDetection.SuffixArray

variable {buckets k : Nat} {key : Nat → Nat} {items : List Nat}

/-! ## Buckets -/

/-- The items of each key in turn. -/
def bucketSort (buckets : Nat) (key : Nat → Nat) (items : List Nat) : List Nat :=
  (List.range buckets).flatMap fun k => items.filter (key · == k)

/-- The number of items with smaller keys. -/
def slotOf (key : Nat → Nat) (items : List Nat) (k : Nat) : Nat :=
  items.countP (key · < k)

/-- The first buckets hold the items with smaller keys. -/
theorem flatMap_range_filter_perm (n : Nat) (key : Nat → Nat) (items : List Nat) :
    ((List.range n).flatMap fun k => items.filter (key · == k)).Perm
      (items.filter (key · < n)) := by
  induction n with
  | zero => simp
  | succ n ih =>
    rw [List.range_succ, List.flatMap_append, List.flatMap_singleton]
    have hsplit := List.filter_append_perm (fun i => decide (key i < n))
      (items.filter (key · < n + 1))
    rw [List.filter_filter, List.filter_filter] at hsplit
    refine (List.Perm.append ih (.of_eq ?_)).trans ((List.Perm.append (.of_eq ?_) (.refl _)).trans
      hsplit)
    · refine List.filter_congr fun i _ => ?_
      rw [Bool.eq_iff_iff]
      simp
      omega
    · refine List.filter_congr fun i _ => ?_
      rw [Bool.eq_iff_iff]
      simp
      omega

theorem bucketSort_perm (h : ∀ i ∈ items, key i < buckets) :
    (bucketSort buckets key items).Perm items := by
  refine (flatMap_range_filter_perm buckets key items).trans (.of_eq ?_)
  rw [List.filter_eq_self]
  simpa using h

/-- The items of each key in turn are ordered by keys, and those of one key stay in their order. -/
theorem bucketSort_pairwise {R : Nat → Nat → Prop} (h : items.Pairwise R) :
    (bucketSort buckets key items).Pairwise
      fun i j => key i < key j ∨ key i = key j ∧ R i j := by
  rw [bucketSort, List.pairwise_flatMap]
  constructor
  · intro k _
    refine (h.filter _).imp_of_mem ?_
    intro i j hi hj hij
    simp only [List.mem_filter, beq_iff_eq] at hi hj
    exact .inr ⟨hi.2.trans hj.2.symm, hij⟩
  · refine List.pairwise_lt_range.imp ?_
    intro k l hkl i hi j hj
    simp only [List.mem_filter, beq_iff_eq] at hi hj
    exact .inl (by omega)

/-- The items of a key start where those of smaller keys end. -/
theorem getElem?_bucketSort (hk : k < buckets) {j : Nat} (hj : j < items.countP (key · == k)) :
    (bucketSort buckets key items)[slotOf key items k + j]? =
      (items.filter (key · == k))[j]? := by
  obtain ⟨more, rfl⟩ := Nat.exists_eq_add_of_le (Nat.succ_le_of_lt hk)
  have hlow : ((List.range k).flatMap fun k => items.filter (key · == k)).length =
      slotOf key items k := by
    rw [slotOf, List.countP_eq_length_filter]
    exact (flatMap_range_filter_perm k key items).length_eq
  rw [List.countP_eq_length_filter] at hj
  rw [bucketSort, List.range_add, List.range_succ, List.flatMap_append, List.flatMap_append,
    List.flatMap_singleton, List.append_assoc, List.getElem?_append_right (by omega), hlow,
    Nat.add_sub_cancel_left, List.getElem?_append_left hj]

theorem slotOf_succ (key : Nat → Nat) (items : List Nat) (k : Nat) :
    slotOf key items (k + 1) = slotOf key items k + items.countP (key · == k) := by
  induction items with
  | nil => rfl
  | cons i items ih =>
    simp only [slotOf, List.countP_cons, decide_eq_true_eq, beq_iff_eq] at ih ⊢
    rcases Nat.lt_trichotomy (key i) k with hlt | rfl | hlt
    · rw [if_pos (by omega), if_pos hlt, if_neg (by omega)]
      omega
    · rw [if_pos (by omega), if_neg (by omega), if_pos rfl]
      omega
    · rw [if_neg (by omega), if_neg (by omega), if_neg (by omega)]
      omega

/-- Every place belongs to the items of a key. -/
theorem exists_slot {s : Nat} (h : s < slotOf key items buckets) :
    ∃ k < buckets, ∃ j < items.countP (key · == k), s = slotOf key items k + j := by
  induction buckets with
  | zero => simp [slotOf] at h
  | succ n ih =>
    by_cases hs : s < slotOf key items n
    · obtain ⟨k, hk, hj⟩ := ih hs
      exact ⟨k, by omega, hj⟩
    · rw [slotOf_succ] at h
      exact ⟨n, by omega, s - slotOf key items n, by omega, by omega⟩

/-! ## Counts -/

/-- Every item is counted one place after its key. -/
theorem exists_countKeys? (counts : Array Nat) (h : ∀ i ∈ items, key i + 1 < counts.size) :
    ∃ counts', countKeys? key counts items = some counts' ∧ counts'.size = counts.size ∧
      ∀ k, counts'[k]? = counts[k]?.map (· + items.countP (key · + 1 == k)) := by
  induction items generalizing counts with
  | nil => exact ⟨counts, rfl, rfl, fun k => by simp⟩
  | cons i items ih =>
    obtain ⟨hi, hitems⟩ := List.forall_mem_cons.mp h
    obtain ⟨counts', hcounts, hsize, hget⟩ :=
      ih (counts.modify (key i + 1) (· + 1)) (by simpa using hitems)
    refine ⟨counts', by rw [countKeys?, if_pos hi, hcounts], by simpa using hsize, fun k => ?_⟩
    rw [hget, Array.getElem?_modify, List.countP_cons]
    by_cases hk : key i + 1 = k
    · subst hk
      simp [Function.comp_def, Nat.add_assoc, Nat.add_comm 1]
    · simp [hk]

/-- Numbers are summed up to those whose differences they are. -/
theorem getElem?_sumUp {f sum : Nat → Nat} (hsum : ∀ k, sum (k + 1) = sum k + f (k + 1))
    {counts : Array Nat} (hk : 0 < k) (hlow : ∀ j < k, j < counts.size → counts[j]? = some (sum j))
    (hhigh : ∀ j, k ≤ j → j < counts.size → counts[j]? = some (f j)) :
    ∀ j < counts.size, (sumUp counts k)[j]? = some (sum j) := by
  fun_induction sumUp counts k with
  | case1 counts k h before ih =>
    obtain ⟨m, rfl⟩ := Nat.exists_eq_add_of_lt hk
    rw [Nat.zero_add] at *
    have hbefore : before = sum m := by
      simp [before, hlow m (by omega) (by omega)]
    intro j hj
    refine ih (by omega) (fun i hi hsize => ?_) (fun i hi hsize => ?_) j (by simpa using hj)
    · rw [Array.size_modify] at hsize
      rw [Array.getElem?_modify]
      split
      · subst_vars
        rw [hhigh _ (Nat.le_refl _) hsize, Option.map_some, hbefore, hsum, Nat.add_comm]
      · exact hlow i (by omega) hsize
    · rw [Array.size_modify] at hsize
      rw [Array.getElem?_modify, if_neg (by omega)]
      exact hhigh i (by omega) hsize
  | case2 counts k h =>
    intro j hj
    exact hlow j (by omega) hj

/-! ## Slots -/

/-- After the items `done`, the slot of each key stands behind its items in `done`, and these stand
where the sorted list has them. -/
structure Placed (buckets : Nat) (key : Nat → Nat) (items done : List Nat) (slots out : Array Nat) :
    Prop where
  size : out.size = items.length
  slots : ∀ k < buckets, slots[k]? = some (slotOf key items k + done.countP (key · == k))
  out : ∀ k < buckets, ∀ j < done.countP (key · == k),
    out[slotOf key items k + j]? = (bucketSort buckets key items)[slotOf key items k + j]?

variable {i : Nat} {done rest : List Nat} {slots out : Array Nat}

/-- The slot of an item is the place of the item in the sorted list. -/
theorem getElem?_bucketSort_slot (hitems : items = done ++ i :: rest) (hkey : key i < buckets) :
    (bucketSort buckets key items)[slotOf key items (key i) + done.countP (key · == key i)]? =
      some i := by
  have hlt : done.countP (key · == key i) < items.countP (key · == key i) := by
    rw [hitems, List.countP_append, List.countP_cons_of_pos (by simp)]
    omega
  rw [getElem?_bucketSort hkey hlt, hitems, List.filter_append, List.filter_cons_of_pos (by simp),
    List.countP_eq_length_filter, List.getElem?_append_right (Nat.le_refl _), Nat.sub_self]
  rfl

/-- Placing an item into its slot, which moves on, keeps the items in place. -/
theorem Placed.step (h : Placed buckets key items done slots out)
    (hitems : items = done ++ i :: rest) (hkeys : ∀ i ∈ items, key i < buckets) {slot : Nat}
    (hslot : slot = slotOf key items (key i) + done.countP (key · == key i)) :
    slot < out.size ∧ Placed buckets key items (done ++ [i]) (slots.modify (key i) (· + 1))
      (out.setIfInBounds slot i) := by
  have hkey : key i < buckets := hkeys i (by simp [hitems])
  have hplace := getElem?_bucketSort_slot hitems hkey
  rw [← hslot] at hplace
  have hlt : slot < out.size := by
    obtain ⟨hlt, -⟩ := List.getElem?_eq_some_iff.mp hplace
    rwa [(bucketSort_perm hkeys).length_eq, ← h.size] at hlt
  refine ⟨hlt, by simpa using h.size, fun k hk => ?_, fun k hk j hj => ?_⟩
  · rw [Array.getElem?_modify, h.slots k hk, List.countP_append, List.countP_singleton]
    split
    · subst_vars
      simp [Nat.add_assoc]
    · simp [*]
  · by_cases hplaced : slotOf key items k + j = slot
    · rw [hplaced, hplace, Array.getElem?_setIfInBounds_self_of_lt hlt]
    · rw [Array.getElem?_setIfInBounds_ne (Ne.symm hplaced)]
      refine h.out k hk j ?_
      -- the only new place of the key is the slot
      rw [List.countP_append, List.countP_singleton] at hj
      split at hj
      · simp only [beq_iff_eq] at *
        subst_vars
        omega
      · omega

/-- Placing the rest of the items puts all of them in place. -/
theorem Placed.exists_place? (h : Placed buckets key items done slots out)
    (hitems : items = done ++ rest) (hkeys : ∀ i ∈ items, key i < buckets) :
    ∃ slots' out', place? key slots out rest = some out' ∧
      Placed buckets key items items slots' out' := by
  induction rest generalizing done slots out with
  | nil =>
    rw [List.append_nil] at hitems
    exact ⟨slots, out, rfl, hitems ▸ h⟩
  | cons i rest ih =>
    obtain ⟨hlt, hstep⟩ := h.step hitems hkeys rfl
    obtain ⟨slots', out', hplace, hplaced⟩ := ih hstep (by simp [hitems])
    refine ⟨slots', out', ?_, hplaced⟩
    rw [place?, h.slots (key i) (hkeys i (by simp [hitems]))]
    dsimp only
    rw [if_pos hlt, hplace]

/-- Items all of which are in place are sorted. -/
theorem Placed.toList_eq (h : Placed buckets key items items slots out)
    (hkeys : ∀ i ∈ items, key i < buckets) : out.toList = bucketSort buckets key items := by
  have hlength := (bucketSort_perm hkeys).length_eq
  apply List.ext_getElem?
  intro s
  rw [Array.getElem?_toList]
  by_cases hs : s < items.length
  · have hall : slotOf key items buckets = items.length := by
      rw [slotOf, List.countP_eq_length]
      simpa using hkeys
    obtain ⟨k, hk, j, hj, rfl⟩ := exists_slot (hall ▸ hs)
    exact h.out k hk j hj
  · rw [Array.getElem?_eq_none (by rw [h.size]; omega), List.getElem?_eq_none (by omega)]

/-- **Sorting by counting.** When every key is below the number of buckets, every item finds its
slot, and the result lists the items of each key in turn. -/
theorem countingSort?_eq_some (h : ∀ i ∈ items, key i < buckets) :
    countingSort? buckets key items = some (bucketSort buckets key items) := by
  have hkeys : ∀ i ∈ items, key i + 1 < (Array.replicate (buckets + 1) 0).size := by
    simpa using h
  obtain ⟨counts, hcounts, hsize, hget⟩ := exists_countKeys? _ hkeys
  rw [Array.size_replicate] at hsize
  have hcount (k : Nat) (hk : k < counts.size) :
      counts[k]? = some (items.countP (key · + 1 == k)) := by
    rw [hget, Array.getElem?_replicate, if_pos (by omega)]
    simp
  have hsum (k : Nat) : slotOf key items (k + 1) =
      slotOf key items k + items.countP (key · + 1 == k + 1) := by
    rw [slotOf_succ]
    simp
  have hstart : Placed buckets key items [] (sumUp counts 1) (Array.replicate items.length 0) := by
    refine ⟨by simp, fun k hk => ?_, fun k hk j hj => by simp at hj⟩
    rw [getElem?_sumUp hsum Nat.one_pos (fun j hj hlt => ?_) (fun j _ hlt => hcount j hlt) k
      (by omega)]
    · simp
    · obtain rfl : j = 0 := by omega
      rw [hcount 0 hlt]
      simp [slotOf]
  obtain ⟨slots', out', hplace, hplaced⟩ := hstart.exists_place? rfl h
  simp [countingSort?, hcounts, hplace, hplaced.toList_eq h]

end CloneDetection.SuffixArray
