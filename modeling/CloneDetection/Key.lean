/-!
# Sort keys

Things are put in order by keys, which are lists of numbers: the first number that differs decides,
and a key comes before those that it starts. The order is total, so a sorted list of things that
their keys determine is the only one.
-/

namespace CloneDetection

/-- The numbers by which a thing is ordered, the one that counts most first. -/
abbrev Key := List Int

namespace Key

/-- Whether a key comes before another one or equals it. -/
def le : Key → Key → Bool
  | [], _ => true
  | _ :: _, [] => false
  | a :: as, b :: bs => a < b || a == b && le as bs

theorem le_total (k l : Key) : le k l || le l k := by
  induction k generalizing l with
  | nil => simp [le]
  | cons a as ih =>
    cases l with
    | nil => simp [le]
    | cons b bs =>
      have := ih bs
      simp only [le, Bool.or_eq_true, Bool.and_eq_true, decide_eq_true_eq, beq_iff_eq] at this ⊢
      rcases Int.lt_trichotomy a b with h | h | h
      · exact .inl (.inl h)
      · rcases this with t | t
        · exact .inl (.inr ⟨h, t⟩)
        · exact .inr (.inr ⟨h.symm, t⟩)
      · exact .inr (.inl h)

theorem le_trans {k l m : Key} (h : le k l) (h' : le l m) : le k m := by
  induction k generalizing l m with
  | nil => simp [le]
  | cons a as ih =>
    cases l with
    | nil => simp [le] at h
    | cons b bs =>
      cases m with
      | nil => simp [le] at h'
      | cons c cs =>
        simp only [le, Bool.or_eq_true, Bool.and_eq_true, decide_eq_true_eq, beq_iff_eq] at h h' ⊢
        rcases h with h | ⟨rfl, h⟩ <;> rcases h' with h' | ⟨rfl, h'⟩
        · exact .inl (Int.lt_trans h h')
        · exact .inl h
        · exact .inl h'
        · exact .inr ⟨rfl, ih h h'⟩

theorem le_antisymm {k l : Key} (h : le k l) (h' : le l k) : k = l := by
  induction k generalizing l with
  | nil =>
    cases l with
    | nil => rfl
    | cons b bs => simp [le] at h'
  | cons a as ih =>
    cases l with
    | nil => simp [le] at h
    | cons b bs =>
      simp only [le, Bool.or_eq_true, Bool.and_eq_true, decide_eq_true_eq, beq_iff_eq] at h h'
      rcases h with h | ⟨rfl, h⟩
      · omega
      · rcases h' with h' | ⟨_, h'⟩
        · omega
        · rw [ih h h']

end Key

end CloneDetection
