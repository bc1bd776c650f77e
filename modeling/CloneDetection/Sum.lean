/-!
# Sums over lists
-/

namespace CloneDetection

/-- The sum of a measure over the items of a list. -/
def sumBy {α : Type} (f : α → Nat) (l : List α) : Nat :=
  l.foldr (fun x n => f x + n) 0

@[simp]
theorem sumBy_nil {α : Type} (f : α → Nat) : sumBy f [] = 0 := rfl

@[simp]
theorem sumBy_cons {α : Type} (f : α → Nat) (x : α) (l : List α) :
    sumBy f (x :: l) = f x + sumBy f l := rfl

@[simp]
theorem sumBy_append {α : Type} (f : α → Nat) (l m : List α) :
    sumBy f (l ++ m) = sumBy f l + sumBy f m := by
  induction l with
  | nil => simp
  | cons x l ih => simp [ih, Nat.add_assoc]

end CloneDetection
