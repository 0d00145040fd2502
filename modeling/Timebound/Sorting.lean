/-!
# Stable sorting by insertion

Sorting by repeated insertion, on lists short enough for it. Elements that the
order does not tell apart keep their places relative to each other.
-/

namespace Timebound

variable {α : Type}

/-- Insert an element before the first one that it may precede. -/
def insertSorted (le : α → α → Bool) (x : α) : List α → List α
  | [] => [x]
  | y :: rest => if le x y then x :: y :: rest else y :: insertSorted le x rest

/-- Sort a list by an order. -/
def stableSort (le : α → α → Bool) : List α → List α
  | [] => []
  | x :: rest => insertSorted le x (stableSort le rest)

/-- Insertion adds the element and nothing else. -/
theorem insertSorted_perm (le : α → α → Bool) (x : α) (list : List α) :
    (insertSorted le x list).Perm (x :: list) := by
  induction list with
  | nil => exact .refl _
  | cons y rest ih =>
    unfold insertSorted
    split
    · exact .refl _
    · exact (ih.cons y).trans (.swap x y rest)

/-- A sorted list has the elements it had before. -/
theorem stableSort_perm (le : α → α → Bool) (list : List α) : (stableSort le list).Perm list := by
  induction list with
  | nil => exact .refl _
  | cons x rest ih => exact (insertSorted_perm le x _).trans (ih.cons x)

end Timebound
