/-!
# Pieces

Cuts a list at every occurrence of a separator.  There is always one piece more than there are separators;
`join` puts the pieces together again (`join_split`).
-/

namespace Abacus.Pieces

variable {α : Type}

/-- Pieces with a separator between any two. -/
def join (sep : α) (pieces : List (List α)) : List α :=
  List.intercalate [sep] pieces

theorem join_nil_cons (sep : α) {pieces : List (List α)} (h : pieces ≠ []) :
    join sep ([] :: pieces) = sep :: join sep pieces := by
  cases pieces with
  | nil => exact absurd rfl h
  | cons p ps => simp [join, List.intercalate, List.intersperse]

theorem join_cons_cons (sep x : α) (p : List α) (ps : List (List α)) :
    join sep ((x :: p) :: ps) = x :: join sep (p :: ps) := by
  cases ps <;> simp [join, List.intercalate, List.intersperse]

section

variable [DecidableEq α]

/-- Puts an element in front of the pieces of the elements after it. -/
def addFront (sep x : α) (pieces : List (List α)) : List (List α) :=
  if x = sep then [] :: pieces
  else
    match pieces with
    | [] => [[x]]
    | p :: ps => (x :: p) :: ps

/-- The pieces between separators. -/
def split (sep : α) (xs : List α) : List (List α) :=
  xs.foldr (addFront sep) [[]]

theorem split_ne_nil (sep : α) (xs : List α) : split sep xs ≠ [] := by
  cases xs with
  | nil => simp [split]
  | cons x xs =>
    simp only [split, List.foldr_cons, addFront]
    repeat' split
    all_goals simp

theorem join_addFront (sep x : α) {pieces : List (List α)} (h : pieces ≠ []) :
    join sep (addFront sep x pieces) = x :: join sep pieces := by
  unfold addFront
  split
  · next same => rw [join_nil_cons sep h, same]
  · split
    · exact absurd rfl h
    · exact join_cons_cons sep x _ _

/-- Nothing is lost between separators. -/
theorem join_split (sep : α) (xs : List α) : join sep (split sep xs) = xs := by
  induction xs with
  | nil => simp [split, join, List.intercalate]
  | cons x xs ih => exact (join_addFront sep x (split_ne_nil sep xs)).trans (congrArg (x :: ·) ih)

end

end Abacus.Pieces
