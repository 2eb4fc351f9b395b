/-!
# Stable insertion

Rows are sorted by inserting them one after another behind all rows that they do not belong before,
looking from the end. This fixes the result also for orders that are not total, as that of mixed
values is not.
-/

namespace EntityQuery

variable {α : Type}

/-- Puts `x` into a list that is kept with its last element first. -/
def insertLast (before : α → α → Bool) (x : α) : List α → List α
  | [] => [x]
  | y :: ys => if before x y then y :: insertLast before x ys else x :: y :: ys

/-- The list sorted with its last element first. -/
def sortDescending (before : α → α → Bool) (l : List α) : List α :=
  l.foldl (fun sorted x => insertLast before x sorted) []

def sortAscending (before : α → α → Bool) (l : List α) : List α :=
  (sortDescending before l).reverse

theorem insertLast_perm (before : α → α → Bool) (x : α) (l : List α) :
    (insertLast before x l).Perm (x :: l) := by
  induction l with
  | nil => exact .refl _
  | cons y ys ih =>
    unfold insertLast
    split
    · exact (ih.cons y).trans (.swap x y ys)
    · exact .refl _

theorem sortDescending_perm (before : α → α → Bool) (l : List α) :
    (sortDescending before l).Perm l := by
  have step (l acc : List α) :
      (l.foldl (fun sorted x => insertLast before x sorted) acc).Perm (l ++ acc) := by
    induction l generalizing acc with
    | nil => exact .refl _
    | cons x xs ih =>
      have h := (ih (insertLast before x acc)).trans
        ((insertLast_perm before x acc).append_left xs)
      exact h.trans List.perm_middle
  simpa [sortDescending] using step l []

theorem sortAscending_perm (before : α → α → Bool) (l : List α) :
    (sortAscending before l).Perm l :=
  (List.reverse_perm _).trans (sortDescending_perm before l)

section Map

variable {β : Type} (before : β → β → Bool) (key : α → β)

theorem insertLast_map (x : α) (l : List α) :
    insertLast before (key x) (l.map key) =
      (insertLast (fun a b => before (key a) (key b)) x l).map key := by
  induction l with
  | nil => rfl
  | cons y ys ih =>
    simp only [List.map_cons, insertLast]
    split
    · rw [ih, List.map_cons]
    · rfl

/-- Sorting images is sorting by them. -/
theorem sortDescending_map (l : List α) :
    sortDescending before (l.map key) =
      (sortDescending (fun a b => before (key a) (key b)) l).map key := by
  have step (l acc : List α) :
      (l.map key).foldl (fun sorted x => insertLast before x sorted) (acc.map key) =
        (l.foldl (fun sorted x => insertLast (fun a b => before (key a) (key b)) x sorted) acc).map
          key := by
    induction l generalizing acc with
    | nil => rfl
    | cons x xs ih => rw [List.map_cons, List.foldl_cons, List.foldl_cons, insertLast_map, ih]
  exact step l []

theorem sortAscending_map (l : List α) :
    sortAscending before (l.map key) =
      (sortAscending (fun a b => before (key a) (key b)) l).map key := by
  rw [sortAscending, sortAscending, sortDescending_map, List.map_reverse]

end Map

end EntityQuery
