import Cull.Text.Basic

/-!
# Sorted sets of texts

Texts in the order of their code points, each at most once.
-/

namespace Cull.Text

/-- Adds a text to a sorted list, unless it is there. -/
def insertSorted (t : Text) : List Text → List Text
  | [] => [t]
  | u :: us =>
    if t = u then u :: us
    else if lt t u then t :: u :: us
    else u :: insertSorted t us

@[simp]
theorem mem_insertSorted {t u : Text} {us : List Text} : u ∈ insertSorted t us ↔ u = t ∨ u ∈ us := by
  induction us with
  | nil => simp [insertSorted]
  | cons v vs ih => grind [insertSorted]

/-- The sorted set of the listed texts. -/
def sortedSet (ts : List Text) : List Text := ts.foldr insertSorted []

@[simp]
theorem mem_sortedSet {t : Text} {ts : List Text} : t ∈ sortedSet ts ↔ t ∈ ts := by
  induction ts with
  | nil => simp [sortedSet]
  | cons u us ih => simp only [sortedSet, List.foldr_cons] at ih ⊢; simp [ih]

end Cull.Text
