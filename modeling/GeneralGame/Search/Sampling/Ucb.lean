import GeneralGame.Search.Incumbent
import GeneralGame.Search.Sampling.VisitTable

/-!
Upper confidence bounds: a child is worth the mean of its rewards and a bonus that shrinks as it is
visited more often than its siblings. A child that was never visited comes before all others.
-/
namespace GeneralGame.Ucb

/-- The worth of a child whose parent was visited `parentVisits` times. -/
def score (child : Option Node) (parentVisits : Nat) (c : Float) : Float :=
  match child with
  | some child =>
    if child.isVisited then
      child.mean + c * (2 * (max 1 parentVisits).toFloat.log / child.visits.toFloat).sqrt
    else 1 / 0
  | none => 1 / 0

/-- The place of the greatest score from place `i` on, given the best one before; a score that is
not a number is never greater. -/
def bestFrom (best : Nat) (bestScore : Float) : (i : Nat) → List Float → Nat
  | _, [] => best
  | i, x :: xs => if bestScore < x then bestFrom i x (i + 1) xs else bestFrom best bestScore (i + 1) xs

/-- The first child of the greatest score, or the first of all where no score exceeds minus
infinity. -/
def select (parent : Node) (children : List (Option Node)) (c : Float) : Nat :=
  bestFrom 0 minusInfinity 0 (children.map fun child => score child parent.visits c)

theorem bestFrom_lt {size : Nat} (best : Nat) (bestScore : Float) (i : Nat) (xs : List Float)
    (hbest : best < size) (hsize : i + xs.length ≤ size) : bestFrom best bestScore i xs < size := by
  induction xs generalizing best bestScore i with
  | nil => exact hbest
  | cons x xs ih =>
    simp only [List.length_cons] at hsize
    simp only [bestFrom]
    split
    · exact ih i x (i + 1) (by omega) (by omega)
    · exact ih best bestScore (i + 1) hbest (by omega)

theorem select_lt (parent : Node) (children : List (Option Node)) (c : Float)
    (h : children ≠ []) : select parent children c < children.length :=
  bestFrom_lt _ _ _ _ (List.length_pos_iff.mpr h) (by simp)

end GeneralGame.Ucb
