import GeneralGame.Move

/-!
The best move so far. A new move takes over only with a strictly greater score, so of equal moves
the first one stays.
-/
namespace GeneralGame

structure Incumbent (Score : Type) where
  move : Move
  score : Score

namespace Incumbent

variable {Score : Type} [LT Score] [DecidableLT Score]

/-- Whether a score is enough to take over. -/
def yieldsTo (i : Incumbent Score) (score : Score) : Bool := i.score < score

def offer (i : Incumbent Score) (m : Move) (score : Score) : Incumbent Score :=
  if i.yieldsTo score then ⟨m, score⟩ else i

end Incumbent

/-- Minus infinity, which every average of goals exceeds. -/
def minusInfinity : Float := -(1 / 0)

end GeneralGame
