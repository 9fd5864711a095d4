import GeneralGame.Search.Exhaustive.AlphaBeta
import GeneralGame.Search.Exhaustive.Minimax
import GeneralGame.Search.Sampling.MonteCarlo
import GeneralGame.Search.Sampling.TreeSearch

/-!
The strategies that a player may follow.
-/
namespace GeneralGame

open Search

inductive Strategy where
  /-- The first legal move. -/
  | legal
  | random
  | minimax
  | alphaBeta
  /-- Alpha-beta search with a level limit. -/
  | heuristic (h : Heuristic)
  | monteCarlo
  | uct
deriving DecidableEq

namespace Strategy

/-- The strategy where none is named. -/
def standard : Strategy := uct

def name : Strategy → String
  | legal => "legal"
  | random => "random"
  | minimax => "minimax"
  | alphaBeta => "alpha-beta"
  | heuristic _ => "heuristic"
  | monteCarlo => "monte-carlo"
  | uct => "uct"

def text : Strategy → String
  | heuristic h => s!"heuristic({h.text})"
  | s => s.name

def marginMs (config : Config) : Strategy → Nat
  | legal | random => 0
  | minimax | alphaBeta | heuristic _ => config.exhaustiveMarginMs
  | monteCarlo => config.monteCarloMarginMs
  | uct => config.treeMarginMs

/-- How long before the deadline the strategy stops, in microseconds. -/
def marginUs (config : Config) (s : Strategy) : Nat := s.marginMs config * 1000

/-- One of the moves, drawn at random. -/
def drawMove (moves : List Move) (h : moves ≠ []) : Search Move := do
  let i ← ofPlay (Play.draw (.forList moves.length) moves.length (List.length_pos_iff.mpr h))
  return moves.get i

/-- Chooses one of the role's legal moves in a state. -/
def search (strategy : Strategy) (b : Brief) (fuel : Nat) (s : State) (moves : List Move)
    (h : moves ≠ []) : Search Move :=
  match strategy with
  | legal => return moves.head h
  | random => drawMove moves h
  | minimax => Minimax.search b fuel s moves h
  | alphaBeta => AlphaBeta.search b none fuel s moves h
  | heuristic cutoff => AlphaBeta.search b (some cutoff) fuel s moves h
  | monteCarlo => MonteCarlo.search b fuel s moves h
  | uct => TreeSearch.search b fuel s moves h

end Strategy

end GeneralGame
