/-!
What a search has done so far.
-/
namespace GeneralGame

structure Stats where
  nodes : Nat
  charges : Nat
  iterations : Nat
  maxDepth : Nat
  pruned : Nat
  timeUs : Nat
  interrupted : Bool
deriving DecidableEq

/-- A single thing that a search takes down. -/
inductive Note where
  /-- A successor state is computed. -/
  | node
  /-- The search has come this deep. -/
  | depth (plies : Nat)
  /-- A playout has come to its end. -/
  | charge
  | iteration
  | pruned
  /-- The deadline has cut the search off. -/
  | interrupted
deriving DecidableEq

namespace Stats

def zero : Stats := ⟨0, 0, 0, 0, 0, 0, false⟩

def observeDepth (s : Stats) (plies : Nat) : Stats := { s with maxDepth := max s.maxDepth plies }

def take (s : Stats) : Note → Stats
  | .node => { s with nodes := s.nodes + 1 }
  | .depth plies => s.observeDepth plies
  | .charge => { s with charges := s.charges + 1 }
  | .iteration => { s with iterations := s.iterations + 1 }
  | .pruned => { s with pruned := s.pruned + 1 }
  | .interrupted => { s with interrupted := true }

def perSecond (s : Stats) (count : Nat) : Float :=
  if s.timeUs = 0 then 0 else count.toFloat / (s.timeUs.toFloat / 1000000)

def chargesPerSecond (s : Stats) : Float := s.perSecond s.charges

def nodesPerSecond (s : Stats) : Float := s.perSecond s.nodes

end Stats

end GeneralGame
