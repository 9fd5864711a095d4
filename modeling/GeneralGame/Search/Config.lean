/-!
Settings of the strategies.
-/
namespace GeneralGame

structure Config where
  /-- How long before the deadline the exhaustive strategies stop, in milliseconds. -/
  exhaustiveMarginMs : Nat
  monteCarloMarginMs : Nat
  treeMarginMs : Nat
  /-- The ply at which the depth-limited search values a state instead of looking further. -/
  levelLimit : Nat
  exploration : Float
  /-- The most rounds of playouts in a Monte Carlo search. -/
  depthCharges : Nat
  chargesPerExpansion : Nat
  seed : UInt64

/-- The settings where none are given. -/
def Config.standard : Config where
  exhaustiveMarginMs := 50
  monteCarloMarginMs := 100
  treeMarginMs := 100
  levelLimit := 9
  exploration := 10
  depthCharges := 1000
  chargesPerExpansion := 1
  seed := 42

end GeneralGame
