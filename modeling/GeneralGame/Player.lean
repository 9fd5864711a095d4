import GeneralGame.Search.Strategy

/-!
Players. A player decides on one move at a time, by one strategy on one game. Every decision that
needs a search has a generator of its own, forked off the player's.
-/
namespace GeneralGame

structure SelectedMove where
  legalMoves : List Move
  selection : Move
  elapsedUs : Nat
deriving DecidableEq

structure Player where
  game : Game
  config : Config
  strategy : Strategy
  selection : SelectionPolicy
  playout : PlayoutPolicy
  rng : Rng
  stats : Stats
  /-- How often a child was selected. -/
  selections : Nat
  /-- How many playouts were started. -/
  playouts : Nat

/-- What came of a decision. -/
structure Decision where
  outcome : Outcome SelectedMove
  /-- What observers are told, in order. -/
  announced : List (RoleId × SelectedMove)
  player : Player
  clock : Clock

/-- The selected move, if one was selected. -/
def Decision.move? (d : Decision) : Option Move :=
  match d.outcome with
  | .done selected => some selected.selection
  | _ => none

namespace Player

def new (game : Game) (strategy : Strategy) (config : Config)
    (selection : SelectionPolicy) (playout : PlayoutPolicy) : Player where
  game := game
  config := config
  strategy := strategy
  selection := selection
  playout := playout
  rng := .ofSeed config.seed
  stats := .zero
  selections := 0
  playouts := 0

/-- More fuel than a search can use up. -/
def ampleFuel : Nat := 1 <<< 62

def brief (p : Player) (role : RoleId) : Brief where
  roleCount := p.game.roleCount
  role := role
  config := p.config
  selection := p.selection
  playout := p.playout

/-- Searches for a move with a fork of the player's generator. -/
def search (p : Player) (fuel : Nat) (role : RoleId) (s : State) (moves : List Move)
    (h : moves ≠ []) (instant : Int) (clock : Clock) : Outcome Move × Player × Clock :=
  let (rng, parent) := p.rng.fork
  let w : Search.World :=
    { Search.World.new clock rng with selections := p.selections, playouts := p.playouts }
  let deadline : Deadline := ⟨instant, p.strategy.marginUs p.config⟩
  let (outcome, w) := p.game.search deadline (p.strategy.search (p.brief role) fuel s moves h) w
  (outcome, { p with
    rng := parent, stats := w.stats, selections := w.selections, playouts := w.playouts },
    w.play.clock)

/-- Decides on a move of a role in a state before an instant. The only legal move is played without
a search. -/
def select (p : Player) (fuel : Nat) (role : RoleId) (s : State) (instant : Int) (clock : Clock) :
    Decision :=
  let (start, clock) := clock.read
  let p := { p with stats := .zero }
  let fail (f : Fault) (p : Player) (clock : Clock) : Decision := ⟨.fault f, [], p, clock⟩
  match p.game.moves s role with
  | .error e => fail (.error e) p clock
  | .ok ⟨moves, h⟩ =>
    let (outcome, p, clock) :=
      if moves.length = 1 then (.done (moves.head h), p, clock)
      else p.search fuel role s moves h instant clock
    match outcome with
    | .cut => ⟨.cut, [], p, clock⟩
    | .fault f => fail f p clock
    | .done selection =>
      let (stop, clock) := clock.read
      let selected : SelectedMove := ⟨moves, selection, stop - start⟩
      let p := { p with stats := { p.stats with timeUs := selected.elapsedUs } }
      ⟨.done selected, [(role, selected)], p, clock⟩

/-- Decides for every role in order, each time on a clock of its own and whatever came of the roles
before. -/
def selectAll (fuel : Nat) (s : State) (instant : Int) (clock : Clock) :
    List RoleId → Player → List Decision × Player
  | [], p => ([], p)
  | r :: rs, p =>
    let decision := p.select fuel r s instant clock
    let (decisions, p) := selectAll fuel s instant clock rs decision.player
    (decision :: decisions, p)

/-- Decides for all roles, and gives the state after their joint move if all of them decided. -/
def turn (p : Player) (fuel : Nat) (s : State) (instant : Int) (clock : Clock) :
    List Decision × Option (Except GameError State) × Player :=
  let (decisions, p) := selectAll fuel s instant clock (RoleId.all p.game.roleCount) p
  (decisions, (decisions.mapM Decision.move?).map fun ms => p.game.next s ⟨ms⟩, p)

def setStrategy (p : Player) (strategy : Strategy) : Player := { p with strategy }

end Player

end GeneralGame
