import GeneralGame.Proofs.Game.Odometer
import GeneralGame.Proofs.Player.Patience
import GeneralGame.Proofs.Search.Places

/-!
What a decision promises. It comes to one of the legal moves, and observers are told so, or it fails
with an error of the game. Time that runs out is never an error, and no look-up misses.
-/
namespace GeneralGame

open Search

namespace Player

variable {p : Player} {fuel : Nat} {role : RoleId} {s : State} {instant : Int} {clock : Clock}
  {moves : List Move}

/-- What a decision fails for: the legal moves are refused or there are none, or the last thing that
the search did is a query that was refused or a playout that failed. -/
inductive Blames (p : Player) (fuel : Nat) (role : RoleId) (s : State) (instant : Int)
    (clock : Clock) : GameError → Prop
  | legal {e : GameError} : p.game.legal s role = .error e → Blames p fuel role s instant clock e
  | noMoves : p.game.legal s role = .ok [] →
      Blames p fuel role s instant clock (.noLegalMoves role)
  | query (before : List (SearchRequest × Search.World)) {q : Query} {w : Search.World}
      {e : GameError} :
      p.history fuel role s instant clock = before ++ [(.play (.query q), w)] →
      p.game.answer q = .error (.error e) → Blames p fuel role s instant clock e
  | playout (before : List (SearchRequest × Search.World)) {w v : Search.World} {n turn : Nat}
      {t : State} {e : GameError} :
      Search.answer p.game (p.deadline instant) .playoutTurn w = (.ok turn, v) →
      p.history fuel role s instant clock = before ++ (.playoutTurn, w) ::
        (ofPlay (p.playout p.game.roleCount role n turn t)).history
          (Search.answer p.game (p.deadline instant)) v →
      (p.game.search (p.deadline instant)
        (ofPlay (p.playout p.game.roleCount role n turn t)) v).1 = .fault (.error e) →
      Blames p fuel role s instant clock e

/-- The player after a search that has left a world. -/
def searched (p : Player) (w : Search.World) : Player :=
  { p with
    rng := p.rng.fork.2, stats := w.stats, selections := w.selections, playouts := w.playouts }

/-- A search in which an entry may be missing. -/
def searchAt (p : Player) (fuel : Nat) (role : RoleId) (s : State) (moves : List Move)
    (instant : Int) (clock : Clock) : Option (Outcome Move × Player × Clock) :=
  let (outcome, w) := p.game.search (p.deadline instant)
    (p.strategy.searchAt (p.brief role) fuel s moves).run (p.searchWorld clock)
  match outcome with
  | .done found => found.map fun m => (.done m, p.searched w, w.play.clock)
  | .cut => some (.cut, p.searched w, w.play.clock)
  | .fault f => some (.fault f, p.searched w, w.play.clock)

theorem searchAt_eq (h : moves ≠ []) :
    p.searchAt fuel role s moves instant clock =
      some (p.search fuel role s moves h instant clock) := by
  cases hrun : p.game.search (p.deadline instant)
    (p.strategy.search (p.brief role) fuel s moves h) (p.searchWorld clock) with
  | mk outcome w =>
      have hsearch : p.search fuel role s moves h instant clock =
          (outcome, p.searched w, w.play.clock) :=
        congrArg (fun r => (r.1, p.searched r.2, r.2.play.clock)) hrun
      have hrunAt : p.game.search (p.deadline instant)
          (p.strategy.searchAt (p.brief role) fuel s moves).run (p.searchWorld clock) =
          (outcome.map some, w) := by
        rw [Strategy.searchAt_eq _ _ _ _ h, run_liftM, Game.search, Program.run_map]
        exact congrArg (fun r => (r.1.map some, r.2)) hrun
      rw [searchAt, hrunAt, hsearch]
      cases outcome <;> rfl

end Player

end GeneralGame
