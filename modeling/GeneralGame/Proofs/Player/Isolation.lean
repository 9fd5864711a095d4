import GeneralGame.Proofs.Player.Decision
import GeneralGame.Proofs.Search.Turns
import Mathlib.Logic.Function.Iterate

/-!
Decisions are isolated. What a player has done before reaches a decision through the generator only,
and the generator is forked once for every decision between moves and never drawn from. So the past
of a player comes down to a number.
-/
namespace GeneralGame.Player

open Search

/-- What a player can be asked to do. -/
inductive Call where
  | select (fuel : Nat) (role : RoleId) (s : State) (instant : Int) (clock : Clock)
  | setStrategy (strategy : Strategy)

/-- The call is for a decision between two moves or more. -/
def Call.isContested (g : Game) : Call → Bool
  | select _ role s _ _ => g.isContested s role
  | setStrategy _ => false

/-- The strategy after a call. -/
def Call.strategyFrom (strategy : Strategy) : Call → Strategy
  | select .. => strategy
  | setStrategy strategy => strategy

/-- The player after a call, whatever came of it. -/
def call (p : Player) : Call → Player
  | .select fuel role s instant clock => (p.select fuel role s instant clock).player
  | .setStrategy strategy => p.setStrategy strategy

def after (p : Player) (calls : List Call) : Player := calls.foldl call p

/-- The players differ at most in what they have counted. -/
structure Alike (p q : Player) : Prop where
  game : p.game = q.game
  config : p.config = q.config
  strategy : p.strategy = q.strategy
  selection : p.selection = q.selection
  playout : p.playout = q.playout
  rng : p.rng = q.rng

variable {p q : Player} {fuel : Nat} {role : RoleId} {s : State} {instant : Int} {clock : Clock}
  {moves : List Move}

/-! ### One decision -/

/-- The choices are for the same move or fail alike, at the same time and with the same
statistics. -/
def SameChoice (a b : Outcome Move × Player × Clock) : Prop :=
  a.1 = b.1 ∧ a.2.1.stats = b.2.1.stats ∧ a.2.2 = b.2.2

/-- The decisions come to the same, are told alike, and leave the same statistics and time. -/
def SameDecision (a b : Decision) : Prop :=
  a.outcome = b.outcome ∧ a.announced = b.announced ∧ a.player.stats = b.player.stats ∧
    a.clock = b.clock

theorem sameDecision_conclude {a b : Outcome Move × Player × Clock} (h : SameChoice a b)
    (role : RoleId) (moves : List Move) (start : Nat) :
    SameDecision (conclude role moves start a) (conclude role moves start b) := by
  obtain ⟨outcome, p, clock⟩ := a
  obtain ⟨outcome', q, clock'⟩ := b
  obtain ⟨rfl, hstats, rfl⟩ := h
  dsimp only at hstats
  cases outcome <;> simp [SameDecision, conclude, hstats]

theorem sameChoice_search (h : p.Alike q) (hselection : p.selection = .ucb)
    (hplayout : p.playout = .random) (hmoves : moves ≠ []) :
    SameChoice (p.search fuel role s moves hmoves instant clock)
      (q.search fuel role s moves hmoves instant clock) := by
  obtain ⟨game, config, strategy, selection, playout, rng, stats, selections, playouts⟩ := p
  obtain ⟨rfl, rfl, rfl, rfl, rfl, rfl⟩ := h
  have hfree : (q.strategy.search (q.brief role) fuel s moves hmoves).TurnFree :=
    closed_turnFree.search (Brief.complies_turnFree hselection hplayout) q.strategy
      (fun _ _ => trivial) fuel s hmoves
  obtain ⟨houtcome, hworld⟩ := run_alike (g := q.game) (d := q.deadline instant)
    (w := { q.searchWorld clock with selections, playouts }) (v := q.searchWorld clock)
    hfree ⟨rfl, rfl, rfl⟩
  exact ⟨houtcome, hworld.stats, congrArg Play.World.clock hworld.play⟩

/-- What players have counted before makes no difference to their decisions. -/
theorem sameDecision_select (h : p.Alike q) (hselection : p.selection = .ucb)
    (hplayout : p.playout = .random) :
    SameDecision (p.select fuel role s instant clock) (q.select fuel role s instant clock) := by
  cases hmoves : p.game.moves s role with
  | error e =>
      rw [select_eq_of_error hmoves, select_eq_of_error (h.game ▸ hmoves)]
      exact ⟨rfl, rfl, rfl, rfl⟩
  | ok ms =>
      obtain ⟨moves, hne⟩ := ms
      rw [select_eq_of_moves hmoves, select_eq_of_moves (h.game ▸ hmoves)]
      apply sameDecision_conclude
      unfold choose
      split
      · exact ⟨rfl, rfl, rfl⟩
      · exact sameChoice_search ⟨h.game, h.config, h.strategy, h.selection, h.playout, h.rng⟩
          hselection hplayout hne

/-! ### Many calls -/

/-- A call forks the generator if it is for a decision between moves, and the strategy is as it
says. -/
theorem call_eq (p : Player) (c : Call) :
    ∃ stats selections playouts, p.call c =
      { p with
        strategy := c.strategyFrom p.strategy
        rng := if c.isContested p.game then p.rng.fork.2 else p.rng
        stats, selections, playouts } := by
  cases c with
  | setStrategy strategy => exact ⟨_, _, _, rfl⟩
  | select fuel role s instant clock => exact p.select_player_eq fuel role s instant clock

/-- After any calls the generator has been forked as often as there was something to decide, and
nothing was drawn from it. -/
theorem after_eq (p : Player) (calls : List Call) :
    ∃ stats selections playouts, p.after calls =
      { p with
        strategy := calls.foldl Call.strategyFrom p.strategy
        rng := (·.fork.2)^[calls.countP (·.isContested p.game)] p.rng
        stats, selections, playouts } := by
  induction calls generalizing p with
  | nil => exact ⟨_, _, _, rfl⟩
  | cons c calls ih =>
      obtain ⟨_, _, _, hcall⟩ := p.call_eq c
      obtain ⟨stats, selections, playouts, hafter⟩ := ih (p.call c)
      refine ⟨stats, selections, playouts, ?_⟩
      rw [after, hcall] at hafter
      rw [after, List.foldl_cons, hcall, hafter]
      cases hcontested : c.isContested p.game <;> simp [hcontested]

theorem strategy_after (p : Player) (calls : List Call) :
    (p.after calls).strategy = calls.foldl Call.strategyFrom p.strategy := by
  obtain ⟨_, _, _, hafter⟩ := p.after_eq calls
  rw [hafter]

/-- A player where no policies are named. -/
def usual (game : Game) (strategy : Strategy) (config : Config) : Player :=
  .new game strategy config .ucb .random

namespace Crossroads

/-- Goes on forever, in as many ways as the state says. -/
def game : Game where
  roles := ["walker"]
  initial := .ofFacts [2]
  isTerminal _ := false
  goal _ _ := .ok 0
  legal s _ := .ok ([⟨"left"⟩, ⟨"right"⟩].take (s.facts.headD 0))
  next s _ := .ok s

/-- A call for a decision between so many moves, on a clock that moves by one. -/
def choice (ways : Nat) (instant : Int) : Call :=
  .select 9 (.ofIndex 0) (.ofFacts [ways]) instant ⟨0, 1⟩

/-- A tree search that is cut off at once, a move that is the only one, and one that is missing. -/
def straying : List Call :=
  [choice 2 0, choice 1 1000000, .setStrategy .minimax, choice 0 1000000, .setStrategy .uct]

/-- A decision that has the time for some playouts. -/
def sampling : List Call := [choice 2 1000000, .setStrategy .uct]

end Crossroads

/-- Two players with the same game and settings, of which neither names a policy, have had any
calls: for decisions by any strategies, in any states and on any clocks, whatever came of them. If
both had to decide between moves equally often, then a further decision by the same strategy comes
to the same on both: the same move or error, after the same time, with the same statistics. -/
theorem decisions_isolated {game : Game} {config : Config} {strategy₁ strategy₂ : Strategy}
    {calls₁ calls₂ : List Call}
    (hcount : calls₁.countP (·.isContested game) = calls₂.countP (·.isContested game))
    (hstrategy : ((usual game strategy₁ config).after calls₁).strategy =
      ((usual game strategy₂ config).after calls₂).strategy)
    (fuel : Nat) (role : RoleId) (s : State) (instant : Int) (clock : Clock) :
    SameDecision
      (((usual game strategy₁ config).after calls₁).select fuel role s instant clock)
      (((usual game strategy₂ config).after calls₂).select fuel role s instant clock) := by
  have hrng : (fun rng : Rng => rng.fork.2)^[calls₁.countP (·.isContested game)]
        (Rng.ofSeed config.seed) =
      (fun rng : Rng => rng.fork.2)^[calls₂.countP (·.isContested game)]
        (Rng.ofSeed config.seed) := by rw [hcount]
  obtain ⟨_, _, _, hafter₁⟩ := (usual game strategy₁ config).after_eq calls₁
  obtain ⟨_, _, _, hafter₂⟩ := (usual game strategy₂ config).after_eq calls₂
  rw [hafter₁, hafter₂] at hstrategy ⊢
  exact sameDecision_select ⟨rfl, rfl, hstrategy, rfl, rfl, hrng⟩ rfl rfl

open Crossroads in
/-- One decision between two moves came before in both cases. -/
theorem decisions_isolated_crossroads :
    straying.countP (·.isContested Crossroads.game) = 1 ∧
      sampling.countP (·.isContested Crossroads.game) = 1 ∧
      SameDecision
        (((usual Crossroads.game .uct .standard).after straying).select 9 (.ofIndex 0)
          (.ofFacts [2]) 100100 ⟨0, 1⟩)
        (((usual Crossroads.game .monteCarlo .standard).after sampling).select 9 (.ofIndex 0)
          (.ofFacts [2]) 100100 ⟨0, 1⟩) := by
  have hstraying : straying.countP (·.isContested Crossroads.game) = 1 := by decide
  have hsampling : sampling.countP (·.isContested Crossroads.game) = 1 := by decide
  have hstrategy : ((usual Crossroads.game .uct .standard).after straying).strategy =
      ((usual Crossroads.game .monteCarlo .standard).after sampling).strategy := by
    rw [strategy_after, strategy_after]
    rfl
  exact ⟨hstraying, hsampling,
    decisions_isolated (hstraying.trans hsampling.symm) hstrategy _ _ _ _ _⟩

end GeneralGame.Player
