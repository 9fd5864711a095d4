import GeneralGame.Proofs.Player.Security
import GeneralGame.Proofs.Search.Exits

/-!
Exhaustive players, and one player in all parts. A player that searches exhaustively decides for the
first move of the greatest worth, by alpha-beta search in every game and by minimax in games of one
role or two. A player that decides for every role in turn keeps its game, its strategy and its
settings, so that what holds of one decision holds of all of them.
-/
namespace GeneralGame

open Search

variable {g : Game} {b : Brief} {s : State}

/-- A strategy that values the moves of a role by all that can follow them. -/
inductive Strategy.IsExhaustive (roleCount : Nat) : Strategy → Prop
  | alphaBeta : IsExhaustive roleCount .alphaBeta
  | minimax (hroles : roleCount = 1 ∨ roleCount = 2) : IsExhaustive roleCount .minimax

theorem Strategy.IsExhaustive.search_returns {strategy : Strategy}
    (hstrategy : strategy.IsExhaustive g.roleCount) (hcount : b.roleCount = g.roleCount)
    (hrole : b.role.index < g.roleCount) {plies fuel : Nat} {moves : List Move} (h : moves ≠ [])
    {worth : Move → Nat} (hworth : ∀ m ∈ moves, g.rootWorth? b none plies s m = some (worth m))
    (hfuel : plies ≤ fuel) :
    g.Returns (strategy.search b fuel s moves h) fun m => moves.argmax worth = some m := by
  cases hstrategy with
  | alphaBeta => exact AlphaBeta.search_returns h hworth hfuel
  | minimax hroles =>
      refine Minimax.search_returns h (fun m hm => ?_) hfuel
      exact Game.moveReplyWorth?_of_moveWorth hcount hroles hrole
        (fun t v hv => Game.stateReplyWorth?_of_stateWorth hcount hroles hrole hv) (hworth m hm)

namespace Player

variable {p q : Player} {fuel n : Nat} {role : RoleId} {instant : Int} {clock : Clock}
  {choice : RoleId → Move}

/-- An undisturbed decision is for the first move of the greatest worth, also where it needs no
search. -/
theorem select_argmax (hstrategy : p.strategy.IsExhaustive p.game.roleCount)
    (hrole : role.index < p.game.roleCount) {moves : List Move} {h : moves ≠ []}
    (hmoves : p.game.moves s role = .ok ⟨moves, h⟩) {worth : Move → Nat} {plies : Nat}
    (hworth : ∀ m ∈ moves, p.game.rootWorth? (p.brief role) none plies s m = some (worth m))
    (hfuel : plies ≤ fuel) (hopen : p.Undisturbed fuel role s instant clock) :
    ∃ selected, (p.select fuel role s instant clock).outcome = .done selected ∧
      selected.legalMoves = moves ∧ moves.argmax worth = some selected.selection := by
  by_cases hlength : moves.length = 1
  · obtain ⟨us, hdone⟩ := select_of_single fuel instant clock hmoves hlength
    obtain ⟨m, rfl⟩ := List.length_eq_one_iff.mp hlength
    exact ⟨_, hdone, rfl, List.argmax_singleton⟩
  · rw [Undisturbed, history_of_search hmoves hlength] at hopen
    obtain ⟨us, houtcome⟩ := select_of_search fuel instant clock hmoves hlength
    have hreturns : p.game.Returns (p.strategy.search (p.brief role) fuel s moves h) fun m =>
        moves.argmax worth = some m := hstrategy.search_returns rfl hrole h hworth hfuel
    obtain ⟨m, w, hrun, hm⟩ := Game.done_of_returns hreturns hopen
    have hdone : (p.select fuel role s instant clock).outcome = .done ⟨moves, m, us⟩ := by
      rw [houtcome]
      exact congrArg (fun r => r.1.map fun m => SelectedMove.mk moves m us) hrun
    exact ⟨_, hdone, rfl, hm⟩

/-- The same game, strategy and settings. -/
structure Resembles (q p : Player) : Prop where
  game : q.game = p.game
  strategy : q.strategy = p.strategy
  config : q.config = p.config

theorem resembles_select (h : q.Resembles p) (fuel : Nat) (role : RoleId) (s : State)
    (instant : Int) (clock : Clock) : (q.select fuel role s instant clock).player.Resembles p := by
  obtain ⟨hgame, hstrategy, hbrief⟩ := select_player q fuel role s instant clock
  have hconfig := congrArg Brief.config (hbrief role)
  exact ⟨hgame.trans h.game, hstrategy.trans h.strategy, Eq.trans hconfig h.config⟩

/-- No look at the clock finds the deadline expired while a player decides for the roles, one after
the other. -/
def UndisturbedAll (fuel : Nat) (s : State) (instant : Int) (clock : Clock) :
    List RoleId → Player → Prop
  | [], _ => True
  | r :: rs, p => p.Undisturbed fuel r s instant clock ∧
      UndisturbedAll fuel s instant clock rs (p.select fuel r s instant clock).player

/-- A clock that stands still before the deadline disturbs nobody. -/
theorem undisturbedAll_of_still (htick : clock.tick = 0)
    (hopen : (p.deadline instant).expired clock.now = false) (hq : q.Resembles p)
    (roles : List RoleId) : UndisturbedAll fuel s instant clock roles q := by
  induction roles generalizing q with
  | nil => trivial
  | cons r roles ih =>
      have hopen' : (q.deadline instant).expired clock.now = false := by
        rw [deadline, hq.strategy, hq.config]
        exact hopen
      exact ⟨undisturbed_of_still htick hopen', ih (resembles_select hq fuel r s instant clock)⟩

/-- Some deadline is late enough not to disturb any player of these settings. -/
theorem exists_undisturbedAll (p : Player) : ∃ instant clock, ∀ (q : Player) fuel s roles,
    q.Resembles p → UndisturbedAll fuel s instant clock roles q := by
  refine ⟨p.strategy.marginUs p.config + 1, ⟨0, 0⟩, fun q fuel s roles hq => ?_⟩
  apply undisturbedAll_of_still rfl _ hq
  rw [Deadline.expired, Deadline.remaining, deadline, decide_eq_false_iff_not]
  dsimp only
  omega

theorem selectAll_choice
    (hchoice : ∀ (q : Player) r, q.Resembles p → r ∈ RoleId.all p.game.roleCount →
      q.Undisturbed fuel r s instant clock →
        (q.select fuel r s instant clock).move? = some (choice r))
    {roles : List RoleId} (hroles : ∀ r ∈ roles, r ∈ RoleId.all p.game.roleCount)
    (hq : q.Resembles p) (hopen : UndisturbedAll fuel s instant clock roles q) :
    (selectAll fuel s instant clock roles q).1.mapM Decision.move? = some (roles.map choice) ∧
      (selectAll fuel s instant clock roles q).2.Resembles p := by
  induction roles generalizing q with
  | nil => exact ⟨rfl, hq⟩
  | cons r roles ih =>
      obtain ⟨hr, hrest⟩ := List.forall_mem_cons.mp hroles
      obtain ⟨hmoves, hlast⟩ := ih hrest (resembles_select hq fuel r s instant clock) hopen.2
      exact ⟨mapM_cons_eq_some.mpr ⟨_, _, hchoice q r hq hr hopen.1, hmoves, rfl⟩, hlast⟩

/-- Where every decision for a role is known, so is the turn: the joint move of all decisions is
made. -/
theorem turn_choice
    (hchoice : ∀ (q : Player) r, q.Resembles p → r ∈ RoleId.all p.game.roleCount →
      q.Undisturbed fuel r s instant clock →
        (q.select fuel r s instant clock).move? = some (choice r))
    (hq : q.Resembles p)
    (hopen : UndisturbedAll fuel s instant clock (RoleId.all q.game.roleCount) q) :
    (q.turn fuel s instant clock).2.1 =
        some (p.game.next s ⟨(RoleId.all p.game.roleCount).map choice⟩) ∧
      (q.turn fuel s instant clock).2.2.Resembles p := by
  rw [hq.game] at hopen
  obtain ⟨hmoves, hlast⟩ := selectAll_choice hchoice (fun _ hr => hr) hq hopen
  cases hall : selectAll fuel s instant clock (RoleId.all p.game.roleCount) q with
  | mk decisions last =>
      rw [hall] at hmoves hlast
      dsimp only at hmoves hlast
      simp only [turn, hq.game, hall, hmoves, hlast.game]
      exact ⟨rfl, hlast⟩

/-- What may come of some turns in which a player decides undisturbed for all roles. -/
inductive SelfPlay (fuel : Nat) (p : Player) : Nat → Player → State → Prop
  | start : SelfPlay fuel p 0 p p.game.initial
  | turn {n : Nat} {q : Player} {s t : State} {instant : Int} {clock : Clock}
      (before : SelfPlay fuel p n q s) (hon : p.game.isTerminal s = false)
      (hopen : UndisturbedAll fuel s instant clock (RoleId.all q.game.roleCount) q)
      (hturn : (q.turn fuel s instant clock).2.1 = some (.ok t)) :
      SelfPlay fuel p (n + 1) (q.turn fuel s instant clock).2.2 t

end Player

end GeneralGame
