import GeneralGame.Proofs.Player.Decision
import GeneralGame.Proofs.Search.Ending
import GeneralGame.Proofs.Search.Polls
import GeneralGame.Proofs.Tree.Iteration

/-!
Every decision comes to an end while the clock moves. Whatever the game is like, also where it can be
played forever, a decision looks at the clock once more at most than the clock can be read before the
deadline, and no search runs on after that.
-/
namespace GeneralGame.Player

open Search

variable {p : Player} {clock : Clock} {fuel : Nat} {role : RoleId} {s : State} {instant : Int}

/-- Whatever its strategy, the search of a player keeps to the deadline. -/
theorem punctual_search (hplayout : p.playout = .random) (fuel : Nat) (role : RoleId) (s : State)
    {moves : List Move} (h : moves ≠ []) :
    p.game.Punctual (p.strategy.Fits p.game) (Halts (· ∈ moves))
      (p.strategy.search (p.brief role) fuel s moves h) [] fun _ _ => True :=
  p.strategy.punctual_search hplayout h

theorem polls_le (hplayout : p.playout = .random) (htick : 1 ≤ clock.tick) :
    (p.history fuel role s instant clock).countP (·.1.isPoll) ≤
      (p.deadline instant).readings clock + 1 := by
  cases hmoves : p.game.moves s role with
  | error e =>
      simp only [history, hmoves, List.countP_nil]
      exact Nat.zero_le _
  | ok ms =>
      obtain ⟨moves, h⟩ := ms
      by_cases hlength : moves.length = 1
      · rw [history_of_single hmoves hlength]
        exact Nat.zero_le _
      · rw [history_of_search hmoves hlength]
        have hpolls := Game.polls_le (d := p.deadline instant) (w := p.searchWorld clock.read.2)
          (punctual_search hplayout fuel role s h) htick
        exact Nat.le_trans hpolls (Nat.succ_le_succ (Deadline.readings_read_le htick))

/-- The decision panics, since joint moves are too many to be listed or for the sum of a Monte Carlo
heuristic. -/
def Panics (p : Player) (fuel : Nat) (role : RoleId) (s : State) (instant : Int) (clock : Clock) :
    Prop :=
  (p.select fuel role s instant clock).outcome = .fault .panic ∧
    (p.game.Overflows ∨ ∃ charges, p.strategy = .heuristic (.monteCarlo charges))

/-- A decision that has more fuel than it can have polls ends, with a move, with an error or in a
panic. -/
theorem select_ends_of_fuel (hplayout : p.playout = .random) (htick : 1 ≤ clock.tick)
    (hfuel : (p.deadline instant).readings clock + 1 < fuel)
    (hdraws : DrawsReturn (p.history fuel role s instant clock)) :
    (∃ selected, (p.select fuel role s instant clock).outcome = .done selected) ∨
      (∃ e, (p.select fuel role s instant clock).outcome = .fault (.error e)) ∨
      p.Panics fuel role s instant clock := by
  have hpolls : (p.history fuel role s instant clock).countP (·.1.isPoll) ≤
      (p.deadline instant).readings clock + 1 := polls_le hplayout htick
  cases hmoves : p.game.moves s role with
  | error e => exact .inr (.inl ⟨e, select_of_error hmoves⟩)
  | ok ms =>
      obtain ⟨moves, h⟩ := ms
      by_cases hlength : moves.length = 1
      · obtain ⟨us, hdone⟩ := select_of_single fuel instant clock hmoves hlength
        exact .inl ⟨_, hdone⟩
      · rw [history_of_search hmoves hlength] at hdraws hpolls
        obtain ⟨us, houtcome⟩ := select_of_search fuel instant clock hmoves hlength
        rw [houtcome]
        have hpunctual := punctual_search hplayout fuel role s h
        have hlasts : (p.strategy.search (p.brief role) fuel s moves h).Lasts fuel :=
          p.strategy.lasts_search hplayout h
        cases hrun : p.game.search (p.deadline instant)
          (p.strategy.search (p.brief role) fuel s moves h) (p.searchWorld clock.read.2) with
        | mk outcome w =>
            cases outcome with
            | done m => exact .inl ⟨_, rfl⟩
            | cut => exact absurd hrun (Game.search_ne_cut hpunctual w)
            | fault f =>
                cases f with
                | error e => exact .inr (.inl ⟨e, rfl⟩)
                | panic =>
                    have hpanic : (p.select fuel role s instant clock).outcome = .fault .panic := by
                      rw [houtcome, hrun]
                      rfl
                    exact .inr (.inr ⟨hpanic, p.strategy.search_panics hplayout h hrun⟩)
                | outOfFuel =>
                    have hle := Game.le_polls_of_outOfFuel hlasts hdraws hrun
                    exact absurd (Nat.le_trans hle hpolls) (Nat.not_le.mpr hfuel)

/-- With random playouts and a clock that moves by a tick whenever it is read, a decision polls the
deadline no more often than the time that is left holds ticks, and once more. With more fuel than
that it comes to an end, provided that every random draw does: it selects a move, fails with an error
of the game, or panics for want of room. -/
theorem select_ends (hplayout : p.playout = .random) (htick : 1 ≤ clock.tick) (role : RoleId)
    (s : State) (instant : Int) :
    let bound := (instant - p.strategy.marginUs p.config - clock.now).toNat ⌈/⌉ clock.tick + 1
    (∀ fuel, (p.history fuel role s instant clock).countP (·.1.isPoll) ≤ bound) ∧
      ∀ fuel, bound < fuel → DrawsReturn (p.history fuel role s instant clock) →
        (∃ selected, (p.select fuel role s instant clock).outcome = .done selected) ∨
          (∃ e, (p.select fuel role s instant clock).outcome = .fault (.error e)) ∨
          p.Panics fuel role s instant clock :=
  ⟨fun _ => polls_le hplayout htick, fun _ => select_ends_of_fuel hplayout htick⟩

/-- Searches the tree of a game that goes round in circles, up to the deadline itself. -/
def circler : Player :=
  .new Toggle.game .uct { Config.standard with treeMarginMs := 0 } .ucb .random

/-- Seven ticks before the deadline, the search looks at the clock eight times at most. -/
theorem select_ends_toggle :
    (circler.history 9 (.ofIndex 0) (Toggle.stateOf 0) 7 ⟨0, 1⟩).countP (·.1.isPoll) ≤ 8 ∧
      ((∃ selected, (circler.select 9 (.ofIndex 0) (Toggle.stateOf 0) 7 ⟨0, 1⟩).outcome =
          .done selected) ∨
        (∃ e, (circler.select 9 (.ofIndex 0) (Toggle.stateOf 0) 7 ⟨0, 1⟩).outcome =
          .fault (.error e)) ∨
        circler.Panics 9 (.ofIndex 0) (Toggle.stateOf 0) 7 ⟨0, 1⟩) := by
  have htick : 1 ≤ (Clock.mk 0 1).tick := Nat.le_refl 1
  obtain ⟨hpolls, hends⟩ := select_ends (p := circler) rfl htick (.ofIndex 0) (Toggle.stateOf 0) 7
  have hbound :
      (7 - circler.strategy.marginUs circler.config - (0 : Nat) : Int).toNat ⌈/⌉ 1 + 1 ≤ 8 := by
    decide
  exact ⟨Nat.le_trans (hpolls 9) hbound, hends 9 (Nat.lt_succ_of_le hbound) (by decide +kernel)⟩

end GeneralGame.Player
