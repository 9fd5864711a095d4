import GeneralGame.Proofs.Search.Heeds
import GeneralGame.Proofs.Search.Lookahead
import GeneralGame.Proofs.Search.Worth
import GeneralGame.Search.Strategy

/-!
What an exhaustive search answers when the deadline cuts it short: exactly what it would answer with
all the time in the world on the moves that it came to value, which are a prefix of the list. If the
notes say that it was not interrupted, then these are all the moves.
-/
namespace GeneralGame

open Search

variable {α β : Type} {g : Game}

namespace Game

theorem searchUndisturbed_attempt_bind {p : Search α} {w v : Search.World} {a : α}
    (h : g.searchUndisturbed p w = (.done a, v)) (f : Option α → Search β) :
    g.searchUndisturbed (p.attempt >>= f) w = g.searchUndisturbed (f (some a)) v := by
  apply searchUndisturbed_bind_of_done
  exact Program.run_attempt_of_done h

theorem search_expired_bind (d : Deadline) (w : Search.World) (f : Bool → Search α) :
    g.search d (expired >>= f) w =
      g.search d (f (d.expired w.play.clock.now))
        { w with
          play := { w.play with clock := w.play.clock.read.2 }
          stats :=
            bif d.expired w.play.clock.now then w.stats.take .interrupted else w.stats } := by
  rw [expired, bind_assoc, search_poll_bind]
  cases d.expired w.play.clock.now <;> rfl

end Game

/-- Whatever the deadline does, the choice is the undisturbed choice among the moves that were
valued. -/
theorem chooseFrom_prefix {score : Move → Nat → Search Nat}
    (hscore : ∀ m floor, g.Heeds (score m floor)) {ms : List Move} {best : Incumbent Nat}
    {d : Deadline} {w w' : Search.World} {m : Move}
    (hrun : g.search d (chooseFrom score ms best) w = (.done m, w')) :
    ∃ tried, tried <+: ms ∧
      (g.searchUndisturbed (chooseFrom score tried best) w).1 = .done m ∧
      (w'.stats.interrupted = false → tried = ms) := by
  induction ms generalizing best w with
  | nil =>
      rw [chooseFrom] at hrun
      cases hrun
      exact ⟨[], List.prefix_rfl, rfl, fun _ => rfl⟩
  | cons first ms ih =>
      have hheeds := hscore first best.score
      rw [chooseFrom] at hrun
      rcases Game.search_attempt_bind (g := g) d (score first best.score) _ w with
        ⟨value, v, hvalue, hnext⟩ | ⟨v, hcut, hnext⟩ | ⟨e, v, hfault⟩
      · rw [hnext] at hrun
        have hopen := hheeds.undisturbed_of_done hvalue
        have hstill : g.searchUndisturbed (score first best.score) w = (.done value, v.atRest) := by
          rw [Game.search_of_undisturbed hopen, hvalue]
        by_cases htop : value = topGoal
        · simp only [htop, if_true] at hrun
          cases hrun
          refine ⟨m :: ms, List.prefix_rfl, ?_, fun _ => rfl⟩
          rw [chooseFrom, Game.searchUndisturbed_attempt_bind hstill]
          simp only [htop, if_true]
          rfl
        · simp only [htop, if_false] at hrun
          have hstart (rest : List Move) :
              g.searchUndisturbed (chooseFrom score (first :: rest) best) w =
                g.searchUndisturbed (chooseFrom score rest (best.offer first value)) v := by
            rw [chooseFrom, Game.searchUndisturbed_attempt_bind hstill]
            simp only [htop, if_false]
            rfl
          rw [Game.search_expired_bind] at hrun
          cases hexpired : d.expired v.play.clock.now with
          | true =>
              -- The deadline has expired between two moves: what was tried ends with this one.
              rw [hexpired] at hrun
              cases hrun
              refine ⟨[first], ⟨ms, rfl⟩, ?_, ?_⟩
              · rw [hstart]
                rfl
              · intro hquiet
                cases hquiet
          | false =>
              rw [hexpired] at hrun
              obtain ⟨tried, hprefix, hanswer, hall⟩ := ih hrun
              refine ⟨first :: tried, (List.prefix_cons_inj first).mpr hprefix, ?_, ?_⟩
              · rw [hstart]
                exact hanswer
              · intro hflag
                rw [hall hflag]
      · -- The move was not valued to the end, so it has no part in the choice.
        rw [hnext] at hrun
        cases hrun
        have hflag := hheeds.interrupted_of_cut hcut
        refine ⟨[], List.nil_prefix, rfl, ?_⟩
        intro hquiet
        rw [hflag] at hquiet
        cases hquiet
      · cases hfault.symm.trans hrun

/-! ### The exhaustive strategies -/

theorem Minimax.heeds_moveScore {b : Brief} (fuel : Nat) (s : State) (m : Move) :
    g.Heeds (moveScore b (stateScore b fuel 1) s m) := by
  have hstate (t : State) : g.Timed 0 (stateScore b fuel 1 t) := timed_stateScore fuel 1 t
  exact Game.heeds_of_part (timed_moveScore hstate s m [])

theorem AlphaBeta.heeds_moveScore {b : Brief} (cutoff : Option Heuristic)
    (hplayout : ∀ h ∈ cutoff, h.isStatic = true ∨ b.playout = .random) (fuel : Nat) (s : State)
    (m : Move) (low high : Nat) : g.Heeds (moveScore b (stateScore b cutoff fuel 1) s m low high) :=
  Game.heeds_of_part
    (timed_moveScore (timed_stateScore cutoff hplayout fuel 1) s m low high [])

/-- The strategies that look through the game tree move by move. -/
def Strategy.isExhaustive : Strategy → Bool
  | minimax | alphaBeta | heuristic _ => true
  | legal | random | monteCarlo | uct => false

/-- An exhaustive strategy values the moves one by one, in searches that heed the deadline. -/
theorem Strategy.search_eq_chooseMove {strategy : Strategy} (h : strategy.isExhaustive = true)
    {b : Brief} (hplayout : b.playout = .random) (fuel : Nat) (s : State) :
    ∃ score, (∀ m floor, g.Heeds (score m floor)) ∧
      ∀ moves hmoves, strategy.search b fuel s moves hmoves = chooseMove score moves hmoves := by
  cases strategy with
  | minimax => exact ⟨_, fun m _ => Minimax.heeds_moveScore fuel s m, fun _ _ => rfl⟩
  | alphaBeta =>
      exact ⟨_, fun m floor => AlphaBeta.heeds_moveScore none nofun fuel s m floor topGoal,
        fun _ _ => rfl⟩
  | heuristic cutoff =>
      exact ⟨_, fun m floor => AlphaBeta.heeds_moveScore (some cutoff) (fun _ _ => .inr hplayout)
        fuel s m floor topGoal, fun _ _ => rfl⟩
  | _ => cases h

/-- Whatever the clock does, a move that an exhaustive strategy selects is the one that it selects
from some prefix of the moves, in the same world but for the clock, under every deadline that never
expires; or it is the first move, if that prefix is empty. Unless the search was interrupted, the
prefix is the whole list. -/
theorem exhaustive_search_prefix {strategy : Strategy} (hstrategy : strategy.isExhaustive = true)
    {b : Brief} (hplayout : b.playout = .random) {fuel : Nat} {s : State} {moves : List Move}
    (h : moves ≠ []) {d : Deadline} {w w' : Search.World} {m : Move}
    (hrun : g.search d (strategy.search b fuel s moves h) w = (.done m, w')) :
    ∃ tried, tried <+: moves ∧ (tried = [] → m = moves.head h) ∧
      (∀ (htried : tried ≠ []) (d' : Deadline) (v : Search.World), v.atRest = w.atRest →
        g.Undisturbed d' (strategy.search b fuel s tried htried) v →
        (g.search d' (strategy.search b fuel s tried htried) v).1 = .done m) ∧
      (w'.stats.interrupted = false → tried = moves) := by
  obtain ⟨score, hscore, hsearch⟩ :=
    Strategy.search_eq_chooseMove (g := g) hstrategy hplayout fuel s
  rw [hsearch moves h, chooseMove] at hrun
  obtain ⟨tried, hprefix, hanswer, hall⟩ := chooseFrom_prefix hscore hrun
  refine ⟨tried, hprefix, ?_, ?_, hall⟩
  · rintro rfl
    cases hanswer
    rfl
  · intro htried d' v hclock hopen
    rw [Game.search_fst_of_undisturbed hclock hopen, hsearch tried htried, chooseMove]
    obtain ⟨rest, rfl⟩ := hprefix
    rw [List.head_append_of_ne_nil htried] at hanswer
    exact hanswer

open TwoRounds in
/-- A search that was cut short while it valued the second move. -/
theorem exhaustive_search_prefix_twoRounds :
    ∃ tried w', game.search ⟨1000, 50⟩
        (Strategy.alphaBeta.search brief 3 game.initial [left, right] (by decide))
        (.new ⟨0, 50⟩ (.ofSeed 42)) = (.done left, w') ∧
      w'.stats.interrupted = true ∧ tried <+: [left, right] ∧
      ∀ htried : tried ≠ [], (game.search ⟨1000, 50⟩
        (Strategy.alphaBeta.search brief 3 game.initial tried htried)
        (.new ⟨0, 0⟩ (.ofSeed 42))).1 = .done left := by
  have hrun : ∃ w', game.search ⟨1000, 50⟩
      (Strategy.alphaBeta.search brief 3 game.initial [left, right] (by decide))
      (.new ⟨0, 50⟩ (.ofSeed 42)) = (.done left, w') ∧ w'.stats.interrupted = true := ⟨_, rfl, rfl⟩
  obtain ⟨w', hrun, hflag⟩ := hrun
  obtain ⟨tried, hprefix, -, hanswer, -⟩ := exhaustive_search_prefix rfl rfl (by decide) hrun
  refine ⟨tried, w', hrun, hflag, hprefix, fun htried => ?_⟩
  exact hanswer htried _ _ rfl (Game.undisturbed_of_still rfl rfl)

end GeneralGame
