import GeneralGame.Proofs.Player.Decision
import GeneralGame.Proofs.Search.Finite
import GeneralGame.Proofs.Tree.Descent

/-!
A level limit that no play gets past. If the game is always over after as many joint moves as the
limit allows, or after one, then the heuristic is never asked for an estimate: the search with the
limit does step by step what the search without one does, whatever the heuristic is and whenever the
deadline comes, and a player decides alike with either.
-/
namespace GeneralGame

open Search

variable {g : Game} {b : Brief} {d : Deadline} {heuristic : Heuristic} {root s : State}
  {moves : List Move}

namespace Game

/-- So many legal joint moves lead from the root to the state, and the game is not over in any state
in between. -/
inductive Ahead (g : Game) (root : State) : (plies : Nat) → State → Prop
  | first {t : State} {j : JointMove} (hj : g.IsLegal root j) (hnext : g.next root j = .ok t) :
      g.Ahead root 1 t
  | next {plies : Nat} {s t : State} {j : JointMove} (hs : g.Ahead root plies s)
      (hterminal : g.isTerminal s = false) (hj : g.IsLegal s j) (hnext : g.next s j = .ok t) :
      g.Ahead root (plies + 1) t

theorem Ahead.pos {plies : Nat} (h : g.Ahead root plies s) : 0 < plies := by
  cases h <;> omega

/-- No play gets past the level limit: the game is over in every state that the search could value
by an estimate. -/
def EndsByLimit (g : Game) (b : Brief) (root : State) : Prop :=
  ∀ t, g.Ahead root (max 1 b.config.levelLimit) t → g.isTerminal t = true

/-- A joint move that is listed for a legal move is legal. -/
theorem isLegal_of_mem_jointMovesWith {r : RoleId} {m : Move} {joints : List JointMove}
    {j : JointMove} (hm : g.CanPlay s r m) (h : g.jointMovesWith s r m = .ok joints)
    (hj : j ∈ joints) : g.IsLegal s j := by
  obtain ⟨lists, hlists, -, rfl⟩ := (jointMovesOf_eq_ok fun _ _ => ne_nil_of_pinned).mp h
  rw [mem_map_mk, mem_product_of_mapM hlists] at hj
  refine hj.imp fun r' x hx => ?_
  have hx := exists_pinned_iff.mp hx
  split at hx
  · rename_i heq
    rw [heq, hx]
    exact hm
  · exact hx

end Game

/-! ### Searches that run alike -/

namespace AlphaBeta

theorem least_congr {score score' : State → Nat → Search Nat} {joints : List JointMove}
    (hscore : ∀ j ∈ joints, ∀ t, g.next s j = .ok t → ∀ high w,
      g.search d (score t high) w = g.search d (score' t high) w) (low high : Nat)
    (w : Search.World) :
    g.search d (least b score s low joints high) w =
      g.search d (least b score' s low joints high) w := by
  induction joints generalizing high w with
  | nil => rfl
  | cons j joints ih =>
      rw [least, least]
      apply Program.run_bind_congr rfl
      intro t v hnext
      obtain ⟨_, u, -, hquery⟩ := Program.run_bind_eq_done.mp hnext
      have ht := Game.answer_next.mp (search_query_eq_done hquery).1
      apply Program.run_bind_congr (hscore j List.mem_cons_self t ht high v)
      intro value u _
      dsimp only
      split
      · rfl
      · exact ih (fun j' hj' => hscore j' (List.mem_cons_of_mem j hj')) _ u

theorem greatest_congr {score score' : Move → Nat → Search Nat} {ms : List Move}
    (hscore : ∀ m ∈ ms, ∀ low w, g.search d (score m low) w = g.search d (score' m low) w)
    (high low : Nat) (w : Search.World) :
    g.search d (greatest score high ms low) w = g.search d (greatest score' high ms low) w := by
  induction ms generalizing low w with
  | nil => rfl
  | cons m ms ih =>
      rw [greatest, greatest]
      apply Program.run_bind_congr (hscore m List.mem_cons_self low w)
      intro value v _
      dsimp only
      split
      · rfl
      · exact ih (fun m' hm' => hscore m' (List.mem_cons_of_mem m hm')) _ v

/-- It is enough that the scores agree on the states that legal joint moves lead to. -/
theorem moveScore_congr {score score' : State → Nat → Nat → Search Nat} {m : Move}
    (hm : g.CanPlay s b.role m)
    (hscore : ∀ j t, g.IsLegal s j → g.next s j = .ok t → ∀ low high w,
      g.search d (score t low high) w = g.search d (score' t low high) w) (low high : Nat)
    (w : Search.World) :
    g.search d (moveScore b score s m low high) w =
      g.search d (moveScore b score' s m low high) w := by
  apply Program.run_bind_congr rfl
  intro _ v _
  apply Program.run_bind_congr rfl
  intro joints u hquery
  have hjoints : g.jointMovesWith s b.role m = .ok joints := (search_query_eq_done hquery).1
  apply least_congr
  intro j hj t ht high w
  exact hscore j t (Game.isLegal_of_mem_jointMovesWith hm hjoints hj) ht low high w

/-- Before the limit no state is valued by an estimate, and at the limit the game is over. -/
theorem stateScore_eq_of_endsByLimit (hends : g.EndsByLimit b root) {fuel level : Nat}
    (hs : g.Ahead root level s) (hlevel : level ≤ max 1 b.config.levelLimit) (low high : Nat)
    (w : Search.World) :
    g.search d (stateScore b (some heuristic) fuel level s low high) w =
      g.search d (stateScore b none fuel level s low high) w := by
  induction fuel generalizing level s low high w with
  | zero => rfl
  | succ fuel ih =>
      rw [stateScore, stateScore]
      apply Program.run_bind_congr rfl
      intro _ v _
      apply Program.run_bind_congr rfl
      intro _ u _
      apply Program.run_bind_congr rfl
      intro terminal u hquery
      have hterminal : g.isTerminal s = terminal := Except.ok.inj (search_query_eq_done hquery).1
      cases terminal with
      | true => rfl
      | false =>
          have hpos := hs.pos
          have hbefore : level < max 1 b.config.levelLimit := by
            refine Nat.lt_of_le_of_ne hlevel fun heq => ?_
            rw [hends s (heq ▸ hs)] at hterminal
            cases hterminal
          have hcutoff (cutoff : Option Heuristic) : cutoffAt b cutoff level = none :=
            if_neg (by omega)
          rw [if_neg Bool.false_ne_true, if_neg Bool.false_ne_true, hcutoff, hcutoff]
          apply Program.run_bind_congr rfl
          intro ms v hquery
          have hms := Game.answer_moves.mp (search_query_eq_done hquery).1
          apply greatest_congr
          intro m hm low w
          apply moveScore_congr ((Game.mem_moves_iff hms).mp hm)
          intro j t hj ht low high w
          exact ih (.next hs hterminal hj ht) (by omega) low high w

end AlphaBeta

theorem chooseFrom_congr {score score' : Move → Nat → Search Nat} {ms : List Move}
    (hscore : ∀ m ∈ ms, ∀ floor w, g.search d (score m floor) w = g.search d (score' m floor) w)
    (best : Incumbent Nat) (w : Search.World) :
    g.search d (chooseFrom score ms best) w = g.search d (chooseFrom score' ms best) w := by
  induction ms generalizing best w with
  | nil => rfl
  | cons m ms ih =>
      have hattempt : g.search d (score m best.score).attempt w =
          g.search d (score' m best.score).attempt w := by
        have hsame := hscore m List.mem_cons_self best.score w
        simp only [Game.search] at hsame
        simp only [Game.search, Program.run_attempt, hsame]
      rw [chooseFrom, chooseFrom]
      apply Program.run_bind_congr hattempt
      intro answer v _
      cases answer with
      | none => rfl
      | some value =>
          dsimp only
          split
          · rfl
          · apply Program.run_bind_congr rfl
            intro expired u _
            cases expired with
            | true => rfl
            | false => exact ih (fun m' hm' => hscore m' (List.mem_cons_of_mem m hm')) _ u

/-- The searches with and without the limit end alike and leave the same world. -/
theorem Strategy.search_eq_of_endsByLimit (hends : g.EndsByLimit b s) (h : moves ≠ [])
    (hlegal : ∀ m ∈ moves, g.CanPlay s b.role m) (fuel : Nat) (w : Search.World) :
    g.search d (Strategy.search (.heuristic heuristic) b fuel s moves h) w =
      g.search d (Strategy.search .alphaBeta b fuel s moves h) w := by
  apply chooseFrom_congr
  intro m hm floor w
  apply AlphaBeta.moveScore_congr (hlegal m hm)
  intro j t hj ht low high w
  exact AlphaBeta.stateScore_eq_of_endsByLimit hends (.first hj ht) (Nat.le_max_left _ _) low high w

/-! ### Decisions -/

/-- The same decision of a player that follows another strategy. -/
def Decision.setStrategy (decision : Decision) (strategy : Strategy) : Decision :=
  { decision with player := decision.player.setStrategy strategy }

namespace Player

variable {p : Player} {strategy strategy' : Strategy} {fuel : Nat} {role : RoleId} {instant : Int}
  {clock : Clock}

theorem choose_setStrategy {h : moves ≠ []}
    (hmargin : strategy.marginUs p.config = strategy'.marginUs p.config)
    (hsearch : ∀ d w, p.game.search d (strategy.search (p.brief role) fuel s moves h) w =
      p.game.search d (strategy'.search (p.brief role) fuel s moves h) w) :
    (p.setStrategy strategy).choose fuel role s moves h instant clock =
      ((p.setStrategy strategy').choose fuel role s moves h instant clock).map id
        (Prod.map (setStrategy · strategy) id) := by
  have hbrief (strategy : Strategy) : (p.setStrategy strategy).brief role = p.brief role := rfl
  unfold choose
  split
  · rfl
  · simp only [search, hbrief]
    simp only [setStrategy, hmargin, hsearch]
    rfl

theorem conclude_setStrategy (choice : Outcome Move × Player × Clock) (start : Nat) :
    conclude role moves start (choice.map id (Prod.map (setStrategy · strategy) id)) =
      (conclude role moves start choice).setStrategy strategy := by
  obtain ⟨outcome, p, clock⟩ := choice
  cases outcome <;> rfl

/-- Strategies with the same margin whose searches run alike decide alike. -/
theorem select_setStrategy
    (hmargin : strategy.marginUs p.config = strategy'.marginUs p.config)
    (hsearch : ∀ moves h, p.game.moves s role = .ok ⟨moves, h⟩ → ∀ d w,
      p.game.search d (strategy.search (p.brief role) fuel s moves h) w =
        p.game.search d (strategy'.search (p.brief role) fuel s moves h) w) :
    (p.setStrategy strategy).select fuel role s instant clock =
      ((p.setStrategy strategy').select fuel role s instant clock).setStrategy strategy := by
  cases hmoves : p.game.moves s role with
  | error e =>
      rw [select_eq_of_error (p := p.setStrategy strategy) hmoves,
        select_eq_of_error (p := p.setStrategy strategy') hmoves]
      rfl
  | ok ms =>
      obtain ⟨moves, h⟩ := ms
      rw [select_eq_of_moves (p := p.setStrategy strategy) hmoves,
        select_eq_of_moves (p := p.setStrategy strategy') hmoves, ← conclude_setStrategy]
      exact congrArg (conclude role moves clock.read.1)
        (choose_setStrategy (p := { p with stats := .zero }) hmargin (hsearch moves h hmoves))

end Player

/-- Where the game is always over by the level limit, the limit makes no difference. The search with
a heuristic comes to the same move or the same error as the search to the end of the game and leaves
the same world, its notes included, on any legal moves, under any deadline and on any clock. So a
player decides alike with either strategy, after the same time. -/
theorem deep_limit_is_no_limit (p : Player) (heuristic : Heuristic) {role : RoleId} {s : State}
    (hends : p.game.EndsByLimit (p.brief role) s) :
    (∀ (moves : List Move) (h : moves ≠ []), (∀ m ∈ moves, p.game.CanPlay s role m) →
      ∀ (fuel : Nat) (d : Deadline) (w : Search.World),
        p.game.search d (Strategy.search (.heuristic heuristic) (p.brief role) fuel s moves h) w =
          p.game.search d (Strategy.search .alphaBeta (p.brief role) fuel s moves h) w) ∧
    ∀ (fuel : Nat) (instant : Int) (clock : Clock),
      (p.setStrategy (.heuristic heuristic)).select fuel role s instant clock =
        ((p.setStrategy .alphaBeta).select fuel role s instant clock).setStrategy
          (.heuristic heuristic) := by
  constructor
  · intro moves h hlegal fuel d w
    exact Strategy.search_eq_of_endsByLimit hends h hlegal fuel w
  · intro fuel instant clock
    have hmargin : Strategy.marginUs p.config (.heuristic heuristic) =
        Strategy.marginUs p.config .alphaBeta := rfl
    refine Player.select_setStrategy hmargin fun moves h hmoves d w => ?_
    exact Strategy.search_eq_of_endsByLimit hends h (fun m hm => (Game.mem_moves_iff hmoves).mp hm)
      fuel w

namespace TwoRounds

/-- The first player, who looks two plies ahead. -/
def farSighted : Player :=
  .new game .standard { Config.standard with levelLimit := 2, exhaustiveMarginMs := 0 } .ucb .random

theorem le_place_of_ahead {plies : Nat} {t : State} (h : game.Ahead game.initial plies t) :
    4 ^ plies ≤ place t := by
  induction h with
  | @first t j _ hnext =>
      cases hnext
      rw [place_ofFacts]
      exact Nat.le_trans (Nat.le_add_right _ _) (Nat.le_add_right _ _)
  | @next plies s t j _ _ _ hnext ih =>
      cases hnext
      rw [place_ofFacts]
      omega

theorem endsByLimit : farSighted.game.EndsByLimit (farSighted.brief (.ofIndex 0)) game.initial :=
  fun _ ht => decide_eq_true (le_place_of_ahead ht)

end TwoRounds

open TwoRounds in
/-- Two plies are all that the game has, so the heuristic is never asked: with it and without it the
deadline cuts the search off at the twelfth node. -/
theorem deep_limit_is_no_limit_twoRounds :
    (∀ t, game.Ahead game.initial 2 t → game.isTerminal t = true) ∧
      let unlimited :=
        (farSighted.setStrategy .alphaBeta).select 3 (.ofIndex 0) game.initial 20 ⟨0, 1⟩
      (farSighted.setStrategy (.heuristic (.monteCarlo 5))).select 3 (.ofIndex 0) game.initial 20
          ⟨0, 1⟩ = unlimited.setStrategy (.heuristic (.monteCarlo 5)) ∧
        unlimited.player.stats.interrupted = true ∧ unlimited.player.stats.nodes = 12 := by
  obtain ⟨-, hdecision⟩ := deep_limit_is_no_limit farSighted (.monteCarlo 5) endsByLimit
  exact ⟨endsByLimit, hdecision 3 20 ⟨0, 1⟩, by decide +kernel, by decide +kernel⟩

end GeneralGame
