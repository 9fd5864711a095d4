import GeneralGame.Proofs.Search.Exits
import GeneralGame.Proofs.Search.Polls

/-!
More time. Under a later deadline an exhaustive search repeats what it did under the earlier one, and
then goes on from the best move that it had found. A move that it could not value to the end never
takes over, and a bound that was only good enough to prune never takes the place of a value. So the
move that it comes to in the end is worth no less.
-/
namespace GeneralGame

open Search

variable {α : Type} {g : Game} {b : Brief} {s : State} {d d' : Deadline}
  {score : Move → Nat → Search Nat} {merit : Move → Option Nat} {w w' v : Search.World}
  {m chosen chosen' : Move} {ms : List Move} {best : Incumbent Nat} {u u' x : Nat}

/-! ### Two deadlines -/

theorem Deadline.expired_of_later (hmargin : d'.margin = d.margin) (hlater : d.instant ≤ d'.instant)
    (now : Nat) (h : d'.expired now = true) : d.expired now = true := by
  rw [expired_iff] at h ⊢
  omega

/-- A search that the earlier deadline does not disturb is the same under the later one. -/
theorem Game.search_of_later (hexpired : ∀ now, d'.expired now = true → d.expired now = true)
    {p : Search α} (h : g.Undisturbed d p w) : g.search d' p w = g.search d p w := by
  induction p generalizing w with
  | pure a => rfl
  | cut => rfl
  | fault f => rfl
  | ask q next ih =>
      simp only [Undisturbed, Program.history, List.forall_mem_cons] at h
      obtain ⟨hfirst, hrest⟩ := h
      have hsame : Search.answer g d' q w = Search.answer g d q w := by
        cases q with
        | play q =>
            cases q with
            | poll =>
                have hopen : d.expired w.play.clock.now = false := hfirst rfl
                have hopen' : d'.expired w.play.clock.now = false :=
                  Bool.eq_false_iff.mpr fun h' => by simp [hexpired _ h'] at hopen
                simp only [Search.answer, Play.answer, Clock.read, hopen, hopen']
            | _ => rfl
        | _ => rfl
      simp only [search, Program.run, hsame]
      cases hanswer : Search.answer g d q w with
      | mk reply v =>
          rw [hanswer] at hrest
          cases reply with
          | error f => rfl
          | ok a => exact ih a hrest

/-! ### One move -/

/-- A run that values the first move goes on as the clock says then. -/
theorem search_chooseFrom_of_done (hscore : g.search d (score m best.score) w = (.done x, v)) :
    g.search d (chooseFrom score (m :: ms) best) w =
      if x = topGoal then (.done m, v)
      else if d.expired v.play.clock.now = true then (.done (best.offer m x).move, v.polled.stopped)
      else g.search d (chooseFrom score ms (best.offer m x)) v.polled := by
  rw [chooseFrom, Game.search, Program.run_bind_of_done (Program.run_attempt_of_done hscore)]
  by_cases htop : x = topGoal
  · simp only [htop, if_true]
    rfl
  · simp only [htop, if_false]
    change g.search d (expired >>= _) v = _
    rw [Game.search_expired_bind]
    cases d.expired v.play.clock.now <;> rfl

/-- How the trial of a move ends in a run that chooses. -/
inductive Trial (g : Game) (d : Deadline) (score : Move → Nat → Search Nat) (m : Move)
    (ms : List Move) (best : Incumbent Nat) (w w' : Search.World) (chosen : Move) : Prop
  /-- The deadline expires while the move is valued. -/
  | cut {v : Search.World} (hscore : g.search d (score m best.score) w = (.cut, v))
      (hchosen : chosen = best.move)
  | top {v : Search.World} (hscore : g.search d (score m best.score) w = (.done topGoal, v))
      (hchosen : chosen = m)
  /-- The deadline expires before the next move. -/
  | stop {x : Nat} {v : Search.World} (hscore : g.search d (score m best.score) w = (.done x, v))
      (hne : x ≠ topGoal) (hchosen : chosen = (best.offer m x).move)
  | next {x : Nat} {v : Search.World} (hscore : g.search d (score m best.score) w = (.done x, v))
      (hne : x ≠ topGoal) (hopen : d.expired v.play.clock.now = false)
      (hrest : g.search d (chooseFrom score ms (best.offer m x)) v.polled = (.done chosen, w'))

theorem trial_of_chooseFrom
    (hrun : g.search d (chooseFrom score (m :: ms) best) w = (.done chosen, w')) :
    Trial g d score m ms best w w' chosen := by
  cases hscore : g.search d (score m best.score) w with
  | mk outcome v =>
      cases outcome with
      | done x =>
          rw [search_chooseFrom_of_done hscore] at hrun
          split at hrun
          · rename_i htop
            cases hrun
            exact .top (htop ▸ hscore) rfl
          · rename_i hne
            split at hrun
            · cases hrun
              exact .stop hscore hne rfl
            · rename_i hopen
              exact .next hscore hne (Bool.eq_false_iff.mpr hopen) hrun
      | cut =>
          rw [chooseFrom, Game.search,
            Program.run_bind_of_done (Program.run_attempt_of_cut hscore)] at hrun
          cases hrun
          exact .cut hscore rfl
      | fault e =>
          rw [chooseFrom, Game.search,
            Program.run_bind_of_fault (Program.run_attempt_of_fault hscore)] at hrun
          cases hrun

/-- The scores measure merits: each of them heeds the deadline, is on the scale, and cannot be told
from the merit above the floor that it was given. -/
structure Measures (g : Game) (score : Move → Nat → Search Nat) (merit : Move → Option Nat) :
    Prop where
  heeds : ∀ m floor, g.Heeds (score m floor)
  answers : ∀ m floor, floor < topGoal → g.Answers (score m floor) (· ≤ topGoal)
  returns : ∀ m floor u, floor < topGoal → merit m = some u →
    g.Returns (score m floor) fun x => max floor x = max floor (min topGoal u)

/-- The best score so far is that of the best move so far. -/
structure Incumbent.IsExact (best : Incumbent Nat) (merit : Move → Option Nat) : Prop where
  lt : best.score < topGoal
  eq : ∀ u, merit best.move = some u → u = best.score

/-- The best score so far is exact, or nothing was valued yet. -/
def Incumbent.IsReady (best : Incumbent Nat) (merit : Move → Option Nat) (ms : List Move) : Prop :=
  best.IsExact merit ∨ best.score = 0 ∧ ms.head? = some best.move

theorem Incumbent.IsReady.lt (h : best.IsReady merit ms) : best.score < topGoal := by
  rcases h with hexact | ⟨hzero, -⟩
  · exact hexact.lt
  · rw [hzero]
    decide

theorem Incumbent.score_le_offer (i : Incumbent Nat) (m : Move) (x : Nat) :
    i.score ≤ (i.offer m x).score := by
  unfold offer yieldsTo
  split
  · rename_i hlt
    exact Nat.le_of_lt (of_decide_eq_true hlt)
  · exact Nat.le_refl _

namespace Measures

variable (hmeasures : Measures g score merit)

include hmeasures

theorem done_le {floor : Nat} (hfloor : floor < topGoal)
    (hscore : g.search d (score m floor) w = (.done x, v)) : x ≤ topGoal := by
  have hopen := (hmeasures.heeds m floor).undisturbed_of_done hscore
  have hstill := Game.search_of_undisturbed hopen
  rw [hscore] at hstill
  exact hmeasures.answers m floor hfloor w x _ hstill

theorem done_eq {floor : Nat} (hfloor : floor < topGoal)
    (hscore : g.search d (score m floor) w = (.done x, v)) (hu : merit m = some u) :
    max floor x = max floor (min topGoal u) := by
  have hopen := (hmeasures.heeds m floor).undisturbed_of_done hscore
  obtain ⟨y, v', hdone, hy⟩ := Game.done_of_returns (hmeasures.returns m floor u hfloor hu) hopen
  cases hscore.symm.trans hdone
  exact hy

/-- A move that takes over does so with its merit for a score. -/
theorem isExact_offer (hbest : best.IsReady merit (m :: ms))
    (hscore : g.search d (score m best.score) w = (.done x, v)) (hne : x ≠ topGoal) :
    (best.offer m x).IsExact merit := by
  have hlt := hbest.lt
  have hx := hmeasures.done_le hlt hscore
  refine ⟨Incumbent.score_offer_lt hlt (by omega) m, fun u hu => ?_⟩
  by_cases hover : best.score < x
  · rw [Incumbent.offer_of_lt hover] at hu ⊢
    have heq := hmeasures.done_eq hlt hscore hu
    dsimp only
    omega
  · rw [Incumbent.offer_of_le (Nat.not_lt.mp hover)] at hu ⊢
    rcases hbest with hexact | ⟨hzero, hhead⟩
    · exact hexact.eq u hu
    · cases hhead
      have heq := hmeasures.done_eq hlt hscore hu
      omega

/-! ### Runs -/

/-- What is chosen is worth no less than the best score at the start. -/
theorem score_le (hbest : best.IsExact merit)
    (hrun : g.search d (chooseFrom score ms best) w = (.done chosen, w'))
    (hu : merit chosen = some u) : best.score ≤ u := by
  induction ms generalizing best w with
  | nil =>
      cases hrun
      exact Nat.le_of_eq (hbest.eq u hu).symm
  | cons m ms ih =>
      have hready : best.IsReady merit (m :: ms) := .inl hbest
      cases trial_of_chooseFrom hrun with
      | cut hscore hchosen =>
          subst hchosen
          exact Nat.le_of_eq (hbest.eq u hu).symm
      | top hscore hchosen =>
          subst hchosen
          have hlt := hbest.lt
          have heq := hmeasures.done_eq hlt hscore hu
          omega
      | stop hscore hne hchosen =>
          subst hchosen
          have hoffer := hmeasures.isExact_offer hready hscore hne
          rw [hoffer.eq u hu]
          exact Incumbent.score_le_offer best m _
      | next hscore hne _ hrest =>
          have hoffer := hmeasures.isExact_offer hready hscore hne
          exact Nat.le_trans (Incumbent.score_le_offer best m _) (ih hoffer hrest)

/-- What is chosen is worth no less than the best move at the start. -/
theorem merit_le (hbest : best.IsReady merit ms)
    (hrun : g.search d (chooseFrom score ms best) w = (.done chosen, w'))
    (hu : merit best.move = some u) (hu' : merit chosen = some u') : u ≤ u' := by
  have hself (h : chosen = best.move) : u ≤ u' := by
    rw [h, hu] at hu'
    exact Nat.le_of_eq (Option.some.inj hu')
  rcases hbest with hexact | ⟨hzero, hhead⟩
  · rw [hexact.eq u hu]
    exact hmeasures.score_le hexact hrun hu'
  · -- Nothing was valued yet, so the best move is the first one to be tried.
    obtain ⟨rest, rfl⟩ := List.head?_eq_some_iff.mp hhead
    have hmove (x : Nat) : (best.offer best.move x).move = best.move := by
      unfold Incumbent.offer
      split <;> rfl
    cases trial_of_chooseFrom hrun with
    | cut _ hchosen => exact hself hchosen
    | top _ hchosen => exact hself hchosen
    | stop _ _ hchosen => exact hself (hchosen.trans (hmove _))
    | next hscore hne _ hrest =>
        have hoffer := hmeasures.isExact_offer (.inr ⟨hzero, hhead⟩) hscore hne
        rw [hoffer.eq u ((hmove _).symm ▸ hu)]
        exact hmeasures.score_le hoffer hrest hu'

/-- Two runs that start alike: what the later deadline leaves time for is worth no less. -/
theorem merit_le_of_later (hexpired : ∀ now, d'.expired now = true → d.expired now = true)
    (hbest : best.IsReady merit ms) {v' : Search.World}
    (hrun : g.search d (chooseFrom score ms best) w = (.done chosen, w'))
    (hrun' : g.search d' (chooseFrom score ms best) w = (.done chosen', v'))
    (hu : merit chosen = some u) (hu' : merit chosen' = some u') : u ≤ u' := by
  induction ms generalizing best w with
  | nil =>
      cases hrun
      cases hrun'
      exact Nat.le_of_eq (Option.some.inj (hu.symm.trans hu'))
  | cons m ms ih =>
      -- As long as the earlier deadline lets a move be valued, so does the later one.
      have hsame {x : Nat} {v : Search.World}
          (hscore : g.search d (score m best.score) w = (.done x, v)) :
          g.search d' (score m best.score) w = (.done x, v) := by
        rw [Game.search_of_later hexpired ((hmeasures.heeds m _).undisturbed_of_done hscore), hscore]
      have hequal (h : chosen = chosen') : u ≤ u' := by
        rw [h] at hu
        exact Nat.le_of_eq (Option.some.inj (hu.symm.trans hu'))
      cases trial_of_chooseFrom hrun with
      | cut _ hchosen => exact hmeasures.merit_le hbest hrun' (hchosen ▸ hu) hu'
      | top hscore hchosen =>
          rw [search_chooseFrom_of_done (hsame hscore), if_pos rfl] at hrun'
          cases hrun'
          exact hequal hchosen
      | @stop x v hscore hne hchosen =>
          have hoffer := hmeasures.isExact_offer hbest hscore hne
          rw [search_chooseFrom_of_done (hsame hscore), if_neg hne] at hrun'
          split at hrun'
          · cases hrun'
            exact hequal hchosen
          · exact hmeasures.merit_le (.inl hoffer) hrun' (hchosen ▸ hu) hu'
      | @next x v hscore hne hopen hrest =>
          have hoffer := hmeasures.isExact_offer hbest hscore hne
          have hopen' : ¬ d'.expired v.play.clock.now = true := fun h => by
            rw [hexpired _ h] at hopen
            cases hopen
          rw [search_chooseFrom_of_done (hsame hscore), if_neg hne, if_neg hopen'] at hrun'
          exact ih (.inl hoffer) hrest hrun'

end Measures

/-! ### Strategies -/

theorem Minimax.measures (fuel : Nat) :
    Measures g (fun m _ => moveScore b (stateScore b fuel 1) s m)
      (g.moveReplyWorth? b (g.stateReplyMerit? b fuel) s) where
  heeds m _ := heeds_moveScore fuel s m
  answers m _ _ := moveScore_le m
  returns m floor u _ hu := by
    have hscore : g.Returns (moveScoreWith ⟨true, true, true⟩ b
        (stateScoreWith ⟨true, true, true⟩ b fuel 1) s m) (· = min topGoal u) :=
      rootScoreWith_returns (Nat.le_refl fuel) hu
    rw [rootScoreWith_open] at hscore
    exact Game.returns_imp hscore fun x hx => by rw [hx]

namespace AlphaBeta

theorem least_le {score : State → Nat → Search Nat} {low : Nat} (joints : List JointMove)
    (high : Nat) : g.Answers (least b score s low joints high) (· ≤ max low high) := by
  induction joints generalizing high with
  | nil => exact Game.answers_pure (Nat.le_max_right low high)
  | cons j joints ih =>
      rw [least]
      refine Game.answers_bind fun t => Game.answers_bind fun value => ?_
      dsimp only
      split
      · exact Game.answers_bind fun _ => Game.answers_pure (Nat.le_max_left low high)
      · exact Game.answers_imp (ih (min high value)) fun x hx => by omega

theorem measures (cutoff : Option Heuristic) (hstatic : ∀ h ∈ cutoff, h.isStatic = true)
    (fuel : Nat) :
    Measures g (fun m floor => moveScore b (stateScore b cutoff fuel 1) s m floor topGoal)
      (g.rootMerit? b cutoff fuel s) where
  heeds m floor := heeds_moveScore cutoff (fun h hh => .inl (hstatic h hh)) fuel s m floor topGoal
  answers m floor hfloor := by
    refine Game.answers_bind fun _ => Game.answers_bind fun joints => ?_
    exact Game.answers_imp (least_le joints topGoal) fun x hx => by omega
  returns m floor u hfloor hu := by
    have hstate : ∀ t v, g.stateMerit? b cutoff fuel 1 t = some v → ∀ low high, low < high →
        g.Returns (stateScore b cutoff fuel 1 t low high)
          fun x => clamp low high x = clamp low high v :=
      fun t v hv low high => stateScore_returns (Nat.le_refl fuel) (Nat.le_refl 1) hv
    refine Game.returns_imp (moveScore_returns hstate hu hfloor) fun x hx => ?_
    rw [hx, clamp]
    omega

end AlphaBeta

namespace Strategy

/-- The strategy looks through the game tree move by move and plays nothing out. -/
def isStatic : Strategy → Bool
  | minimax | alphaBeta => true
  | heuristic h => h.isStatic
  | legal | random | monteCarlo | uct => false

/-- What such a strategy takes a move for: its merit against single replies, or in the game itself,
down to the level limit if there is a heuristic. -/
def merit? (strategy : Strategy) (g : Game) (b : Brief) (plies : Nat) (s : State) (m : Move) :
    Option Nat :=
  match strategy with
  | minimax => g.moveReplyWorth? b (g.stateReplyMerit? b plies) s m
  | alphaBeta => g.rootMerit? b none plies s m
  | heuristic cutoff => g.rootMerit? b (some cutoff) plies s m
  | legal | random | monteCarlo | uct => none

theorem merit?_mono {strategy : Strategy} {plies plies' : Nat} (hle : plies ≤ plies')
    (hu : strategy.merit? g b plies s m = some u) : strategy.merit? g b plies' s m = some u := by
  cases strategy with
  | minimax =>
      exact Game.moveReplyWorth?_of_imp (fun t v hv => Game.stateReplyMerit?_mono hle hv) hu
  | alphaBeta => exact Game.moveWorth?_of_imp (fun t v hv => Game.stateMerit?_mono hle hv) hu
  | heuristic cutoff => exact Game.moveWorth?_of_imp (fun t v hv => Game.stateMerit?_mono hle hv) hu
  | _ => cases hu

theorem exists_measures {strategy : Strategy} (hstatic : strategy.isStatic = true) (fuel : Nat) :
    ∃ score, Measures g score (strategy.merit? g b fuel s) ∧
      ∀ moves h, strategy.search b fuel s moves h = chooseMove score moves h := by
  cases strategy with
  | minimax => exact ⟨_, Minimax.measures fuel, fun _ _ => rfl⟩
  | alphaBeta => exact ⟨_, AlphaBeta.measures none nofun fuel, fun _ _ => rfl⟩
  | heuristic cutoff =>
      have hcutoff : ∀ h ∈ some cutoff, h.isStatic = true := by
        rintro _ ⟨⟩
        exact hstatic
      exact ⟨_, AlphaBeta.measures (some cutoff) hcutoff fuel, fun _ _ => rfl⟩
  | _ => cases hstatic

end Strategy

/-- More time never hurts. If an exhaustive strategy that plays nothing out selects a move both under
a deadline and under a later one with the same margin, starting at the same time, then the move that
it selects with more time has no smaller merit, where both moves have one. -/
theorem later_deadline_no_worse {strategy : Strategy} (hstatic : strategy.isStatic = true)
    {fuel : Nat} {moves : List Move} (h : moves ≠ []) (hmargin : d'.margin = d.margin)
    (hlater : d.instant ≤ d'.instant) {v' : Search.World}
    (hrun : g.search d (strategy.search b fuel s moves h) w = (.done chosen, v))
    (hrun' : g.search d' (strategy.search b fuel s moves h) w = (.done chosen', v'))
    {plies plies' : Nat} (hplies : plies ≤ fuel) (hplies' : plies' ≤ fuel)
    (hu : strategy.merit? g b plies s chosen = some u)
    (hu' : strategy.merit? g b plies' s chosen' = some u') : u ≤ u' := by
  obtain ⟨score, hmeasures, hsearch⟩ :=
    Strategy.exists_measures (g := g) (b := b) (s := s) hstatic fuel
  rw [hsearch, chooseMove] at hrun hrun'
  have hready : Incumbent.IsReady ⟨moves.head h, 0⟩ (strategy.merit? g b fuel s) moves :=
    .inr ⟨rfl, List.head?_eq_some_head h⟩
  exact hmeasures.merit_le_of_later (Deadline.expired_of_later hmargin hlater) hready hrun hrun'
    (Strategy.merit?_mono hplies hu) (Strategy.merit?_mono hplies' hu')

open TwoRounds in
/-- Under the earlier deadline the second move is not valued to the end; it is the better one. -/
theorem later_deadline_no_worse_twoRounds :
    ∃ v v' u u', game.search ⟨1000, 50⟩
        (Strategy.alphaBeta.search brief 3 game.initial [left, right] (by decide))
        (.new ⟨0, 50⟩ (.ofSeed 42)) = (.done left, v) ∧
      game.search ⟨5000, 50⟩
        (Strategy.alphaBeta.search brief 3 game.initial [left, right] (by decide))
        (.new ⟨0, 50⟩ (.ofSeed 42)) = (.done right, v') ∧
      Strategy.alphaBeta.merit? game brief 2 game.initial left = some u ∧
      Strategy.alphaBeta.merit? game brief 2 game.initial right = some u' ∧ u ≤ u' := by
  have hrun : ∃ v, game.search ⟨1000, 50⟩
      (Strategy.alphaBeta.search brief 3 game.initial [left, right] (by decide))
      (.new ⟨0, 50⟩ (.ofSeed 42)) = (.done left, v) := ⟨_, rfl⟩
  have hrun' : ∃ v, game.search ⟨5000, 50⟩
      (Strategy.alphaBeta.search brief 3 game.initial [left, right] (by decide))
      (.new ⟨0, 50⟩ (.ofSeed 42)) = (.done right, v) := ⟨_, rfl⟩
  have hleft : Strategy.alphaBeta.merit? game brief 2 game.initial left = some 33 := by decide
  have hright : Strategy.alphaBeta.merit? game brief 2 game.initial right = some 36 := by decide
  have hmargin : (⟨5000, 50⟩ : Deadline).margin = (⟨1000, 50⟩ : Deadline).margin := rfl
  have hlater : (⟨1000, 50⟩ : Deadline).instant ≤ (⟨5000, 50⟩ : Deadline).instant := by decide
  obtain ⟨v, hrun⟩ := hrun
  obtain ⟨v', hrun'⟩ := hrun'
  exact ⟨v, v', 33, 36, hrun, hrun', hleft, hright, later_deadline_no_worse rfl (by decide) hmargin
    hlater hrun hrun' (by decide) (by decide) hleft hright⟩

end GeneralGame
