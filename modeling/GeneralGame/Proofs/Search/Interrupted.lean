import GeneralGame.Nim
import GeneralGame.Proofs.Failing
import GeneralGame.Proofs.Search.Anytime
import GeneralGame.Proofs.Search.Closed
import GeneralGame.Proofs.Search.Rounds

/-!
When an exhaustive search says that it was interrupted. The value of a move leaves the note alone if
the move was valued to the end, and sets it if it was not, so a search that leaves a move unvalued
says so, unless it stops at a move of the highest value. But it looks at the clock after every other
move, the last one included. If the deadline has expired by then, the search says that it was
interrupted although it has valued all the moves.
-/
namespace GeneralGame

open Search

variable {α β : Type} {g : Game} {b : Brief} {fuel : Nat} {s : State} {d : Deadline}
  {w w' : Search.World} {m chosen : Move} {ms : List Move} {best : Incumbent Nat}
  {score : Move → Nat → Search Nat} {valued : List (Move × Nat)}

/-! ### Parts of a search -/

/-- The search takes down that it was interrupted if it is cut off, and does not if it is done. -/
structure Game.Flags (g : Game) (p : Search α) : Prop where
  done {d : Deadline} {w w' : Search.World} {a : α} :
    g.search d p w = (.done a, w') → w'.stats.interrupted = w.stats.interrupted
  cut {d : Deadline} {w w' : Search.World} :
    g.search d p w = (.cut, w') → w'.stats.interrupted = true

namespace Game

theorem flags_request {q : SearchRequest} (hq : q ≠ .note .interrupted) : g.Flags (request q) := by
  have hflag (d : Deadline) (w : Search.World) :
      (Search.answer g d q w).2.stats.interrupted = w.stats.interrupted := by
    cases q with
    | note n =>
        have hn : n ≠ .interrupted := fun h => hq (congrArg SearchRequest.note h)
        exact (Stats.gained_take w.stats n).interrupted.trans (by simp [hn])
    | _ => rfl
  constructor
  · intro d w w' a hrun
    rw [← hflag d w]
    simp only [search, request, Program.run] at hrun
    split at hrun
    · rename_i hanswer
      cases hrun
      rw [hanswer]
    · cases hrun
  · intro d w w' hrun
    simp only [search, request, Program.run] at hrun
    split at hrun <;> cases hrun

theorem flags_bind {p : Search α} {f : α → Search β} (hp : g.Flags p) (hf : ∀ a, g.Flags (f a)) :
    g.Flags (p >>= f) where
  done hrun := by
    obtain ⟨a, v, hfirst, hrest⟩ := Program.run_bind_eq_done.mp hrun
    rw [(hf a).done hrest, hp.done hfirst]
  cut hrun := by
    rcases Program.run_bind_eq_cut.mp hrun with hfirst | ⟨a, v, -, hrest⟩
    · exact hp.cut hfirst
    · exact (hf a).cut hrest

theorem flags_checkpoint : g.Flags checkpoint where
  done hrun := by rw [stats_checkpoint hrun]
  cut hrun := by rw [stats_checkpoint_cut hrun]; rfl

theorem flags_depthCharge (b : Brief) (fuel : Nat) (s : State) : g.Flags (b.depthCharge fuel s) where
  done hrun := by simpa using (Brief.depthCharge_done hrun).interrupted
  cut hrun := by simpa using (Brief.depthCharge_cut hrun).interrupted

theorem composes_flags : Composes fun _ p => g.Flags p where
  done a := ⟨fun h => by cases h; rfl, nofun⟩
  outOfFuel := ⟨nofun, nofun⟩
  request _ := flags_request
  checkpoint := flags_checkpoint
  bind := flags_bind

end Game

/-! ### The moves that were valued -/

/-- What a program has come to, if it is done. -/
def Outcome.toOption : Outcome α → Option α
  | .done a => some a
  | _ => none

theorem Outcome.toOption_eq_some {o : Outcome α} {a : α} : o.toOption = some a ↔ o = .done a := by
  cases o <;> simp [toOption]

/-- Chooses like `chooseFrom` and lists the moves that it has valued, with their values. -/
def valuesFrom (score : Move → (floor : Nat) → Search Nat) :
    List Move → Incumbent Nat → Search (Move × List (Move × Nat))
  | [], best => return (best.move, [])
  | m :: ms, best => do
    match ← (score m best.score).attempt with
    | none => return (best.move, [])
    | some value =>
      if value = topGoal then return (m, [(m, value)])
      let best := best.offer m value
      if ← expired then return (best.move, [(m, value)])
      let (chosen, valued) ← valuesFrom score ms best
      return (chosen, (m, value) :: valued)

/-- Listing the moves makes no difference. -/
theorem valuesFrom_fst (score : Move → Nat → Search Nat) (ms : List Move) (best : Incumbent Nat) :
    valuesFrom score ms best >>= (fun result => pure result.1) = chooseFrom score ms best := by
  induction ms generalizing best with
  | nil => rfl
  | cons m ms ih =>
      rw [valuesFrom, chooseFrom, bind_assoc]
      refine congrArg _ (funext fun result => ?_)
      cases result with
      | none => rfl
      | some value =>
          dsimp only
          split
          · rfl
          · rw [bind_assoc]
            refine congrArg _ (funext fun expired => ?_)
            cases expired with
            | true => rfl
            | false =>
                rw [if_neg Bool.false_ne_true, if_neg Bool.false_ne_true, bind_assoc, ← ih]
                rfl

/-- When the clock was read last. -/
def Clock.lastRead (c : Clock) : Nat := c.now - c.tick

theorem Clock.lastRead_read (c : Clock) : c.read.2.lastRead = c.now := Nat.add_sub_cancel _ _

/-- The note is right, but for a deadline that has expired when all moves are valued. -/
theorem valuesFrom_interrupted (hflags : ∀ m floor, g.Flags (score m floor))
    (hfresh : w.stats.interrupted = false)
    (hlast : ms = [] → d.expired w.play.clock.lastRead = false)
    (hrun : g.search d (valuesFrom score ms best) w = (.done (chosen, valued), w')) :
    valued.map Prod.fst <+: ms ∧
      (w'.stats.interrupted = true ↔ (∀ v ∈ valued, v.2 ≠ topGoal) ∧
        (valued.length < ms.length ∨ d.expired w'.play.clock.lastRead = true)) := by
  induction ms generalizing best w valued with
  | nil =>
      cases hrun
      simp [hfresh, hlast rfl]
  | cons m ms ih =>
      have hscored := hflags m best.score
      obtain ⟨result, v, hattempt, h⟩ := Program.run_bind_eq_done.mp hrun
      cases result with
      | none =>
          cases h
          simp [hscored.cut (Program.run_attempt_eq_none.mp hattempt)]
      | some x =>
          have hquiet : v.stats.interrupted = false :=
            (hscored.done (Program.run_attempt_eq_some.mp hattempt)).trans hfresh
          by_cases htop : x = topGoal
          · simp only [htop, if_true] at h
            cases h
            simp [hquiet]
          · simp only [htop, if_false] at h
            change g.search d (expired >>= _) v = _ at h
            rw [Game.search_expired_bind] at h
            have hread := Clock.lastRead_read v.play.clock
            cases hexpired : d.expired v.play.clock.now with
            | true =>
                -- The deadline has expired after this move, whether or not it is the last one.
                rw [hexpired] at h
                cases h
                rw [← hread] at hexpired
                exact ⟨⟨ms, rfl⟩, iff_of_true rfl ⟨by simpa using htop, .inr hexpired⟩⟩
            | false =>
                rw [hexpired] at h
                obtain ⟨⟨chosen', rest⟩, v', hrest, h⟩ := Program.run_bind_eq_done.mp h
                cases h
                rw [← hread] at hexpired
                obtain ⟨hfirst, hflag⟩ := ih (by exact hquiet) (fun _ => by exact hexpired) hrest
                refine ⟨(List.prefix_cons_inj m).mpr hfirst, ?_⟩
                rw [hflag]
                simp [htop]

/-! ### Strategies -/

/-- The strategy values the moves one by one, each with its score. -/
inductive Strategy.ValuesBy (b : Brief) (fuel : Nat) (s : State) :
    Strategy → (Move → (floor : Nat) → Search Nat) → Prop
  | minimax : ValuesBy b fuel s minimax fun m _ =>
      Minimax.moveScore b (Minimax.stateScore b fuel 1) s m
  | alphaBeta : ValuesBy b fuel s alphaBeta fun m floor =>
      AlphaBeta.moveScore b (AlphaBeta.stateScore b none fuel 1) s m floor topGoal
  | heuristic (cutoff : Heuristic) : ValuesBy b fuel s (heuristic cutoff) fun m floor =>
      AlphaBeta.moveScore b (AlphaBeta.stateScore b (some cutoff) fuel 1) s m floor topGoal

namespace Strategy

variable {strategy : Strategy}

theorem ValuesBy.search_eq (hvalues : strategy.ValuesBy b fuel s score) {moves : List Move}
    (h : moves ≠ []) : strategy.search b fuel s moves h = chooseMove score moves h := by
  cases hvalues <;> rfl

theorem ValuesBy.flags (hvalues : strategy.ValuesBy b fuel s score) (m : Move) (floor : Nat) :
    g.Flags (score m floor) := by
  have composes := Game.composes_flags (g := g)
  cases hvalues with
  | minimax => exact composes.minimaxMoveScore (composes.minimaxStateScore fuel 1) s m
  | alphaBeta =>
      exact composes.alphaBetaMoveScore
        (composes.alphaBetaStateScore (Game.flags_depthCharge b) none nofun fuel 1) s m floor topGoal
  | heuristic cutoff =>
      exact composes.alphaBetaMoveScore
        (composes.alphaBetaStateScore (Game.flags_depthCharge b) (some cutoff)
          (fun _ _ => ⟨nofun, nofun⟩) fuel 1) s m floor topGoal

/-- When an exhaustive search that starts without the note selects a move, the moves that it has
valued are the first of the list, and it says that it was interrupted exactly if none of them is of
the highest value and either there are others or the deadline had expired at its last look at the
clock. -/
theorem interrupted_iff (hvalues : strategy.ValuesBy b fuel s score) {moves : List Move}
    (h : moves ≠ []) (hfresh : w.stats.interrupted = false)
    (hrun : g.search d (strategy.search b fuel s moves h) w = (.done m, w')) :
    ∃ valued, g.search d (valuesFrom score moves ⟨moves.head h, 0⟩) w = (.done (m, valued), w') ∧
      valued.map Prod.fst <+: moves ∧
      (w'.stats.interrupted = true ↔ (∀ v ∈ valued, v.2 ≠ topGoal) ∧
        (valued.length < moves.length ∨ d.expired w'.play.clock.lastRead = true)) := by
  rw [hvalues.search_eq h, chooseMove, ← valuesFrom_fst] at hrun
  obtain ⟨⟨chosen, valued⟩, v, hvalued, hchosen⟩ := Program.run_bind_eq_done.mp hrun
  cases hchosen
  obtain ⟨hfirst, hflag⟩ :=
    valuesFrom_interrupted hvalues.flags hfresh (fun hnil => absurd hnil h) hvalued
  exact ⟨valued, hvalued, hfirst, hflag⟩

open TwoRounds in
/-- The deadline comes while the second move is valued. -/
theorem interrupted_iff_twoRounds :
    ∃ score valued w', ValuesBy brief 3 game.initial alphaBeta score ∧
      game.search ⟨1000, 50⟩ (alphaBeta.search brief 3 game.initial [left, right] (by decide))
        (.new ⟨0, 50⟩ (.ofSeed 42)) = (.done left, w') ∧
      w'.stats.interrupted = true ∧
      game.search ⟨1000, 50⟩ (valuesFrom score [left, right] ⟨left, 0⟩) (.new ⟨0, 50⟩ (.ofSeed 42)) =
        (.done (left, valued), w') ∧
      (∀ v ∈ valued, v.2 ≠ topGoal) ∧
      (valued.length < 2 ∨ Deadline.expired ⟨1000, 50⟩ w'.play.clock.lastRead = true) := by
  have hrun : ∃ w', game.search ⟨1000, 50⟩
      (alphaBeta.search brief 3 game.initial [left, right] (by decide))
      (.new ⟨0, 50⟩ (.ofSeed 42)) = (.done left, w') ∧ w'.stats.interrupted = true := ⟨_, rfl, rfl⟩
  obtain ⟨w', hrun, hset⟩ := hrun
  obtain ⟨valued, hvalued, -, hflag⟩ := interrupted_iff .alphaBeta (by decide) rfl hrun
  exact ⟨_, valued, w', .alphaBeta, hrun, hset, hvalued, hflag.mp hset⟩

/-- White searches until the deadline, without a margin. -/
def hastyWhite : Brief :=
  ⟨2, Nim.white, { Config.standard with exhaustiveMarginMs := 0 }, .ucb, .random⟩

/-- In front of three objects both moves are valued, and neither wins. The deadline expires after
that, and still the search says that it was interrupted. -/
theorem minimax_interrupted_nim :
    ∃ m score w', Nim.machine 3 = .ok m ∧ ValuesBy hastyWhite 10 m.initial minimax score ∧
      m.toGame.search ⟨13, 0⟩ (minimax.search hastyWhite 10 m.initial [Nim.take1, Nim.take2]
        (by decide)) (.new ⟨1, 1⟩ (.ofSeed 42)) = (.done Nim.take1, w') ∧
      m.toGame.search ⟨13, 0⟩ (valuesFrom score [Nim.take1, Nim.take2] ⟨Nim.take1, 0⟩)
        (.new ⟨1, 1⟩ (.ofSeed 42)) = (.done (Nim.take1, [(Nim.take1, 0), (Nim.take2, 0)]), w') ∧
      w'.stats.interrupted = true := by
  let run (m : Machine) := m.toGame.search ⟨13, 0⟩
    (valuesFrom (fun move _ => Minimax.moveScore hastyWhite (Minimax.stateScore hastyWhite 10 1)
      m.initial move) [Nim.take1, Nim.take2] ⟨Nim.take1, 0⟩) (.new ⟨1, 1⟩ (.ofSeed 42))
  have hvalued : ∃ m, Nim.machine 3 = .ok m ∧
      (run m).1.toOption = some (Nim.take1, [(Nim.take1, 0), (Nim.take2, 0)]) ∧
      (run m).2.stats.interrupted = true := by
    apply exists_of_any_toOption
    decide +kernel
  obtain ⟨m, hm, hdone, hset⟩ := hvalued
  have hrun : run m = (.done (Nim.take1, [(Nim.take1, 0), (Nim.take2, 0)]), (run m).2) :=
    Prod.ext (Outcome.toOption_eq_some.mp hdone) rfl
  have hvalues : ValuesBy hastyWhite 10 m.initial minimax _ := .minimax
  refine ⟨m, _, _, hm, hvalues, ?_, hrun, hset⟩
  rw [hvalues.search_eq, chooseMove, ← valuesFrom_fst]
  exact Program.run_bind_eq_done.mpr ⟨_, _, hrun, rfl⟩

end Strategy

end GeneralGame
