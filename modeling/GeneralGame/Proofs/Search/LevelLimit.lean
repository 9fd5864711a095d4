import GeneralGame.Proofs.Search.Completes
import GeneralGame.Proofs.Search.Ending
import GeneralGame.Proofs.Search.Merit
import GeneralGame.Proofs.Search.Polls

/-!
The level limit. With a heuristic that plays nothing out, alpha-beta search looks at no state that
is more plies below the root than the limit, or than one, whatever the game is and whether time
passes or not. So it comes to its end also in games that never do.
-/
namespace GeneralGame

open Search

variable {α β : Type} {g : Game} {b : Brief} {d : Deadline} {root s t : State}
  {allowed : SearchRequest → Prop} {bound ply : Nat}

/-- The state that is asked about. -/
def Query.state : Query → State
  | isTerminal s | goal s _ | legal s _ | moves s _ | next s _ | jointMoves s
  | jointMovesWith s _ _ => s

/-- How many plies further the question looks. -/
def Query.reach : Query → Nat
  | next .. => 1
  | _ => 0

namespace Game

/-- So many joint moves lead from the root to the state. -/
inductive IsBelow (g : Game) (root : State) : (ply : Nat) → State → Prop
  | root : g.IsBelow root 0 root
  | next {ply : Nat} {s t : State} {j : JointMove} (hs : g.IsBelow root ply s)
      (hnext : g.next s j = .ok t) : g.IsBelow root (ply + 1) t

/-- The request looks at a state at most `bound` plies below the root, or takes down such a depth,
and it draws nothing and starts no playout. -/
def IsShallow (g : Game) (root : State) (bound : Nat) : SearchRequest → Prop
  | .play (.query q) => ∃ ply, g.IsBelow root ply q.state ∧ ply + q.reach ≤ bound
  | .play (.draw ..) => False
  | .note (.depth ply) => ply ≤ bound
  | .playoutTurn => False
  | _ => True

/-! ### Confined searches -/

/-- The answer is what the game says, if it was asked. -/
def Tells (g : Game) : (q : SearchRequest) → q.Answer → Prop
  | .play (.query q), a => g.answer q = .ok a
  | _, _ => True

/-- As long as it is told what the game says, the search asks what is allowed, has fuel enough and
answers as `post` says. -/
def Confined (g : Game) (allowed : SearchRequest → Prop) (post : α → Prop) : Search α → Prop
  | .pure a => post a
  | .cut => True
  | .fault f => f ≠ .outOfFuel
  | .ask q next => allowed q ∧ ∀ a, g.Tells q a → g.Confined allowed post (next a)

theorem confined_bind {P : α → Prop} {Q : β → Prop} {p : Search α} {f : α → Search β}
    (hp : g.Confined allowed P p) (hf : ∀ a, P a → g.Confined allowed Q (f a)) :
    g.Confined allowed Q (p >>= f) := by
  induction p with
  | pure a => exact hf a hp
  | cut => trivial
  | fault e => exact hp
  | ask q next ih => exact ⟨hp.1, fun a ha => ih a (hp.2 a ha)⟩

theorem confined_attempt {P : α → Prop} {p : Search α} (hp : g.Confined allowed P p) :
    g.Confined allowed (fun _ => True) p.attempt := by
  induction p with
  | pure a => trivial
  | cut => trivial
  | fault e => exact hp
  | ask q next ih => exact ⟨hp.1, fun a ha => ih a (hp.2 a ha)⟩

theorem confined_request {q : SearchRequest} (hq : allowed q) :
    g.Confined allowed (g.Tells q) (request q) := ⟨hq, fun _ ha => ha⟩

theorem tells_of_answer {q : SearchRequest} {w v : Search.World} {a : q.Answer}
    (h : Search.answer g d q w = (.ok a, v)) : g.Tells q a := by
  rcases answer_cases h with ⟨hgrants, -⟩ | ⟨-, rfl, -, -⟩
  · cases q with
    | play q =>
        cases q with
        | query q => exact hgrants
        | _ => trivial
    | _ => trivial
  · trivial

/-- A confined search asks nothing but what is allowed. If that is never a draw, it does not run out
of fuel. -/
theorem search_confined {post : α → Prop} {p : Search α} (hp : g.Confined allowed post p)
    (hdraw : ∀ width n pos, ¬ allowed (.play (.draw width n pos))) (w : Search.World) :
    (∀ e ∈ p.history (Search.answer g d) w, allowed e.1) ∧
      (g.search d p w).1 ≠ .fault .outOfFuel := by
  induction p generalizing w with
  | pure a => exact ⟨List.forall_mem_nil _, nofun⟩
  | cut => exact ⟨List.forall_mem_nil _, nofun⟩
  | fault f => exact ⟨List.forall_mem_nil _, fun h => hp (by cases h; rfl)⟩
  | ask q next ih =>
      obtain ⟨hq, hnext⟩ := hp
      have hdrawn : drawReturns (q, w) = true := by
        cases q with
        | play q =>
            cases q with
            | draw width n pos => exact absurd hq (hdraw width n pos)
            | _ => rfl
        | _ => rfl
      have hreply := answer_ne_outOfFuel (g := g) (d := d) hdrawn
      simp only [Program.history, search, Program.run]
      cases hanswer : Search.answer g d q w with
      | mk reply v =>
          rw [hanswer] at hreply
          cases reply with
          | error f =>
              refine ⟨List.forall_mem_singleton.mpr hq, fun h => hreply ?_⟩
              cases h
              rfl
          | ok a =>
              have hrest := ih a (hnext a (tells_of_answer hanswer)) v
              exact ⟨List.forall_mem_cons.mpr ⟨hq, hrest.1⟩, hrest.2⟩

/-! ### Shallow searches -/

/-- The search looks at nothing that is more than `bound` plies below the root. -/
abbrev Shallow (g : Game) (root : State) (bound : Nat) (p : Search α) (post : α → Prop) : Prop :=
  g.Confined (g.IsShallow root bound) post p

theorem shallow_query {q : Query} (hs : g.IsBelow root ply q.state) (hply : ply + q.reach ≤ bound) :
    g.Shallow root bound (query q) (g.answer q = .ok ·) :=
  confined_request (q := .play (.query q)) ⟨ply, hs, hply⟩

theorem shallow_checkpoint : g.Shallow root bound checkpoint fun _ => True := by
  refine ⟨trivial, fun expired _ => ?_⟩
  cases expired with
  | true => exact ⟨trivial, fun _ _ => trivial⟩
  | false => trivial

theorem shallow_expired : g.Shallow root bound expired fun _ => True := by
  refine ⟨trivial, fun expired _ => ?_⟩
  cases expired with
  | true => exact ⟨trivial, fun _ _ => trivial⟩
  | false => trivial

theorem shallow_next {j : JointMove} (hs : g.IsBelow root ply s) (hply : ply < bound) :
    g.Shallow root bound (Search.next s j) (g.IsBelow root (ply + 1)) := by
  refine confined_bind (confined_request (q := .note .node) trivial) fun _ _ => ?_
  exact ⟨⟨ply, hs, hply⟩, fun t ht => .next hs (answer_next.mp ht)⟩

end Game

theorem Heuristic.shallow_value {heuristic : Heuristic} (h : heuristic.isStatic = true)
    (hs : g.IsBelow root ply s) (hply : ply ≤ bound) (fuel : Nat) :
    g.Shallow root bound (heuristic.value b fuel s) fun _ => True := by
  cases heuristic with
  | monteCarlo charges => cases h
  | goalProximity =>
      exact ⟨⟨ply, hs, hply⟩, fun _ _ => trivial⟩
  | _ feasible => exact ⟨⟨ply, hs, hply⟩, fun _ _ => trivial⟩

namespace AlphaBeta

theorem shallow_least {score : State → Nat → Search Nat}
    (hscore : ∀ t, g.IsBelow root (ply + 1) t → ∀ high,
      g.Shallow root bound (score t high) fun _ => True)
    (hs : g.IsBelow root ply s) (hply : ply < bound) (low : Nat) (joints : List JointMove)
    (high : Nat) : g.Shallow root bound (least b score s low joints high) fun _ => True := by
  induction joints generalizing high with
  | nil => trivial
  | cons j joints ih =>
      rw [least]
      refine Game.confined_bind (Game.shallow_next hs hply) fun t ht => ?_
      refine Game.confined_bind (hscore t ht high) fun value _ => ?_
      dsimp only
      split
      · exact ⟨trivial, fun _ _ => trivial⟩
      · exact ih _

theorem shallow_greatest {score : Move → Nat → Search Nat}
    (hscore : ∀ m low, g.Shallow root bound (score m low) fun _ => True) (high : Nat)
    (ms : List Move) (low : Nat) :
    g.Shallow root bound (greatest score high ms low) fun _ => True := by
  induction ms generalizing low with
  | nil => trivial
  | cons m ms ih =>
      rw [greatest]
      refine Game.confined_bind (hscore m low) fun value _ => ?_
      dsimp only
      split
      · exact ⟨trivial, fun _ _ => trivial⟩
      · exact ih _

theorem shallow_moveScore {score : State → Nat → Nat → Search Nat}
    (hscore : ∀ t, g.IsBelow root (ply + 1) t → ∀ low high,
      g.Shallow root bound (score t low high) fun _ => True)
    (hs : g.IsBelow root ply s) (hply : ply < bound) (m : Move) (low high : Nat) :
    g.Shallow root bound (moveScore b score s m low high) fun _ => True := by
  refine Game.confined_bind Game.shallow_checkpoint fun _ _ => ?_
  refine Game.confined_bind
    (Game.shallow_query (q := .jointMovesWith s b.role m) hs (Nat.le_of_lt hply)) fun joints _ => ?_
  exact shallow_least (fun t ht high => hscore t ht low high) hs hply low joints high

/-- The levels that are left are as many as the fuel that is left, so that the limit comes first. -/
theorem shallow_stateScore {heuristic : Heuristic} (h : heuristic.isStatic = true)
    (hlimit : b.config.levelLimit ≤ bound) {fuel level : Nat} (hs : g.IsBelow root level s)
    (hlevel : level ≤ bound) (hfuel : bound < fuel + level) (low high : Nat) :
    g.Shallow root bound (stateScore b (some heuristic) fuel level s low high)
      fun _ => True := by
  induction fuel generalizing level s low high with
  | zero => omega
  | succ fuel ih =>
      rw [stateScore]
      refine Game.confined_bind Game.shallow_checkpoint fun _ _ => ?_
      refine Game.confined_bind (Game.confined_request (q := .note (.depth level)) hlevel)
        fun _ _ => ?_
      refine Game.confined_bind (Game.shallow_query (q := .isTerminal s) hs hlevel)
        fun terminal _ => ?_
      cases terminal with
      | true => exact ⟨⟨level, hs, hlevel⟩, fun _ _ => trivial⟩
      | false =>
          rw [if_neg Bool.false_ne_true, cutoffAt]
          by_cases hcutoff : b.config.levelLimit ≤ level
          · rw [if_pos hcutoff]
            exact Heuristic.shallow_value h hs hlevel fuel
          · rw [if_neg hcutoff]
            refine Game.confined_bind (Game.shallow_query (q := .moves s b.role) hs hlevel)
              fun ms _ => ?_
            refine shallow_greatest (fun m low => ?_) high ms.val low
            refine shallow_moveScore (fun t ht low high => ?_) hs (by omega) m low high
            exact ih ht (by omega) (by omega) low high

end AlphaBeta

theorem shallow_chooseFrom {score : Move → Nat → Search Nat}
    (hscore : ∀ m floor, g.Shallow root bound (score m floor) fun _ => True) (ms : List Move)
    (best : Incumbent Nat) : g.Shallow root bound (chooseFrom score ms best) fun _ => True := by
  induction ms generalizing best with
  | nil => trivial
  | cons m ms ih =>
      rw [chooseFrom]
      refine Game.confined_bind (Game.confined_attempt (hscore m best.score)) fun answer _ => ?_
      cases answer with
      | none => trivial
      | some value =>
          dsimp only
          split
          · trivial
          · refine Game.confined_bind Game.shallow_expired fun expired _ => ?_
            cases expired with
            | true => trivial
            | false => exact ih _

/-! ### Fuel -/

theorem Heuristic.value_fuel {heuristic : Heuristic} (h : heuristic.isStatic = true)
    (fuel fuel' : Nat) (s : State) :
    heuristic.value b fuel s = heuristic.value b fuel' s := by
  cases heuristic with
  | monteCarlo charges => cases h
  | _ => rfl

/-- The limit comes before the end of the fuel, so more of that makes no difference. -/
theorem AlphaBeta.stateScore_fuel {heuristic : Heuristic} (h : heuristic.isStatic = true)
    (hlimit : b.config.levelLimit ≤ bound) {fuel fuel' level : Nat} (hlevel : level ≤ bound)
    (hfuel : bound < fuel + level) (hfuel' : bound < fuel' + level) :
    stateScore b (some heuristic) fuel level = stateScore b (some heuristic) fuel' level := by
  induction fuel generalizing fuel' level with
  | zero => omega
  | succ fuel ih =>
      obtain ⟨fuel', rfl⟩ : ∃ n, fuel' = n + 1 := ⟨fuel' - 1, by omega⟩
      funext s low high
      rw [stateScore, stateScore, cutoffAt]
      by_cases hcutoff : b.config.levelLimit ≤ level
      · simp only [if_pos hcutoff, Heuristic.value_fuel h fuel fuel']
      · have hdeeper : stateScore b (some heuristic) fuel (level + 1) =
            stateScore b (some heuristic) fuel' (level + 1) :=
          ih (by omega) (by omega) (by omega)
        simp only [if_neg hcutoff, hdeeper]

/-- With a heuristic that plays nothing out, the search comes to an end in every game and on every
clock: it selects a move, or fails as a query has failed. It looks at no state deeper than the level
limit, or than one ply, and takes down no greater depth. It has fuel enough from that depth on, and
is the same search with more. -/
theorem static_search_stays_within_limit {heuristic : Heuristic}
    (hstatic : heuristic.isStatic = true) {moves : List Move} (h : moves ≠ []) {fuel : Nat}
    (hfuel : max 1 b.config.levelLimit ≤ fuel) (d : Deadline) (w : Search.World) :
    ∃ outcome w',
      g.search d (Strategy.search (.heuristic heuristic) b fuel s moves h) w = (outcome, w') ∧
      ((∃ m ∈ moves, outcome = .done m) ∨ ∃ f q, outcome = .fault f ∧ g.answer q = .error f) ∧
      w'.stats.maxDepth ≤ max w.stats.maxDepth (max 1 b.config.levelLimit) ∧
      (∀ e ∈ (Strategy.search (.heuristic heuristic) b fuel s moves h).history
          (Search.answer g d) w, g.IsShallow s (max 1 b.config.levelLimit) e.1) ∧
      Strategy.search (.heuristic heuristic) b fuel s moves h =
        Strategy.search (.heuristic heuristic) b (max 1 b.config.levelLimit) s moves h := by
  have hlimit : b.config.levelLimit ≤ max 1 b.config.levelLimit := Nat.le_max_right _ _
  have hshallow : g.Shallow s (max 1 b.config.levelLimit)
      (Strategy.search (.heuristic heuristic) b fuel s moves h) fun _ => True := by
    refine shallow_chooseFrom (fun m floor => ?_) moves _
    refine AlphaBeta.shallow_moveScore (fun t ht low high => ?_) .root (by omega) m floor topGoal
    exact AlphaBeta.shallow_stateScore hstatic hlimit ht (by omega) (by omega) low high
  obtain ⟨hasked, hfault⟩ := Game.search_confined (d := d) hshallow (fun _ _ _ => id) w
  refine ⟨_, _, rfl, ?_, ?_, hasked, ?_⟩
  · rcases Strategy.search_ends (.heuristic heuristic) b fuel s h (Search.answer g d) w with
      hdone | ⟨f, hf, hblames⟩
    · exact .inl hdone
    · have hquery : ∃ q, g.answer q = .error f := by
        cases hblames with
        | fuel => exact absurd hf hfault
        | overflow charges hstrategy =>
            cases hstrategy
            cases hstatic
        | request _ _ hrefused =>
            rcases Search.answer_eq_fault hrefused with ⟨query, -, hquery⟩ | rfl
            · exact ⟨query, hquery⟩
            · exact absurd hf hfault
        | @playout before v _ _ _ _ _ _ hhistory _ =>
            exact absurd (hasked (.playoutTurn, v) (by simp [hhistory])) id
      obtain ⟨q, hq⟩ := hquery
      exact .inr ⟨f, q, hf, hq⟩
  · refine Game.maxDepth_le fun e he depth hdepth => ?_
    have hnoted := hasked e he
    rw [hdepth] at hnoted
    exact hnoted
  · have hscore : AlphaBeta.stateScore b (some heuristic) fuel 1 =
        AlphaBeta.stateScore b (some heuristic) (max 1 b.config.levelLimit) 1 :=
      AlphaBeta.stateScore_fuel hstatic hlimit (Nat.le_max_left _ _) (by omega) (by omega)
    simp only [Strategy.search, AlphaBeta.search, hscore]

/-! ### A game without end -/

namespace Treadmill

def walk : Move := ⟨"walk"⟩

def run : Move := ⟨"run"⟩

/-- Whatever the only player does, it stays where it is. -/
def game : Game where
  roles := ["runner"]
  initial := .ofFacts [1]
  isTerminal _ := false
  goal _ _ := .ok 50
  legal _ _ := .ok [walk, run]
  next s _ := .ok s

/-- The runner looks three plies ahead. -/
def brief : Brief := ⟨1, .ofIndex 0, { Config.standard with levelLimit := 3 }, .ucb, .random⟩

end Treadmill

open Treadmill in
/-- On a clock that stands still, and in circles, the search is over after three plies. -/
theorem static_search_stays_within_limit_treadmill :
    ∃ w', game.search ⟨1000, 50⟩ (Strategy.search (.heuristic .goalProximity) brief 1000
        game.initial [walk, run] (by decide)) (.new ⟨0, 0⟩ (.ofSeed 42)) = (.done walk, w') ∧
      w'.stats.maxDepth ≤ 3 := by
  obtain ⟨outcome, w', hrun, -, hdepth, -, hsame⟩ :=
    static_search_stays_within_limit (g := game) (b := brief) (s := game.initial)
      (show Heuristic.goalProximity.isStatic = true from rfl) (show [walk, run] ≠ [] by decide)
      (show max 1 brief.config.levelLimit ≤ 1000 by decide) ⟨1000, 50⟩ (.new ⟨0, 0⟩ (.ofSeed 42))
  have hwalk : ∃ v, game.search ⟨1000, 50⟩ (Strategy.search (.heuristic .goalProximity) brief 3
      game.initial [walk, run] (by decide)) (.new ⟨0, 0⟩ (.ofSeed 42)) = (.done walk, v) := ⟨_, rfl⟩
  obtain ⟨v, hv⟩ := hwalk
  have hdone : outcome = .done walk := by
    rw [hsame] at hrun
    exact congrArg Prod.fst (hrun.symm.trans hv)
  rw [hdone] at hrun
  exact ⟨w', hrun, hdepth⟩

end GeneralGame
