import GeneralGame.Proofs.Search.Window
import Mathlib.Data.List.MinMax

/-!
The choice at the root. Where every move is valued exactly above the best score so far, the first
move of the greatest worth is chosen. Alpha-beta search values its moves in that way, so for any
number of roles its pruning never changes the choice.
-/
namespace GeneralGame

open Search

variable {g : Game} {score : Move → Nat → Search Nat} {worth : Move → Nat}

theorem Incumbent.offer_of_lt {i : Incumbent Nat} {v : Nat} (h : i.score < v) (m : Move) :
    i.offer m v = ⟨m, v⟩ := by
  simp only [offer, yieldsTo, h, decide_true, if_true]

theorem Incumbent.offer_of_le {i : Incumbent Nat} {v : Nat} (h : v ≤ i.score) (m : Move) :
    i.offer m v = i := by
  simp only [offer, yieldsTo, Nat.not_lt.mpr h, decide_false, Bool.false_eq_true, if_false]

/-- Scores that cannot be told apart above the best one so far are as good as each other. -/
theorem Incumbent.offer_congr {i : Incumbent Nat} {x v : Nat} (h : max i.score x = max i.score v)
    (m : Move) : i.offer m x = i.offer m v := by
  by_cases hlt : i.score < v
  · have heq : x = v := by omega
    rw [heq]
  · have hx : x ≤ i.score := by omega
    have hv : v ≤ i.score := by omega
    rw [offer_of_le hx, offer_of_le hv]

theorem Incumbent.score_offer_lt {i : Incumbent Nat} {v bound : Nat} (hi : i.score < bound)
    (hv : v < bound) (m : Move) : (i.offer m v).score < bound := by
  unfold offer
  split
  · exact hv
  · exact hi

/-- What is chosen from further moves: the first of the greatest worth among them if that exceeds
the best score so far, and the best move so far otherwise. -/
def chosen (worth : Move → Nat) (ms : List Move) (best : Incumbent Nat) : Move :=
  match ms.argmax worth with
  | some m => if best.score < worth m then m else best.move
  | none => best.move

theorem chosen_cons (worth : Move → Nat) (m : Move) (ms : List Move) (best : Incumbent Nat) :
    chosen worth (m :: ms) best = chosen worth ms (best.offer m (worth m)) := by
  unfold chosen
  rw [List.argmax_cons]
  by_cases hoffer : best.score < worth m
  · rw [Incumbent.offer_of_lt hoffer]
    cases ms.argmax worth with
    | none => simp [hoffer]
    | some c =>
        by_cases hc : worth m < worth c
        · simp [hc, Nat.lt_trans hoffer hc]
        · simp [hc, hoffer]
  · rw [Incumbent.offer_of_le (Nat.not_lt.mp hoffer)]
    cases ms.argmax worth with
    | none => simp [hoffer]
    | some c =>
        by_cases hc : worth m < worth c
        · simp [hc]
        · have hbetween : ¬ best.score < worth c := by omega
          simp [hc, hoffer, hbetween]

/-- A move of the highest worth is chosen as soon as it is valued. -/
theorem chosen_of_top {m : Move} {ms : List Move} {best : Incumbent Nat}
    (hworth : ∀ c ∈ m :: ms, worth c ≤ topGoal) (hm : worth m = topGoal)
    (hbest : best.score < topGoal) : chosen worth (m :: ms) best = m := by
  have hhead : best.score < worth m := by omega
  unfold chosen
  rw [List.argmax_cons]
  cases hmax : ms.argmax worth with
  | none => simp [hhead]
  | some c =>
      have hc : worth c ≤ topGoal := hworth c (List.mem_cons_of_mem m (List.argmax_mem hmax))
      have hle : ¬ worth m < worth c := by omega
      simp [hle, hhead]

/-- The choice among moves as it is, or without the exit that ends it at a move of the highest
value. -/
def chooseFromWith (exit : Bool) (score : Move → (floor : Nat) → Search Nat) :
    List Move → Incumbent Nat → Search Move
  | [], best => return best.move
  | m :: ms, best => do
    match ← (score m best.score).attempt with
    | none => return best.move
    | some value =>
      if exit ∧ value = topGoal then return m
      let best := best.offer m value
      if ← expired then return best.move
      chooseFromWith exit score ms best

theorem chooseFromWith_true (score : Move → Nat → Search Nat) (ms : List Move)
    (best : Incumbent Nat) : chooseFromWith true score ms best = chooseFrom score ms best := by
  induction ms generalizing best with
  | nil => rfl
  | cons m ms ih =>
      rw [chooseFromWith, chooseFrom]
      refine bind_congr fun result => ?_
      cases result with
      | none => rfl
      | some value => simp only [ih, true_and]

/-- The choice among moves that are each valued exactly above the best score so far. Without the exit
that score may be the highest of all. -/
theorem chooseFromWith_returns {exit : Bool} {ms : List Move} {best : Incumbent Nat}
    (hscore : ∀ m ∈ ms, ∀ floor, (exit = true → floor < topGoal) →
      g.Returns (score m floor) fun x => max floor x = max floor (worth m))
    (hworth : ∀ m ∈ ms, worth m ≤ topGoal) (hbest : exit = true → best.score < topGoal) :
    g.Returns (chooseFromWith exit score ms best) (· = chosen worth ms best) := by
  induction ms generalizing best with
  | nil => exact Game.returns_pure rfl
  | cons m ms ih =>
      rw [chooseFromWith]
      apply Game.returns_bind
        (Game.returns_attempt (hscore m List.mem_cons_self best.score hbest))
      rintro _ ⟨x, rfl, hx⟩
      have hm : worth m ≤ topGoal := hworth m List.mem_cons_self
      by_cases htop : exit = true ∧ x = topGoal
      · simp only [htop, and_self, if_true]
        have hlow := hbest htop.1
        apply Game.returns_pure
        exact (chosen_of_top hworth (by omega) hlow).symm
      · simp only [htop, if_false]
        apply Game.returns_bind Game.returns_expired
        rintro _ rfl
        rw [chosen_cons, Incumbent.offer_congr hx m]
        refine ih (fun c hc => hscore c (List.mem_cons_of_mem m hc))
          (fun c hc => hworth c (List.mem_cons_of_mem m hc)) fun hexit => ?_
        have hlow := hbest hexit
        have hne : x ≠ topGoal := fun h => htop ⟨hexit, h⟩
        exact Incumbent.score_offer_lt hlow (by omega) m

theorem chooseFrom_returns {ms : List Move} {best : Incumbent Nat}
    (hscore : ∀ m ∈ ms, ∀ floor, floor < topGoal →
      g.Returns (score m floor) fun x => max floor x = max floor (worth m))
    (hworth : ∀ m ∈ ms, worth m ≤ topGoal) (hbest : best.score < topGoal) :
    g.Returns (chooseFrom score ms best) (· = chosen worth ms best) := by
  rw [← chooseFromWith_true]
  exact chooseFromWith_returns (fun m hm floor hfloor => hscore m hm floor (hfloor rfl)) hworth
    fun _ => hbest

/-- Starting from the first move with a score of zero, the choice is the first move of the greatest
worth. -/
theorem argmax_eq_some_chosen {moves : List Move} (h : moves ≠ []) :
    moves.argmax worth = some (chosen worth moves ⟨moves.head h, 0⟩) := by
  cases moves with
  | nil => exact absurd rfl h
  | cons m ms =>
      unfold chosen
      rw [List.argmax_cons, List.head_cons]
      cases ms.argmax worth with
      | none => by_cases hm : 0 < worth m <;> simp [hm]
      | some c =>
          by_cases hc : worth m < worth c
          · have hpos : 0 < worth c := by omega
            simp [hc, hpos]
          · by_cases hm : 0 < worth m <;> simp [hc, hm]

theorem chooseMove_returns {moves : List Move} (h : moves ≠ [])
    (hscore : ∀ m ∈ moves, ∀ floor, floor < topGoal →
      g.Returns (score m floor) fun x => max floor x = max floor (worth m))
    (hworth : ∀ m ∈ moves, worth m ≤ topGoal) :
    g.Returns (chooseMove score moves h) fun m => moves.argmax worth = some m := by
  have hstart : (0 : Nat) < topGoal := by decide
  apply Game.returns_imp (chooseFrom_returns hscore hworth hstart)
  rintro _ rfl
  exact argmax_eq_some_chosen h

/-- With all the time in the world, alpha-beta search chooses the first move of the greatest worth. -/
theorem AlphaBeta.search_returns {b : Brief} {cutoff : Option Heuristic} {plies fuel : Nat}
    {s : State} {moves : List Move} (h : moves ≠ []) {worth : Move → Nat}
    (hworth : ∀ m ∈ moves, g.rootWorth? b cutoff plies s m = some (worth m))
    (hfuel : plies ≤ fuel) :
    g.Returns (search b cutoff fuel s moves h) fun m => moves.argmax worth = some m := by
  have hle : ∀ m ∈ moves, worth m ≤ topGoal := fun m hm =>
    Game.moveWorth?_le (fun t v hv => Game.stateWorth?_le hv) (hworth m hm)
  apply chooseMove_returns h _ hle
  intro m hm floor hfloor
  have hstate : ∀ t v, g.stateWorth? b cutoff plies 1 t = some v → ∀ low high, low < high →
      g.Returns (AlphaBeta.stateScore b cutoff fuel 1 t low high)
        fun x => clamp low high x = clamp low high v :=
    fun t v hv low high hwin =>
      stateScore_returns hfuel (Nat.le_refl 1) (Game.stateMerit?_of_stateWorth hv) hwin
  apply Game.returns_imp (AlphaBeta.moveScore_returns hstate (hworth m hm) hfloor)
  rintro _ rfl
  have hm' := hle m hm
  unfold clamp
  omega

/-- For any number of roles, and with or without a heuristic at the level limit, alpha-beta search
chooses the first of the moves whose worth in the unpruned tree is greatest. It does so under every
deadline that it does not find expired, once it has fuel for the height of the tree. -/
theorem alphaBeta_chooses_argmax {b : Brief} {cutoff : Option Heuristic} {plies fuel : Nat}
    {s : State} {moves : List Move} (h : moves ≠ []) {worth : Move → Nat}
    (hworth : ∀ m ∈ moves, g.rootWorth? b cutoff plies s m = some (worth m))
    (hfuel : plies ≤ fuel) {d : Deadline} {w : Search.World}
    (hopen : g.Undisturbed d (AlphaBeta.search b cutoff fuel s moves h) w) :
    ∃ m w', g.search d (AlphaBeta.search b cutoff fuel s moves h) w = (.done m, w') ∧
      moves.argmax worth = some m :=
  Game.done_of_returns (AlphaBeta.search_returns h hworth hfuel) hopen

open TwoRounds in
/-- The second of two moves is worth more, and is chosen. -/
theorem alphaBeta_chooses_argmax_twoRounds :
    ∃ w', game.search ⟨1000, 50⟩
      (AlphaBeta.search brief none 2 game.initial [left, right] (by decide))
      (.new ⟨0, 0⟩ (.ofSeed 42)) = (.done right, w') := by
  have hworth : ∀ m ∈ [left, right],
      game.rootWorth? brief none 2 game.initial m = some (if m = left then 33 else 36) := by
    decide
  obtain ⟨m, w', hrun, hm⟩ := alphaBeta_chooses_argmax (by decide) hworth (Nat.le_refl 2)
    (Game.undisturbed_of_still (d := ⟨1000, 50⟩) (w := .new ⟨0, 0⟩ (.ofSeed 42)) rfl rfl)
  have hright : [left, right].argmax (fun m => if m = left then 33 else 36) = some right := by
    decide
  cases hm.symm.trans hright
  exact ⟨w', hrun⟩

end GeneralGame
