import GeneralGame.Proofs.Search.Merit
import GeneralGame.Proofs.Search.Returns
import GeneralGame.Search.Exhaustive.AlphaBeta

/-!
The law of the alpha-beta window. A move is valued with its merit moved into the window, whatever
was pruned on the way; a state is valued with a number that becomes its merit when both are moved
into the window. The window stays open in every call, so that a bound passed on is never mistaken
for a value.
-/
namespace GeneralGame

open Search

/-- A value moved to the nearer end of a window if it lies outside of it. -/
def clamp (low high v : Nat) : Nat := max low (min high v)

theorem foldl_min_le (values : List Nat) (start : Nat) : values.foldl min start ≤ start := by
  induction values generalizing start with
  | nil => exact Nat.le_refl start
  | cons v values ih => exact Nat.le_trans (ih (min start v)) (Nat.min_le_left start v)

theorem le_foldl_max (values : List Nat) (start : Nat) : start ≤ values.foldl max start := by
  induction values generalizing start with
  | nil => exact Nat.le_refl start
  | cons v values ih => exact Nat.le_trans (Nat.le_max_left start v) (ih (max start v))

theorem foldl_min_eq_min {values : List Nat} {v start : Nat} (h : values.min? = some v) :
    values.foldl min start = min start v := by
  cases values with
  | nil => cases h
  | cons first rest =>
      rw [List.min?_cons'] at h
      cases h
      exact List.foldl_assoc

theorem foldl_max_eq_max {values : List Nat} {v start : Nat} (h : values.max? = some v) :
    values.foldl max start = max start v := by
  cases values with
  | nil => cases h
  | cons first rest =>
      rw [List.max?_cons'] at h
      cases h
      exact List.foldl_assoc

theorem Game.returns_estimate {g : Game} {b : Brief} {fuel : Nat} {s : State} {h : Heuristic}
    {v : Nat} (hv : h.estimate? g b.role s = some v) : g.Returns (h.value b fuel s) (· = v) := by
  cases h with
  | goalProximity => exact returns_query (answer_goal.mpr (toOption_eq_some.mp hv))
  | mobility feasible =>
      obtain ⟨ms, hms, rfl⟩ := Option.map_eq_some_iff.mp hv
      refine returns_bind (returns_query (answer_legal.mpr (toOption_eq_some.mp hms))) ?_
      rintro _ rfl
      exact returns_pure rfl
  | focus feasible =>
      obtain ⟨ms, hms, rfl⟩ := Option.map_eq_some_iff.mp hv
      refine returns_bind (returns_query (answer_legal.mpr (toOption_eq_some.mp hms))) ?_
      rintro _ rfl
      exact returns_pure rfl
  | monteCarlo charges => cases hv

/-- The unpruned value of a state at any ply, the root included, in a game tree of some plies at most.
The heuristic is asked where the search asks it. -/
def Game.stateValue? (g : Game) (b : Brief) (cutoff : Option Heuristic) :
    (plies ply : Nat) → State → Option Nat
  | 0, _, _ => none
  | plies + 1, ply, s =>
    if g.isTerminal s then (g.goal s b.role).toOption
    else
      match AlphaBeta.cutoffAt b cutoff ply with
      | some heuristic => heuristic.estimate? g b.role s
      | none => do
        let ms ← (g.moves s b.role).toOption
        let values ← ms.val.mapM
          (g.moveWorth? b.role (g.stateValue? b cutoff plies (ply + 1)) s)
        values.max?

namespace AlphaBeta

variable {g : Game} {b : Brief} {s : State} {low high : Nat}

/-- Over the joint moves, the window closes from above onto their least merit. -/
theorem least_returns {score : State → Nat → Search Nat} {rest : State → Option Nat}
    {joints : List JointMove} {values : List Nat}
    (hscore : ∀ t v, rest t = some v → ∀ high, low < high →
      g.Returns (score t high) fun x => clamp low high x = clamp low high v)
    (hvalues : (joints.mapM fun j => (g.next s j).toOption.bind rest) = some values)
    (hwindow : low < high) :
    g.Returns (least b score s low joints high) (· = max low (values.foldl min high)) := by
  induction joints generalizing values high with
  | nil =>
      rw [List.mapM_nil] at hvalues
      cases hvalues
      exact Game.returns_pure (by simp only [List.foldl_nil]; omega)
  | cons j joints ih =>
      obtain ⟨v, others, hv, hothers, rfl⟩ := mapM_cons_eq_some.mp hvalues
      obtain ⟨t, ht, hv⟩ := Option.bind_eq_some_iff.mp hv
      rw [least, List.foldl_cons]
      refine Game.returns_bind (Game.returns_next (toOption_eq_some.mp ht)) ?_
      rintro _ rfl
      refine Game.returns_bind (hscore _ v hv high hwindow) fun x hx => ?_
      unfold clamp at hx
      have hfold := foldl_min_le others (min high v)
      by_cases hclosed : min high x ≤ low
      · simp only [hclosed, if_true]
        refine Game.returns_bind (Game.returns_note _) fun _ _ => Game.returns_pure ?_
        omega
      · simp only [hclosed, if_false]
        have hmin : min high x = min high v := by omega
        rw [hmin]
        exact ih hothers (by omega)

/-- A move is valued with its merit, moved into the window. -/
theorem moveScore_returns {score : State → Nat → Nat → Search Nat} {rest : State → Option Nat}
    {m : Move} {v : Nat}
    (hscore : ∀ t v, rest t = some v → ∀ low high, low < high →
      g.Returns (score t low high) fun x => clamp low high x = clamp low high v)
    (hv : g.moveWorth? b.role rest s m = some v) (hwindow : low < high) :
    g.Returns (moveScore b score s m low high) (· = clamp low high v) := by
  simp only [Game.moveWorth?, Option.bind_eq_bind, Option.bind_eq_some_iff] at hv
  obtain ⟨joints, hjoints, values, hvalues, hmin⟩ := hv
  have hquery : g.answer (.jointMovesWith s b.role m) = .ok joints :=
    toOption_eq_some.mp hjoints
  refine Game.returns_bind Game.returns_checkpoint fun _ _ => ?_
  refine Game.returns_bind (Game.returns_query hquery) ?_
  rintro _ rfl
  have hleast := least_returns (b := b) (fun t v ht high => hscore t v ht low high) hvalues hwindow
  refine Game.returns_imp hleast fun x hx => ?_
  rw [hx, foldl_min_eq_min hmin, clamp]

/-- Over the role's moves, the window closes from below onto their greatest merit. -/
theorem greatest_returns {score : Move → Nat → Search Nat} {worth : Move → Option Nat}
    {ms : List Move} {values : List Nat}
    (hscore : ∀ m v, worth m = some v → ∀ low, low < high →
      g.Returns (score m low) (· = clamp low high v))
    (hvalues : ms.mapM worth = some values) (hwindow : low < high) :
    g.Returns (greatest score high ms low) (· = min high (values.foldl max low)) := by
  induction ms generalizing values low with
  | nil =>
      rw [List.mapM_nil] at hvalues
      cases hvalues
      exact Game.returns_pure (by simp only [List.foldl_nil]; omega)
  | cons m ms ih =>
      obtain ⟨v, others, hv, hothers, rfl⟩ := mapM_cons_eq_some.mp hvalues
      rw [greatest, List.foldl_cons]
      refine Game.returns_bind (hscore m v hv low hwindow) ?_
      rintro _ rfl
      have hfold := le_foldl_max others (max low v)
      by_cases hclosed : high ≤ max low (clamp low high v)
      · simp only [hclosed, if_true]
        refine Game.returns_bind (Game.returns_note _) fun _ _ => Game.returns_pure ?_
        unfold clamp at hclosed
        omega
      · simp only [hclosed, if_false]
        unfold clamp at hclosed ⊢
        have hmax : max low (max low (min high v)) = max low v := by omega
        rw [hmax]
        exact ih hothers (by omega)

theorem cutoffAt_of_pos {cutoff : Option Heuristic} {ply : Nat} (h : 1 ≤ ply) :
    cutoffAt b cutoff ply = if max 1 b.config.levelLimit ≤ ply then cutoff else none := by
  have hmax : max 1 b.config.levelLimit ≤ ply ↔ b.config.levelLimit ≤ ply := by omega
  simp only [cutoffAt, hmax]

/-- Below the root the unpruned value is the merit. -/
theorem stateValue?_of_pos {cutoff : Option Heuristic} {plies ply : Nat} (h : 1 ≤ ply) :
    g.stateValue? b cutoff plies ply = g.stateMerit? b cutoff plies ply := by
  induction plies generalizing ply with
  | zero => rfl
  | succ plies ih =>
      funext s
      rewrite [Game.stateValue?, Game.stateMerit?, cutoffAt_of_pos h, ih (Nat.le_add_left 1 ply)]
      cases if max 1 b.config.levelLimit ≤ ply then cutoff else none <;> rfl

/-- A state is valued with a number that its unpruned value cannot be told from inside the window.
The induction is on the plies that the tree below it has at most. -/
theorem stateScore_returns_value {cutoff : Option Heuristic} {plies fuel ply v : Nat}
    (hfuel : plies ≤ fuel) (hv : g.stateValue? b cutoff plies ply s = some v)
    (hwindow : low < high) :
    g.Returns (stateScore b cutoff fuel ply s low high)
      fun x => clamp low high x = clamp low high v := by
  induction plies generalizing fuel ply s v low high with
  | zero => cases hv
  | succ plies ih =>
      obtain ⟨fuel, rfl⟩ : ∃ n, fuel = n + 1 := ⟨fuel - 1, by omega⟩
      rw [Game.stateValue?] at hv
      rw [stateScore]
      refine Game.returns_bind Game.returns_checkpoint fun _ _ => ?_
      refine Game.returns_bind (Game.returns_note _) fun _ _ => ?_
      refine Game.returns_bind (Game.returns_query (q := .isTerminal s) rfl) ?_
      rintro _ rfl
      by_cases hterminal : g.isTerminal s = true
      · rw [if_pos hterminal] at hv ⊢
        have hgoal : g.goal s b.role = .ok v := toOption_eq_some.mp hv
        refine Game.returns_imp (Game.returns_query (Game.answer_goal.mpr hgoal)) fun x hx => ?_
        rw [hx]
      · rw [if_neg hterminal] at hv ⊢
        cases hcutoff : cutoffAt b cutoff ply with
        | some heuristic =>
            rw [hcutoff] at hv
            exact Game.returns_imp (Game.returns_estimate hv) fun x hx => by rw [hx]
        | none =>
            rw [hcutoff] at hv
            simp only [Option.bind_eq_bind, Option.bind_eq_some_iff] at hv
            obtain ⟨ms, hms, values, hvalues, hmax⟩ := hv
            have hquery : g.answer (.moves s b.role) = .ok ms :=
              Game.answer_moves.mpr (toOption_eq_some.mp hms)
            refine Game.returns_bind (Game.returns_query hquery) ?_
            rintro _ rfl
            have hmoves : ∀ m v,
                g.moveWorth? b.role (g.stateValue? b cutoff plies (ply + 1)) s m = some v →
                ∀ low, low < high → g.Returns
                  (moveScore b (stateScore b cutoff fuel (ply + 1)) s m low high)
                  (· = clamp low high v) := by
              intro m v hm low hlow
              exact moveScore_returns (fun t v ht low high hwin => ih (by omega) ht hwin) hm hlow
            refine Game.returns_imp (greatest_returns hmoves hvalues hwindow) fun x hx => ?_
            rw [hx, foldl_max_eq_max hmax]
            unfold clamp
            omega

theorem stateScore_returns {cutoff : Option Heuristic} {plies fuel ply v : Nat}
    (hfuel : plies ≤ fuel) (hply : 1 ≤ ply) (hv : g.stateMerit? b cutoff plies ply s = some v)
    (hwindow : low < high) :
    g.Returns (stateScore b cutoff fuel ply s low high)
      fun x => clamp low high x = clamp low high v := by
  rw [← stateValue?_of_pos hply] at hv
  exact stateScore_returns_value hfuel hv hwindow

end AlphaBeta

end GeneralGame
