import GeneralGame.Proofs.Search.Worth

/-!
Merits, which are worths off the scale. A search takes the goals of a game as they are and never asks
whether they are on the scale. The merit of a state is what its worth would be if goals of every size
counted; where a state has a worth, that is its merit.
-/
namespace GeneralGame

variable {α β : Type} {g : Game} {b : Brief} {s : State} {m : Move} {v : Nat}

theorem mapM_eq_some_of_imp {f f' : α → Option β} {xs : List α} {ys : List β}
    (h : xs.mapM f = some ys) (himp : ∀ x ∈ xs, ∀ y, f x = some y → f' x = some y) :
    xs.mapM f' = some ys := by
  induction xs generalizing ys with
  | nil => exact h
  | cons x xs ih =>
      obtain ⟨y, rest, hy, hrest, rfl⟩ := mapM_cons_eq_some.mp h
      have htail := ih hrest fun x' hx' => himp x' (List.mem_cons_of_mem x hx')
      exact mapM_cons_eq_some.mpr ⟨y, rest, himp x List.mem_cons_self y hy, htail, rfl⟩

/-- The heuristic plays nothing out. -/
def Heuristic.isStatic : Heuristic → Bool
  | monteCarlo _ => false
  | _ => true

/-- What a heuristic without playouts makes of a state, on the scale or not. -/
def Heuristic.estimate? (g : Game) (r : RoleId) (s : State) : Heuristic → Option Nat
  | goalProximity => (g.goal s r).toOption
  | h => h.static? g r s

theorem Heuristic.estimate?_of_static {r : RoleId} {h : Heuristic} (hv : h.static? g r s = some v) :
    h.estimate? g r s = some v := by
  cases h with
  | goalProximity => exact toOption_eq_some.mpr (Game.goalOnScale?_eq_some.mp hv).1
  | _ => exact hv

namespace Game

/-- The merit of a state `ply` plies below the root, in a game tree of some plies at most. With a
heuristic, the states from the level limit on have the merit that it gives them, but for terminal
ones. -/
def stateMerit? (g : Game) (b : Brief) (cutoff : Option Heuristic) :
    (plies ply : Nat) → State → Option Nat
  | 0, _, _ => none
  | plies + 1, ply, s =>
    if g.isTerminal s then (g.goal s b.role).toOption
    else
      match if max 1 b.config.levelLimit ≤ ply then cutoff else none with
      | some heuristic => heuristic.estimate? g b.role s
      | none => do
        let ms ← (g.moves s b.role).toOption
        let values ← ms.val.mapM
          (g.moveWorth? b.role (g.stateMerit? b cutoff plies (ply + 1)) s)
        values.max?

/-- The merit of a move at the root. -/
def rootMerit? (g : Game) (b : Brief) (cutoff : Option Heuristic) (plies : Nat) (s : State)
    (m : Move) : Option Nat :=
  g.moveWorth? b.role (g.stateMerit? b cutoff plies 1) s m

theorem moveWorth?_of_imp {r : RoleId} {rest rest' : State → Option Nat}
    (hrest : ∀ t w, rest t = some w → rest' t = some w) (hv : g.moveWorth? r rest s m = some v) :
    g.moveWorth? r rest' s m = some v := by
  simp only [moveWorth?, Option.bind_eq_bind, Option.bind_eq_some_iff] at hv ⊢
  obtain ⟨joints, hjoints, values, hvalues, hmin⟩ := hv
  refine ⟨joints, hjoints, values, mapM_eq_some_of_imp hvalues fun j _ w hw => ?_, hmin⟩
  obtain ⟨t, ht, hw⟩ := Option.bind_eq_some_iff.mp hw
  exact Option.bind_eq_some_iff.mpr ⟨t, ht, hrest t w hw⟩

theorem stateMerit?_of_stateWorth {cutoff : Option Heuristic} {plies ply : Nat}
    (hv : g.stateWorth? b cutoff plies ply s = some v) :
    g.stateMerit? b cutoff plies ply s = some v := by
  induction plies generalizing ply s v with
  | zero => cases hv
  | succ plies ih =>
      rw [stateWorth?] at hv
      rw [stateMerit?]
      by_cases hterminal : g.isTerminal s = true
      · rw [if_pos hterminal] at hv ⊢
        exact toOption_eq_some.mpr (goalOnScale?_eq_some.mp hv).1
      · rw [if_neg hterminal] at hv ⊢
        cases hcutoff : if max 1 b.config.levelLimit ≤ ply then cutoff else none with
        | some heuristic =>
            rw [hcutoff] at hv
            exact Heuristic.estimate?_of_static hv
        | none =>
            rw [hcutoff] at hv
            simp only [Option.bind_eq_bind, Option.bind_eq_some_iff] at hv ⊢
            obtain ⟨ms, hms, values, hvalues, hmax⟩ := hv
            have hmoves := mapM_eq_some_of_imp hvalues fun m _ w hw =>
              moveWorth?_of_imp (fun t u hu => ih hu) hw
            exact ⟨ms, hms, values, hmoves, hmax⟩

/-- A merit that shows within some plies is the merit within more. -/
theorem stateMerit?_mono {cutoff : Option Heuristic} {plies plies' ply : Nat} (hle : plies ≤ plies')
    (hv : g.stateMerit? b cutoff plies ply s = some v) :
    g.stateMerit? b cutoff plies' ply s = some v := by
  induction plies generalizing plies' ply s v with
  | zero => cases hv
  | succ plies ih =>
      obtain ⟨plies', rfl⟩ : ∃ n, plies' = n + 1 := ⟨plies' - 1, by omega⟩
      rw [stateMerit?] at hv ⊢
      by_cases hterminal : g.isTerminal s = true
      · rw [if_pos hterminal] at hv ⊢
        exact hv
      · rw [if_neg hterminal] at hv ⊢
        cases hcutoff : if max 1 b.config.levelLimit ≤ ply then cutoff else none with
        | some heuristic =>
            rw [hcutoff] at hv
            exact hv
        | none =>
            rw [hcutoff] at hv
            simp only [Option.bind_eq_bind, Option.bind_eq_some_iff] at hv ⊢
            obtain ⟨ms, hms, values, hvalues, hmax⟩ := hv
            have hmoves := mapM_eq_some_of_imp hvalues fun m _ w hw =>
              moveWorth?_of_imp (fun t u hu => ih (Nat.le_of_succ_le_succ hle) hu) hw
            exact ⟨ms, hms, values, hmoves, hmax⟩

end Game

end GeneralGame
