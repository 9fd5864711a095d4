import GeneralGame.Proofs.Failing
import GeneralGame.Search.Exhaustive.Heuristic
import GeneralGame.Search.Exhaustive.Root

/-!
What moves and states are worth. The worth of a move is the least worth of the states that follow
its legal joint moves, and the worth of a state the greatest worth of the role's moves; nothing is
pruned. The game tree is looked at for some plies at most, and there is no worth unless it ends
within them, every query succeeds and every goal is at most 100.
-/
namespace GeneralGame

variable {α β : Type}

theorem mapM_cons_eq_some {f : α → Option β} {x : α} {xs : List α} {ys : List β} :
    (x :: xs).mapM f = some ys ↔
      ∃ y rest, f x = some y ∧ xs.mapM f = some rest ∧ ys = y :: rest := by
  simp only [List.mapM_cons, Option.bind_eq_bind, Option.bind_eq_some_iff, Option.pure_def,
    Option.some.injEq]
  constructor
  · rintro ⟨y, hy, rest, hrest, rfl⟩
    exact ⟨y, rest, hy, hrest, rfl⟩
  · rintro ⟨y, rest, hy, hrest, rfl⟩
    exact ⟨y, hy, rest, hrest, rfl⟩

theorem forall_mem_of_mapM_eq_some {f : α → Option β} {xs : List α} {ys : List β} {P : β → Prop}
    (h : xs.mapM f = some ys) (hf : ∀ x ∈ xs, ∀ y, f x = some y → P y) : ∀ y ∈ ys, P y := by
  induction xs generalizing ys with
  | nil =>
      rw [List.mapM_nil] at h
      cases h
      simp
  | cons x xs ih =>
      obtain ⟨y, rest, hy, hrest, rfl⟩ := mapM_cons_eq_some.mp h
      have htail := ih hrest fun x' hx' => hf x' (List.mem_cons_of_mem x hx')
      intro z hz
      rcases List.mem_cons.mp hz with rfl | hz
      · exact hf x List.mem_cons_self z hy
      · exact htail z hz

/-- The goal of a role, where it is defined and at most 100. -/
def Game.goalOnScale? (g : Game) (s : State) (r : RoleId) : Option Nat :=
  (g.goal s r).toOption.filter (· ≤ topGoal)

/-- What a heuristic without playouts makes of a state. -/
def Heuristic.static? (g : Game) (r : RoleId) (s : State) : Heuristic → Option Nat
  | goalProximity => g.goalOnScale? s r
  | mobility feasible => (g.legal s r).toOption.map fun ms => hundredths ms.length feasible
  | focus feasible => (g.legal s r).toOption.map fun ms => 100 - hundredths ms.length feasible
  | monteCarlo _ => none

namespace Game

/-- The worth of a move, where `rest` is the worth of a state one ply further. -/
def moveWorth? (g : Game) (r : RoleId) (rest : State → Option Nat) (s : State) (m : Move) :
    Option Nat := do
  let joints ← (g.jointMovesWith s r m).toOption
  let values ← joints.mapM fun j => (g.next s j).toOption.bind rest
  values.min?

/-- The worth of a state `ply` plies below the root. With a heuristic, the states from the level
limit on are worth what it makes of them, but for terminal ones. -/
def stateWorth? (g : Game) (b : Brief) (cutoff : Option Heuristic) :
    (plies ply : Nat) → State → Option Nat
  | 0, _, _ => none
  | plies + 1, ply, s =>
    if g.isTerminal s then g.goalOnScale? s b.role
    else
      match if max 1 b.config.levelLimit ≤ ply then cutoff else none with
      | some heuristic => heuristic.static? g b.role s
      | none => do
        let ms ← (g.moves s b.role).toOption
        let values ← ms.val.mapM
          (g.moveWorth? b.role (g.stateWorth? b cutoff plies (ply + 1)) s)
        values.max?

/-- The worth of a move at the root. -/
def rootWorth? (g : Game) (b : Brief) (cutoff : Option Heuristic) (plies : Nat) (s : State)
    (m : Move) : Option Nat :=
  g.moveWorth? b.role (g.stateWorth? b cutoff plies 1) s m

theorem goalOnScale?_eq_some {g : Game} {s : State} {r : RoleId} {v : Nat} :
    g.goalOnScale? s r = some v ↔ g.goal s r = .ok v ∧ v ≤ topGoal := by
  unfold goalOnScale?
  cases g.goal s r with
  | error e => simp [Except.toOption]
  | ok value =>
      simp only [Except.toOption, Option.filter_eq_some_iff, Option.some.injEq, Except.ok.injEq,
        decide_eq_true_eq]

end Game

theorem Heuristic.hundredths_le (n feasible : Nat) : hundredths n feasible ≤ topGoal := by
  unfold hundredths
  split
  · rename_i h
    exact Nat.div_le_of_le_mul (Nat.mul_le_mul_right 100 (Nat.le_of_lt h))
  · exact Nat.le_refl 100

theorem Heuristic.static?_le {g : Game} {r : RoleId} {s : State} {h : Heuristic} {v : Nat}
    (hv : h.static? g r s = some v) : v ≤ topGoal := by
  cases h with
  | goalProximity => exact (Game.goalOnScale?_eq_some.mp hv).2
  | mobility feasible =>
      obtain ⟨ms, -, rfl⟩ := Option.map_eq_some_iff.mp hv
      exact hundredths_le _ _
  | focus feasible =>
      obtain ⟨ms, -, rfl⟩ := Option.map_eq_some_iff.mp hv
      exact Nat.sub_le _ _
  | monteCarlo charges => cases hv

namespace Game

theorem moveWorth?_le {g : Game} {r : RoleId} {rest : State → Option Nat} {s : State} {m : Move}
    {v : Nat} (hrest : ∀ t w, rest t = some w → w ≤ topGoal)
    (hv : g.moveWorth? r rest s m = some v) : v ≤ topGoal := by
  simp only [moveWorth?, Option.bind_eq_bind, Option.bind_eq_some_iff] at hv
  obtain ⟨joints, -, values, hvalues, hmin⟩ := hv
  have hall : ∀ w ∈ values, w ≤ topGoal := by
    refine forall_mem_of_mapM_eq_some hvalues fun j _ w hw => ?_
    obtain ⟨t, -, ht⟩ := Option.bind_eq_some_iff.mp hw
    exact hrest t w ht
  exact hall v (List.min?_mem hmin)

theorem stateWorth?_le {g : Game} {b : Brief} {cutoff : Option Heuristic} {plies ply : Nat}
    {s : State} {v : Nat} (hv : g.stateWorth? b cutoff plies ply s = some v) : v ≤ topGoal := by
  induction plies generalizing ply s v with
  | zero => cases hv
  | succ plies ih =>
      rw [stateWorth?] at hv
      split at hv
      · exact (goalOnScale?_eq_some.mp hv).2
      · split at hv
        · exact Heuristic.static?_le hv
        · simp only [Option.bind_eq_bind, Option.bind_eq_some_iff] at hv
          obtain ⟨ms, -, values, hvalues, hmax⟩ := hv
          have hall : ∀ w ∈ values, w ≤ topGoal :=
            forall_mem_of_mapM_eq_some hvalues fun m _ w hw =>
              moveWorth?_le (fun t u hu => ih hu) hw
          exact hall v (List.max?_mem hmax)

end Game

/-! ### A game of two rounds -/

namespace TwoRounds

def left : Move := ⟨"left"⟩

def right : Move := ⟨"right"⟩

/-- The only fact of a state writes the moves made so far in base four, after a leading one. -/
def place (s : State) : Nat := s.facts.headD 1

def side (j : JointMove) (i : Nat) : Nat := if j.get? (.ofIndex i) = some right then 1 else 0

/-- Two players go left or right at the same time, and do so twice. -/
def game : Game where
  roles := ["row", "column"]
  initial := .ofFacts [1]
  isTerminal s := decide (16 ≤ place s)
  goal s r := .ok (if r.index = 0 then place s * 37 % 101 else 100 - place s * 37 % 101)
  legal _ _ := .ok [left, right]
  next s j := .ok (.ofFacts [4 * place s + 2 * side j 0 + side j 1])

/-- The first player searches. -/
def brief : Brief := ⟨2, .ofIndex 0, .standard, .ucb, .random⟩

example : [left, right].map (game.rootWorth? brief none 2 game.initial) = [some 33, some 36] := by
  decide

end TwoRounds

end GeneralGame
