import GeneralGame.Proofs.Game.Value
import GeneralGame.Proofs.Search.Finite
import GeneralGame.Proofs.Search.Window

/-!
Alpha-beta search on a tree that ends. Every state of the tree has an unpruned value, and so has every
move. From any open window the search finds what the window lets through of it, for every tree, every
window and every ply, the root included. No call that the search makes of itself has a closed window: a
search that looks at the window before each call, and would do something else if it were closed, is the
same program.
-/
namespace GeneralGame

open Search

variable {g : Game} {b : Brief} {cutoff : Option Heuristic} {plies fuel ply low high : Nat}
  {s : State} {m : Move}

/-! ### Trees that end -/

namespace Game

/-- Every joint move with a move of the role leads to a state that is as `rest` says, and no query on
the way fails. -/
def MoveTreeEnds (g : Game) (b : Brief) (rest : State → Prop) (s : State) (m : Move) : Prop :=
  ∃ joints, g.jointMovesWith s b.role m = .ok joints ∧ ∀ j ∈ joints, ∃ t, g.next s j = .ok t ∧ rest t

/-- The tree that the search looks at below a state `ply` plies from the root ends within `plies`
plies, and no query on it fails. It ends where the game is over and where the heuristic is asked. -/
def TreeEnds (g : Game) (b : Brief) (cutoff : Option Heuristic) : (plies ply : Nat) → State → Prop
  | 0, _, _ => False
  | plies + 1, ply, s =>
    if g.isTerminal s then ∃ v, g.goal s b.role = .ok v
    else
      match AlphaBeta.cutoffAt b cutoff ply with
      | some heuristic => ∃ v, heuristic.estimate? g b.role s = some v
      | none => ∃ ms, g.moves s b.role = .ok ms ∧
          ∀ m ∈ ms.val, g.MoveTreeEnds b (g.TreeEnds b cutoff plies (ply + 1)) s m

theorem exists_worth_of_moveTreeEnds {rest : State → Option Nat} {ends : State → Prop}
    (hrest : ∀ t, ends t → ∃ v, rest t = some v) (h : g.MoveTreeEnds b ends s m) :
    ∃ v, g.moveWorth? b.role rest s m = some v := by
  obtain ⟨joints, hjoints, hall⟩ := h
  obtain ⟨values, hvalues, v, hv⟩ := exists_least_worth (jointMovesWith_ne_nil hjoints)
    fun j hj => (hall j hj).imp fun t ht => ⟨ht.1, hrest t ht.2⟩
  refine ⟨v, ?_⟩
  simp only [moveWorth?, Option.bind_eq_bind, Option.bind_eq_some_iff]
  exact ⟨joints, toOption_eq_some.mpr hjoints, values, hvalues, hv⟩

/-- Where the tree ends, every state has an unpruned value. -/
theorem exists_stateValue (h : g.TreeEnds b cutoff plies ply s) :
    ∃ v, g.stateValue? b cutoff plies ply s = some v := by
  induction plies generalizing ply s with
  | zero => exact h.elim
  | succ plies ih =>
      rw [TreeEnds] at h
      rw [stateValue?]
      by_cases hterminal : g.isTerminal s = true
      · rw [if_pos hterminal] at h ⊢
        exact h.imp fun v => toOption_eq_some.mpr
      · rw [if_neg hterminal] at h ⊢
        cases hcutoff : AlphaBeta.cutoffAt b cutoff ply with
        | some heuristic =>
            rw [hcutoff] at h
            exact h
        | none =>
            rw [hcutoff] at h
            obtain ⟨ms, hms, hall⟩ := h
            obtain ⟨values, hvalues, v, hv⟩ := exists_greatest_worth ms.property
              fun m hm => exists_worth_of_moveTreeEnds (fun t ht => ih ht) (hall m hm)
            refine ⟨v, ?_⟩
            simp only [Option.bind_eq_bind, Option.bind_eq_some_iff]
            exact ⟨ms, toOption_eq_some.mpr hms, values, hvalues, hv⟩

/-- Where every play ends, so does the tree of a search without a heuristic, and nothing fails on it. -/
theorem treeEnds_of_endsWithin (hrole : b.role ∈ RoleId.all g.roleCount)
    (h : g.EndsWithin b.role (g.CanPlay · b.role) g.IsLegal plies s) :
    g.TreeEnds b none (plies + 1) ply s := by
  induction h generalizing ply with
  | @ended plies s v hterminal hgoal =>
      rw [TreeEnds, if_pos hterminal]
      exact ⟨v, hgoal⟩
  | @going plies s hon hmoves hjoints hnext _ ih =>
      obtain ⟨ms, hms⟩ := hmoves b.role hrole
      rw [TreeEnds, if_neg (by rw [hon]; exact Bool.false_ne_true), AlphaBeta.cutoffAt, ite_self]
      refine ⟨ms, hms, fun m hm => ?_⟩
      have hcan := (mem_moves_iff hms).mp hm
      obtain ⟨joints, hlisted⟩ := hjoints m hcan
      refine ⟨joints, hlisted, fun j hj => ?_⟩
      have hlegal := (mem_jointMovesWith hrole hcan hlisted).mp hj
      obtain ⟨t, ht⟩ := hnext j hlegal.1
      exact ⟨t, ht, ih j t hlegal.1 ht⟩

end Game

namespace AlphaBeta

/-! ### Open windows -/

/-- A score that is asked for only where the window is open. -/
def whereOpen (refuse score : (low high : Nat) → Search Nat) (low high : Nat) : Search Nat :=
  if low < high then score low high else refuse low high

/-- The worth of a move, where each window is looked at before a state is valued within it. -/
def guardedMoveScore (refuse : (low high : Nat) → Search Nat) (b : Brief)
    (score : State → (low high : Nat) → Search Nat) (s : State) (m : Move) :
    (low high : Nat) → Search Nat :=
  moveScore b (fun t => whereOpen refuse (score t)) s m

/-- Alpha-beta search that looks at the window before each call of itself, and does something else
where the window is closed. -/
def guardedScore (refuse : (low high : Nat) → Search Nat) (b : Brief) (cutoff : Option Heuristic) :
    (fuel level : Nat) → State → (low high : Nat) → Search Nat
  | 0, _, _, _, _ => .outOfFuel
  | fuel + 1, level, s, low, high => do
    checkpoint
    note (.depth level)
    if ← query (.isTerminal s) then b.goal s
    else
      match cutoffAt b cutoff level with
      | some heuristic => heuristic.value b fuel s
      | none =>
        let ms ← query (.moves s b.role)
        let score := guardedScore refuse b cutoff fuel (level + 1)
        greatest (fun m low => whereOpen refuse (guardedMoveScore refuse b score s m) low high) high
          ms.val low

/-- `least` asks for the scores of states in open windows only, so these alone count. -/
theorem least_congr_of_open {score score' : State → (high : Nat) → Search Nat}
    (hscore : ∀ t high, low < high → score t high = score' t high) (joints : List JointMove)
    (hwindow : low < high) : least b score s low joints high = least b score' s low joints high := by
  induction joints generalizing high with
  | nil => rfl
  | cons j joints ih =>
      rw [least, least]
      refine bind_congr fun t => ?_
      rw [hscore t high hwindow]
      refine bind_congr fun value => ?_
      dsimp only
      split
      · rfl
      · exact ih (by omega)

theorem greatest_congr_of_open {score score' : Move → (low : Nat) → Search Nat}
    (hscore : ∀ m low, low < high → score m low = score' m low) (ms : List Move)
    (hwindow : low < high) : greatest score high ms low = greatest score' high ms low := by
  induction ms generalizing low with
  | nil => rfl
  | cons m ms ih =>
      rw [greatest, greatest, hscore m low hwindow]
      refine bind_congr fun value => ?_
      dsimp only
      split
      · rfl
      · exact ih (by omega)

theorem moveScore_congr_of_open {score score' : State → (low high : Nat) → Search Nat}
    (hscore : ∀ t low high, low < high → score t low high = score' t low high)
    (hwindow : low < high) : moveScore b score s m low high = moveScore b score' s m low high := by
  unfold moveScore
  refine bind_congr fun _ => bind_congr fun joints => ?_
  exact least_congr_of_open (fun t high => hscore t low high) joints hwindow

theorem guardedMoveScore_eq {score score' : State → (low high : Nat) → Search Nat}
    (refuse : (low high : Nat) → Search Nat)
    (hscore : ∀ t low high, low < high → score t low high = score' t low high)
    (hwindow : low < high) :
    guardedMoveScore refuse b score s m low high = moveScore b score' s m low high := by
  refine moveScore_congr_of_open (fun t low high hopen => ?_) hwindow
  rw [whereOpen, if_pos hopen, hscore t low high hopen]

/-- From an open window the guarded search never finds a closed one. -/
theorem guardedScore_eq (refuse : (low high : Nat) → Search Nat) (hwindow : low < high) :
    guardedScore refuse b cutoff fuel ply s low high = stateScore b cutoff fuel ply s low high := by
  induction fuel generalizing ply s low high with
  | zero => rfl
  | succ fuel ih =>
      rw [guardedScore, stateScore]
      refine bind_congr fun _ => bind_congr fun _ => bind_congr fun terminal => ?_
      cases terminal with
      | true => rfl
      | false =>
          rw [if_neg Bool.false_ne_true, if_neg Bool.false_ne_true]
          cases cutoffAt b cutoff ply with
          | some heuristic => rfl
          | none =>
              refine bind_congr fun ms => ?_
              refine greatest_congr_of_open (fun m low hopen => ?_) ms.val hwindow
              rw [whereOpen, if_pos hopen]
              exact guardedMoveScore_eq refuse (fun t low high => ih) hopen

/-- Where the tree that alpha-beta search looks at ends, moves and states have unpruned values. From an
open window, and with all the time it takes, the search answers for a move with its value moved into
the window, and for a state with a number that is its value once both are moved into the window. In
every run, no call that it makes of itself has a closed window: it is the search that would do
something else there, whatever that is. -/
theorem window_law (hfuel : plies ≤ fuel) (hwindow : low < high) :
    (g.MoveTreeEnds b (g.TreeEnds b cutoff plies (ply + 1)) s m →
      ∃ v, g.moveWorth? b.role (g.stateValue? b cutoff plies (ply + 1)) s m = some v ∧
        ∀ d w, g.Undisturbed d (moveScore b (stateScore b cutoff fuel (ply + 1)) s m low high) w →
          ∃ w', g.search d (moveScore b (stateScore b cutoff fuel (ply + 1)) s m low high) w =
            (.done (clamp low high v), w')) ∧
    (g.TreeEnds b cutoff plies ply s →
      ∃ v, g.stateValue? b cutoff plies ply s = some v ∧
        ∀ d w, g.Undisturbed d (stateScore b cutoff fuel ply s low high) w →
          ∃ x w', g.search d (stateScore b cutoff fuel ply s low high) w = (.done x, w') ∧
            clamp low high x = clamp low high v) ∧
    (∀ refuse, guardedMoveScore refuse b (guardedScore refuse b cutoff fuel (ply + 1)) s m low high =
      moveScore b (stateScore b cutoff fuel (ply + 1)) s m low high) ∧
    ∀ refuse, guardedScore refuse b cutoff fuel ply s low high =
      stateScore b cutoff fuel ply s low high := by
  refine ⟨fun hends => ?_, fun hends => ?_, fun refuse => ?_, fun refuse => ?_⟩
  · obtain ⟨v, hv⟩ := Game.exists_worth_of_moveTreeEnds (fun t => Game.exists_stateValue) hends
    refine ⟨v, hv, fun d w hopen => ?_⟩
    have hreturns : g.Returns
        (moveScore b (stateScore b cutoff fuel (ply + 1)) s m low high) (· = clamp low high v) :=
      moveScore_returns
        (fun t u hu low high hopen => stateScore_returns_value hfuel hu hopen) hv hwindow
    obtain ⟨x, w', hrun, rfl⟩ := Game.done_of_returns hreturns hopen
    exact ⟨w', hrun⟩
  · obtain ⟨v, hv⟩ := Game.exists_stateValue hends
    refine ⟨v, hv, fun d w hopen => ?_⟩
    exact Game.done_of_returns (stateScore_returns_value hfuel hv hwindow) hopen
  · exact guardedMoveScore_eq refuse (fun t low high => guardedScore_eq refuse) hwindow
  · exact guardedScore_eq refuse hwindow

/-- Between 34 and 60 the first state of the game of two rounds has its value 36, and going left, which
is worth 33, has the lower bound. -/
theorem window_law_twoRounds :
    (∃ w', TwoRounds.game.search ⟨1000, 50⟩
        (stateScore TwoRounds.brief none 3 0 TwoRounds.game.initial 34 60)
        (.new ⟨0, 0⟩ (.ofSeed 42)) = (.done 36, w')) ∧
      ∃ w', TwoRounds.game.search ⟨1000, 50⟩
        (moveScore TwoRounds.brief (stateScore TwoRounds.brief none 3 1) TwoRounds.game.initial
          TwoRounds.left 34 60)
        (.new ⟨0, 0⟩ (.ofSeed 42)) = (.done 34, w') := by
  have hrole : TwoRounds.brief.role ∈ RoleId.all TwoRounds.game.roleCount := by decide
  have hends : TwoRounds.game.TreeEnds TwoRounds.brief none 3 0 TwoRounds.game.initial :=
    Game.treeEnds_of_endsWithin hrole (TwoRounds.endsWithin (by decide))
  have hmoveEnds : TwoRounds.game.MoveTreeEnds TwoRounds.brief
      (TwoRounds.game.TreeEnds TwoRounds.brief none 3 1) TwoRounds.game.initial TwoRounds.left := by
    refine ⟨_, rfl, fun j _ => ⟨_, rfl, Game.treeEnds_of_endsWithin hrole ?_⟩⟩
    apply TwoRounds.endsWithin
    rw [TwoRounds.place_ofFacts]
    have hinitial : TwoRounds.place TwoRounds.game.initial = 1 := rfl
    omega
  obtain ⟨hmove, hstate, -⟩ := @window_law TwoRounds.game TwoRounds.brief none 3 3 0 34 60
    TwoRounds.game.initial TwoRounds.left (Nat.le_refl 3) (by decide)
  constructor
  · obtain ⟨v, hv, hrun⟩ := hstate hends
    have hvalue : some 36 = some v := hv
    cases hvalue
    obtain ⟨x, w', hdone, hx⟩ := hrun ⟨1000, 50⟩ (.new ⟨0, 0⟩ (.ofSeed 42))
      (Game.undisturbed_of_still rfl rfl)
    have h36 : x = 36 := by
      unfold clamp at hx
      omega
    exact ⟨w', h36 ▸ hdone⟩
  · obtain ⟨v, hv, hrun⟩ := hmove hmoveEnds
    have hvalue : some 33 = some v := hv
    cases hvalue
    exact hrun ⟨1000, 50⟩ (.new ⟨0, 0⟩ (.ofSeed 42)) (Game.undisturbed_of_still rfl rfl)

end AlphaBeta

end GeneralGame
