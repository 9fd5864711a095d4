import GeneralGame.Proofs.Player.Decision
import GeneralGame.Proofs.Search.LastPoll
import GeneralGame.Proofs.Tree.Iteration

/-!
The greatest depth that a search takes down. The exhaustive searches take down in every state that
they examine how long their own path to it is, so the greatest depth covers all of these states. A
tree search takes down the length of the path that it backs up, but not where the path ends in a state
in which the game is over: the greatest depth covers all other paths, and may fall short of those.
-/
namespace GeneralGame

open Search

variable {α : Type} {g : Game} {d : Deadline} {b : Brief} {fuel : Nat} {s : State}
  {moves : List Move} {w w' : Search.World}

/-! ### What the greatest depth covers -/

namespace Game

theorem maxDepth_le_answer (q : SearchRequest) (w : Search.World) :
    w.stats.maxDepth ≤ (Search.answer g d q w).2.stats.maxDepth := by
  cases q with
  | note n =>
      cases n with
      | depth plies => exact Nat.le_max_left _ _
      | _ => exact Nat.le_refl _
  | _ => exact Nat.le_refl _

theorem maxDepth_le_search (p : Search α) (w : Search.World) :
    w.stats.maxDepth ≤ (g.search d p w).2.stats.maxDepth := by
  induction p generalizing w with
  | pure a => exact Nat.le_refl _
  | cut => exact Nat.le_refl _
  | fault f => exact Nat.le_refl _
  | ask q next ih =>
      have hfirst := maxDepth_le_answer (g := g) (d := d) q w
      simp only [search, Program.run]
      cases hanswer : Search.answer g d q w with
      | mk reply v =>
          rw [hanswer] at hfirst
          cases reply with
          | error f => exact hfirst
          | ok a => exact Nat.le_trans hfirst (ih a v)

theorem maxDepth_le_of_search {p : Search α} {o : Outcome α} (h : g.search d p w = (o, w')) :
    w.stats.maxDepth ≤ w'.stats.maxDepth := by
  have hle := maxDepth_le_search (g := g) (d := d) p w
  rwa [h] at hle

/-- What a request has left of the greatest depth, the rest of the search does not lower. -/
theorem maxDepth_answer_le {p : Search α} :
    ∀ e ∈ p.history (Search.answer g d) w,
      (Search.answer g d e.1 e.2).2.stats.maxDepth ≤ (g.search d p w).2.stats.maxDepth := by
  induction p generalizing w with
  | pure a => exact List.forall_mem_nil _
  | cut => exact List.forall_mem_nil _
  | fault f => exact List.forall_mem_nil _
  | ask q next ih =>
      simp only [Program.history, search, Program.run]
      cases hanswer : Search.answer g d q w with
      | mk reply v =>
          cases reply with
          | error f =>
              simp only [List.forall_mem_singleton, hanswer]
              exact Nat.le_refl _
          | ok a =>
              simp only [List.forall_mem_cons, hanswer]
              exact ⟨maxDepth_le_search (next a) v, ih a⟩

theorem depth_le_maxDepth {p : Search α} {plies : Nat} {v : Search.World}
    (h : (.note (.depth plies), v) ∈ p.history (Search.answer g d) w) :
    plies ≤ (g.search d p w).2.stats.maxDepth :=
  Nat.le_trans (Nat.le_max_right _ _) (maxDepth_answer_le _ h)

end Game

/-! ### The paths of the exhaustive searches -/

/-- The value of a state that the states of `above` have led to. What is taken down of a path, from
the state back to the root, is up to a label. -/
def Minimax.stateScoreAlong (label : List State → Nat) (b : Brief) :
    (fuel : Nat) → (above : List State) → State → Search Nat
  | 0, _, _ => .outOfFuel
  | fuel + 1, above, s => do
    checkpoint
    note (.depth (label (s :: above)))
    if ← query (.isTerminal s) then b.goal s
    else
      let ms ← query (.moves s b.role)
      greatest (moveScore b (stateScoreAlong label b fuel (s :: above)) s) ms.val 0

/-- The value of a state within a window, along a path. -/
def AlphaBeta.stateScoreAlong (label : List State → Nat) (b : Brief) (cutoff : Option Heuristic) :
    (fuel : Nat) → (above : List State) → State → (low high : Nat) → Search Nat
  | 0, _, _, _, _ => .outOfFuel
  | fuel + 1, above, s, low, high => do
    checkpoint
    note (.depth (label (s :: above)))
    if ← query (.isTerminal s) then b.goal s
    else
      match cutoffAt b cutoff above.length with
      | some heuristic => heuristic.value b fuel s
      | none =>
        let ms ← query (.moves s b.role)
        greatest (fun m low => moveScore b (stateScoreAlong label b cutoff fuel (s :: above)) s m low
          high) high ms.val low

/-- How many joint moves a path is long. -/
def plies (path : List State) : Nat := path.length - 1

theorem Minimax.stateScoreAlong_plies (fuel : Nat) (above : List State) (s : State) :
    stateScoreAlong plies b fuel above s = stateScore b fuel above.length s := by
  induction fuel generalizing above s with
  | zero => rfl
  | succ fuel ih =>
      have hnext : stateScoreAlong plies b fuel (s :: above) =
          stateScore b fuel (above.length + 1) := funext fun t => ih (s :: above) t
      rw [stateScoreAlong, stateScore, hnext]
      rfl

theorem AlphaBeta.stateScoreAlong_plies (cutoff : Option Heuristic) (fuel : Nat)
    (above : List State) (s : State) :
    stateScoreAlong plies b cutoff fuel above s = stateScore b cutoff fuel above.length s := by
  induction fuel generalizing above s with
  | zero => rfl
  | succ fuel ih =>
      have hnext : stateScoreAlong plies b cutoff fuel (s :: above) =
          stateScore b cutoff fuel (above.length + 1) := funext fun t => ih (s :: above) t
      funext low high
      rw [stateScoreAlong, stateScore, hnext]
      rfl

namespace Strategy

/-- The search of a strategy; where it is an exhaustive one, it carries its path along and takes down
the path's label in each state that it examines. -/
def searchAlong (label : List State → Nat) (strategy : Strategy) (b : Brief) (fuel : Nat) (s : State)
    (moves : List Move) (h : moves ≠ []) : Search Move :=
  let windowed (cutoff : Option Heuristic) := chooseMove (fun m floor =>
    AlphaBeta.moveScore b (AlphaBeta.stateScoreAlong label b cutoff fuel [s]) s m floor topGoal)
    moves h
  match strategy with
  | minimax => chooseMove (fun m _ =>
      Minimax.moveScore b (Minimax.stateScoreAlong label b fuel [s]) s m) moves h
  | alphaBeta => windowed none
  | heuristic cutoff => windowed (some cutoff)
  | legal | random | monteCarlo | uct => strategy.search b fuel s moves h

/-- Where the length is taken down for a label, that is the search. -/
theorem searchAlong_plies (strategy : Strategy) (h : moves ≠ []) :
    strategy.searchAlong plies b fuel s moves h = strategy.search b fuel s moves h := by
  have hminimax : Minimax.stateScoreAlong plies b fuel [s] = Minimax.stateScore b fuel 1 :=
    funext (Minimax.stateScoreAlong_plies fuel [s])
  have halphaBeta (cutoff : Option Heuristic) :
      AlphaBeta.stateScoreAlong plies b cutoff fuel [s] = AlphaBeta.stateScore b cutoff fuel 1 :=
    funext (AlphaBeta.stateScoreAlong_plies cutoff fuel [s])
  cases strategy with
  | minimax => simp only [searchAlong, search, Minimax.search, hminimax]
  | alphaBeta => simp only [searchAlong, search, AlphaBeta.search, halphaBeta]
  | heuristic cutoff => simp only [searchAlong, search, AlphaBeta.search, halphaBeta]
  | _ => rfl

/-- The run of an exhaustive search comes along the path, from its last state back to the root, and
finds time left there: whatever it took down of paths, it would take down the label of this one. -/
def Examines (g : Game) (d : Deadline) (strategy : Strategy) (b : Brief) (fuel : Nat) (s : State)
    (moves : List Move) (h : moves ≠ []) (w : Search.World) (path : List State) : Prop :=
  ∀ label, ∃ v, (.note (.depth (label path)), v) ∈
    (strategy.searchAlong label b fuel s moves h).history (Search.answer g d) w

theorem plies_le_of_examines {strategy : Strategy} {h : moves ≠ []} {path : List State}
    (hpath : strategy.Examines g d b fuel s moves h w path) :
    plies path ≤ (g.search d (strategy.search b fuel s moves h) w).2.stats.maxDepth := by
  obtain ⟨v, hv⟩ := hpath plies
  rw [searchAlong_plies] at hv
  exact Game.depth_le_maxDepth hv

end Strategy

/-! ### The paths of a tree search -/

/-- The path that a request backs up. -/
def SearchRequest.backedUp? : SearchRequest → Option (List State)
  | .backup path _ _ => some path
  | _ => none

/-- The paths that a run backs up, each from the root on. -/
def Game.backedUp (g : Game) (d : Deadline) (p : Search α) (w : Search.World) : List (List State) :=
  (p.history (Search.answer g d) w).filterMap fun e => e.1.backedUp?

namespace TreeSearch

/-- The path that a request backs up is covered, unless the game is over in its last state. -/
def Covers (g : Game) (e : SearchRequest × Search.World) : Prop :=
  ∀ path ∈ e.1.backedUp?, (∀ leaf ∈ path.getLast?, g.isTerminal leaf = false) →
    plies path ≤ e.2.stats.maxDepth

theorem covers_of_asksOnly {p : Search α} (hp : p.AsksOnly fun q => q.backedUp? = none) :
    ∀ e ∈ p.history (Search.answer g d) w, Covers g e := by
  intro e he path hpath
  rw [Program.forall_history_of_asksOnly hp e he] at hpath
  cases hpath

theorem backedUp?_of_keepsBooks (q : SearchRequest) (h : KeepsBooks q) : q.backedUp? = none := by
  cases q with
  | backup => exact h.elim
  | _ => rfl

theorem Leaf.getLast?_path (leaf : Leaf) : leaf.path.getLast? = some leaf.state := by
  rw [path, List.getLast?_reverse, List.head?_cons]

theorem covers_iterate {root : State} :
    ∀ e ∈ (iterate b fuel root).history (Search.answer g d) w, Covers g e := by
  apply Program.forall_history_bind
    (covers_of_asksOnly (Program.asksOnly_imp (keepsBooks_descend fuel root [])
      backedUp?_of_keepsBooks))
  intro leaf w₁ hdescend
  obtain ⟨-, hterminal⟩ := descend_done .start hdescend
  cases hgoal : leaf.goal with
  | some goal =>
      rw [hgoal] at hterminal
      apply Program.forall_history_request
      rintro _ ⟨⟩ hopen
      -- The game is over in the leaf, so nothing is said of its path.
      rw [hopen leaf.state leaf.getLast?_path] at hterminal
      cases hterminal
  | none =>
      apply Program.forall_history_bind (covers_of_asksOnly (asksOnly_request rfl))
      intro _ w₂ hnote
      cases hnote
      apply Program.forall_history_bind (covers_of_asksOnly
        (asksOnly_expand rfl (fun _ => rfl) rfl (fun _ => rfl) fun _ => rfl))
      intro _ w₃ hexpand
      apply Program.forall_history_bind (covers_of_asksOnly (Program.asksOnly_imp
        (keepsBooks_sumOfCharges leaf.state _ 0) backedUp?_of_keepsBooks))
      intro sum w₄ hsum
      apply Program.forall_history_request
      rintro _ ⟨⟩ -
      calc
        plies leaf.path = leaf.above.length := by simp [plies, Leaf.path]
        _ ≤ max w₁.stats.maxDepth leaf.above.length := Nat.le_max_right _ _
        _ ≤ w₃.stats.maxDepth := Game.maxDepth_le_of_search hexpand
        _ ≤ w₄.stats.maxDepth := Game.maxDepth_le_of_search hsum

theorem covers_iterations {root : State} (n : Nat) :
    ∀ e ∈ (iterations b fuel root n).history (Search.answer g d) w, Covers g e := by
  induction n generalizing w with
  | zero => exact List.forall_mem_nil _
  | succ n ih =>
      apply Program.forall_history_bind (covers_of_asksOnly (asksOnly_checkpoint rfl rfl))
      intro _ w₁ _
      apply Program.forall_history_bind covers_iterate
      intro _ w₂ _
      apply Program.forall_history_bind (covers_of_asksOnly (asksOnly_request rfl))
      intro _ w₃ _
      exact ih

theorem covers_search (h : moves ≠ []) :
    ∀ e ∈ (search b fuel s moves h).history (Search.answer g d) w, Covers g e := by
  have hiterations (v : Search.World) :
      ∀ e ∈ ((iterations b fuel s fuel).attempt >>= fun _ => pure ()).history (Search.answer g d) v,
        Covers g e := by
    refine Program.forall_history_bind ?_ fun _ _ _ => List.forall_mem_nil _
    rw [Program.history_attempt]
    exact covers_iterations fuel
  apply Program.forall_history_bind (covers_of_asksOnly (asksOnly_request rfl))
  intro _ w₁ _
  apply Program.forall_history_bind (hiterations w₁)
  intro _ w₂ _
  exact covers_of_asksOnly ⟨rfl, fun _ => trivial⟩

theorem plies_le_of_backedUp {h : moves ≠ []} {path : List State}
    (hpath : path ∈ g.backedUp d (search b fuel s moves h) w)
    (hopen : ∀ leaf ∈ path.getLast?, g.isTerminal leaf = false) :
    plies path ≤ (g.search d (search b fuel s moves h) w).2.stats.maxDepth := by
  obtain ⟨e, he, hbackedUp⟩ := List.mem_filterMap.mp hpath
  calc
    plies path ≤ e.2.stats.maxDepth := covers_search h e he path hbackedUp hopen
    _ ≤ (Search.answer g d e.1 e.2).2.stats.maxDepth := Game.maxDepth_le_answer e.1 e.2
    _ ≤ (g.search d (search b fuel s moves h) w).2.stats.maxDepth := Game.maxDepth_answer_le e he

end TreeSearch

/-- The greatest depth that a search takes down is no less than the length of its own path to any
state that an exhaustive search examines, however it is cut off, and of any path that a tree search
backs up, unless the game is over at the end of that path. -/
theorem max_depth_covers_paths (h : moves ≠ []) (w : Search.World) :
    (∀ (strategy : Strategy) (path : List State), strategy.Examines g d b fuel s moves h w path →
      plies path ≤ (g.search d (strategy.search b fuel s moves h) w).2.stats.maxDepth) ∧
    ∀ path ∈ g.backedUp d (Strategy.uct.search b fuel s moves h) w,
      (∀ leaf ∈ path.getLast?, g.isTerminal leaf = false) →
        plies path ≤ (g.search d (Strategy.uct.search b fuel s moves h) w).2.stats.maxDepth :=
  ⟨fun _ _ => Strategy.plies_le_of_examines, fun _ => TreeSearch.plies_le_of_backedUp⟩

open Toggle in
/-- Alpha-beta search examines the successor of the root by the first move; a tree search that always
goes on to the first successor backs up the path to the same state. -/
theorem max_depth_covers_paths_toggle :
    let h : [toggle, stop] ≠ [] := by decide
    let w := Search.World.new ⟨1, 1⟩ (.ofSeed 42)
    1 ≤ (game.search ⟨7, 0⟩ (Strategy.alphaBeta.search brief 5 (stateOf 0) [toggle, stop] h)
        w).2.stats.maxDepth ∧
      [stateOf 0, stateOf 1] ∈
        game.backedUp ⟨7, 0⟩ (Strategy.uct.search brief 5 (stateOf 0) [toggle, stop] h) w ∧
      1 ≤ (game.search ⟨7, 0⟩ (Strategy.uct.search brief 5 (stateOf 0) [toggle, stop] h)
        w).2.stats.maxDepth := by
  intro h w
  have hpath : Strategy.alphaBeta.Examines game ⟨7, 0⟩ brief 5 (stateOf 0) [toggle, stop] h w
      [stateOf 1, stateOf 0] := fun label => ⟨_, List.mem_of_getElem? (i := 5) rfl⟩
  have hmem : [stateOf 0, stateOf 1] ∈
      game.backedUp ⟨7, 0⟩ (Strategy.uct.search brief 5 (stateOf 0) [toggle, stop] h) w := by
    decide +kernel
  have hopen : ∀ leaf ∈ [stateOf 0, stateOf 1].getLast?, game.isTerminal leaf = false := by
    rintro _ ⟨⟩
    decide
  exact ⟨(max_depth_covers_paths h w).1 .alphaBeta _ hpath, hmem,
    (max_depth_covers_paths h w).2 _ hmem hopen⟩

/-- On a pile of two a tree search backs up a path of two plies, one object taken in each, and takes
down a depth of one: its third iteration ends in the empty pile. -/
theorem uct_misses_last_ply_nim :
    ∃ m, Nim.machine 2 = .ok m ∧
      let p : Player := .new m.toGame .uct { Config.standard with treeMarginMs := 0, seed := 2 }
        .first .random
      ∃ path ∈ (p.history 6 Nim.white m.initial 12 ⟨0, 1⟩).filterMap fun e => e.1.backedUp?,
        (p.select 6 Nim.white m.initial 12 ⟨0, 1⟩).player.stats.maxDepth < plies path := by
  apply exists_of_any_toOption
  decide +kernel

end GeneralGame
