import GeneralGame.Proofs.Tree.Expansion

/-!
What one iteration of a tree search can do. It comes to its end in two ways: the descent has met the
end of the game and backs its goal up, or the state at its end is expanded and the playouts from it
are backed up. An iteration that is cut off or meets an error has backed nothing up.
-/
namespace GeneralGame

open Search

variable {α : Type} {g : Game} {d : Deadline} {b : Brief} {root : State} {fuel : Nat}

namespace TreeSearch

theorem keepsBooks_depthCharge (s : State) : (b.depthCharge fuel s).AsksOnly KeepsBooks := by
  apply Program.asksOnly_bind (asksOnly_request trivial)
  intro turn
  apply Program.asksOnly_bind (Program.asksOnly_attempt (asksOnly_ofPlay (fun _ => trivial) _))
  intro ended
  cases ended with
  | none => exact ⟨trivial, fun _ => trivial⟩
  | some ended => exact ⟨trivial, fun _ => ⟨trivial, fun _ => trivial⟩⟩

theorem keepsBooks_sumOfCharges (s : State) (n : Nat) (sum : Float) :
    (sumOfCharges b fuel s n sum).AsksOnly KeepsBooks := by
  induction n generalizing sum with
  | zero => trivial
  | succ n ih =>
      apply Program.asksOnly_bind (keepsBooks_depthCharge s)
      intro goal
      exact ih _

/-- What a completed iteration has done, where its descent ended in `leaf`. -/
inductive Iteration (g : Game) (b : Brief) (leaf : Leaf) (old new : Books) : Prop
  | ended (hterminal : g.isTerminal leaf.state = true) (reward : Float)
      (hbooks : new = ⟨old.table.backup leaf.path 1 reward, old.nodes⟩)
  | played (hterminal : g.isTerminal leaf.state = false) {mid : Books}
      (hexpansion : Expansion g leaf.state old mid) (reward : Float)
      (hbooks : new =
        ⟨mid.table.backup leaf.path (max 1 b.config.chargesPerExpansion) reward, mid.nodes⟩)

theorem iterate_done {w w' : Search.World}
    (h : g.search d (iterate b fuel root) w = (.done (), w')) :
    ∃ leaf, Trail w.table root leaf.state leaf.above ∧ Iteration g b leaf w.books w'.books := by
  obtain ⟨leaf, w₁, hdescend, h⟩ := Program.run_bind_eq_done.mp h
  obtain ⟨htrail, hterminal⟩ := descend_done .start hdescend
  have hbooks₁ := books_search (keepsBooks_descend fuel root []) hdescend
  refine ⟨leaf, htrail, ?_⟩
  cases hgoal : leaf.goal with
  | some goal =>
      rw [hgoal] at h hterminal
      cases h
      rw [← hbooks₁]
      exact .ended hterminal goal.toFloat rfl
  | none =>
      rw [hgoal] at h hterminal
      obtain ⟨_, w₂, hnote, h⟩ := Program.run_bind_eq_done.mp h
      cases hnote
      obtain ⟨_, w₃, hexpand, h⟩ := Program.run_bind_eq_done.mp h
      obtain ⟨sum, w₄, hsum, h⟩ := Program.run_bind_eq_done.mp h
      cases h
      have hexpansion := expand_done hexpand
      have hbooks₄ := books_search (keepsBooks_sumOfCharges leaf.state _ 0) hsum
      rw [← hbooks₁]
      refine .played hterminal hexpansion sum ?_
      rw [← hbooks₄]
      rfl

theorem extends_of_books {w w' : Search.World} (h : w'.books = w.books) :
    w.table.Extends w'.table := by
  have htable : w'.table = w.table := congrArg Books.table h
  rw [htable]
  exact VisitTable.extends_of_node fun _ => rfl

/-- An iteration that is not done leaves the visits, the totals and the successors there were. -/
theorem iterate_not_done {w w' : Search.World} {o : Outcome Unit}
    (h : g.search d (iterate b fuel root) w = (o, w')) (ho : o.isDone = false) :
    w.table.Extends w'.table := by
  rcases Program.run_bind_cases h with ⟨o', hdescend, -⟩ | ⟨leaf, w₁, hdescend, h⟩
  · exact extends_of_books (books_search (keepsBooks_descend fuel root []) hdescend)
  · apply (extends_of_books (books_search (keepsBooks_descend fuel root []) hdescend)).trans
    cases hgoal : leaf.goal with
    | some goal =>
        rw [hgoal] at h
        cases h
        cases ho
    | none =>
        rw [hgoal] at h
        rcases Program.run_bind_cases h with ⟨o', hnote, ho', -⟩ | ⟨_, w₂, hnote, h⟩
        · cases hnote
          cases ho'
        · cases hnote
          rcases Program.run_bind_cases h with ⟨o', hexpand, -⟩ | ⟨_, w₃, hexpand, h⟩
          · have hextends := expand_extends hexpand
            exact hextends
          · have hextends := expand_extends hexpand
            apply hextends.trans
            rcases Program.run_bind_cases h with ⟨o', hsum, -⟩ | ⟨sum, w₄, -, h⟩
            · exact extends_of_books (books_search (keepsBooks_sumOfCharges leaf.state _ 0) hsum)
            · cases h
              cases ho

theorem iterations_answer (q : SearchRequest) (w : Search.World) (h : q ≠ .note .iteration) :
    (answer g d q w).2.stats.iterations = w.stats.iterations := by
  cases q with
  | note n =>
      cases n with
      | iteration => exact absurd rfl h
      | _ => rfl
  | _ => rfl

theorem ne_iteration_of_keepsBooks (q : SearchRequest) (h : KeepsBooks q) :
    q ≠ .note .iteration := by
  rintro rfl
  exact h

theorem asksOnly_expand {allowed : SearchRequest → Prop} {s : State} (htable : allowed .table)
    (hplay : ∀ q, allowed (.play q)) (hnode : allowed (.note .node))
    (hregister : ∀ t, allowed (.register t))
    (hchildren : ∀ children, allowed (.setChildren s children)) : (expand s).AsksOnly allowed := by
  rw [expand_eq]
  apply Program.asksOnly_bind (asksOnly_request htable)
  intro table
  split
  · trivial
  · apply Program.asksOnly_bind (asksOnly_request (hplay _))
    intro joints
    apply Program.asksOnly_bind
    · apply Program.asksOnly_mapM
      intro j
      exact ⟨hnode, fun _ => ⟨hplay _, fun t => ⟨hregister t, fun _ => trivial⟩⟩⟩
    · intro children
      exact asksOnly_request (hchildren children)

theorem asksOnly_iterate : (iterate b fuel root).AsksOnly (· ≠ .note .iteration) := by
  apply Program.asksOnly_bind
    (Program.asksOnly_imp (keepsBooks_descend fuel root []) ne_iteration_of_keepsBooks)
  intro leaf
  cases leaf.goal with
  | some goal => exact asksOnly_request nofun
  | none =>
      apply Program.asksOnly_bind (asksOnly_request nofun)
      intro _
      apply Program.asksOnly_bind
        (asksOnly_expand nofun (fun _ => nofun) nofun (fun _ => nofun) fun _ => nofun)
      intro _
      apply Program.asksOnly_bind
        (Program.asksOnly_imp (keepsBooks_sumOfCharges leaf.state _ 0) ne_iteration_of_keepsBooks)
      intro sum
      exact asksOnly_request nofun

theorem iterations_search {p : Search α} (hp : p.AsksOnly (· ≠ .note .iteration))
    {w w' : Search.World} {o : Outcome α} (h : g.search d p w = (o, w')) :
    w'.stats.iterations = w.stats.iterations :=
  view_search (fun w => w.stats.iterations) iterations_answer hp h

/-- The worlds that iterations from a fresh table lead to, where `ends` says how they may end.
Between two iterations anything may change but the table and the count of nodes. -/
inductive Iterated (g : Game) (d : Deadline) (b : Brief) (root : State)
    (ends : Outcome Unit → Prop) : Search.World → Prop
  | start {w : Search.World} (hbooks : w.books = ⟨.withRoot root, 0⟩) : Iterated g d b root ends w
  | step {w w' : Search.World} {fuel : Nat} {o : Outcome Unit}
      (hfrom : Iterated g d b root ends w) (hrun : g.search d (iterate b fuel root) w = (o, w'))
      (hends : ends o) : Iterated g d b root ends w'
  | between {w w' : Search.World} (hfrom : Iterated g d b root ends w)
      (hbooks : w'.books = w.books) : Iterated g d b root ends w'

theorem Iterated.imp {ends ends' : Outcome Unit → Prop} (himp : ∀ o, ends o → ends' o)
    {w : Search.World} (h : Iterated g d b root ends w) : Iterated g d b root ends' w := by
  induction h with
  | start hbooks => exact .start hbooks
  | step hfrom hrun hends ih => exact .step ih hrun (himp _ hends)
  | between hfrom hbooks ih => exact .between ih hbooks

end TreeSearch

/-- Goes on to the first successor. -/
def SelectionPolicy.first : SelectionPolicy := fun _ _ _ _ h => ⟨0, List.length_pos_iff.mpr h⟩

/-! ### A game with a cycle -/

namespace Toggle

def toggle : Move := ⟨"toggle"⟩

def stop : Move := ⟨"stop"⟩

def stateOf (n : Nat) : State := .ofFacts [n]

def place (s : State) : Nat := s.facts.headD 0

/-- The states 0 and 1 lead to each other. Stopping at 0 ends in state 2, which is worth 100, and
stopping at 1 ends in state 3, which is worth nothing. -/
def game : Game where
  roles := ["solo"]
  initial := stateOf 0
  isTerminal s := decide (2 ≤ place s)
  goal s _ := .ok (if place s = 2 then 100 else 0)
  legal _ _ := .ok [toggle, stop]
  next s j := .ok (stateOf
    (if j.get? (.ofIndex 0) = some toggle then 1 - place s else place s + 2))

/-- Goes on to the first successor, and takes every playout to score 50. -/
def brief : Brief where
  roleCount := 1
  role := .ofIndex 0
  config := .standard
  selection := .first
  playout _ _ _ _ _ := pure ⟨50, 1⟩

/-- The world after some iterations from a fresh table, on a clock that stands still. -/
def world : Nat → Search.World
  | 0 => { Search.World.new ⟨0, 0⟩ (.ofSeed 42) with table := .withRoot (stateOf 0) }
  | n + 1 => (game.search ⟨1, 0⟩ (TreeSearch.iterate brief 5 (stateOf 0)) (world n)).2

theorem isDone_iterate : ∀ n < 3,
    (game.search ⟨1, 0⟩ (TreeSearch.iterate brief 5 (stateOf 0)) (world n)).1.isDone = true := by
  decide +kernel

/-- The first three iterations complete. -/
theorem iterate_world {n : Nat} (h : n < 3) :
    game.search ⟨1, 0⟩ (TreeSearch.iterate brief 5 (stateOf 0)) (world n) =
      (.done (), world (n + 1)) := by
  have hdone := isDone_iterate n h
  rw [world]
  cases hrun : game.search ⟨1, 0⟩ (TreeSearch.iterate brief 5 (stateOf 0)) (world n) with
  | mk outcome w =>
      rw [hrun] at hdone
      cases outcome with
      | done _ => rfl
      | cut => cases hdone
      | fault e => cases hdone

theorem iterated_world {n : Nat} (h : n ≤ 3) :
    TreeSearch.Iterated game ⟨1, 0⟩ brief (stateOf 0) (· = .done ()) (world n) := by
  induction n with
  | zero => exact .start rfl
  | succ n ih => exact .step (ih (by omega)) (iterate_world h) rfl

end Toggle

end GeneralGame
