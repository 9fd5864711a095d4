import GeneralGame.Proofs.Game.Enumeration
import GeneralGame.Proofs.Game.Pinned
import GeneralGame.Proofs.Search.Worth
import GeneralGame.Proofs.Tree.Growth
import GeneralGame.Search.Exhaustive.AlphaBeta

/-!
Which successors count for a move. However a tree search ends, also in the middle of an iteration,
the successors that it has noted down of a state are those by all its joint moves, in order. So what
it attributes to a move at the root are the joint moves that alpha-beta search tries for that move,
one after the other.
-/
namespace GeneralGame

open Search

variable {α β : Type} {g : Game} {d : Deadline} {b : Brief} {s root : State} {m : Move} {fuel : Nat}

namespace Game

/-- The successors are those by all joint moves, in order. -/
theorem successors_joints {children : List Child} (h : g.successors s = .ok children) :
    g.jointMoves s = .ok (children.map Child.joint) := by
  obtain ⟨joints, hjoints, hchildren⟩ := exists_of_bind_eq_ok h
  have hentries : List.Forall₂ (fun j c => j = Child.joint c) joints children := by
    refine (mapM_eq_ok_iff.mp hchildren).imp fun j c hc => ?_
    obtain ⟨t, -, hc⟩ := exists_of_bind_eq_ok hc
    cases hc
    rfl
  have hmap : List.Forall₂ (· = ·) joints (children.map Child.joint) :=
    List.forall₂_map_right_iff.mpr hentries
  rw [List.forall₂_eq_eq_eq] at hmap
  rw [hjoints, hmap]

end Game

/-- Every state that was expanded has all its successors noted down. -/
def VisitTable.Faithful (g : Game) (t : VisitTable) : Prop :=
  ∀ s children, t.children? s = some children → g.successors s = .ok children

namespace TreeSearch

/-! ### What a search leaves of a faithful table -/

/-- However the search ends, it leaves the table faithful. -/
def KeepsFaith (g : Game) (d : Deadline) (p : Search α) : Prop :=
  ∀ w o w', w.table.Faithful g → g.search d p w = (o, w') → w'.table.Faithful g

theorem keepsFaith_pure (a : α) : KeepsFaith g d (pure a) := by
  rintro w _ _ hw ⟨⟩
  exact hw

theorem keepsFaith_bind {p : Search α} {f : α → Search β} (hp : KeepsFaith g d p)
    (hf : ∀ a, KeepsFaith g d (f a)) : KeepsFaith g d (p >>= f) := by
  intro w o w' hw h
  rcases Program.run_bind_cases h with ⟨o', hfirst, -⟩ | ⟨a, v, hfirst, hrest⟩
  · exact hp w o' w' hw hfirst
  · exact hf a v o w' (hp w _ v hw hfirst) hrest

theorem keepsFaith_attempt {p : Search α} (hp : KeepsFaith g d p) :
    KeepsFaith g d p.attempt := by
  intro w o w' hw h
  rw [Game.search, Program.run_attempt] at h
  cases hrun : p.run (answer g d) w with
  | mk outcome v =>
      rw [hrun] at h
      cases outcome <;> (cases h; exact hp w _ _ hw hrun)

/-- The request changes the successors of no state. -/
def KeepsChildren : SearchRequest → Prop
  | .plant _ => False
  | .setChildren .. => False
  | _ => True

theorem children?_answer (q : SearchRequest) (w : Search.World) (h : KeepsChildren q) :
    (answer g d q w).2.table.children? = w.table.children? := by
  cases q with
  | plant root => exact h.elim
  | setChildren s children => exact h.elim
  | register s =>
      funext u
      change (w.table.register s).children? u = w.table.children? u
      rw [VisitTable.children?_eq, VisitTable.node_register, ← VisitTable.children?_eq]
  | backup path visits reward =>
      funext u
      exact VisitTable.children?_backup
  | _ => rfl

theorem keepsFaith_of_asksOnly {p : Search α} (hp : p.AsksOnly KeepsChildren) :
    KeepsFaith g d p := by
  intro w o w' hw h
  have hchildren := view_search (fun w => w.table.children?) children?_answer hp h
  rwa [VisitTable.Faithful, hchildren]

theorem keepsChildren_of_keepsBooks (q : SearchRequest) (h : KeepsBooks q) : KeepsChildren q := by
  cases q with
  | plant root => exact h
  | setChildren s children => exact h
  | _ => trivial

theorem keepsFaith_of_keepsBooks {p : Search α} (hp : p.AsksOnly KeepsBooks) :
    KeepsFaith g d p :=
  keepsFaith_of_asksOnly (Program.asksOnly_imp hp keepsChildren_of_keepsBooks)

/-! ### Iterations -/

theorem faithful_expansion {old new : Books} (h : Expansion g s old new)
    (hold : old.table.Faithful g) : new.table.Faithful g := by
  cases h with
  | before hchildren hbooks =>
      rw [hbooks]
      exact hold
  | now hchildren hsuccessors hbooks =>
      rw [hbooks]
      intro u us hus
      rw [VisitTable.children?_expand_registerAll] at hus
      split at hus
      · rename_i heq
        cases hus
        rw [← heq]
        exact hsuccessors
      · exact hold u us hus

/-- Successors are noted down only once all of them are known. -/
theorem keepsFaith_expand (s : State) : KeepsFaith g d (expand s) := by
  intro w o w' hw h
  have hdone : o = .done () → w'.table.Faithful g := by
    rintro rfl
    exact faithful_expansion (expand_done h) hw
  cases hchildren : w.table.children? s with
  | some children => exact hdone (expand_of_expanded (by rw [hchildren]; rfl) h).1
  | none =>
      rw [expand_of_unexpanded hchildren] at h
      rcases Program.run_bind_cases h with ⟨o', hquery, -⟩ | ⟨joints, w₁, hquery, h⟩
      · have hasks : (query (.jointMoves s)).AsksOnly KeepsChildren := asksOnly_request trivial
        exact keepsFaith_of_asksOnly hasks w o' w' hw hquery
      · obtain ⟨-, rfl⟩ := search_query_eq_done hquery
        rcases Program.run_bind_cases h with ⟨o', henter, -⟩ | ⟨children, w₂, -, hset⟩
        · refine keepsFaith_of_asksOnly (Program.asksOnly_mapM fun j => ?_) w o' w' hw henter
          exact ⟨trivial, fun _ => ⟨trivial, fun _ => ⟨trivial, fun _ => trivial⟩⟩⟩
        · exact hdone (congrArg Prod.fst hset).symm

theorem keepsFaith_backup (path : List State) (visits : Nat) (reward : Float) :
    KeepsFaith g d (backup path visits reward) :=
  keepsFaith_of_asksOnly (asksOnly_request trivial)

/-- The step: an iteration leaves the table faithful, wherever it ends. -/
theorem keepsFaith_iterate (fuel : Nat) (root : State) :
    KeepsFaith g d (iterate b fuel root) := by
  apply keepsFaith_bind (keepsFaith_of_keepsBooks (keepsBooks_descend fuel root []))
  intro leaf
  cases leaf.goal with
  | some goal => exact keepsFaith_backup leaf.path 1 goal.toFloat
  | none =>
      refine keepsFaith_bind (keepsFaith_of_keepsBooks (asksOnly_request trivial)) fun _ => ?_
      refine keepsFaith_bind (keepsFaith_expand leaf.state) fun _ => ?_
      refine keepsFaith_bind (keepsFaith_of_keepsBooks (keepsBooks_sumOfCharges leaf.state _ 0))
        fun sum => ?_
      exact keepsFaith_backup leaf.path _ sum

/-- The run: so do any number of iterations. -/
theorem keepsFaith_iterations (fuel : Nat) (root : State) (n : Nat) :
    KeepsFaith g d (iterations b fuel root n) := by
  induction n with
  | zero =>
      rintro w _ _ hw ⟨⟩
      exact hw
  | succ n ih =>
      refine keepsFaith_bind (keepsFaith_of_keepsBooks (asksOnly_checkpoint trivial trivial))
        fun _ => keepsFaith_bind (keepsFaith_iterate fuel root) fun _ => ?_
      exact keepsFaith_bind (keepsFaith_of_asksOnly (asksOnly_request trivial)) fun _ => ih

/-- A search starts with a table of its own, and in the end that is faithful. -/
theorem faithful_search {moves : List Move} {h : moves ≠ []} {w w' : Search.World}
    {o : Outcome Move} (hrun : g.search d (search b fuel root moves h) w = (o, w')) :
    w'.table.Faithful g := by
  have hplanted : ({ w with table := .withRoot root } : Search.World).table.Faithful g := by
    intro s children hchildren
    rw [VisitTable.children?_eq, VisitTable.node_withRoot] at hchildren
    cases hchildren
  have hrest : KeepsFaith g d (discard (iterations b fuel root fuel).attempt >>= fun _ =>
      table >>= fun t => pure (best t b.role root (moves.head h) moves)) := by
    refine keepsFaith_bind (keepsFaith_bind ?_ fun _ => keepsFaith_pure ()) fun _ => ?_
    · exact keepsFaith_attempt (keepsFaith_iterations fuel root fuel)
    · exact keepsFaith_bind (keepsFaith_of_asksOnly (asksOnly_request trivial))
        fun _ => keepsFaith_pure _
  exact hrest _ o w' hplanted hrun

end TreeSearch

/-- Alpha-beta search values a move by the least of what its joint moves are worth. -/
theorem AlphaBeta.search_moveScore {joints : List JointMove}
    (hjoints : g.jointMovesWith s b.role m = .ok joints) (score : State → Nat → Nat → Search Nat)
    (low high : Nat) (w : Search.World) :
    g.search d (moveScore b score s m low high) w =
      g.search d (checkpoint >>= fun _ => least b (fun t high => score t low high) s low joints high)
        w := by
  apply Program.run_bind_congr rfl
  intro _ v _
  apply Program.run_bind_of_done
  simp only [query, request, Program.run, answer, Play.answer, Game.answer, hjoints]

/-- Where every role has moves and none of the role's comes twice: every legal joint move is there for
exactly one of the role's moves. If there is room for a list of them, the joint moves that are listed
for a move of the role are those of all joint moves in which the role makes it, in the same order; and
once a tree search has expanded its root, the successors that count for a move are in order those by
the joint moves over which alpha-beta search minimises. Without room nothing is listed. -/
theorem joint_moves_attributed {role : RoleId} {ms : List Move} {lists : List (List Move)}
    (hlists : List.Forall₂ (fun r legal => g.legal s r = .ok legal ∧ legal ≠ [])
      (RoleId.all g.roleCount) lists)
    (hrole : role ∈ RoleId.all g.roleCount) (hms : g.legal s role = .ok ms) (hnodup : ms.Nodup) :
    (∀ j, g.IsLegal s j → ∃! m, m ∈ ms ∧ j.get? role = some m) ∧
      (¬Game.Fits lists → g.jointMoves s = .error .panic) ∧
      (Game.Fits lists → ∃ joints, g.jointMoves s = .ok joints ∧
        (∀ j, j ∈ joints ↔ g.IsLegal s j) ∧
        (∀ m ∈ ms, g.jointMovesWith s role m =
          .ok (joints.filter fun j => j.get? role = some m)) ∧
        ∀ (b : Brief) (d : Deadline) (fuel : Nat) (moves : List Move) (h : moves ≠ [])
          (w : Search.World) (o : Outcome Move) (w' : Search.World) (children : List Child),
          b.role = role → g.search d (TreeSearch.search b fuel s moves h) w = (o, w') →
          w'.table.children? s = some children →
          children.map Child.joint = joints ∧
            ∀ m ∈ ms, ∀ (score : State → Nat → Nat → Search Nat) (low high : Nat)
              (v : Search.World),
              g.search d (AlphaBeta.moveScore b score s m low high) v =
                g.search d (checkpoint >>= fun _ =>
                  AlphaBeta.least b (fun t high => score t low high) s low
                    ((children.filter fun c => c.playedBy role m).map Child.joint) high) v) := by
  have hoptions : (RoleId.all g.roleCount).mapM (g.options s) = .ok lists :=
    mapM_eq_ok_iff.mpr (hlists.imp fun _ _ => Game.options_eq_ok.mpr)
  have hjoints : g.jointMoves s =
      if Game.Fits lists then .ok ((Game.product lists).map .mk) else .error .panic :=
    Game.jointMovesOf_eq (fun _ _ => Game.ne_nil_of_options) hoptions
  refine ⟨fun j hj => hj.existsUnique_get? hrole hms, fun hfits => by rw [hjoints, if_neg hfits],
    fun hfits => ?_⟩
  rw [if_pos hfits] at hjoints
  have hpinned : ∀ m ∈ ms, g.jointMovesWith s role m =
      .ok (((Game.product lists).map .mk).filter fun j => j.get? role = some m) :=
    fun m hm => Game.jointMovesWith_eq_filter hrole hjoints hms hnodup hm
  refine ⟨_, hjoints, fun j => Game.mem_jointMoves hjoints, hpinned, ?_⟩
  rintro b d fuel moves h w o w' children rfl hrun hchildren
  have hsuccessors := TreeSearch.faithful_search hrun s children hchildren
  have hmap : children.map Child.joint = (Game.product lists).map .mk :=
    Except.ok.inj ((Game.successors_joints hsuccessors).symm.trans hjoints)
  refine ⟨hmap, fun m hm score low high v => ?_⟩
  have hfilter : ((Game.product lists).map JointMove.mk).filter
        (fun j => j.get? b.role = some m) =
      (children.filter fun c => c.playedBy b.role m).map Child.joint := by
    rw [← hmap, List.filter_map]
    rfl
  exact AlphaBeta.search_moveScore (hfilter ▸ hpinned m hm) score low high v

namespace TwoRounds

/-- The second player searches a tree. The deadline expires during the first playout. -/
def cutShort : Outcome Move × Search.World :=
  game.search ⟨3, 0⟩ (TreeSearch.search { brief with role := .ofIndex 1 } 3 game.initial
    [left, right] (List.cons_ne_nil left [right])) (.new ⟨0, 1⟩ (.ofSeed 42))

end TwoRounds

open TwoRounds in
/-- The second player goes right in the second and in the last of the successors of the root. -/
theorem joint_moves_attributed_twoRounds :
    ∃ children, cutShort.2.table.children? game.initial = some children ∧
      (children.filter fun c => c.playedBy (.ofIndex 1) right).map Child.joint =
        [⟨[left, right]⟩, ⟨[right, right]⟩] ∧
      game.jointMoves game.initial = .ok (children.map Child.joint) ∧
      game.jointMovesWith game.initial (.ofIndex 1) right =
        .ok ((children.map Child.joint).filter fun j => j.get? (.ofIndex 1) = some right) := by
  have hexpanded : (cutShort.2.table.children? game.initial).any (fun children => decide
      ((children.filter fun c => c.playedBy (.ofIndex 1) right).map Child.joint =
        [⟨[left, right]⟩, ⟨[right, right]⟩])) = true := by decide +kernel
  obtain ⟨children, hchildren, hright⟩ := (Option.any_eq_true _ _).mp hexpanded
  have hrole : .ofIndex 1 ∈ RoleId.all game.roleCount := by decide
  have hlegal : game.legal game.initial (.ofIndex 1) = .ok [left, right] := rfl
  have hlists : List.Forall₂ (fun r legal => game.legal game.initial r = .ok legal ∧ legal ≠ [])
      (RoleId.all game.roleCount) [[left, right], [left, right]] :=
    .cons ⟨rfl, nofun⟩ (.cons ⟨rfl, nofun⟩ .nil)
  obtain ⟨joints, hjoints, -, hpinned, hsearch⟩ :=
    (joint_moves_attributed hlists hrole hlegal (by decide)).2.2 (by decide)
  obtain ⟨rfl, -⟩ := hsearch _ _ _ _ _ _ _ _ _ rfl rfl hchildren
  exact ⟨children, hchildren, of_decide_eq_true hright, hjoints, hpinned right (by simp)⟩

open Crowd in
/-- The crowd has no joint moves that could be listed, neither all of them nor those in which the
first player goes left, although that is one of the two moves of the player. -/
theorem jointMovesWith_panics_crowd :
    ∃ m, Machine.ofNet net = .ok m ∧ .ofIndex 0 ∈ RoleId.all m.toGame.roleCount ∧
      (∀ r ∈ RoleId.all m.toGame.roleCount, m.toGame.legal m.initial r = .ok [left, right]) ∧
      [left, right].Nodup ∧ m.toGame.jointMoves m.initial = .error .panic ∧
      m.toGame.jointMovesWith m.initial (.ofIndex 0) left = .error .panic := by
  obtain ⟨m, hm, hroles, hlegal, hpanic, hpinned⟩ := exists_machine
  exact ⟨m, hm, by rw [hroles]; decide, hroles ▸ hlegal, by decide, hpanic, hpinned⟩

end GeneralGame
