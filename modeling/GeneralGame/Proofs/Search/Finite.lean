import GeneralGame.Proofs.Game.Legal
import GeneralGame.Proofs.Search.Completes
import GeneralGame.Proofs.Search.Worth
import GeneralGame.Search.Strategy
import Mathlib.Algebra.Group.Nat.Defs

/-!
Exhaustive search of finite games. Where every play ends within some plies, alpha-beta search comes
to its end and looks no further ahead. With one role, or two, so does minimax. With more roles
minimax tries joint moves that are not legal, since it lets roles wait that may not: then it is these
joint moves that have to lead to the end of the game.
-/
namespace GeneralGame

open Search

variable {g : Game} {b : Brief} {s : State} {plies bound fuel : Nat}

namespace Game

/-- The joint moves that minimax tries: the role makes a legal move, and of its opponents one does
so and the others wait. -/
def IsReply (g : Game) (role : RoleId) (s : State) (j : JointMove) : Prop :=
  ∃ m, g.CanPlay s role m ∧
    ((∃ r ∈ RoleId.all g.roleCount, r ≠ role ∧ ∃ x, g.CanPlay s r x ∧
        j = (JointMove.placeholder g.roleCount role m).set r x) ∨
      (∀ r ∈ RoleId.all g.roleCount, r = role) ∧ j = JointMove.placeholder g.roleCount role m)

/-- With one role, or two, nobody is left to wait. -/
theorem isLegal_of_isReply (hroles : g.roleCount ≤ 2) {role : RoleId} {j : JointMove}
    (hrole : role ∈ RoleId.all g.roleCount) (h : g.IsReply role s j) : g.IsLegal s j := by
  have hindex := RoleId.mem_all.mp hrole
  obtain ⟨m, hm, ⟨r, hr, hne, x, hx, rfl⟩ | ⟨halone, rfl⟩⟩ := h
  · have hother := RoleId.mem_all.mp hr
    have hdistinct : r.index ≠ role.index := by
      intro heq
      apply hne
      rw [← r.ofIndex_index, heq, role.ofIndex_index]
    apply RoleId.forall₂_all_iff.mpr
    constructor
    · simp [JointMove.set, JointMove.placeholder, RoleId.length_all]
    · intro i y hy
      rw [JointMove.set, List.getElem?_set] at hy
      split at hy
      · rename_i hi
        rw [← hi, r.ofIndex_index]
        split at hy
        · cases hy
          exact hx
        · cases hy
      · rename_i hi
        obtain ⟨hlt, rfl⟩ := placeholder_getElem? hy
        have hself : i = role.index := by omega
        rw [hself, role.ofIndex_index, if_pos rfl]
        exact hm
  · apply RoleId.forall₂_all_iff.mpr
    constructor
    · simp [JointMove.placeholder, RoleId.length_all]
    · intro i y hy
      obtain ⟨hlt, rfl⟩ := placeholder_getElem? hy
      have hself : RoleId.ofIndex i = role :=
        halone _ (RoleId.mem_all.mpr (by rw [RoleId.index_ofIndex (by omega)]; exact hlt))
      rw [if_pos hself, hself]
      exact hm

theorem EndsWithin.mono {role : RoleId} {lists lists' : State → Move → Prop}
    {tries tries' : State → JointMove → Prop} (h : g.EndsWithin role lists tries plies s)
    (hlists : ∀ t m, lists' t m → lists t m) (htries : ∀ t j, tries' t j → tries t j) :
    g.EndsWithin role lists' tries' plies s := by
  induction h with
  | ended hterminal hgoal => exact .ended hterminal hgoal
  | going hterminal hmoves hjoints hnext _ ih =>
      exact .going hterminal hmoves (fun m hm => hjoints m (hlists _ m hm))
        (fun j hj => hnext j (htries _ j hj)) fun j t hj ht => ih j t (htries _ j hj) ht

end Game

/-! ### Alpha-beta search -/

namespace AlphaBeta

theorem least_completes {score : State → Nat → Search Nat} {joints : List JointMove} {low : Nat}
    (hjoints : ∀ j ∈ joints, ∃ t, g.next s j = .ok t ∧
      ∀ high, g.Completes bound (score t high) fun _ => True) (high : Nat) :
    g.Completes bound (least b score s low joints high) fun _ => True := by
  induction joints generalizing high with
  | nil => exact Game.completes_pure trivial
  | cons j joints ih =>
      obtain ⟨t, ht, hscore⟩ := hjoints j List.mem_cons_self
      rw [least]
      refine Game.completes_bind (Game.completes_next ht) ?_
      rintro _ rfl
      refine Game.completes_bind (hscore high) fun value _ => ?_
      dsimp only
      split
      · exact Game.completes_bind Game.completes_pruned fun _ _ => Game.completes_pure trivial
      · exact ih (fun j' hj' => hjoints j' (List.mem_cons_of_mem j hj')) _

theorem greatest_completes {score : Move → Nat → Search Nat} {ms : List Move} {high : Nat}
    (hscore : ∀ m ∈ ms, ∀ low, g.Completes bound (score m low) fun _ => True) (low : Nat) :
    g.Completes bound (greatest score high ms low) fun _ => True := by
  induction ms generalizing low with
  | nil => exact Game.completes_pure trivial
  | cons m ms ih =>
      rw [greatest]
      refine Game.completes_bind (hscore m List.mem_cons_self low) fun value _ => ?_
      dsimp only
      split
      · exact Game.completes_bind Game.completes_pruned fun _ _ => Game.completes_pure trivial
      · exact ih (fun m' hm' => hscore m' (List.mem_cons_of_mem m hm')) _

theorem moveScore_completes {score : State → Nat → Nat → Search Nat} {m : Move}
    (hrole : b.role ∈ RoleId.all g.roleCount) (hm : g.CanPlay s b.role m)
    (hlist : ∃ joints, g.jointMovesWith s b.role m = .ok joints)
    (hjoints : ∀ j, g.IsLegal s j → ∃ t, g.next s j = .ok t ∧
      ∀ low high, g.Completes bound (score t low high) fun _ => True) (low high : Nat) :
    g.Completes bound (moveScore b score s m low high) fun _ => True := by
  obtain ⟨joints, hlist⟩ := hlist
  refine Game.completes_bind Game.completes_checkpoint fun _ _ => ?_
  refine Game.completes_bind (Game.completes_query (q := .jointMovesWith s b.role m) hlist) ?_
  rintro _ rfl
  refine least_completes (fun j hj => ?_) high
  obtain ⟨t, ht, hscore⟩ := hjoints j ((Game.mem_jointMovesWith hrole hm hlist).mp hj).1
  exact ⟨t, ht, hscore low⟩

/-- The plies that are left bound how much deeper the search goes. -/
theorem stateScore_completes (hrole : b.role ∈ RoleId.all g.roleCount)
    (h : g.EndsWithin b.role (g.CanPlay · b.role) g.IsLegal plies s) {level low high : Nat}
    (hfuel : plies < fuel) (hbound : level + plies ≤ bound) :
    g.Completes bound (stateScore b none fuel level s low high) fun _ => True := by
  induction h generalizing fuel level low high with
  | ended hterminal hgoal =>
      obtain ⟨fuel, rfl⟩ : ∃ n, fuel = n + 1 := ⟨fuel - 1, by omega⟩
      rw [stateScore]
      refine Game.completes_bind Game.completes_checkpoint fun _ _ => ?_
      refine Game.completes_bind (Game.completes_depth (by omega)) fun _ _ => ?_
      refine Game.completes_bind (Game.completes_query (q := .isTerminal _) rfl) ?_
      rintro _ rfl
      rw [if_pos hterminal]
      exact Game.completes_imp (Game.completes_query (Game.answer_goal.mpr hgoal)) fun _ _ => trivial
  | @going plies s hterminal hmoves hlists hnext _ ih =>
      obtain ⟨fuel, rfl⟩ : ∃ n, fuel = n + 1 := ⟨fuel - 1, by omega⟩
      obtain ⟨ms, hms⟩ := hmoves b.role hrole
      have hcutoff : cutoffAt b none level = none := ite_self none
      rw [stateScore]
      refine Game.completes_bind Game.completes_checkpoint fun _ _ => ?_
      refine Game.completes_bind (Game.completes_depth (by omega)) fun _ _ => ?_
      refine Game.completes_bind (Game.completes_query (q := .isTerminal s) rfl) ?_
      rintro _ rfl
      rw [if_neg (by rw [hterminal]; exact Bool.false_ne_true), hcutoff]
      refine Game.completes_bind (Game.completes_query (Game.answer_moves.mpr hms)) ?_
      rintro _ rfl
      refine greatest_completes (fun m hm low => ?_) low
      have hcan := (Game.mem_moves_iff hms).mp hm
      refine moveScore_completes hrole hcan (hlists m hcan) (fun j hj => ?_) _ _
      obtain ⟨t, ht⟩ := hnext j hj
      exact ⟨t, ht, fun low high => ih j t hj ht (by omega) (by omega)⟩

end AlphaBeta

/-! ### Minimax -/

namespace Minimax

theorem least_completes {score : State → Search Nat} {joints : List JointMove}
    (hjoints : ∀ j ∈ joints, ∃ t, g.next s j = .ok t ∧
      g.Completes bound (score t) fun _ => True) (worst : Nat) :
    g.Completes bound (least b score s joints worst) fun _ => True := by
  induction joints generalizing worst with
  | nil => exact Game.completes_pure trivial
  | cons j joints ih =>
      obtain ⟨t, ht, hscore⟩ := hjoints j List.mem_cons_self
      rw [least]
      refine Game.completes_bind (Game.completes_next ht) ?_
      rintro _ rfl
      refine Game.completes_bind hscore fun value _ => ?_
      dsimp only
      split
      · exact Game.completes_pure trivial
      · exact ih (fun j' hj' => hjoints j' (List.mem_cons_of_mem j hj')) _

theorem greatest_completes {score : Move → Search Nat} {ms : List Move}
    (hscore : ∀ m ∈ ms, g.Completes bound (score m) fun _ => True) (best : Nat) :
    g.Completes bound (greatest score ms best) fun _ => True := by
  induction ms generalizing best with
  | nil => exact Game.completes_pure trivial
  | cons m ms ih =>
      rw [greatest]
      refine Game.completes_bind (hscore m List.mem_cons_self) fun value _ => ?_
      dsimp only
      split
      · exact Game.completes_pure trivial
      · exact ih (fun m' hm' => hscore m' (List.mem_cons_of_mem m hm')) _

/-- The replies of one opponent. -/
def RepliesOf (g : Game) (b : Brief) (s : State) (m : Move) (r : RoleId)
    (joints : List JointMove) : Prop :=
  joints ≠ [] ∧ ∀ j ∈ joints, ∃ x, g.CanPlay s r x ∧ j = (b.placeholder m).set r x

theorem exists_repliesOf {m : Move} {opponents : List RoleId} {lists : List (List JointMove)}
    (h : List.Forall₂ (RepliesOf g b s m) opponents lists) {j : JointMove} (hj : j ∈ lists.flatten) :
    ∃ r ∈ opponents, ∃ x, g.CanPlay s r x ∧ j = (b.placeholder m).set r x := by
  induction h with
  | nil => cases hj
  | @cons r joints _ _ hjoints _ ih =>
      rw [List.flatten_cons, List.mem_append] at hj
      rcases hj with hj | hj
      · exact ⟨r, List.mem_cons_self, hjoints.2 j hj⟩
      · obtain ⟨r', hr', hreply⟩ := ih hj
        exact ⟨r', List.mem_cons_of_mem r hr', hreply⟩

theorem opponents_eq_nil {m : Move} {opponents : List RoleId} {lists : List (List JointMove)}
    (h : List.Forall₂ (RepliesOf g b s m) opponents lists) (hempty : lists.flatten = []) :
    opponents = [] := by
  cases h with
  | nil => rfl
  | cons hjoints _ =>
      rw [List.flatten_cons, List.append_eq_nil_iff] at hempty
      exact absurd hempty.1 hjoints.1

theorem replies_completes (hcount : b.roleCount = g.roleCount)
    (hmoves : ∀ r ∈ RoleId.all g.roleCount, ∃ ms, g.moves s r = .ok ms) {m : Move}
    (hm : g.CanPlay s b.role m) :
    g.Completes bound (replies b s m) fun joints => ∀ j ∈ joints, g.IsReply b.role s j := by
  have hplaceholder : JointMove.placeholder g.roleCount b.role m = b.placeholder m := by
    rw [Brief.placeholder, hcount]
  rw [replies, hcount]
  refine Game.completes_bind (Game.completes_mapM (P := RepliesOf g b s m) fun r hr => ?_)
    fun lists hlists => Game.completes_pure fun j hj => ⟨m, hm, ?_⟩
  · obtain ⟨ms, hms⟩ := hmoves r (List.mem_filter.mp hr).1
    refine Game.completes_bind (Game.completes_query (Game.answer_moves.mpr hms)) ?_
    rintro ms rfl
    apply Game.completes_pure
    constructor
    · simpa using ms.property
    · intro j hj
      obtain ⟨x, hx, rfl⟩ := List.mem_map.mp hj
      exact ⟨x, (Game.mem_moves_iff hms).mp hx, rfl⟩
  · rw [hplaceholder]
    split at hj
    · rename_i hempty
      refine .inr ⟨fun r hr => ?_, List.mem_singleton.mp hj⟩
      have hnone := opponents_eq_nil hlists (List.isEmpty_iff.mp hempty)
      simpa using List.filter_eq_nil_iff.mp hnone r hr
    · obtain ⟨r, hr, hreply⟩ := exists_repliesOf hlists hj
      rw [List.mem_filter, decide_eq_true_eq] at hr
      exact .inl ⟨r, hr.1, hr.2, hreply⟩

theorem moveScore_completes {score : State → Search Nat} {m : Move}
    (hcount : b.roleCount = g.roleCount) (hm : g.CanPlay s b.role m)
    (hmoves : ∀ r ∈ RoleId.all g.roleCount, ∃ ms, g.moves s r = .ok ms)
    (hjoints : ∀ j, g.IsReply b.role s j → ∃ t, g.next s j = .ok t ∧
      g.Completes bound (score t) fun _ => True) :
    g.Completes bound (moveScore b score s m) fun _ => True := by
  refine Game.completes_bind Game.completes_checkpoint fun _ _ => ?_
  refine Game.completes_bind (replies_completes hcount hmoves hm) fun joints hreplies => ?_
  exact least_completes (fun j hj => hjoints j (hreplies j hj)) topGoal

/-- The plies that are left bound how much deeper the search goes. -/
theorem stateScore_completes (hcount : b.roleCount = g.roleCount)
    (hrole : b.role ∈ RoleId.all g.roleCount) {lists : State → Move → Prop}
    (h : g.EndsWithin b.role lists (g.IsReply b.role) plies s) {depth : Nat} (hfuel : plies < fuel)
    (hbound : depth + plies ≤ bound) :
    g.Completes bound (stateScore b fuel depth s) fun _ => True := by
  induction h generalizing fuel depth with
  | ended hterminal hgoal =>
      obtain ⟨fuel, rfl⟩ : ∃ n, fuel = n + 1 := ⟨fuel - 1, by omega⟩
      rw [stateScore]
      refine Game.completes_bind Game.completes_checkpoint fun _ _ => ?_
      refine Game.completes_bind (Game.completes_depth (by omega)) fun _ _ => ?_
      refine Game.completes_bind (Game.completes_query (q := .isTerminal _) rfl) ?_
      rintro _ rfl
      rw [if_pos hterminal]
      exact Game.completes_imp (Game.completes_query (Game.answer_goal.mpr hgoal)) fun _ _ => trivial
  | @going plies s hterminal hmoves _ hnext _ ih =>
      obtain ⟨fuel, rfl⟩ : ∃ n, fuel = n + 1 := ⟨fuel - 1, by omega⟩
      obtain ⟨ms, hms⟩ := hmoves b.role hrole
      rw [stateScore]
      refine Game.completes_bind Game.completes_checkpoint fun _ _ => ?_
      refine Game.completes_bind (Game.completes_depth (by omega)) fun _ _ => ?_
      refine Game.completes_bind (Game.completes_query (q := .isTerminal s) rfl) ?_
      rintro _ rfl
      rw [if_neg (by rw [hterminal]; exact Bool.false_ne_true)]
      refine Game.completes_bind (Game.completes_query (Game.answer_moves.mpr hms)) ?_
      rintro _ rfl
      refine greatest_completes (fun m hm => ?_) 0
      refine moveScore_completes hcount ((Game.mem_moves_iff hms).mp hm) hmoves fun j hj => ?_
      obtain ⟨t, ht⟩ := hnext j hj
      exact ⟨t, ht, ih j t hj ht (by omega) (by omega)⟩

end Minimax

/-! ### The root -/

theorem chooseFrom_completes {score : Move → Nat → Search Nat} {ms : List Move}
    (hscore : ∀ m ∈ ms, ∀ floor, g.Completes bound (score m floor) fun _ => True)
    (best : Incumbent Nat) :
    g.Completes bound (chooseFrom score ms best) fun m => m ∈ ms ∨ m = best.move := by
  induction ms generalizing best with
  | nil => exact Game.completes_pure (.inr rfl)
  | cons m ms ih =>
      rw [chooseFrom]
      refine Game.completes_bind
        (Game.completes_attempt (hscore m List.mem_cons_self best.score)) ?_
      rintro _ ⟨value, rfl, -⟩
      dsimp only
      split
      · exact Game.completes_pure (.inl List.mem_cons_self)
      · refine Game.completes_bind Game.completes_expired ?_
        rintro _ rfl
        have hrest := ih (fun m' hm' => hscore m' (List.mem_cons_of_mem m hm')) (best.offer m value)
        refine Game.completes_imp hrest fun chosen hchosen => ?_
        rcases hchosen with hmem | heq
        · exact .inl (List.mem_cons_of_mem m hmem)
        · rw [heq, Incumbent.offer]
          split
          · exact .inl List.mem_cons_self
          · exact .inr rfl

theorem chooseMove_completes {score : Move → Nat → Search Nat} {moves : List Move}
    (h : moves ≠ []) (hscore : ∀ m ∈ moves, ∀ floor, g.Completes bound (score m floor) fun _ => True) :
    g.Completes bound (chooseMove score moves h) (· ∈ moves) := by
  refine Game.completes_imp (chooseFrom_completes hscore _) fun m hm => ?_
  rcases hm with hm | rfl
  · exact hm
  · exact List.head_mem h

/-- The moves whose joint moves an exhaustive strategy lists, and the joint moves that it looks at.
Minimax puts the latter together itself. -/
inductive Strategy.Tries (g : Game) (role : RoleId) :
    Strategy → (State → Move → Prop) → (State → JointMove → Prop) → Prop
  | alphaBeta : Tries g role .alphaBeta (g.CanPlay · role) g.IsLegal
  | minimax (hroles : g.roleCount ≤ 2) : Tries g role .minimax (fun _ _ => False) g.IsLegal
  /-- With more roles minimax keeps all opponents but one waiting. -/
  | waiting : Tries g role .minimax (fun _ _ => False) (g.IsReply role)

theorem Strategy.search_completes {strategy : Strategy} {lists : State → Move → Prop}
    {tries : State → JointMove → Prop}
    (htries : strategy.Tries g b.role lists tries) (hcount : b.roleCount = g.roleCount)
    (hrole : b.role ∈ RoleId.all g.roleCount) (hends : g.EndsWithin b.role lists tries plies s)
    (hon : g.isTerminal s = false) (hfuel : plies ≤ fuel) {moves : List Move} (h : moves ≠ [])
    (hmoves : ∀ m ∈ moves, g.CanPlay s b.role m) :
    g.Completes plies (strategy.search b fuel s moves h) (· ∈ moves) := by
  have hminimax (hreplies : g.EndsWithin b.role lists (g.IsReply b.role) plies s) :
      g.Completes plies (Minimax.search b fuel s moves h) (· ∈ moves) := by
    cases hreplies with
    | ended hterminal _ => exact absurd hterminal (by rw [hon]; exact Bool.false_ne_true)
    | going _ hall _ hnext hrest =>
        refine chooseMove_completes h fun m hm _ => ?_
        refine Minimax.moveScore_completes hcount (hmoves m hm) hall fun j hj => ?_
        obtain ⟨t, ht⟩ := hnext j hj
        exact ⟨t, ht, Minimax.stateScore_completes hcount hrole (hrest j t hj ht) hfuel (by omega)⟩
  cases htries with
  | alphaBeta =>
      cases hends with
      | ended hterminal _ => exact absurd hterminal (by rw [hon]; exact Bool.false_ne_true)
      | going _ _ hlists hnext hrest =>
          refine chooseMove_completes h fun m hm floor => ?_
          have hcan := hmoves m hm
          refine AlphaBeta.moveScore_completes hrole hcan (hlists m hcan) (fun j hj => ?_) _ _
          obtain ⟨t, ht⟩ := hnext j hj
          exact ⟨t, ht, fun low high =>
            AlphaBeta.stateScore_completes hrole (hrest j t hj ht) hfuel (by omega)⟩
  | minimax hroles =>
      exact hminimax
        (hends.mono (fun _ _ => id) fun t j hj => Game.isLegal_of_isReply hroles hrole hj)
  | waiting => exact hminimax hends

/-- Where the game ends within some plies, whichever of the joint moves that an exhaustive strategy
looks at are made, the strategy comes to an end under every deadline that it does not find expired:
it selects one of the moves, and neither it nor its account of it goes deeper than these plies. For
alpha-beta search, and for minimax with one role or two, these are the legal joint moves. -/
theorem exhaustive_search_ends {strategy : Strategy} {lists : State → Move → Prop}
    {tries : State → JointMove → Prop} (htries : strategy.Tries g b.role lists tries)
    (hcount : b.roleCount = g.roleCount) (hrole : b.role ∈ RoleId.all g.roleCount)
    (hends : g.EndsWithin b.role lists tries plies s)
    (hon : g.isTerminal s = false) (hfuel : plies ≤ fuel) {moves : List Move} (h : moves ≠ [])
    (hmoves : ∀ m ∈ moves, g.CanPlay s b.role m) {d : Deadline} {w : Search.World}
    (hopen : g.Undisturbed d (strategy.search b fuel s moves h) w) :
    ∃ m w', g.search d (strategy.search b fuel s moves h) w = (.done m, w') ∧ m ∈ moves ∧
      w'.stats.maxDepth ≤ max w.stats.maxDepth plies ∧
      g.StaysWithin d plies (strategy.search b fuel s moves h) w :=
  Game.done_of_completes
    (Strategy.search_completes htries hcount hrole hends hon hfuel h hmoves) hopen

/-! ### A game of two rounds -/

namespace TwoRounds

theorem place_ofFacts (n : Nat) : place (.ofFacts [n]) = n := rfl

/-- With two moves each the players have few joint moves. -/
theorem exists_jointMovesWith (s : State) (role : RoleId) (m : Move) :
    ∃ joints, game.jointMovesWith s role m = .ok joints :=
  Game.exists_jointMovesWith 2 (by decide) (by decide)
    (fun _ _ => ⟨⟨[left, right], nofun⟩, rfl, Nat.le_refl 2⟩) role m

/-- Every joint move writes a digit more. -/
theorem endsWithin {role : RoleId} {plies : Nat} {s : State} (h : 16 ≤ place s * 4 ^ plies) :
    game.EndsWithin role (game.CanPlay · role) game.IsLegal plies s := by
  induction plies generalizing s with
  | zero => exact .ended (decide_eq_true (by omega)) rfl
  | succ plies ih =>
      cases hterminal : game.isTerminal s with
      | true => exact .ended hterminal rfl
      | false =>
          refine .going hterminal (fun r _ => ⟨⟨[left, right], nofun⟩, rfl⟩)
            (fun m _ => exists_jointMovesWith s role m) (fun j _ => ⟨_, rfl⟩) ?_
          rintro j _ - ⟨⟩
          apply ih
          rw [place_ofFacts]
          calc 16 ≤ place s * 4 ^ (plies + 1) := h
            _ = 4 * place s * 4 ^ plies := by rw [Nat.pow_succ']; ac_rfl
            _ ≤ (4 * place s + 2 * side j 0 + side j 1) * 4 ^ plies :=
                Nat.mul_le_mul_right _ (by omega)

/-- Minimax with all the time in the world looks two plies ahead. -/
theorem exhaustive_search_ends_twoRounds :
    ∃ m w', game.search ⟨1000, 50⟩
        (Strategy.minimax.search brief 2 game.initial [left, right] (by decide))
        (.new ⟨0, 0⟩ (.ofSeed 42)) = (.done m, w') ∧ m ∈ [left, right] ∧ w'.stats.maxDepth ≤ 2 := by
  have hmoves : ∀ m ∈ [left, right], game.CanPlay game.initial brief.role m :=
    fun m hm => ⟨[left, right], rfl, hm⟩
  have htries : Strategy.minimax.Tries game brief.role (fun _ _ => False) game.IsLegal :=
    .minimax (Nat.le_refl 2)
  have hends : game.EndsWithin brief.role (fun _ _ => False) game.IsLegal 2 game.initial :=
    (endsWithin (by decide)).mono (fun _ _ => False.elim) fun _ _ => id
  obtain ⟨m, w', hrun, hm, hdepth, -⟩ := exhaustive_search_ends (b := brief) htries rfl (by decide)
    hends rfl (Nat.le_refl 2) (by decide) hmoves
    (Game.undisturbed_of_still (d := ⟨1000, 50⟩) (w := .new ⟨0, 0⟩ (.ofSeed 42)) rfl rfl)
  exact ⟨m, w', hrun, hm, hdepth⟩

end TwoRounds

end GeneralGame
