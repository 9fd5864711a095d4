import GeneralGame.Circuit.Machine
import GeneralGame.Proofs.Game.Legal
import GeneralGame.Proofs.Search.Anytime
import GeneralGame.Proofs.Search.Choice
import GeneralGame.Proofs.Search.Within

/-!
Minimax and alpha-beta search agree. With one role, or two, both try the same replies to a move, and
then alpha-beta search stays within minimax: it values every move as minimax does, up to the window,
and leaves out what lies behind a closed window.
-/
namespace GeneralGame

open Search

variable {g : Game} {b : Brief} {s : State}

namespace Game

theorem product_single (ms : List Move) : product [ms] = ms.map fun x => [x] :=
  List.map_eq_flatMap.symm

theorem product_pin_left (m : Move) (ms : List Move) :
    product [[m], ms] = ms.map fun x => [m, x] := by
  rw [product, List.flatMap_singleton, product_single, List.map_map]
  rfl

theorem product_pin_right (m : Move) (ms : List Move) :
    product [ms, [m]] = ms.map fun x => [x, m] := by
  rw [product, product_single]
  exact List.map_eq_flatMap.symm

/-- There is room for a joint move for each entry of a list of legal moves. A list without it has more
than 8 * 10^16 entries. -/
def HasRoom (g : Game) : Prop :=
  ∀ s r ms, g.moves s r = .ok ms → ms.val.length * jointMoveBytes < 2 ^ 63

theorem jointMovesWith_alone (hroles : g.roleCount = 1) (m : Move) :
    g.jointMovesWith s (.ofIndex 0) m = .ok [⟨[m]⟩] := by
  have hlists : (RoleId.all g.roleCount).mapM (g.pinned s (.ofIndex 0) m) = .ok [[m]] := by
    rw [hroles]
    exact mapM_eq_ok_iff.mpr (.cons rfl .nil)
  rw [jointMovesWith, jointMovesOf_eq (fun _ _ => ne_nil_of_pinned) hlists]
  rfl

theorem jointMovesWith_first (hroles : g.roleCount = 2) {ms : { ms : List Move // ms ≠ [] }}
    (hmoves : g.moves s (.ofIndex 1) = .ok ms) (m : Move) :
    g.jointMovesWith s (.ofIndex 0) m =
      if ms.val.length * jointMoveBytes < 2 ^ 63 then .ok (ms.val.map fun x => ⟨[m, x]⟩)
      else .error .panic := by
  have hlists : (RoleId.all g.roleCount).mapM (g.pinned s (.ofIndex 0) m) =
      .ok [[m], ms.val] := by
    rw [hroles]
    exact mapM_eq_ok_iff.mpr (.cons rfl (.cons (options_of_moves hmoves) .nil))
  rw [jointMovesWith, jointMovesOf_eq (fun _ _ => ne_nil_of_pinned) hlists, product_pin_left,
    List.map_map]
  simp only [Fits, List.map_cons, List.map_nil, List.prod_cons, List.prod_nil, List.length_cons,
    List.length_nil, Nat.zero_add, Nat.one_mul, Nat.mul_one]
  rfl

theorem jointMovesWith_second (hroles : g.roleCount = 2) {ms : { ms : List Move // ms ≠ [] }}
    (hmoves : g.moves s (.ofIndex 0) = .ok ms) (m : Move) :
    g.jointMovesWith s (.ofIndex 1) m =
      if ms.val.length * jointMoveBytes < 2 ^ 63 then .ok (ms.val.map fun x => ⟨[x, m]⟩)
      else .error .panic := by
  have hlists : (RoleId.all g.roleCount).mapM (g.pinned s (.ofIndex 1) m) =
      .ok [ms.val, [m]] := by
    rw [hroles]
    exact mapM_eq_ok_iff.mpr (.cons (options_of_moves hmoves) (.cons rfl .nil))
  rw [jointMovesWith, jointMovesOf_eq (fun _ _ => ne_nil_of_pinned) hlists, product_pin_right,
    List.map_map]
  simp only [Fits, List.map_cons, List.map_nil, List.prod_cons, List.prod_nil, List.length_cons,
    List.length_nil, Nat.zero_add, Nat.mul_one]
  rfl

/-- Of two roles each has one opponent, and its joint moves are the replies of that one, if there is
room for them. -/
theorem exists_opponent (hroles : g.roleCount = 2) {r : RoleId} (hr : r.index < 2) :
    ∃ o, (RoleId.all 2).filter (· ≠ r) = [o] ∧
      ∀ (ms : { ms : List Move // ms ≠ [] }) (m : Move), g.moves s o = .ok ms →
        g.jointMovesWith s r m =
          if ms.val.length * jointMoveBytes < 2 ^ 63 then
            .ok (ms.val.map ((JointMove.placeholder 2 r m).set o))
          else .error .panic := by
  have hself : r = .ofIndex r.index := r.ofIndex_index.symm
  have hside : r.index = 0 ∨ r.index = 1 := by omega
  rcases hside with hside | hside
  · rw [hside] at hself
    subst hself
    refine ⟨.ofIndex 1, by decide, ?_⟩
    intro ms m hmoves
    exact jointMovesWith_first hroles hmoves m
  · rw [hside] at hself
    subst hself
    refine ⟨.ofIndex 0, by decide, ?_⟩
    intro ms m hmoves
    exact jointMovesWith_second hroles hmoves m

end Game

/-- A machine lists no more legal moves than its net declares, so it has room if these are not too
many. -/
theorem Machine.hasRoom {m : Machine}
    (hroom : ∀ r, (m.net.legalsOf r).length * Game.jointMoveBytes < 2 ^ 63) : m.toGame.HasRoom := by
  rintro s r ⟨ms, hne⟩ hms
  obtain ⟨_, -, hlegal⟩ := exists_of_bind_eq_ok (Game.moves_eq_ok.mp hms)
  have hle : ms.length ≤ (m.net.legalsOf r).length := by
    cases hlegal
    rw [List.length_map]
    exact List.length_filter_le _ _
  exact Nat.lt_of_le_of_lt (Nat.mul_le_mul_right _ hle) (hroom r)

namespace Minimax

theorem least_rest_le {full : State → Search Nat} {joints : List JointMove} {worst : Nat}
    (h : g.Answers (least b full s joints worst) (· ≤ worst)) :
    g.Answers (if worst = 0 then pure 0 else least b full s joints worst) (· ≤ worst) := by
  split
  · exact Game.answers_pure (Nat.zero_le worst)
  · exact h

theorem least_le {full : State → Search Nat} (joints : List JointMove) (worst : Nat) :
    g.Answers (least b full s joints worst) (· ≤ worst) := by
  induction joints generalizing worst with
  | nil => exact Game.answers_pure (Nat.le_refl worst)
  | cons j joints ih =>
      rw [least]
      apply Game.answers_bind
      intro t
      apply Game.answers_bind
      intro v
      refine Game.answers_imp (least_rest_le (ih (min worst v))) ?_
      intro y hy
      omega

theorem le_greatest_rest {full : Move → Search Nat} {ms : List Move} {best : Nat}
    (h : g.Answers (greatest full ms best) (best ≤ ·)) :
    g.Answers (if best = topGoal then pure topGoal else greatest full ms best) (best ≤ ·) := by
  split
  · rename_i htop
    exact Game.answers_pure (Nat.le_of_eq htop)
  · exact h

theorem le_greatest {full : Move → Search Nat} (ms : List Move) (best : Nat) :
    g.Answers (greatest full ms best) (best ≤ ·) := by
  induction ms generalizing best with
  | nil => exact Game.answers_pure (Nat.le_refl best)
  | cons m ms ih =>
      rw [greatest]
      apply Game.answers_bind
      intro v
      refine Game.answers_imp (le_greatest_rest (ih (max best v))) ?_
      intro y hy
      omega

theorem moveScore_le {full : State → Search Nat} (m : Move) :
    g.Answers (moveScore b full s m) (· ≤ topGoal) := by
  apply Game.answers_bind
  intro _
  apply Game.answers_bind
  intro joints
  exact least_le joints topGoal

theorem replies_of_opponent {r : RoleId}
    (hopponent : (RoleId.all b.roleCount).filter (· ≠ b.role) = [r]) (m : Move) :
    replies b s m = do
      let ms ← query (.moves s r)
      return ms.val.map ((b.placeholder m).set r) := by
  have hjoints (ms : { ms : List Move // ms ≠ [] }) :
      (if [ms.val.map ((b.placeholder m).set r)].flatten.isEmpty then [b.placeholder m]
        else [ms.val.map ((b.placeholder m).set r)].flatten) =
          ms.val.map ((b.placeholder m).set r) := by
    simp [ms.property]
  simp only [replies, hopponent, List.mapM_cons, List.mapM_nil, bind_assoc, pure_bind, hjoints]

/-- With one role, or two, the replies are the legal joint moves. -/
theorem replies_eq (hcount : b.roleCount = g.roleCount)
    (hroles : g.roleCount = 1 ∨ g.roleCount = 2) (hroom : g.HasRoom)
    (hrole : b.role.index < g.roleCount) (m : Move) :
    g.Answers (replies b s m) fun joints => g.jointMovesWith s b.role m = .ok joints := by
  intro w joints w' hrun
  rcases hroles with hroles | hroles
  · have hself : b.role = .ofIndex b.role.index := b.role.ofIndex_index.symm
    have hfirst : b.role.index = 0 := by omega
    rw [hfirst] at hself
    rw [replies, Brief.placeholder, hcount, hroles, hself] at hrun
    cases hrun
    rw [hself]
    exact Game.jointMovesWith_alone hroles m
  · rw [hroles] at hrole
    obtain ⟨o, hopponent, hjoints⟩ := Game.exists_opponent (s := s) hroles hrole
    rw [← hroles, ← hcount] at hopponent
    rw [replies_of_opponent hopponent] at hrun
    obtain ⟨ms, v, hquery, hmap⟩ := Game.searchUndisturbed_bind_eq_done.mp hrun
    cases hmap
    rw [Brief.placeholder, hcount, hroles]
    have hms : g.moves s o = .ok ms := Game.answer_moves.mp (Game.answers_query _ _ _ _ hquery)
    rw [hjoints ms m hms, if_pos (hroom s o ms hms)]

end Minimax

namespace AlphaBeta

theorem least_within {score : State → Nat → Search Nat} {full : State → Search Nat} {low : Nat}
    (hscore : ∀ t high, low < high → high ≤ topGoal →
      g.Within (score t high) (full t) fun x v => clamp low high x = clamp low high v)
    {joints : List JointMove} {top high worst : Nat} (hhigh : high = min top worst)
    (hwindow : low < high) (htop : top ≤ topGoal) :
    g.Within (least b score s low joints high) (Minimax.least b full s joints worst)
      fun x v => x = clamp low top v := by
  induction joints generalizing high worst with
  | nil =>
      apply Game.within_pure
      unfold clamp
      omega
  | cons j joints ih =>
      rw [least, Minimax.least]
      apply Game.within_bind (Game.within_next s j)
      intro t _ ht
      cases ht
      apply Game.within_bind (hscore t high hwindow (by omega))
      intro x v hx
      unfold clamp at hx
      by_cases hclosed : min high x ≤ low
      · -- Minimax may go on here, but only downwards, and the window is closed from above.
        simp only [hclosed, if_true]
        apply Game.within_note_left (by decide)
        apply Game.within_stop
        refine Game.answers_imp (Minimax.least_rest_le (Minimax.least_le joints (min worst v))) ?_
        intro y hy
        unfold clamp
        omega
      · -- Where alpha-beta search goes on, minimax has not found the lowest goal.
        have hzero : ¬ min worst v = 0 := by omega
        simp only [hclosed, hzero, if_false]
        exact ih (by omega) (by omega)

theorem greatest_within {score : Move → Nat → Search Nat} {full : Move → Search Nat} {high : Nat}
    (hscore : ∀ m low, low < high →
      g.Within (score m low) (full m) fun x v => x = clamp low high v)
    {ms : List Move} {bottom low best : Nat} (hlow : low = max bottom best)
    (hwindow : low < high) (hhigh : high ≤ topGoal) :
    g.Within (greatest score high ms low) (Minimax.greatest full ms best)
      fun x v => clamp bottom high x = clamp bottom high v := by
  induction ms generalizing low best with
  | nil =>
      apply Game.within_pure
      unfold clamp
      omega
  | cons m ms ih =>
      rw [greatest, Minimax.greatest]
      apply Game.within_bind (hscore m low hwindow)
      intro x v hx
      unfold clamp at hx
      by_cases hclosed : high ≤ max low x
      · -- Minimax may go on here, but only upwards, and the window is closed from below.
        simp only [hclosed, if_true]
        apply Game.within_note_left (by decide)
        apply Game.within_stop
        refine Game.answers_imp (Minimax.le_greatest_rest (Minimax.le_greatest ms (max best v))) ?_
        intro y hy
        unfold clamp
        omega
      · have htop : ¬ max best v = topGoal := by omega
        simp only [hclosed, htop, if_false]
        exact ih (by omega) (by omega)

theorem replies_within (hcount : b.roleCount = g.roleCount)
    (hroles : g.roleCount = 1 ∨ g.roleCount = 2) (hroom : g.HasRoom)
    (hrole : b.role.index < g.roleCount) (m : Move) :
    g.Within (query (.jointMovesWith s b.role m)) (Minimax.replies b s m) Eq :=
  Game.within_query_left rfl (Minimax.replies_eq hcount hroles hroom hrole m)

theorem moveScore_within (hcount : b.roleCount = g.roleCount)
    (hroles : g.roleCount = 1 ∨ g.roleCount = 2) (hroom : g.HasRoom)
    (hrole : b.role.index < g.roleCount)
    {score : State → Nat → Nat → Search Nat} {full : State → Search Nat} {low high : Nat}
    (hscore : ∀ t low high, low < high → high ≤ topGoal →
      g.Within (score t low high) (full t) fun x v => clamp low high x = clamp low high v)
    (m : Move) (hwindow : low < high) (hhigh : high ≤ topGoal) :
    g.Within (moveScore b score s m low high) (Minimax.moveScore b full s m)
      fun x v => x = clamp low high v := by
  apply Game.within_bind Game.within_checkpoint
  intro _ _ _
  apply Game.within_bind (replies_within hcount hroles hroom hrole m)
  intro joints _ h
  cases h
  exact least_within (fun t high => hscore t low high) (by omega) hwindow hhigh

/-- The induction is on the fuel, which both searches use up in the same way. -/
theorem stateScore_within (hcount : b.roleCount = g.roleCount)
    (hroles : g.roleCount = 1 ∨ g.roleCount = 2) (hroom : g.HasRoom)
    (hrole : b.role.index < g.roleCount)
    {fuel ply low high : Nat} (hwindow : low < high) (hhigh : high ≤ topGoal) :
    g.Within (stateScore b none fuel ply s low high) (Minimax.stateScore b fuel ply s)
      fun x v => clamp low high x = clamp low high v := by
  induction fuel generalizing ply s low high with
  | zero =>
      intro w v w' hrun
      cases hrun
  | succ fuel ih =>
      rw [stateScore, Minimax.stateScore]
      apply Game.within_bind Game.within_checkpoint
      intro _ _ _
      apply Game.within_bind (Game.within_note _)
      intro _ _ _
      apply Game.within_bind (Game.within_query _)
      intro terminal _ h
      cases h
      cases terminal with
      | true =>
          rw [if_pos rfl, if_pos rfl]
          apply Game.within_imp (Game.within_query _)
          intro x v h
          rw [h]
      | false =>
          have hcutoff : cutoffAt b none ply = none := ite_self none
          rw [if_neg Bool.false_ne_true, if_neg Bool.false_ne_true, hcutoff]
          apply Game.within_bind (Game.within_query _)
          intro ms _ h
          cases h
          apply greatest_within _ (by omega) hwindow hhigh
          intro m low hlow
          have hstate : ∀ t low high, low < high → high ≤ topGoal →
              g.Within (stateScore b none fuel (ply + 1) t low high)
                (Minimax.stateScore b fuel (ply + 1) t)
                fun x v => clamp low high x = clamp low high v :=
            fun t low high hwin htop => ih hwin htop
          exact moveScore_within hcount hroles hroom hrole hstate m hlow hhigh

end AlphaBeta

theorem chooseFrom_within {score : Move → Nat → Search Nat} {full : Move → Search Nat}
    (hscore : ∀ m floor, floor < topGoal →
      g.Within (score m floor) (full m) fun x v => x = clamp floor topGoal v)
    (hle : ∀ m, g.Answers (full m) (· ≤ topGoal)) (hheeds : ∀ m, g.Heeds (full m))
    {ms : List Move} {best : Incumbent Nat} (hbest : best.score < topGoal) :
    g.Within (chooseFrom score ms best) (chooseFrom (fun m _ => full m) ms best) Eq := by
  induction ms generalizing best with
  | nil => exact Game.within_pure rfl
  | cons m ms ih =>
      rw [chooseFrom, chooseFrom]
      have hvalue := Game.within_and_answers (hscore m best.score hbest) (hle m)
      apply Game.within_bind (Game.within_attempt (hheeds m) hvalue)
      rintro _ _ ⟨x, v, rfl, rfl, hx, hv⟩
      unfold clamp at hx
      by_cases htop : v = topGoal
      · have hxtop : x = topGoal := by omega
        simp only [hxtop, htop, if_true]
        exact Game.within_pure rfl
      · have hxtop : ¬ x = topGoal := by omega
        simp only [hxtop, htop, if_false]
        apply Game.within_bind Game.within_expired
        rintro _ _ ⟨rfl, rfl⟩
        have hsame : max best.score x = max best.score v := by omega
        rw [Incumbent.offer_congr hsame m]
        exact ih (Incumbent.score_offer_lt hbest (Nat.lt_of_le_of_ne hv htop) m)

/-- With one role, or two, alpha-beta search chooses the move that minimax chooses, in all games whose
lists of moves are short enough to be held at all. It computes no more nodes, and every transition
that it computes minimax computes too, in the same order. -/
theorem alphaBeta_agrees_with_minimax (hcount : b.roleCount = g.roleCount)
    (hroles : g.roleCount = 1 ∨ g.roleCount = 2) (hroom : g.HasRoom)
    (hrole : b.role.index < g.roleCount) {fuel : Nat} {moves : List Move} (h : moves ≠ [])
    {d : Deadline} {w v : Search.World} {m : Move}
    (hminimax : g.Undisturbed d (Minimax.search b fuel s moves h) w)
    (halphaBeta : g.Undisturbed d (AlphaBeta.search b none fuel s moves h) w)
    (hrun : g.search d (Minimax.search b fuel s moves h) w = (.done m, v)) :
    ∃ v', g.search d (AlphaBeta.search b none fuel s moves h) w = (.done m, v') ∧
      v'.stats.nodes ≤ v.stats.nodes ∧
      (g.transitions d (AlphaBeta.search b none fuel s moves h) w).Sublist
        (g.transitions d (Minimax.search b fuel s moves h) w) := by
  have hwithin : g.Within (AlphaBeta.search b none fuel s moves h) (Minimax.search b fuel s moves h)
      Eq := by
    apply chooseFrom_within
    · intro m floor hfloor
      have hstate : ∀ t low high, low < high → high ≤ topGoal →
          g.Within (AlphaBeta.stateScore b none fuel 1 t low high) (Minimax.stateScore b fuel 1 t)
            fun x v => clamp low high x = clamp low high v :=
        fun t low high hwin htop => AlphaBeta.stateScore_within hcount hroles hroom hrole hwin htop
      exact AlphaBeta.moveScore_within hcount hroles hroom hrole hstate m hfloor (Nat.le_refl topGoal)
    · exact Minimax.moveScore_le
    · exact Minimax.heeds_moveScore fuel s
    · exact Nat.zero_lt_succ 99
  have hstill := Game.search_of_undisturbed hminimax
  rw [hrun] at hstill
  obtain ⟨m', u, hdone, hmove, hnodes, htransitions⟩ := hwithin w m v.atRest hstill w
  cases hmove
  rw [Game.search_of_undisturbed halphaBeta] at hdone
  rw [Game.transitions_of_undisturbed halphaBeta, Game.transitions_of_undisturbed hminimax]
    at htransitions
  cases hreal : g.search d (AlphaBeta.search b none fuel s moves h) w with
  | mk outcome v' =>
      rw [hreal] at hdone
      cases hdone
      have hsame : v'.atRest.stats.nodes + w.stats.nodes ≤ w.stats.nodes + v.atRest.stats.nodes :=
        hnodes
      simp only [Search.World.stats_atRest] at hsame
      exact ⟨v', rfl, by omega, htransitions⟩

theorem TwoRounds.hasRoom : game.HasRoom := by
  rintro s r _ ⟨⟩
  decide

open TwoRounds in
theorem alphaBeta_agrees_with_minimax_twoRounds :
    ∃ v, game.search ⟨1000, 50⟩
        (AlphaBeta.search brief none 3 game.initial [left, right] (by decide))
        (.new ⟨0, 0⟩ (.ofSeed 42)) = (.done right, v) ∧ v.stats.nodes ≤ 20 := by
  have hrun : ∃ v, game.search ⟨1000, 50⟩
      (Minimax.search brief 3 game.initial [left, right] (by decide))
      (.new ⟨0, 0⟩ (.ofSeed 42)) = (.done right, v) ∧ v.stats.nodes = 20 := ⟨_, rfl, rfl⟩
  obtain ⟨v, hrun, hnodes⟩ := hrun
  obtain ⟨v', hdone, hle, -⟩ := alphaBeta_agrees_with_minimax rfl (.inr rfl) hasRoom (by decide)
    (by decide)
    (Game.undisturbed_of_still rfl rfl) (Game.undisturbed_of_still rfl rfl) hrun
  rw [hnodes] at hle
  exact ⟨v', hdone, hle⟩

end GeneralGame
