import GeneralGame.Proofs.Search.Lookahead
import GeneralGame.Proofs.Tree.Expansion
import GeneralGame.Search.Strategy

/-!
The searches that sample keep to the deadline. Monte Carlo search looks at the clock before each
playout. Tree search looks at it in every state that it goes down through, but it expands a state
without doing so: all its successors are computed in one go.
-/
namespace GeneralGame

open Search

variable {g : Game} {b : Brief} {fuel : Nat} {s : State} {since : List Transition}
  {moves : List Move}

namespace MonteCarlo

theorem part_sample (hplayout : b.playout = .random) (m : Move) :
    g.PunctualPart (AtMost 1) (sample b fuel s m) since fun _ => AtMost 1 := by
  apply Game.part_bind Game.part_checkpoint
  rintro _ _ rfl
  apply Game.unpolled_bind (Game.unpolled_randomJointMoveWith b.roleCount s b.role m)
  rintro joint _ rfl
  apply Game.unpolled_bind (Game.unpolled_next (Nat.le_refl 1))
  rintro t _ ⟨-, rfl⟩
  apply Game.punctual_imp (Game.part_depthCharge (fun _ h => h) hplayout fuel t) (fun _ h => h)
  rintro goal ts (hshort | rfl)
  · exact hshort
  · exact Nat.le_refl 1

/-- The moves that were sampled. -/
def tried (ts : List Tally) : List Move := ts.map (·.move)

/-- A round that the deadline ends leaves the last moves without another playout. -/
theorem punctual_round (hplayout : b.playout = .random) (tallies : List Tally) :
    g.Punctual (AtMost 1) (Halts fun r => r.2 = false ∧ tried r.1 = tried tallies)
      (round b fuel s tallies) since fun r _ => tried r.1 = tried tallies := by
  induction tallies generalizing since with
  | nil => rfl
  | cons t tallies ih =>
      rw [round]
      apply Game.punctual_bind (Game.punctual_attempt (part_sample hplayout t.move))
      · rintro _ ⟨p, hp, rfl⟩
        exact halts_attempt_bind hp ⟨rfl, rfl⟩
      · rintro _ ts ⟨goal, rfl, -⟩
        apply Game.punctual_bind ih
        · intro p hp
          apply halts_bind hp
          rintro r ⟨hwhole, htried⟩
          exact ⟨hwhole, congrArg (t.move :: ·) htried⟩
        · intro r ts htried
          exact congrArg (t.move :: ·) htried

theorem punctual_rounds (hplayout : b.playout = .random) (n : Nat) (tallies : List Tally) :
    g.Punctual (AtMost 1) (Halts fun ts => tried ts = tried tallies) (rounds b fuel s n tallies)
      since fun ts _ => tried ts = tried tallies := by
  induction n generalizing tallies since with
  | zero => rfl
  | succ n ih =>
      rw [rounds]
      apply Game.punctual_bind (punctual_round hplayout tallies)
      · intro p hp
        apply halts_bind hp
        rintro ⟨ts, whole⟩ ⟨rfl, htried⟩
        exact htried
      · rintro ⟨ts, whole⟩ us htried
        cases whole with
        | true =>
            apply Game.unpolled_bind (Game.unpolled_request rfl rfl)
            rintro _ _ ⟨-, rfl⟩
            rw [← htried]
            exact ih ts
        | false => exact htried

theorem tried_unsampled (moves : List Move) : tried (moves.map fun m => ⟨m, 0, 0⟩) = moves := by
  rw [tried, List.map_map]
  exact List.map_id moves

theorem best_mem {first : Move} (hfirst : first ∈ moves) {ts : List Tally}
    (hts : tried ts = moves) : best first ts ∈ moves := by
  apply List.foldlRecOn (motive := fun (i : Incumbent Float) => i.move ∈ moves) ts _ hfirst
  intro i hi t ht
  split
  · apply Incumbent.move_offer_mem hi
    rw [← hts]
    exact List.mem_map_of_mem ht
  · exact hi

theorem punctual_search (hplayout : b.playout = .random) (h : moves ≠ []) :
    g.Punctual (AtMost 1) (Halts (· ∈ moves)) (search b fuel s moves h) since
      fun _ _ => True := by
  apply Game.punctual_bind (punctual_rounds hplayout _ _)
  · intro p hp
    apply halts_bind hp
    intro ts hts
    exact best_mem (List.head_mem h) (hts.trans (tried_unsampled moves))
  · intro ts us _
    trivial

end MonteCarlo

namespace TreeSearch

/-- At most one transition, or those by some of the legal joint moves in one state, in order. -/
def Burst (g : Game) (ts : List Transition) : Prop :=
  AtMost 1 ts ∨ ∃ s joints, g.jointMoves s = .ok joints ∧ ts <+: joints.map fun j => (s, j)

theorem unpolled_follow (s : State) :
    g.Unpolled (Burst g) (follow b s) since fun _ ts => ts = since := by
  apply Game.unpolled_bind (Game.unpolled_request rfl rfl)
  rintro table _ ⟨-, rfl⟩
  cases (table.get? s).filter Node.isVisited with
  | none => rfl
  | some node =>
      dsimp only
      split
      · rfl
      · apply Game.unpolled_bind (Game.unpolled_request rfl rfl)
        rintro turn _ ⟨-, rfl⟩
        rfl

/-- A descent computes no transition, and looks at the clock in the state where it ends. -/
theorem part_descend (fuel : Nat) (s : State) (above : List State) :
    g.PunctualPart (Burst g) (descend b fuel s above) since fun _ ts => ts = [] := by
  induction fuel generalizing s above since with
  | zero => trivial
  | succ fuel ih =>
      rw [descend]
      apply Game.part_bind Game.part_checkpoint
      rintro _ _ rfl
      apply Game.unpolled_bind (Game.unpolled_query rfl)
      rintro terminal _ ⟨-, rfl⟩
      cases terminal with
      | true =>
          apply Game.unpolled_bind (Game.unpolled_query rfl)
          rintro goal _ ⟨-, rfl⟩
          rfl
      | false =>
          apply Game.unpolled_bind (unpolled_follow s)
          rintro next _ rfl
          cases next with
          | none => rfl
          | some next =>
              dsimp only
              split
              · rfl
              · exact ih next (s :: above)

/-- The successors of a state are computed without a look at the clock in between. -/
theorem unpolled_expand (s : State) :
    g.Unpolled (Burst g) (expand s) [] fun _ _ => True := by
  rw [expand_eq]
  apply Game.unpolled_bind (Game.unpolled_request rfl rfl)
  rintro table _ ⟨-, rfl⟩
  split
  · trivial
  · apply Game.unpolled_bind (Game.unpolled_query rfl)
    rintro joints _ ⟨hjoints, rfl⟩
    -- What was entered so far and what is left make up the legal joint moves.
    apply Game.unpolled_bind (Game.unpolled_mapM
      (I := fun rest ts => ∃ entered, entered ++ rest = joints ∧ ts = entered.map fun j => (s, j))
      _ ⟨[], rfl, rfl⟩)
    · intro children ts _
      exact Game.punctual_of_unpolled (Game.unpolled_request rfl rfl) fun _ _ _ => trivial
    · rintro j rest _ ⟨entered, rfl, rfl⟩
      have hconcat : (entered.map fun j => (s, j)) ++ [(s, j)] =
          (entered ++ [j]).map fun j => (s, j) := by
        rw [List.map_append, List.map_singleton]
      have hlegal : g.jointMoves s = .ok ((entered ++ [j]) ++ rest) := by
        rw [List.append_assoc]
        exact hjoints
      have hburst : Burst g ((entered.map fun j => (s, j)) ++ [(s, j)]) := by
        rw [hconcat]
        exact .inr ⟨s, _, hlegal, (List.prefix_append _ rest).map _⟩
      apply Game.unpolled_bind (Game.unpolled_next hburst)
      rintro t _ ⟨-, rfl⟩
      apply Game.unpolled_bind (Game.unpolled_request rfl rfl)
      rintro _ _ ⟨-, rfl⟩
      exact ⟨entered ++ [j], List.append_assoc _ _ _, hconcat⟩

theorem part_sumOfCharges (hplayout : b.playout = .random) (n : Nat) (sum : Float) :
    g.PunctualPart (Burst g) (sumOfCharges b fuel s n sum) since
      fun _ ts => AtMost 1 ts ∨ ts = since :=
  Game.part_charges (fun _ => .inl) hplayout (fun _ => rfl)
    (fun sum goal => pure (sum + goal.toFloat)) (fun _ _ _ => rfl) (fun _ _ => rfl) n sum

theorem part_iterate (hplayout : b.playout = .random) (root : State) :
    g.PunctualPart (Burst g) (iterate b fuel root) since fun _ _ => True := by
  apply Game.part_bind (part_descend fuel root [])
  rintro leaf _ rfl
  cases leaf.goal with
  | some goal =>
      exact Game.punctual_of_unpolled (Game.unpolled_request rfl rfl) fun _ _ _ => trivial
  | none =>
      apply Game.unpolled_bind (Game.unpolled_request rfl rfl)
      rintro _ _ ⟨-, rfl⟩
      apply Game.unpolled_bind (unpolled_expand leaf.state)
      intro _ ts _
      apply Game.part_bind (part_sumOfCharges hplayout _ 0)
      intro sum ts _
      exact Game.punctual_of_unpolled (Game.unpolled_request rfl rfl) fun _ _ _ => trivial

theorem part_iterations (hplayout : b.playout = .random) (root : State) (n : Nat) :
    g.PunctualPart (Burst g) (iterations b fuel root n) since fun _ _ => True := by
  induction n generalizing since with
  | zero => trivial
  | succ n ih =>
      rw [iterations]
      apply Game.part_bind Game.part_checkpoint
      rintro _ _ rfl
      apply Game.part_bind (part_iterate hplayout root)
      intro _ ts _
      apply Game.unpolled_bind (Game.unpolled_request rfl rfl)
      rintro _ _ ⟨-, rfl⟩
      exact ih

theorem best_mem {table : VisitTable} {r : RoleId} {root : State} {first : Move}
    (hfirst : first ∈ moves) : best table r root first moves ∈ moves := by
  apply List.foldlRecOn (motive := fun (i : Incumbent Float) => i.move ∈ moves) moves _ hfirst
  intro i hi m hm
  dsimp only
  split
  · exact Incumbent.move_offer_mem hi hm _
  · exact hi

theorem punctual_search (hplayout : b.playout = .random) (h : moves ≠ []) :
    g.Punctual (Burst g) (Halts (· ∈ moves)) (search b fuel s moves h) since fun _ _ => True := by
  have hiterations : g.Punctual (Burst g) (Halts fun _ => True)
      (discard (iterations b fuel s fuel).attempt) since fun _ _ => True := by
    apply Game.punctual_bind (Game.punctual_attempt (part_iterations hplayout s fuel))
    · rintro _ ⟨p, hp, rfl⟩
      exact halts_attempt_bind hp trivial
    · intro answer ts _
      trivial
  apply Game.unpolled_bind (Game.unpolled_request rfl rfl)
  rintro _ _ ⟨-, rfl⟩
  apply Game.punctual_bind hiterations
  · intro p hp
    apply halts_bind hp
    intro _ _ table
    exact best_mem (List.head_mem h)
  · intro _ ts _
    apply Game.unpolled_bind (Game.unpolled_request rfl rfl)
    intro table us _
    trivial

end TreeSearch

end GeneralGame
