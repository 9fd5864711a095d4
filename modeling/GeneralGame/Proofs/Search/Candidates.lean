import GeneralGame.Proofs.Search.Rounds
import GeneralGame.Proofs.Tree.Iteration
import Mathlib.Algebra.GroupWithZero.Nat

/-!
Candidates for the choice. A search that samples offers the averages of those moves that it has
sampled, and of no others. So where one of them was sampled, the chosen move was, whenever the search
was cut off and however its playouts are spread; and otherwise the choice falls on the first move.
-/
namespace GeneralGame

open Search

variable {g : Game} {d : Deadline} {b : Brief} {fuel : Nat} {s : State} {moves : List Move}

/-- If every score that is offered exceeds the floor, the best move in the end is one that was
offered, or none was. No order of the scores is presumed. -/
theorem Incumbent.move_foldl_offer {ι Score : Type} [LT Score] [DecidableLT Score]
    {isCandidate : ι → Prop} [DecidablePred isCandidate] {move : ι → Move} {score : ι → Score}
    {first : Move} {floor : Score} {xs : List ι}
    (hscore : ∀ x ∈ xs, isCandidate x → floor < score x) :
    let best := xs.foldl (fun (i : Incumbent Score) x =>
      if isCandidate x then i.offer (move x) (score x) else i) ⟨first, floor⟩
    (∃ x ∈ xs, isCandidate x ∧ move x = best.move) ∨
      (∀ x ∈ xs, ¬ isCandidate x) ∧ best.move = first := by
  induction xs with
  | nil => exact .inr ⟨nofun, rfl⟩
  | cons x xs ih =>
      obtain ⟨hhead, htail⟩ := List.forall_mem_cons.mp hscore
      rw [List.foldl_cons]
      by_cases hx : isCandidate x
      · left
        have hoffer : Incumbent.offer ⟨first, floor⟩ (move x) (score x) = ⟨move x, score x⟩ :=
          if_pos (decide_eq_true (hhead hx))
        rw [if_pos hx, hoffer]
        -- From here on the best move so far is that of a candidate.
        apply List.foldlRecOn
          (motive := fun best : Incumbent Score => ∃ y ∈ x :: xs, isCandidate y ∧ move y = best.move)
        · exact ⟨x, List.mem_cons_self, hx, rfl⟩
        · intro best hbest y hy
          split
          · rename_i hcandidate
            unfold offer
            split
            · exact ⟨y, List.mem_cons_of_mem x hy, hcandidate, rfl⟩
            · exact hbest
          · exact hbest
      · rw [if_neg hx]
        rcases ih htail with ⟨y, hy, hcandidate, hmove⟩ | ⟨hnone, hfirst⟩
        · exact .inl ⟨y, List.mem_cons_of_mem x hy, hcandidate, hmove⟩
        · exact .inr ⟨List.forall_mem_cons.mpr ⟨hx, hnone⟩, hfirst⟩

namespace MonteCarlo

/-- What the playouts of a move scored on average. -/
def Tally.average (t : Tally) : Float := t.total.toFloat / t.samples.toFloat

/-- The chosen move has had a playout, or none has. -/
theorem best_sampled (first : Move) {tallies : List Tally}
    (haverage : ∀ t ∈ tallies, 0 < t.samples → minusInfinity < t.average) :
    (∃ t ∈ tallies, 0 < t.samples ∧ t.move = best first tallies) ∨
      (∀ t ∈ tallies, ¬ 0 < t.samples) ∧ best first tallies = first :=
  Incumbent.move_foldl_offer haverage

end MonteCarlo

namespace TreeSearch

/-- Some successor of the root in which the role plays `m` was visited. -/
def Sampled (table : VisitTable) (r : RoleId) (root : State) (m : Move) : Prop :=
  ∃ children, table.children? root = some children ∧
    ∃ c ∈ children, c.playedBy r m = true ∧ 0 < table.visits c.state

/-- What the visits of the successors scored on average in which the role plays `m`. -/
def average (table : VisitTable) (r : RoleId) (root : State) (m : Move) : Float :=
  let (visits, reward) := record table ((table.children? root).getD []) r m
  reward / visits.toFloat

theorem visits_foldl (table : VisitTable) (children : List Child) (visits : Nat) (reward : Float) :
    (children.foldl (fun (visits, reward) c =>
      match table.get? c.state with
      | some node => (visits + node.visits, reward + node.total)
      | none => (visits, reward)) (visits, reward)).1 =
      visits + (children.map fun c => table.visits c.state).sum := by
  induction children generalizing visits reward with
  | nil => rfl
  | cons c children ih =>
      rw [List.foldl_cons, List.map_cons, List.sum_cons, ← Nat.add_assoc]
      unfold VisitTable.visits at ih ⊢
      cases table.get? c.state with
      | none => exact ih visits reward
      | some node => exact ih (visits + node.visits) (reward + node.total)

theorem visits_record (table : VisitTable) (children : List Child) (r : RoleId) (m : Move) :
    (record table children r m).1 =
      ((children.filter fun c => c.playedBy r m).map fun c => table.visits c.state).sum :=
  (visits_foldl table _ 0 0).trans (Nat.zero_add _)

theorem sampled_iff {table : VisitTable} {r : RoleId} {root : State} {m : Move} :
    0 < (record table ((table.children? root).getD []) r m).1 ↔ Sampled table r root m := by
  rw [visits_record, List.sum_pos_iff_exists_pos_nat]
  cases hchildren : table.children? root with
  | none => simp [Sampled, hchildren]
  | some children => simp [Sampled, hchildren, and_assoc]

instance {table : VisitTable} {r : RoleId} {root : State} {m : Move} :
    Decidable (Sampled table r root m) := decidable_of_iff _ sampled_iff

theorem best_sampled {table : VisitTable} {r : RoleId} {root : State} (first : Move)
    (haverage : ∀ m ∈ moves, Sampled table r root m → minusInfinity < average table r root m) :
    (∃ m ∈ moves, Sampled table r root m ∧ m = best table r root first moves) ∨
      (∀ m ∈ moves, ¬ Sampled table r root m) ∧ best table r root first moves = first := by
  simp only [← sampled_iff] at haverage ⊢
  exact Incumbent.move_foldl_offer haverage

theorem search_done {h : moves ≠ []} {m : Move} {w w' : Search.World}
    (hrun : g.search d (search b fuel s moves h) w = (.done m, w')) :
    m = best w'.table b.role s (moves.head h) moves := by
  obtain ⟨_, w₁, -, hrun⟩ := Program.run_bind_eq_done.mp hrun
  obtain ⟨_, w₂, -, hrun⟩ := Program.run_bind_eq_done.mp hrun
  cases hrun
  rfl

end TreeSearch

/-- An unsampled move never beats a sampled one. If a Monte Carlo search has had a playout of some
move, it has had one of the move that it selects; if a tree search has visited a successor of the root
by some legal move, it has visited one by the move that it selects; and where nothing was sampled,
both select the first move. All that is presumed of averages is that they exceed minus infinity. -/
theorem unsampled_never_beats_sampled (h : moves ≠ []) :
    (∀ {m : Move} {w w' : Search.World},
      g.search d (MonteCarlo.search b fuel s moves h) w = (.done m, w') →
        ∃ tallies,
          g.search d (MonteCarlo.rounds b fuel s b.config.depthCharges
            (moves.map fun m => ⟨m, 0, 0⟩)) w = (.done tallies, w') ∧
          tallies.map (·.move) = moves ∧
          ((∀ t ∈ tallies, 0 < t.samples → minusInfinity < t.average) →
            ((∃ t ∈ tallies, 0 < t.samples) → ∃ t ∈ tallies, 0 < t.samples ∧ t.move = m) ∧
            ((∀ t ∈ tallies, t.samples = 0) → m = moves.head h))) ∧
    ∀ {m : Move} {w w' : Search.World},
      g.search d (TreeSearch.search b fuel s moves h) w = (.done m, w') →
        (∀ c ∈ moves, TreeSearch.Sampled w'.table b.role s c →
          minusInfinity < TreeSearch.average w'.table b.role s c) →
        ((∃ c ∈ moves, TreeSearch.Sampled w'.table b.role s c) →
          TreeSearch.Sampled w'.table b.role s m) ∧
        ((∀ c ∈ moves, ¬ TreeSearch.Sampled w'.table b.role s c) → m = moves.head h) := by
  constructor
  · intro m w w' hrun
    obtain ⟨tallies, v, hrounds, hbest⟩ := Program.run_bind_eq_done.mp hrun
    cases hbest
    have htried := MonteCarlo.tried_rounds hrounds
    refine ⟨tallies, hrounds, htried, fun haverage => ?_⟩
    rcases MonteCarlo.best_sampled (moves.head h) haverage with hsampled | ⟨hnone, hfirst⟩
    · refine ⟨fun _ => hsampled, fun hzero => ?_⟩
      obtain ⟨t, ht, hpositive, -⟩ := hsampled
      have := hzero t ht
      omega
    · exact ⟨fun ⟨t, ht, hpositive⟩ => absurd hpositive (hnone t ht), fun _ => hfirst⟩
  · intro m w w' hrun haverage
    have hbest := TreeSearch.search_done hrun
    rcases TreeSearch.best_sampled (moves.head h) haverage with
      ⟨c, hc, hsampled, hchosen⟩ | ⟨hnone, hfirst⟩
    · rw [hbest, ← hchosen]
      exact ⟨fun _ => hsampled, fun hzero => absurd hsampled (hzero c hc)⟩
    · exact ⟨fun ⟨c, hc, hsampled⟩ => absurd hsampled (hnone c hc), fun _ => hbest.trans hfirst⟩

open Toggle in
/-- Monte Carlo search is cut off after the first playout. A tree search that goes on to the last
successor is cut off in its third iteration, and has not visited the successor by the first move. -/
theorem unsampled_never_beats_sampled_toggle :
    let b := { brief with selection := fun _ _ _ children h =>
      ⟨children.length - 1, Nat.sub_one_lt (List.length_pos_iff.mpr h |>.ne')⟩ }
    let w := Search.World.new ⟨1, 1⟩ (.ofSeed 42)
    (∃ m w', game.search ⟨2, 0⟩ (MonteCarlo.search b 5 (stateOf 0) [toggle, stop] (by decide)) w =
        (.done m, w') ∧
      ∃ t ∈ [(⟨toggle, 50, 1⟩ : MonteCarlo.Tally), ⟨stop, 0, 0⟩], 0 < t.samples ∧ t.move = m) ∧
    ∃ m w', game.search ⟨6, 0⟩ (TreeSearch.search b 5 (stateOf 0) [toggle, stop] (by decide)) w =
        (.done m, w') ∧
      TreeSearch.Sampled w'.table b.role (stateOf 0) m ∧
      ¬ TreeSearch.Sampled w'.table b.role (stateOf 0) toggle := by
  intro b w
  constructor
  · have hrounds : ∃ w', game.search ⟨2, 0⟩ (MonteCarlo.rounds b 5 (stateOf 0) 1000
        [⟨toggle, 0, 0⟩, ⟨stop, 0, 0⟩]) w = (.done [⟨toggle, 50, 1⟩, ⟨stop, 0, 0⟩], w') :=
      ⟨_, rfl⟩
    obtain ⟨w', hrounds⟩ := hrounds
    have hrun : game.search ⟨2, 0⟩
        (MonteCarlo.search b 5 (stateOf 0) [toggle, stop] (by decide)) w = (.done _, w') :=
      Program.run_bind_of_done hrounds _
    obtain ⟨tallies, hrounds', -, hchoice⟩ := (unsampled_never_beats_sampled (by decide)).1 hrun
    cases hrounds.symm.trans hrounds'
    have haverage : ∀ t ∈ [(⟨toggle, 50, 1⟩ : MonteCarlo.Tally), ⟨stop, 0, 0⟩],
        0 < t.samples → minusInfinity < t.average := by decide +kernel
    exact ⟨_, w', hrun, (hchoice haverage).1 (by decide)⟩
  · have hdone : (game.search ⟨6, 0⟩
        (TreeSearch.search b 5 (stateOf 0) [toggle, stop] (by decide)) w).1.isDone = true := by
      decide +kernel
    have htable : let table := (game.search ⟨6, 0⟩
          (TreeSearch.search b 5 (stateOf 0) [toggle, stop] (by decide)) w).2.table
        ¬ TreeSearch.Sampled table b.role (stateOf 0) toggle ∧
          TreeSearch.Sampled table b.role (stateOf 0) stop ∧
          minusInfinity < TreeSearch.average table b.role (stateOf 0) stop := by
      decide +kernel
    cases hrun : game.search ⟨6, 0⟩
        (TreeSearch.search b 5 (stateOf 0) [toggle, stop] (by decide)) w with
    | mk outcome w' =>
        rw [hrun] at hdone htable
        obtain ⟨htoggle, hstop, haverage⟩ := htable
        cases outcome with
        | done m =>
            have haverages : ∀ c ∈ [toggle, stop],
                TreeSearch.Sampled w'.table b.role (stateOf 0) c →
                  minusInfinity < TreeSearch.average w'.table b.role (stateOf 0) c := by
              rintro c hc hsampled
              rcases List.mem_pair.mp hc with rfl | rfl
              · exact absurd hsampled htoggle
              · exact haverage
            obtain ⟨hchoice, -⟩ := (unsampled_never_beats_sampled (by decide)).2 hrun haverages
            exact ⟨m, w', rfl, hchoice ⟨stop, by decide, hstop⟩, htoggle⟩
        | _ => cases hdone

end GeneralGame
