import GeneralGame.Proofs.Tree.Iteration

/-!
The visits of a tree search. A completed iteration counts the same for every state of one path, on
which no state comes twice, and an iteration that is not completed counts for none. So no state is
visited more often than the root, a state is visited after one that leads to it, and the root is
visited at least once and at most so often in an iteration as there are playouts in it.
-/
namespace GeneralGame

open Search

variable {g : Game} {d : Deadline} {b : Brief} {root : State} {fuel : Nat}

namespace VisitTable

/-- No state is visited more often than the root, and every visited state but the root is led to by
a visited one. -/
structure Rooted (t : VisitTable) (root : State) : Prop where
  visits_le : ∀ s, t.visits s ≤ t.visits root
  exists_parent : ∀ s, s ≠ root → 0 < t.visits s → ∃ u, 0 < t.visits u ∧ t.Leads u s

theorem Rooted.of_extends {t t' : VisitTable} (h : t.Rooted root) (hextends : t.Extends t') :
    t'.Rooted root where
  visits_le s := by
    rw [hextends.visits, hextends.visits]
    exact h.visits_le s
  exists_parent s hs hvisits := by
    rw [hextends.visits] at hvisits
    obtain ⟨u, hu, hleads⟩ := h.exists_parent s hs hvisits
    refine ⟨u, ?_, hextends.leads hleads⟩
    rw [hextends.visits]
    exact hu

end VisitTable

namespace TreeSearch

/-- How often an iteration counts whose descent has ended in `s`. -/
def weight (g : Game) (b : Brief) (s : State) : Nat :=
  if g.isTerminal s then 1 else max 1 b.config.chargesPerExpansion

theorem weight_pos (s : State) : 0 < weight g b s := by
  unfold weight
  split <;> omega

theorem weight_le (s : State) : weight g b s ≤ max 1 b.config.chargesPerExpansion := by
  unfold weight
  split <;> omega

/-- A completed iteration counts for the states on the way to its leaf, and keeps the successors
there were. -/
theorem Iteration.effect {leaf : Leaf} {old new : Books} (hpath : leaf.path.Nodup)
    (h : Iteration g b leaf old new) :
    (∀ s, new.table.visits s =
      old.table.visits s + if s ∈ leaf.path then weight g b leaf.state else 0) ∧
    ∀ s u, old.table.Leads s u → new.table.Leads s u := by
  cases h with
  | ended hterminal reward hbooks =>
      rw [hbooks]
      constructor
      · intro s
        rw [VisitTable.visits_backup hpath, weight, if_pos hterminal]
      · intro s u hleads
        exact VisitTable.leads_backup.mpr hleads
  | played hterminal hexpansion reward hbooks =>
      have hextends := hexpansion.extends
      rw [hbooks]
      constructor
      · intro s
        rw [VisitTable.visits_backup hpath, hextends.visits, weight, hterminal]
        rfl
      · intro s u hleads
        exact VisitTable.leads_backup.mpr (hextends.leads hleads)

/-- What a completed iteration does to the visits. -/
theorem iterate_effect {w w' : Search.World}
    (h : g.search d (iterate b fuel root) w = (.done (), w')) :
    ∃ leaf : Leaf, Trail w.table root leaf.state leaf.above ∧
      (∀ s, w'.table.visits s =
        w.table.visits s + if s ∈ leaf.path then weight g b leaf.state else 0) ∧
      ∀ s u, w.table.Leads s u → w'.table.Leads s u := by
  obtain ⟨leaf, htrail, hiteration⟩ := iterate_done h
  exact ⟨leaf, htrail, hiteration.effect htrail.path_nodup⟩

/-- Every completed iteration counts for the root. -/
theorem iterate_visits_root {w w' : Search.World}
    (h : g.search d (iterate b fuel root) w = (.done (), w')) :
    w.table.visits root + 1 ≤ w'.table.visits root ∧
      w'.table.visits root ≤ w.table.visits root + max 1 b.config.chargesPerExpansion := by
  obtain ⟨leaf, htrail, hvisits, -⟩ := iterate_effect h
  have hpos : 0 < weight g b leaf.state := weight_pos leaf.state
  have hle := weight_le (g := g) (b := b) leaf.state
  rw [hvisits, if_pos (Leaf.mem_path.mpr htrail.root_mem)]
  omega

/-- The step: a completed iteration keeps the visits rooted. -/
theorem rooted_iterate {w w' : Search.World}
    (h : g.search d (iterate b fuel root) w = (.done (), w')) (hrooted : w.table.Rooted root) :
    w'.table.Rooted root := by
  obtain ⟨leaf, htrail, hvisits, hleads⟩ := iterate_effect h
  have hpos : 0 < weight g b leaf.state := weight_pos leaf.state
  have hroot : root ∈ leaf.path := Leaf.mem_path.mpr htrail.root_mem
  constructor
  · intro s
    have hle := hrooted.visits_le s
    rw [hvisits, hvisits, if_pos hroot]
    split <;> omega
  · intro s hne hvisited
    by_cases hs : s ∈ leaf.path
    · obtain ⟨u, hu, hchild⟩ := htrail.exists_parent (Leaf.mem_path.mp hs) hne
      refine ⟨u, ?_, hleads u s hchild⟩
      rw [hvisits, if_pos (Leaf.mem_path.mpr hu)]
      omega
    · rw [hvisits, if_neg hs] at hvisited
      obtain ⟨u, hu, hchild⟩ := hrooted.exists_parent s hne hvisited
      refine ⟨u, ?_, hleads u s hchild⟩
      rw [hvisits]
      omega

theorem rooted_withRoot : (VisitTable.withRoot root).Rooted root where
  visits_le s := by rw [VisitTable.visits_eq, VisitTable.visits_eq, VisitTable.node_withRoot,
    VisitTable.node_withRoot]
  exists_parent s _ hvisits := by
    rw [VisitTable.visits_eq, VisitTable.node_withRoot] at hvisits
    cases hvisits

/-- The run: the visits stay rooted, however the iterations end. -/
theorem rooted_of_iterated {ends : Outcome Unit → Prop} {w : Search.World}
    (h : Iterated g d b root ends w) : w.table.Rooted root := by
  induction h with
  | start hbooks =>
      rename_i w
      have htable : w.table = .withRoot root := congrArg Books.table hbooks
      rw [htable]
      exact rooted_withRoot
  | step hfrom hrun hends ih =>
      rename_i w w' fuel o
      cases ho : o.isDone with
      | false => exact ih.of_extends (iterate_not_done hrun ho)
      | true =>
          cases o with
          | done _ => exact rooted_iterate hrun ih
          | cut => cases ho
          | fault e => cases ho
  | between hfrom hbooks ih => exact ih.of_extends (extends_of_books hbooks)

/-- The root is visited in every iteration that is counted. The induction is on the number of
iterations that the search has fuel for. -/
theorem iterations_visits_root {n : Nat} {w w' : Search.World} {o : Outcome Unit}
    (h : g.search d (iterations b fuel root n) w = (o, w')) :
    ∃ m, w'.stats.iterations = w.stats.iterations + m ∧
      w.table.visits root + m ≤ w'.table.visits root ∧
      w'.table.visits root ≤ w.table.visits root + m * max 1 b.config.chargesPerExpansion := by
  induction n generalizing w with
  | zero =>
      cases h
      exact ⟨0, rfl, Nat.le_refl _, by omega⟩
  | succ n ih =>
      rw [iterations] at h
      rcases Program.run_bind_cases h with ⟨o', hpoll, -⟩ | ⟨_, w₁, hpoll, h⟩
      · have htable : w'.table = w.table := congrArg Books.table (books_checkpoint hpoll)
        have hcount := iterations_search (asksOnly_checkpoint nofun nofun) hpoll
        refine ⟨0, hcount, ?_, ?_⟩ <;> rw [htable] <;> omega
      · have htable : w₁.table = w.table := congrArg Books.table (books_checkpoint hpoll)
        have hcount := iterations_search (asksOnly_checkpoint nofun nofun) hpoll
        rw [← htable, ← hcount]
        rcases Program.run_bind_cases h with ⟨o', hiterate, ho', -⟩ | ⟨_, w₂, hiterate, h⟩
        · have hvisits := (iterate_not_done hiterate ho').visits root
          refine ⟨0, iterations_search asksOnly_iterate hiterate, ?_, ?_⟩ <;> omega
        · have hcount₂ := iterations_search asksOnly_iterate hiterate
          have hvisits := iterate_visits_root hiterate
          obtain ⟨m, hm, hlow, hhigh⟩ := ih (w := { w₂ with stats := w₂.stats.take .iteration }) h
          change w'.stats.iterations = w₂.stats.iterations + 1 + m at hm
          change w₂.table.visits root + m ≤ w'.table.visits root at hlow
          change w'.table.visits root ≤ w₂.table.visits root + _ at hhigh
          refine ⟨m + 1, by omega, by omega, ?_⟩
          rw [Nat.add_mul]
          omega

/-- The search counts the iterations that it completes, and each of them visits the root. -/
theorem search_visits_root {moves : List Move} {hmoves : moves ≠ []} {w w' : Search.World}
    {o : Outcome Move} (h : g.search d (TreeSearch.search b fuel root moves hmoves) w = (o, w')) :
    ∃ m, w'.stats.iterations = w.stats.iterations + m ∧ m ≤ w'.table.visits root ∧
      w'.table.visits root ≤ m * max 1 b.config.chargesPerExpansion := by
  let planted : Search.World := { w with table := .withRoot root }
  have hfresh : planted.table.visits root = 0 := by
    rw [VisitTable.visits_eq, VisitTable.node_withRoot]
    rfl
  have hrest : ∃ o', g.search d (iterations b fuel root fuel) planted = (o', w') := by
    have hplanted : (discard (iterations b fuel root fuel).attempt >>= fun _ =>
        table >>= fun t => pure (best t b.role root (moves.head hmoves) moves)).run
          (answer g d) planted = (o, w') := h
    rcases Program.run_bind_cases hplanted with ⟨o', hdiscard, -⟩ | ⟨_, w₁, hdiscard, hbest⟩
    · exact Program.run_of_discard_attempt hdiscard
    · cases hbest
      exact Program.run_of_discard_attempt hdiscard
  obtain ⟨o', hrun⟩ := hrest
  obtain ⟨m, hm, hlow, hhigh⟩ := iterations_visits_root hrun
  rw [hfresh] at hlow hhigh
  exact ⟨m, hm, by omega, by omega⟩

/-- Whatever the game, the policies and the clock, a completed iteration adds the same number to the
visits of the states of one path and leaves all other visits alone: the path starts at the root,
follows registered successors and meets no state twice, and the number is 1 if it ends where the game
is over and the number of playouts otherwise. An iteration that is cut off or fails changes no visits
and no total. So no state is visited more often than the root, every visited state but the root
follows a visited one, and a search visits the root once to as often as there are playouts in each of
the iterations that it counts. -/
theorem visits_follow_paths (g : Game) (d : Deadline) (b : Brief) (root : State) :
    (∀ fuel w w', g.search d (iterate b fuel root) w = (.done (), w') →
      ∃ (path : List State) (last : State), path.head? = some root ∧ path.getLast? = some last ∧
        path.IsChain w.table.Leads ∧ path.Nodup ∧
        ∀ s, w'.table.visits s = w.table.visits s + if s ∈ path then
          (if g.isTerminal last then 1 else max 1 b.config.chargesPerExpansion) else 0) ∧
    (∀ fuel w w' o, g.search d (iterate b fuel root) w = (o, w') → o.isDone = false →
      ∀ s, w'.table.visits s = w.table.visits s ∧ w'.table.total s = w.table.total s) ∧
    (∀ w, Iterated g d b root (fun _ => True) w →
      (∀ s, w.table.visits s ≤ w.table.visits root) ∧
      ∀ s, s ≠ root → 0 < w.table.visits s →
        ∃ u, 0 < w.table.visits u ∧ w.table.Leads u s) ∧
    ∀ fuel moves hmoves w w' o,
      g.search d (TreeSearch.search b fuel root moves hmoves) w = (o, w') →
      ∃ m, w'.stats.iterations = w.stats.iterations + m ∧ m ≤ w'.table.visits root ∧
        w'.table.visits root ≤ m * max 1 b.config.chargesPerExpansion := by
  refine ⟨?_, ?_, ?_, ?_⟩
  · intro fuel w w' h
    obtain ⟨leaf, htrail, hvisits, -⟩ := iterate_effect h
    refine ⟨leaf.path, leaf.state, ?_, ?_, ?_, htrail.path_nodup, hvisits⟩
    · rw [Leaf.path, List.head?_reverse, htrail.starts]
    · rw [Leaf.path, List.getLast?_reverse, List.head?_cons]
    · rw [Leaf.path, List.isChain_reverse]
      exact htrail.leads
  · intro fuel w w' o h ho s
    have hextends := iterate_not_done h ho
    exact ⟨hextends.visits s, hextends.total s⟩
  · intro w h
    have hrooted := rooted_of_iterated h
    exact ⟨hrooted.visits_le, hrooted.exists_parent⟩
  · intro fuel moves hmoves w w' o h
    exact search_visits_root h

open Toggle in
/-- The third iteration comes back to the root, and counts once for each of the two states. -/
theorem visits_follow_paths_toggle :
    (world 3).table.visits (stateOf 0) = 3 ∧ (world 3).table.visits (stateOf 1) = 2 ∧
      (∃ u, 0 < (world 3).table.visits u ∧ (world 3).table.Leads u (stateOf 1)) ∧
      ∃ path : List State, path.head? = some (stateOf 0) ∧ path.Nodup ∧
        path.IsChain (world 2).table.Leads := by
  obtain ⟨hcompleted, -, hreached, -⟩ := visits_follow_paths game ⟨1, 0⟩ brief (stateOf 0)
  have hvisits : (world 3).table.visits (stateOf 1) = 2 := by decide +kernel
  obtain ⟨-, hparent⟩ := hreached (world 3) ((iterated_world (Nat.le_refl 3)).imp (by simp))
  have hone := hparent (stateOf 1) (by decide) (by omega)
  obtain ⟨path, -, hroot, -, hchain, hnodup, -⟩ :=
    hcompleted 5 (world 2) (world 3) (iterate_world (Nat.lt_succ_self 2))
  exact ⟨by decide +kernel, hvisits, hone, path, hroot, hnodup, hchain⟩

end TreeSearch

end GeneralGame
