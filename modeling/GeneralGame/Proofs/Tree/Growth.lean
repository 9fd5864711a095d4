import GeneralGame.Proofs.Game.Legal
import GeneralGame.Proofs.Tree.Iteration

/-!
How the visit table grows. After any number of completed iterations its entries are states of the
game that legal joint moves lead to from the root, the expanded states are the visited ones in which
the game is not over, their successors are all there, and every successor was computed once. So the
selection policy only ever chooses among successors that all have an entry.
-/
namespace GeneralGame

open Search

variable {g : Game} {d : Deadline} {b : Brief} {root : State} {fuel : Nat}

namespace Game

/-- The states that legal joint moves lead to. -/
inductive Reachable (g : Game) (root : State) : State → Prop
  | root : g.Reachable root root
  | step {s t : State} {joints : List JointMove} {j : JointMove} (hs : g.Reachable root s)
      (hjoints : g.jointMoves s = .ok joints) (hj : j ∈ joints) (hnext : g.next s j = .ok t) :
      g.Reachable root t

theorem successors_eq_ok {s : State} {children : List Child}
    (h : g.successors s = .ok children) : children ≠ [] ∧
      ∀ c ∈ children, ∀ root, g.Reachable root s → g.Reachable root c.state := by
  unfold successors at h
  cases hjoints : g.jointMoves s with
  | error e =>
      rw [hjoints] at h
      cases h
  | ok joints =>
      rw [hjoints] at h
      obtain ⟨hlength, hmem⟩ := forall_of_mapM_eq_ok h
      have hpos := List.length_pos_iff.mpr (jointMoves_ne_nil hjoints)
      refine ⟨List.length_pos_iff.mp (by omega), ?_⟩
      intro c hc root hs
      obtain ⟨j, hj, hchild⟩ := hmem c hc
      unfold successor at hchild
      cases hnext : g.next s j with
      | error e =>
          rw [hnext] at hchild
          cases hchild
      | ok t =>
          rw [hnext] at hchild
          cases hchild
          exact .step hs hjoints hj hnext

end Game

namespace TreeSearch

/-- The books of a search that has expanded exactly those of the states that it has `met` in which
the game is not over. -/
structure Grown (g : Game) (root : State) (met : State → Prop) (books : Books) : Prop where
  root_mem : books.table.contains root = true
  reachable : ∀ s, books.table.contains s = true → g.Reachable root s
  successors : ∀ s children, books.table.children? s = some children →
    g.successors s = .ok children
  entries : ∀ s u, books.table.Leads s u → books.table.contains u = true
  expanded_iff : ∀ s,
    (books.table.children? s).isSome = true ↔ met s ∧ g.isTerminal s = false
  nodes_eq : books.nodes = books.table.successorCount

theorem grown_withRoot :
    Grown g root (fun s => 0 < (VisitTable.withRoot root).visits s) ⟨.withRoot root, 0⟩ where
  root_mem := by simp
  reachable s h := by
    have hs : root = s := by simpa using h
    rw [← hs]
    exact .root
  successors s children h := by
    rw [VisitTable.children?_eq, VisitTable.node_withRoot] at h
    cases h
  entries s u h := by
    obtain ⟨children, h, -⟩ := h
    rw [VisitTable.children?_eq, VisitTable.node_withRoot] at h
    cases h
  expanded_iff s := by
    rw [VisitTable.children?_eq, VisitTable.visits_eq, VisitTable.node_withRoot]
    simp [Node.new]
  nodes_eq := VisitTable.successorCount_withRoot.symm

namespace Grown

variable {met : State → Prop} {t : VisitTable} {nodes : Nat} {s : State}

/-- Only what is said of states in which the game is not over matters. -/
theorem congr_met {met' : State → Prop} {books : Books} (h : Grown g root met books)
    (hmet : ∀ s, g.isTerminal s = false → (met s ↔ met' s)) : Grown g root met' books where
  root_mem := h.root_mem
  reachable := h.reachable
  successors := h.successors
  entries := h.entries
  expanded_iff s := by
    rw [h.expanded_iff s]
    exact and_congr_left (hmet s)
  nodes_eq := h.nodes_eq

theorem contains_of_trail (h : Grown g root met ⟨t, nodes⟩) {u : State} {above : List State}
    (htrail : Trail t root s above) (hu : u ∈ s :: above) : t.contains u = true := by
  by_cases hroot : u = root
  · rw [hroot]
    exact h.root_mem
  · obtain ⟨v, -, hleads⟩ := htrail.exists_parent hu hroot
    exact h.entries v u hleads

/-- The successors of a state that was not expanded before are entered, each of them counted. -/
theorem enter {children : List Child} (h : Grown g root met ⟨t, nodes⟩)
    (hs : t.contains s = true) (hterminal : g.isTerminal s = false)
    (hchildren : t.children? s = none) (hsuccessors : g.successors s = .ok children) :
    Grown g root (fun u => met u ∨ u = s)
      ⟨(t.registerAll children).expand s children, nodes + children.length⟩ where
  root_mem := VisitTable.contains_expand_registerAll.mpr (.inr (.inr h.root_mem))
  reachable u hu := by
    obtain ⟨-, hreachable⟩ := Game.successors_eq_ok hsuccessors
    rcases VisitTable.contains_expand_registerAll.mp hu with rfl | ⟨c, hc, rfl⟩ | hu
    · exact h.reachable s hs
    · exact hreachable c hc root (h.reachable s hs)
    · exact h.reachable u hu
  successors u us hus := by
    rw [VisitTable.children?_expand_registerAll] at hus
    split at hus
    · rename_i heq
      cases hus
      rw [← heq]
      exact hsuccessors
    · exact h.successors u us hus
  entries u v hleads := by
    obtain ⟨us, hus, c, hc, rfl⟩ := hleads
    rw [VisitTable.children?_expand_registerAll] at hus
    apply VisitTable.contains_expand_registerAll.mpr
    split at hus
    · cases hus
      exact .inr (.inl ⟨c, hc, rfl⟩)
    · exact .inr (.inr (h.entries u c.state ⟨us, hus, c, hc, rfl⟩))
  expanded_iff u := by
    rw [VisitTable.children?_expand_registerAll]
    by_cases hu : s = u
    · subst hu
      simp [hterminal]
    · rw [if_neg hu, h.expanded_iff u]
      simp [Ne.symm hu]
  nodes_eq := by
    have hnone : (t.registerAll children).children? s = none := by
      rw [VisitTable.children?_registerAll, hchildren]
    rw [VisitTable.successorCount_expand hnone,
      VisitTable.successorCount_congr fun _ => VisitTable.children?_registerAll, ← h.nodes_eq]

/-- An expansion adds the state that it expands to those met. -/
theorem expansion {old new : Books} (h : Grown g root met old)
    (hs : old.table.contains s = true) (hterminal : g.isTerminal s = false)
    (hexpansion : Expansion g s old new) : Grown g root (fun u => met u ∨ u = s) new := by
  cases hexpansion with
  | before hchildren hbooks =>
      subst hbooks
      apply h.congr_met
      intro u _
      have hmet := (h.expanded_iff s).mp (by rw [hchildren]; rfl)
      constructor
      · exact .inl
      · rintro (hu | rfl)
        · exact hu
        · exact hmet.1
  | now hchildren hsuccessors hbooks =>
      subst hbooks
      exact h.enter hs hterminal hchildren hsuccessors

/-- A backup visits the states on the way, of which only the last one was not visited before. -/
theorem backup {leaf : Leaf}
    (h : Grown g root (fun u => 0 < t.visits u ∨ u = leaf.state) ⟨t, nodes⟩)
    (htrail : Trail t root leaf.state leaf.above) {visits : Nat} (hvisits : 0 < visits)
    (reward : Float) :
    Grown g root (fun u => 0 < (t.backup leaf.path visits reward).visits u)
      ⟨t.backup leaf.path visits reward, nodes⟩ where
  root_mem := by
    rw [VisitTable.contains_backup, h.root_mem, Bool.or_true]
  reachable u hu := by
    rw [VisitTable.contains_backup, Bool.or_eq_true, decide_eq_true_eq] at hu
    rcases hu with hu | hu
    · exact h.reachable u (h.contains_of_trail htrail (Leaf.mem_path.mp hu))
    · exact h.reachable u hu
  successors u children hchildren := by
    rw [VisitTable.children?_backup] at hchildren
    exact h.successors u children hchildren
  entries u v hleads := by
    rw [VisitTable.contains_backup, h.entries u v (VisitTable.leads_backup.mp hleads),
      Bool.or_true]
  expanded_iff u := by
    have hmet : (0 < t.visits u ∨ u = leaf.state) ↔
        0 < (t.backup leaf.path visits reward).visits u := by
      rw [VisitTable.visits_backup htrail.path_nodup]
      by_cases hu : u ∈ leaf.path
      · rw [if_pos hu]
        constructor
        · intro _
          omega
        · intro _
          rcases List.mem_cons.mp (Leaf.mem_path.mp hu) with heq | habove
          · exact .inr heq
          · exact .inl (htrail.visited u habove)
      · rw [if_neg hu, Nat.add_zero, or_iff_left]
        rintro rfl
        exact hu (Leaf.mem_path.mpr List.mem_cons_self)
    rw [VisitTable.children?_backup, h.expanded_iff u, hmet]
  nodes_eq := by
    rw [h.nodes_eq, VisitTable.successorCount_congr fun _ => VisitTable.children?_backup]

/-- The step: a completed iteration keeps the books grown. -/
theorem iterate {w w' : Search.World}
    (h : Grown g root (fun u => 0 < w.table.visits u) w.books)
    (hrun : g.search d (TreeSearch.iterate b fuel root) w = (.done (), w')) :
    Grown g root (fun u => 0 < w'.table.visits u) w'.books := by
  obtain ⟨leaf, htrail, hiteration⟩ := iterate_done hrun
  cases hiteration with
  | ended hterminal reward hbooks =>
      have htable : w'.table = w.table.backup leaf.path 1 reward := congrArg Books.table hbooks
      have hmet : Grown g root (fun u => 0 < w.table.visits u ∨ u = leaf.state) w.books := by
        apply h.congr_met
        intro u hu
        have hne : u ≠ leaf.state := by
          rintro rfl
          rw [hterminal] at hu
          cases hu
        rw [or_iff_left hne]
      rw [hbooks, htable]
      exact hmet.backup htrail Nat.one_pos reward
  | played hterminal hexpansion reward hbooks =>
      rename_i mid
      have htable : w'.table = mid.table.backup leaf.path (max 1 b.config.chargesPerExpansion)
          reward := congrArg Books.table hbooks
      have hleaf := h.contains_of_trail htrail List.mem_cons_self
      have hmid : Grown g root (fun u => 0 < mid.table.visits u ∨ u = leaf.state) mid := by
        simp only [hexpansion.extends.visits]
        exact h.expansion hleaf hterminal hexpansion
      rw [hbooks, htable]
      exact hmid.backup (htrail.of_extends hexpansion.extends) (by omega) reward

end Grown

/-- The run: the books are grown after any number of completed iterations. -/
theorem grown_of_iterated {w : Search.World} (h : Iterated g d b root (· = .done ()) w) :
    Grown g root (fun u => 0 < w.table.visits u) w.books := by
  induction h with
  | start hbooks =>
      rename_i w
      have htable : w.table = .withRoot root := congrArg Books.table hbooks
      rw [hbooks, htable]
      exact grown_withRoot
  | step hfrom hrun hends ih =>
      subst hends
      exact ih.iterate hrun
  | between hfrom hbooks ih =>
      rename_i w w'
      have htable : w'.table = w.table := congrArg Books.table hbooks
      rw [hbooks, htable]
      exact ih

end TreeSearch

end GeneralGame
