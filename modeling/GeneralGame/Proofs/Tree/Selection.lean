import GeneralGame.Proofs.Tree.Growth

/-!
What the selection policy is asked. In every table that completed iterations lead to, the successors
of a visited state have entries. So two policies that agree on lists without gaps choose the same
paths, whatever they would do otherwise.
-/
namespace GeneralGame

open Search

variable {g : Game} {d : Deadline} {b : Brief} {root : State} {fuel : Nat}

/-- The policies choose alike wherever every successor has an entry. -/
def SelectionPolicy.AgreeOnEntries (p q : SelectionPolicy) : Prop :=
  ∀ turn config parent children h, (∀ c ∈ children, Option.isSome c = true) →
    p turn config parent children h = q turn config parent children h

/-- The brief with another selection policy. -/
def Brief.withSelection (b : Brief) (p : SelectionPolicy) : Brief := { b with selection := p }

namespace TreeSearch

variable {p : SelectionPolicy}

theorem follow_congr {w : Search.World} (hagree : p.AgreeOnEntries b.selection)
    (hentries : ∀ s u, w.table.Leads s u → w.table.contains u = true) (s : State) :
    g.search d (follow (b.withSelection p) s) w = g.search d (follow b s) w := by
  rw [follow, follow, search_table_bind, search_table_bind]
  cases hnode : (w.table.get? s).filter Node.isVisited with
  | none => rfl
  | some node =>
      obtain ⟨hget, -⟩ := VisitTable.isVisited_iff.mp hnode
      have hchildren : w.table.children? s = node.children := by
        rw [VisitTable.children?, hget, Option.bind_some]
      have hfull : ∀ c ∈ (node.children.getD []).map fun c => w.table.get? c.state,
          Option.isSome c = true := by
        intro entry hentry
        obtain ⟨c, hc, rfl⟩ := List.mem_map.mp hentry
        rw [← VisitTable.contains_eq_isSome]
        rw [← hchildren] at hc
        exact hentries s c.state (VisitTable.leads_of_mem hc)
      dsimp only
      split
      · rfl
      · rename_i hne
        rw [search_selectionTurn_bind, search_selectionTurn_bind]
        have hchoice := hagree w.selections b.config node _ hne hfull
        simp only [Brief.withSelection, hchoice]

theorem descend_congr {w : Search.World} (hagree : p.AgreeOnEntries b.selection)
    (hentries : ∀ s u, w.table.Leads s u → w.table.contains u = true) (s : State)
    (above : List State) :
    g.search d (descend (b.withSelection p) fuel s above) w =
      g.search d (descend b fuel s above) w := by
  induction fuel generalizing s above w with
  | zero => rfl
  | succ fuel ih =>
      rw [descend, descend]
      apply Program.run_bind_congr rfl
      intro _ w₁ hpoll
      have htable₁ : w₁.table = w.table := congrArg Books.table (books_checkpoint hpoll)
      apply Program.run_bind_congr rfl
      intro terminal w₂ hquery
      obtain ⟨-, rfl⟩ := search_query_eq_done hquery
      cases terminal with
      | true => rfl
      | false =>
          have hfollow : g.search d (follow (b.withSelection p) s) w₁ =
              g.search d (follow b s) w₁ := by
            apply follow_congr hagree
            rw [htable₁]
            exact hentries
          apply Program.run_bind_congr hfollow
          intro next w₃ hnext
          have htable₃ : w₃.table = w₁.table :=
            congrArg Books.table (books_search (keepsBooks_follow s) hnext)
          cases next with
          | none => rfl
          | some next =>
              dsimp only
              by_cases hseen : next ∈ s :: above
              · rw [if_pos hseen, if_pos hseen]
              · rw [if_neg hseen, if_neg hseen]
                apply ih
                rw [htable₃, htable₁]
                exact hentries

theorem sumOfCharges_withSelection (s : State) (n : Nat) (sum : Float) :
    sumOfCharges (b.withSelection p) fuel s n sum = sumOfCharges b fuel s n sum := by
  induction n generalizing sum with
  | zero => rfl
  | succ n ih =>
      rw [sumOfCharges, sumOfCharges]
      simp only [ih]
      rfl

theorem iterate_congr {w : Search.World} (hagree : p.AgreeOnEntries b.selection)
    (hentries : ∀ s u, w.table.Leads s u → w.table.contains u = true) :
    g.search d (iterate (b.withSelection p) fuel root) w =
      g.search d (iterate b fuel root) w := by
  apply Program.run_bind_congr (descend_congr hagree hentries root [])
  intro leaf w₁ _
  cases leaf.goal with
  | some goal => rfl
  | none =>
      simp only [sumOfCharges_withSelection]
      rfl

/-- After any number of completed iterations from a fresh table: the root has an entry, and every
entry belongs to a state that legal joint moves lead to from there; the successors of a state are
those by all its legal joint moves, in order, there are some, and all of them have entries; a state
was expanded exactly if it was visited and the game is not over in it; and the nodes are the
successors of the expanded states, each counted once. So an iteration shows the selection policy
nothing but successors with entries: it runs in the same way under any policy that agrees on those. -/
theorem table_grows_by_expansion {w : Search.World} (h : Iterated g d b root (· = .done ()) w) :
    (w.table.contains root = true ∧ ∀ s, w.table.contains s = true → g.Reachable root s) ∧
    (∀ s children, w.table.children? s = some children →
      g.successors s = .ok children ∧ children ≠ [] ∧
        ∀ c ∈ children, w.table.contains c.state = true) ∧
    (∀ s, (w.table.children? s).isSome = true ↔
      0 < w.table.visits s ∧ g.isTerminal s = false) ∧
    w.stats.nodes = w.table.successorCount ∧
    ∀ p : SelectionPolicy, p.AgreeOnEntries b.selection → ∀ fuel,
      g.search d (iterate (b.withSelection p) fuel root) w =
        g.search d (iterate b fuel root) w := by
  have hgrown := grown_of_iterated h
  refine ⟨⟨hgrown.root_mem, hgrown.reachable⟩, ?_, hgrown.expanded_iff, hgrown.nodes_eq, ?_⟩
  · intro s children hchildren
    have hsuccessors := hgrown.successors s children hchildren
    refine ⟨hsuccessors, (Game.successors_eq_ok hsuccessors).1, ?_⟩
    intro c hc
    exact hgrown.entries s c.state ⟨children, hchildren, c, hc, rfl⟩
  · intro p hagree fuel
    exact iterate_congr hagree hgrown.entries

open Toggle in
/-- Three iterations expand both states of the cycle, and compute two successors of each. -/
theorem table_grows_by_expansion_toggle :
    (world 3).stats.nodes = 4 ∧ (world 3).table.successorCount = 4 ∧
      ((world 3).table.children? (stateOf 1)).isSome = true := by
  obtain ⟨-, -, hexpanded, hnodes, -⟩ :=
    table_grows_by_expansion (iterated_world (Nat.le_refl 3))
  have hcount : (world 3).stats.nodes = 4 := by decide +kernel
  have hvisits : 0 < (world 3).table.visits (stateOf 1) := by decide +kernel
  exact ⟨hcount, by omega, (hexpanded (stateOf 1)).mpr ⟨hvisits, by decide⟩⟩

end TreeSearch

end GeneralGame
