import GeneralGame.Proofs.Tree.Descent

/-!
How a tree search expands a state. The successors by all legal joint moves are registered one after
the other, each of them a node, and only then the state counts as expanded. Where an error comes in
between, the entries that the table had stay as they were.
-/
namespace GeneralGame

open Search

variable {α β : Type} {g : Game} {d : Deadline} {b : Brief}

namespace Game

/-- The joint move and the state that it leads to. -/
def successor (g : Game) (s : State) (j : JointMove) : Except Fault Child :=
  return ⟨j, ← (g.next s j).mapError .error⟩

/-- The successors of a state by every legal joint move. -/
def successors (g : Game) (s : State) : Except Fault (List Child) := do
  (← g.jointMoves s).mapM (g.successor s)

theorem mapM_successor_cons {s : State} {j : JointMove} {joints : List JointMove} {t : State}
    {children : List Child} (hnext : g.next s j = .ok t)
    (hrest : joints.mapM (g.successor s) = .ok children) :
    (j :: joints).mapM (g.successor s) = .ok (⟨j, t⟩ :: children) := by
  rw [List.mapM_cons, successor, hnext, hrest]
  rfl

end Game

namespace VisitTable

/-- Every successor gets an entry, if it has none. -/
def registerAll (t : VisitTable) (children : List Child) : VisitTable :=
  children.foldl (fun t c => t.register c.state) t

theorem node_registerAll {t : VisitTable} {children : List Child} {u : State} :
    (t.registerAll children).node u = t.node u := by
  induction children generalizing t with
  | nil => rfl
  | cons c children ih => exact ih.trans node_register

theorem contains_registerAll {t : VisitTable} {children : List Child} {u : State} :
    (t.registerAll children).contains u = true ↔
      (∃ c ∈ children, c.state = u) ∨ t.contains u = true := by
  induction children generalizing t with
  | nil => simp [registerAll]
  | cons c children ih =>
      change ((t.register c.state).registerAll children).contains u = true ↔ _
      rw [ih]
      simp [or_assoc, or_left_comm]

theorem children?_registerAll {t : VisitTable} {children : List Child} {u : State} :
    (t.registerAll children).children? u = t.children? u := by
  rw [children?_eq, node_registerAll, ← children?_eq]

theorem contains_expand_registerAll {t : VisitTable} {children : List Child} {s u : State} :
    ((t.registerAll children).expand s children).contains u = true ↔
      s = u ∨ (∃ c ∈ children, c.state = u) ∨ t.contains u = true := by
  rw [contains_expand, Bool.or_eq_true, decide_eq_true_eq, contains_registerAll]

theorem children?_expand_registerAll {t : VisitTable} {children : List Child} {s u : State} :
    ((t.registerAll children).expand s children).children? u =
      if s = u then some children else t.children? u := by
  rw [children?_expand, children?_registerAll]

/-- A later table, in which every state has the visits, the total and the successors that it had
before. -/
structure Extends (t t' : VisitTable) : Prop where
  visits : ∀ s, t'.visits s = t.visits s
  total : ∀ s, t'.total s = t.total s
  children : ∀ s children, t.children? s = some children → t'.children? s = some children

theorem Extends.trans {t t' t'' : VisitTable} (h : t.Extends t') (h' : t'.Extends t'') :
    t.Extends t'' where
  visits s := (h'.visits s).trans (h.visits s)
  total s := (h'.total s).trans (h.total s)
  children s children hs := h'.children s children (h.children s children hs)

theorem Extends.leads {t t' : VisitTable} (h : t.Extends t') {s u : State} (hleads : t.Leads s u) :
    t'.Leads s u := by
  obtain ⟨children, hchildren, c, hc, hstate⟩ := hleads
  exact ⟨children, h.children s children hchildren, c, hc, hstate⟩

theorem extends_of_node {t t' : VisitTable} (h : ∀ s, t'.node s = t.node s) : t.Extends t' where
  visits s := by rw [visits_eq, h, visits_eq]
  total s := by rw [total, h, total]
  children s children hs := by rw [children?_eq, h, ← children?_eq, hs]

theorem extends_expand {t : VisitTable} {s : State} {children : List Child}
    (h : t.children? s = none) : t.Extends (t.expand s children) where
  visits _ := visits_expand
  total _ := total_expand
  children u us hu := by
    have hne : s ≠ u := by
      rintro rfl
      rw [h] at hu
      cases hu
    rw [children?_expand, if_neg hne, hu]

end VisitTable

namespace TreeSearch

theorem Trail.of_extends {t t' : VisitTable} {root s : State} {above : List State}
    (h : Trail t root s above) (hextends : t.Extends t') : Trail t' root s above where
  leads := h.leads.imp fun _ _ hleads => hextends.leads hleads
  nodup := h.nodup
  starts := h.starts
  visited u hu := by
    rw [hextends.visits]
    exact h.visited u hu

/-- Computes the state after a joint move and registers it. -/
def enter (s : State) (j : JointMove) : Search Child := do
  let t ← next s j
  register t
  return ⟨j, t⟩

theorem expand_eq (s : State) : expand s = table >>= fun table =>
    if (table.get? s).any Node.isExpanded then pure ()
    else query (.jointMoves s) >>= fun joints => joints.mapM (enter s) >>= setChildren s := by
  rw [expand]
  congr

theorem enter_done {s : State} {j : JointMove} {c : Child} {w w' : Search.World}
    (h : g.search d (enter s j) w = (.done c, w')) :
    g.next s j = .ok c.state ∧ c.joint = j ∧
      w'.books = ⟨w.table.register c.state, w.stats.nodes + 1⟩ := by
  obtain ⟨t, w₁, hnext, h⟩ := Program.run_bind_eq_done.mp h
  obtain ⟨_, w₂, hnote, hquery⟩ := Program.run_bind_eq_done.mp hnext
  cases hnote
  obtain ⟨hanswer, rfl⟩ := search_query_eq_done hquery
  cases h
  exact ⟨Game.answer_next.mp hanswer, rfl, rfl⟩

theorem mapM_enter_done {s : State} {joints : List JointMove} {children : List Child}
    {w w' : Search.World} (h : g.search d (joints.mapM (enter s)) w = (.done children, w')) :
    joints.mapM (g.successor s) = .ok children ∧
      w'.books = ⟨w.table.registerAll children, w.stats.nodes + children.length⟩ := by
  induction joints generalizing children w with
  | nil =>
      rw [List.mapM_nil] at h
      cases h
      exact ⟨rfl, rfl⟩
  | cons j joints ih =>
      rw [List.mapM_cons] at h
      obtain ⟨c, w₁, hfirst, h⟩ := Program.run_bind_eq_done.mp h
      obtain ⟨rest, w₂, hrest, h⟩ := Program.run_bind_eq_done.mp h
      cases h
      obtain ⟨hnext, rfl, hbooks⟩ := enter_done hfirst
      obtain ⟨hsuccessors, hbooks'⟩ := ih hrest
      refine ⟨Game.mapM_successor_cons hnext hsuccessors, ?_⟩
      have htable : w₁.table = w.table.register c.state := congrArg Books.table hbooks
      have hnodes : w₁.stats.nodes = w.stats.nodes + 1 := congrArg Books.nodes hbooks
      rw [hbooks', htable, hnodes, List.length_cons, Nat.add_assoc, Nat.add_comm 1]
      rfl

/-- What a completed expansion leaves behind: the books as they were, if the state was expanded
before, and else with all its successors registered and counted. -/
inductive Expansion (g : Game) (s : State) (old new : Search.Books) : Prop
  | before {children : List Child} (hchildren : old.table.children? s = some children)
      (hbooks : new = old)
  | now {children : List Child} (hchildren : old.table.children? s = none)
      (hsuccessors : g.successors s = .ok children)
      (hbooks : new = ⟨(old.table.registerAll children).expand s children,
        old.nodes + children.length⟩)

theorem expand_of_expanded {s : State} {w w' : Search.World} {o : Outcome Unit}
    (hchildren : (w.table.children? s).isSome = true)
    (h : g.search d (expand s) w = (o, w')) : o = .done () ∧ w = w' := by
  rw [expand_eq, search_table_bind, VisitTable.any_isExpanded, if_pos hchildren] at h
  cases h
  exact ⟨rfl, rfl⟩

/-- The successors of a state that was not expanded before are entered, and then noted down. -/
theorem expand_of_unexpanded {s : State} {w : Search.World}
    (hchildren : w.table.children? s = none) :
    g.search d (expand s) w =
      g.search d (query (.jointMoves s) >>= fun joints => joints.mapM (enter s) >>= setChildren s)
        w := by
  rw [expand_eq, search_table_bind, VisitTable.any_isExpanded, hchildren]
  rfl

theorem expand_done {s : State} {w w' : Search.World}
    (h : g.search d (expand s) w = (.done (), w')) : Expansion g s w.books w'.books := by
  cases hchildren : w.table.children? s with
  | some children =>
      obtain ⟨-, rfl⟩ := expand_of_expanded (by rw [hchildren]; rfl) h
      exact .before hchildren rfl
  | none =>
      rw [expand_of_unexpanded hchildren] at h
      obtain ⟨joints, w₁, hquery, h⟩ := Program.run_bind_eq_done.mp h
      obtain ⟨hanswer, rfl⟩ := search_query_eq_done hquery
      obtain ⟨children, w₂, henter, h⟩ := Program.run_bind_eq_done.mp h
      obtain ⟨hsuccessors, hbooks⟩ := mapM_enter_done henter
      cases h
      have hjoints : g.jointMoves s = .ok joints := hanswer
      have htable : w₂.table = w.table.registerAll children := congrArg Books.table hbooks
      have hnodes : w₂.stats.nodes = w.stats.nodes + children.length :=
        congrArg Books.nodes hbooks
      refine .now hchildren (?_ : g.successors s = .ok children) ?_
      · rw [Game.successors, hjoints]
        exact hsuccessors
      · change Books.mk (w₂.table.expand s children) w₂.stats.nodes = _
        rw [htable, hnodes]
        rfl

/-- The request changes no entry that the visit table has. -/
def KeepsEntries : SearchRequest → Prop
  | .plant _ => False
  | .setChildren .. => False
  | .backup .. => False
  | _ => True

theorem node_answer (q : SearchRequest) (w : Search.World) (h : KeepsEntries q) :
    (answer g d q w).2.table.node = w.table.node := by
  cases q with
  | plant root => exact h.elim
  | setChildren s children => exact h.elim
  | backup path visits reward => exact h.elim
  | register s =>
      funext u
      exact VisitTable.node_register
  | _ => rfl

theorem extends_search {p : Search α} (hp : p.AsksOnly KeepsEntries) {w w' : Search.World}
    {o : Outcome α} (h : g.search d p w = (o, w')) : w.table.Extends w'.table := by
  have hnode := view_search (fun w => w.table.node) node_answer hp h
  exact VisitTable.extends_of_node fun s => congrFun hnode s

theorem keepsEntries_query (q : Query) : (query q).AsksOnly KeepsEntries :=
  ⟨trivial, fun _ => trivial⟩

theorem keepsEntries_enter (s : State) (j : JointMove) : (enter s j).AsksOnly KeepsEntries :=
  ⟨trivial, fun _ => ⟨trivial, fun _ => ⟨trivial, fun _ => trivial⟩⟩⟩

theorem Expansion.extends {s : State} {old new : Search.Books} (h : Expansion g s old new) :
    old.table.Extends new.table := by
  cases h with
  | before hchildren hbooks =>
      rw [hbooks]
      exact VisitTable.extends_of_node fun _ => rfl
  | now hchildren hsuccessors hbooks =>
      rw [hbooks]
      apply (VisitTable.extends_of_node fun u => VisitTable.node_registerAll).trans
      apply VisitTable.extends_expand
      rw [VisitTable.children?_registerAll, hchildren]

/-- However an expansion ends, it leaves the visits, the totals and the successors there were. -/
theorem expand_extends {s : State} {w w' : Search.World} {o : Outcome Unit}
    (h : g.search d (expand s) w = (o, w')) : w.table.Extends w'.table := by
  cases hchildren : w.table.children? s with
  | some children =>
      obtain ⟨-, rfl⟩ := expand_of_expanded (by rw [hchildren]; rfl) h
      exact VisitTable.extends_of_node fun _ => rfl
  | none =>
      have hdone : g.search d (expand s) w = (.done (), w') → Expansion g s w.books w'.books :=
        expand_done
      rw [expand_of_unexpanded hchildren] at h hdone
      rcases Program.run_bind_cases h with ⟨o', hquery, -⟩ | ⟨joints, w₁, hquery, hrest⟩
      · exact extends_search (keepsEntries_query (.jointMoves s)) hquery
      · obtain ⟨-, rfl⟩ := search_query_eq_done hquery
        rcases Program.run_bind_cases hrest with ⟨o', henter, -⟩ | ⟨children, w₂, -, hset⟩
        · exact extends_search (Program.asksOnly_mapM (keepsEntries_enter s)) henter
        · cases hset
          exact (hdone h).extends

end TreeSearch

end GeneralGame
