import GeneralGame.Proofs.Play.Requests
import GeneralGame.Proofs.Tree.Table
import GeneralGame.Search.Sampling.TreeSearch

/-!
How a tree search goes down. A descent changes nothing in the visit table. It follows registered
successors through visited states, never meets a state twice, and stops in a state of which it knows
whether the game is over there.
-/
namespace GeneralGame

open Search

variable {α β : Type} {g : Game} {d : Deadline} {b : Brief}

/-! ### What a search keeps -/

namespace Search

/-- What a tree search keeps account of. -/
structure Books where
  table : VisitTable
  nodes : Nat

def World.books (w : World) : Books := ⟨w.table, w.stats.nodes⟩

/-- The request writes nothing into the books, and counts no iteration. -/
def KeepsBooks : SearchRequest → Prop
  | .note .node => False
  | .note .iteration => False
  | .plant _ => False
  | .register _ => False
  | .setChildren .. => False
  | .backup .. => False
  | _ => True

theorem books_answer (q : SearchRequest) (w : World) (h : KeepsBooks q) :
    (answer g d q w).2.books = w.books := by
  cases q with
  | note n =>
      cases n with
      | node => exact h.elim
      | iteration => exact h.elim
      | _ => rfl
  | plant root => exact h.elim
  | register s => exact h.elim
  | setChildren s children => exact h.elim
  | backup path visits reward => exact h.elim
  | _ => rfl

/-- What no request of a search changes, the search does not change. -/
theorem view_search {View : Type} (view : World → View) {allowed : SearchRequest → Prop}
    (hview : ∀ q w, allowed q → view (answer g d q w).2 = view w) {p : Search α}
    (hp : p.AsksOnly allowed) {w w' : World} {o : Outcome α} (h : g.search d p w = (o, w')) :
    view w' = view w := by
  have hrun : p.run (answer g d) w = (o, w') := h
  have hkept := Program.view_run hview hp w
  rw [hrun] at hkept
  exact hkept

theorem books_search {p : Search α} (hp : p.AsksOnly KeepsBooks) {w w' : World} {o : Outcome α}
    (h : g.search d p w = (o, w')) : w'.books = w.books := view_search World.books books_answer hp h

theorem asksOnly_ofPlay {allowed : SearchRequest → Prop} (hplay : ∀ q, allowed (.play q))
    (p : Play α) : (ofPlay p).AsksOnly allowed := by
  induction p with
  | pure a => trivial
  | cut => trivial
  | fault e => trivial
  | ask q next ih => exact ⟨hplay q, ih⟩

theorem asksOnly_request {allowed : SearchRequest → Prop} {q : SearchRequest} (h : allowed q) :
    (request q).AsksOnly allowed := ⟨h, fun _ => trivial⟩

theorem asksOnly_checkpoint {allowed : SearchRequest → Prop} (hpoll : allowed (.play .poll))
    (hnote : allowed (.note .interrupted)) : checkpoint.AsksOnly allowed := by
  apply Program.asksOnly_bind (asksOnly_request hpoll)
  intro expired
  cases expired with
  | true => exact ⟨hnote, fun _ => trivial⟩
  | false => trivial

theorem books_checkpoint {w w' : World} {o : Outcome Unit}
    (h : g.search d checkpoint w = (o, w')) : w'.books = w.books :=
  books_search (asksOnly_checkpoint trivial trivial) h

theorem search_query_eq_done {q : Query} {a : q.Answer} {w w' : World}
    (h : g.search d (query q) w = (.done a, w')) : g.answer q = .ok a ∧ w = w' := by
  simp only [Game.search, query, request, Program.run, answer, Play.answer] at h
  cases hanswer : g.answer q with
  | error e =>
      rw [hanswer] at h
      cases h
  | ok a' =>
      rw [hanswer] at h
      cases h
      exact ⟨rfl, rfl⟩

theorem search_query_eq_fault {q : Query} {f : Fault} {w w' : World}
    (h : g.search d (query q) w = (.fault f, w')) : g.answer q = .error f :=
  congrArg Prod.fst (Program.run_request_eq_fault.mp h)

end Search

namespace TreeSearch

/-- The way down from the root to `s`, which the states of `above` have led to: successors of
visited states, none of them twice. -/
structure Trail (t : VisitTable) (root s : State) (above : List State) : Prop where
  leads : (s :: above).IsChain fun u v => t.Leads v u
  nodup : (s :: above).Nodup
  starts : (s :: above).getLast? = some root
  visited : ∀ u ∈ above, 0 < t.visits u

namespace Trail

variable {t : VisitTable} {root s : State} {above : List State}

theorem start : Trail t root root [] where
  leads := .singleton root
  nodup := List.nodup_singleton root
  starts := rfl
  visited _ h := nomatch h

theorem extend {next : State} (h : Trail t root s above) (hleads : t.Leads s next)
    (hvisited : 0 < t.visits s) (hnew : next ∉ s :: above) : Trail t root next (s :: above) where
  leads := List.isChain_cons_cons.mpr ⟨hleads, h.leads⟩
  nodup := List.nodup_cons.mpr ⟨hnew, h.nodup⟩
  starts := by rw [List.getLast?_cons_cons, h.starts]
  visited u hu := by
    rcases List.mem_cons.mp hu with rfl | hu
    · exact hvisited
    · exact h.visited u hu

theorem root_mem (h : Trail t root s above) : root ∈ s :: above :=
  List.mem_of_getLast? h.starts

/-- Every state on the way but the root is led to by another one. -/
theorem exists_parent (h : Trail t root s above) {u : State} (hu : u ∈ s :: above)
    (hne : u ≠ root) : ∃ v ∈ s :: above, t.Leads v u := by
  have hchain := h.leads
  have hlast := h.starts
  generalize s :: above = path at hu hchain hlast
  induction path with
  | nil => cases hu
  | cons first path ih =>
      cases path with
      | nil =>
          rw [List.mem_singleton] at hu
          rw [List.getLast?_singleton] at hlast
          cases hlast
          exact absurd hu hne
      | cons second path =>
          obtain ⟨hleads, hrest⟩ := List.isChain_cons_cons.mp hchain
          rcases List.mem_cons.mp hu with rfl | hu
          · exact ⟨second, List.mem_cons_of_mem _ List.mem_cons_self, hleads⟩
          · rw [List.getLast?_cons_cons] at hlast
            obtain ⟨v, hv, hleads⟩ := ih hu hrest hlast
            exact ⟨v, List.mem_cons_of_mem first hv, hleads⟩

end Trail

theorem Leaf.mem_path {leaf : Leaf} {s : State} : s ∈ leaf.path ↔ s ∈ leaf.state :: leaf.above :=
  List.mem_reverse

theorem Trail.path_nodup {t : VisitTable} {leaf : Leaf}
    {root : State} (h : Trail t root leaf.state leaf.above) : leaf.path.Nodup :=
  List.nodup_reverse.mpr h.nodup

theorem search_table_bind (w : World) (f : VisitTable → Search α) :
    g.search d (table >>= f) w = g.search d (f w.table) w := rfl

theorem search_selectionTurn_bind (w : World) (f : Nat → Search α) :
    g.search d (selectionTurn >>= f) w =
      g.search d (f w.selections) { w with selections := w.selections + 1 } := rfl

theorem keepsBooks_follow (s : State) : (follow b s).AsksOnly KeepsBooks := by
  apply Program.asksOnly_bind (asksOnly_request trivial)
  intro table
  cases (table.get? s).filter Node.isVisited with
  | none => trivial
  | some node =>
      dsimp only
      split
      · trivial
      · apply Program.asksOnly_bind (asksOnly_request trivial)
        intro turn
        trivial

/-- The selection policy goes on to a successor of a visited state. -/
theorem follow_done {s next : State} {w w' : Search.World}
    (h : g.search d (follow b s) w = (.done (some next), w')) :
    w.table.Leads s next ∧ 0 < w.table.visits s := by
  rw [follow, search_table_bind] at h
  cases hnode : (w.table.get? s).filter Node.isVisited with
  | none =>
      rw [hnode] at h
      cases h
  | some node =>
      obtain ⟨hget, hvisited⟩ := VisitTable.isVisited_iff.mp hnode
      simp only [hnode] at h
      split at h
      · cases h
      · rw [search_selectionTurn_bind] at h
        cases h
        have hchildren : w.table.children? s = node.children := by
          rw [VisitTable.children?, hget, Option.bind_some]
        refine ⟨VisitTable.leads_of_mem ?_, hvisited⟩
        rw [hchildren]
        exact List.get_mem _ _

theorem keepsBooks_descend (fuel : Nat) (s : State) (above : List State) :
    (descend b fuel s above).AsksOnly KeepsBooks := by
  induction fuel generalizing s above with
  | zero => trivial
  | succ fuel ih =>
      rw [descend]
      apply Program.asksOnly_bind (asksOnly_checkpoint trivial trivial)
      intro _
      apply Program.asksOnly_bind (asksOnly_request trivial)
      intro terminal
      cases terminal with
      | true =>
          apply Program.asksOnly_bind (asksOnly_request trivial)
          intro goal
          trivial
      | false =>
          apply Program.asksOnly_bind (keepsBooks_follow s)
          intro next
          cases next with
          | none => trivial
          | some next =>
              dsimp only
              split
              · trivial
              · exact ih next (s :: above)

/-- A descent ends at the end of a trail, and tells whether the game is over there. -/
theorem descend_done {root s : State} {fuel : Nat} {above : List State} {leaf : Leaf}
    {w w' : Search.World} (htrail : Trail w.table root s above)
    (h : g.search d (descend b fuel s above) w = (.done leaf, w')) :
    Trail w.table root leaf.state leaf.above ∧ g.isTerminal leaf.state = leaf.goal.isSome := by
  induction fuel generalizing s above w with
  | zero => cases h
  | succ fuel ih =>
      rw [descend] at h
      obtain ⟨_, w₁, hpoll, h⟩ := Program.run_bind_eq_done.mp h
      have htable₁ : w₁.table = w.table := congrArg Books.table (books_checkpoint hpoll)
      obtain ⟨terminal, w₂, hquery, h⟩ := Program.run_bind_eq_done.mp h
      obtain ⟨hanswer, rfl⟩ := search_query_eq_done hquery
      have hover : g.isTerminal s = terminal := Except.ok.inj hanswer
      cases terminal with
      | true =>
          obtain ⟨goal, w₃, -, h⟩ := Program.run_bind_eq_done.mp h
          cases h
          exact ⟨htrail, hover⟩
      | false =>
          obtain ⟨next, w₃, hfollow, h⟩ := Program.run_bind_eq_done.mp h
          have htable₃ : w₃.table = w₁.table :=
            congrArg Books.table (books_search (keepsBooks_follow s) hfollow)
          cases next with
          | none =>
              cases h
              exact ⟨htrail, hover⟩
          | some next =>
              dsimp only at h
              by_cases hseen : next ∈ s :: above
              · rw [if_pos hseen] at h
                cases h
                exact ⟨htrail, hover⟩
              · rw [if_neg hseen] at h
                obtain ⟨hleads, hvisited⟩ := follow_done hfollow
                rw [htable₁] at hleads hvisited htable₃
                have hnext : Trail w₃.table root next (s :: above) := by
                  rw [htable₃]
                  exact htrail.extend hleads hvisited hseen
                rw [← htable₃]
                exact ih hnext h

end TreeSearch

end GeneralGame
