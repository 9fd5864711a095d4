import GeneralGame.Proofs.Search.Returns
import Mathlib.Data.List.Forall2

/-!
Searches of a known depth. `g.Completes plies p post` says more than `Returns`: on its way to the
answer the undisturbed search takes down no depth of more than `plies`. The rules are those of
`Returns`, with a bound where a depth is taken down.
-/
namespace GeneralGame

open Search

variable {α β : Type} {g : Game} {d : Deadline} {plies : Nat}

/-- The request takes down no depth of more than `plies`. -/
def SearchRequest.WithinDepth (plies : Nat) (q : SearchRequest) : Prop :=
  ∀ depth, q = .note (.depth depth) → depth ≤ plies

namespace Game

/-- On its way, the search comes to no depth of more than `plies`. -/
def StaysWithin (g : Game) (d : Deadline) (plies : Nat) (p : Search α) (w : Search.World) : Prop :=
  ∀ e ∈ p.history (Search.answer g d) w, e.1.WithinDepth plies

/-- From every world, the undisturbed search is done with an answer that meets `post`, and comes to
no depth of more than `plies` until then. -/
structure Completes (g : Game) (plies : Nat) (p : Search α) (post : α → Prop) : Prop where
  returns : g.Returns p post
  stays : ∀ w : Search.World, g.StaysWithin ⟨1, 0⟩ plies p w.atRest

theorem completes_imp {p : Search α} {P Q : α → Prop} (h : g.Completes plies p P)
    (himp : ∀ a, P a → Q a) : g.Completes plies p Q :=
  ⟨returns_imp h.returns himp, h.stays⟩

theorem completes_pure {a : α} {post : α → Prop} (h : post a) : g.Completes plies (pure a) post :=
  ⟨returns_pure h, fun _ => nofun⟩

theorem completes_bind {p : Search α} {f : α → Search β} {P : α → Prop} {Q : β → Prop}
    (hp : g.Completes plies p P) (hf : ∀ a, P a → g.Completes plies (f a) Q) :
    g.Completes plies (p >>= f) Q := by
  refine ⟨returns_bind hp.returns fun a ha => (hf a ha).returns, fun w => ?_⟩
  obtain ⟨a, v, hrun, ha⟩ := hp.returns w
  have hrest := searchUndisturbed_snd_atRest (g := g) p w
  rw [hrun] at hrest
  have hv : v.atRest = v := hrest
  have hdone : p.run (Search.answer g ⟨1, 0⟩) w.atRest = (.done a, v) := hrun
  intro e he
  rw [Program.history_bind, hdone] at he
  rcases List.mem_append.mp he with he | he
  · exact hp.stays w e he
  · exact (hf a ha).stays v e (hv.symm ▸ he)

theorem completes_request {q : SearchRequest} {post : q.Answer → Prop} (hq : q.WithinDepth plies)
    (h : g.Returns (request q) post) : g.Completes plies (request q) post := by
  refine ⟨h, fun w e he => ?_⟩
  simp only [request, Program.history] at he
  rcases List.mem_cons.mp he with rfl | he
  · exact hq
  · split at he <;> cases he

theorem completes_query {q : Query} {a : q.Answer} (h : g.answer q = .ok a) :
    g.Completes plies (query q) (· = a) := completes_request nofun (returns_query h)

theorem completes_depth {depth : Nat} (h : depth ≤ plies) :
    g.Completes plies (note (.depth depth)) (fun _ => True) := by
  apply completes_request _ (returns_note _)
  intro k hk
  cases hk
  exact h

theorem completes_poll : g.Completes plies poll (· = false) := completes_request nofun returns_poll

theorem completes_checkpoint : g.Completes plies checkpoint (fun _ => True) := by
  refine completes_bind completes_poll fun expired h => ?_
  rw [h]
  exact completes_pure trivial

theorem completes_expired : g.Completes plies expired (· = false) := by
  refine completes_bind completes_poll fun expired h => ?_
  rw [h]
  exact completes_pure rfl

theorem completes_pruned : g.Completes plies (note .pruned) (fun _ => True) :=
  completes_request nofun (returns_note _)

theorem completes_next {s t : State} {j : JointMove} (h : g.next s j = .ok t) :
    g.Completes plies (Search.next s j) (· = t) :=
  completes_bind (completes_request (q := .note .node) nofun (returns_note _)) fun _ _ =>
    completes_query (answer_next.mpr h)

theorem completes_attempt {p : Search α} {post : α → Prop} (h : g.Completes plies p post) :
    g.Completes plies p.attempt (fun answer => ∃ a, answer = some a ∧ post a) := by
  refine ⟨returns_attempt h.returns, fun w => ?_⟩
  rw [StaysWithin, Program.history_attempt]
  exact h.stays w

theorem completes_mapM {γ : Type} {xs : List γ} {f : γ → Search α} {P : γ → α → Prop}
    (hf : ∀ x ∈ xs, g.Completes plies (f x) (P x)) :
    g.Completes plies (xs.mapM f) (List.Forall₂ P xs) := by
  induction xs with
  | nil =>
      rw [List.mapM_nil]
      exact completes_pure .nil
  | cons x xs ih =>
      rw [List.mapM_cons]
      refine completes_bind (hf x List.mem_cons_self) fun y hy => ?_
      refine completes_bind (ih fun z hz => hf z (List.mem_cons_of_mem x hz)) fun ys hys => ?_
      exact completes_pure (.cons hy hys)

/-! ### Runs -/

theorem maxDepth_answer {q : SearchRequest} (hq : q.WithinDepth plies) (w : Search.World) :
    (Search.answer g d q w).2.stats.maxDepth ≤ max w.stats.maxDepth plies := by
  cases q with
  | note n =>
      cases n with
      | depth k =>
          have hk := hq k rfl
          change max w.stats.maxDepth k ≤ _
          omega
      | _ => exact Nat.le_max_left _ _
  | _ => exact Nat.le_max_left _ _

/-- The greatest depth is that of before or one that was taken down. -/
theorem maxDepth_le {p : Search α} {w : Search.World} (h : g.StaysWithin d plies p w) :
    (g.search d p w).2.stats.maxDepth ≤ max w.stats.maxDepth plies := by
  induction p generalizing w with
  | pure a => exact Nat.le_max_left _ _
  | cut => exact Nat.le_max_left _ _
  | fault f => exact Nat.le_max_left _ _
  | ask q next ih =>
      rw [StaysWithin, Program.history] at h
      have hfirst := maxDepth_answer (g := g) (d := d) (h (q, w) List.mem_cons_self) w
      simp only [search, Program.run]
      cases hanswer : Search.answer g d q w with
      | mk reply v =>
          rw [hanswer] at hfirst h
          cases reply with
          | error f => exact hfirst
          | ok a =>
              have hrest := ih a fun e he => h e (List.mem_cons_of_mem _ he)
              rw [search] at hrest
              dsimp only at hfirst ⊢
              omega

/-- Under every deadline that does not disturb it, a search that completes is done, and comes to no
greater depth. -/
theorem done_of_completes {p : Search α} {post : α → Prop} (h : g.Completes plies p post)
    {w : Search.World} (hopen : g.Undisturbed d p w) :
    ∃ a v, g.search d p w = (.done a, v) ∧ post a ∧
      v.stats.maxDepth ≤ max w.stats.maxDepth plies ∧ g.StaysWithin d plies p w := by
  obtain ⟨a, v, hrun, ha⟩ := done_of_returns h.returns hopen
  have hstays : g.StaysWithin d plies p w := by
    intro e he
    apply h.stays w (e.1, e.2.atRest)
    rw [(rest_of_undisturbed hopen).2]
    exact List.mem_map_of_mem he
  have hdepth := maxDepth_le hstays
  rw [hrun] at hdepth
  exact ⟨a, v, hrun, ha, hdepth, hstays⟩

end Game

end GeneralGame
