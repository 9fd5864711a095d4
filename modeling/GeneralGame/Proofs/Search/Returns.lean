import GeneralGame.Proofs.Search.Undisturbed

/-!
A program logic for searches with all the time in the world. `g.Returns p post` says that the search
comes to its end from every world, meets no error, and answers as `post` says. There is a rule for
each step that a search can take, so that no proof about a search has to run it.
-/
namespace GeneralGame.Game

open Search

variable {α β : Type} {g : Game}

/-- From every world, the undisturbed search is done with an answer that meets `post`. -/
def Returns (g : Game) (p : Search α) (post : α → Prop) : Prop :=
  ∀ w, ∃ a v, g.searchUndisturbed p w = (.done a, v) ∧ post a

theorem returns_imp {p : Search α} {P Q : α → Prop} (h : g.Returns p P)
    (himp : ∀ a, P a → Q a) : g.Returns p Q := by
  intro w
  obtain ⟨a, v, hrun, ha⟩ := h w
  exact ⟨a, v, hrun, himp a ha⟩

theorem returns_pure {a : α} {post : α → Prop} (h : post a) :
    g.Returns (pure a) post := fun w => ⟨a, w.atRest, rfl, h⟩

theorem returns_bind {p : Search α} {f : α → Search β} {P : α → Prop} {Q : β → Prop}
    (hp : g.Returns p P) (hf : ∀ a, P a → g.Returns (f a) Q) : g.Returns (p >>= f) Q := by
  intro w
  obtain ⟨a, v, hrun, ha⟩ := hp w
  rw [searchUndisturbed_bind_of_done hrun]
  exact hf a ha v

theorem returns_query {q : Query} {a : q.Answer} (h : g.answer q = .ok a) :
    g.Returns (query q) (· = a) := fun w => ⟨a, w.atRest, searchUndisturbed_query h w, rfl⟩

theorem returns_note (n : Note) : g.Returns (note n) (fun _ => True) :=
  fun w => ⟨(), { w.atRest with stats := w.stats.take n }, rfl, trivial⟩

theorem returns_poll : g.Returns poll (· = false) := fun w => ⟨false, w.atRest, rfl, rfl⟩

theorem returns_checkpoint : g.Returns checkpoint (fun _ => True) := by
  refine returns_bind returns_poll fun expired h => ?_
  rw [h]
  exact returns_pure trivial

theorem returns_expired : g.Returns expired (· = false) := by
  refine returns_bind returns_poll fun expired h => ?_
  rw [h]
  exact returns_pure rfl

theorem returns_next {s t : State} {j : JointMove} (h : g.next s j = .ok t) :
    g.Returns (Search.next s j) (· = t) :=
  returns_bind (returns_note _) fun _ _ => returns_query (answer_next.mpr h)

/-- Nothing cuts an undisturbed search off, so an attempt at it has its answer. -/
theorem returns_attempt {p : Search α} {post : α → Prop} (h : g.Returns p post) :
    g.Returns p.attempt (fun answer => ∃ a, answer = some a ∧ post a) := by
  intro w
  obtain ⟨a, v, hrun, ha⟩ := h w
  have hp : p.run (Search.answer g ⟨1, 0⟩) w.atRest = (.done a, v) := hrun
  refine ⟨some a, v, ?_, a, rfl, ha⟩
  rw [searchUndisturbed, search, Program.run_attempt, hp]

/-- A search that returns does so under every deadline that does not disturb it. -/
theorem done_of_returns {p : Search α} {post : α → Prop} (h : g.Returns p post)
    {d : Deadline} {w : Search.World} (hopen : g.Undisturbed d p w) :
    ∃ a v, g.search d p w = (.done a, v) ∧ post a := by
  obtain ⟨a, v, hrun, ha⟩ := h w
  rw [search_of_undisturbed hopen] at hrun
  cases hreal : g.search d p w with
  | mk outcome v' =>
      rw [hreal] at hrun
      have houtcome : outcome = .done a := (Prod.mk.inj hrun).1
      exact ⟨a, v', by rw [houtcome], ha⟩

end GeneralGame.Game
