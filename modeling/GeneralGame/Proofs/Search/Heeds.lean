import GeneralGame.Proofs.Search.Punctual

/-!
Searches that heed the deadline. Such a search is done only if no poll found the deadline expired,
and cut off only if one did, which it has then taken down. No half-finished value leaves it. Every
punctual part of a search heeds the deadline.
-/
namespace GeneralGame

open Search

variable {α β : Type} {g : Game}

/-- The search is done only if it was not disturbed, and cut off only if it was. -/
structure Game.Yields (g : Game) (p : Search α) : Prop where
  undisturbed_of_done {d : Deadline} {w v : Search.World} {a : α} :
    g.search d p w = (.done a, v) → g.Undisturbed d p w
  disturbed_of_cut {d : Deadline} {w v : Search.World} :
    g.search d p w = (.cut, v) → ¬ g.Undisturbed d p w

/-- The search yields to the deadline and takes down that it was interrupted. -/
structure Game.Heeds (g : Game) (p : Search α) : Prop extends g.Yields p where
  interrupted_of_cut {d : Deadline} {w v : Search.World} :
    g.search d p w = (.cut, v) → v.stats.interrupted = true

namespace Game

theorem heeds_of_part {fits : List Transition → Prop} {since : List Transition}
    {post : α → List Transition → Prop} {p : Search α} (h : g.PunctualPart fits p since post) :
    g.Heeds p where
  undisturbed_of_done {d w v a} hrun := by
    rcases punctual_cases h w with ⟨hopen, -⟩ | ⟨before, u, _, hbreak, rfl⟩
    · exact hopen
    · cases hbreak.search.symm.trans hrun
  disturbed_of_cut {d w v} hrun := by
    rcases punctual_cases h w with ⟨-, hcut⟩ | ⟨before, u, _, hbreak, rfl⟩
    · exact absurd hrun (hcut v)
    · exact hbreak.disturbed
  interrupted_of_cut {d w v} hrun := by
    rcases punctual_cases h w with ⟨-, hcut⟩ | ⟨before, u, _, hbreak, rfl⟩
    · exact absurd hrun (hcut v)
    · cases hbreak.search.symm.trans hrun
      rfl

/-- A look at the clock moves it on by a tick. -/
theorem search_poll_bind (d : Deadline) (w : Search.World) (f : Bool → Search α) :
    g.search d (poll >>= f) w =
      g.search d (f (d.expired w.play.clock.now))
        { w with play := { w.play with clock := w.play.clock.read.2 } } := rfl

theorem search_checkpoint (d : Deadline) (w : Search.World) :
    g.search d checkpoint w =
      if d.expired w.play.clock.now then (.cut, w.polled.stopped) else (.done (), w.polled) := by
  change g.search d (poll >>= _) w = _
  rw [search_poll_bind]
  cases d.expired w.play.clock.now <;> rfl

/-- The three ways in which an attempt can go on. -/
theorem search_attempt_bind (d : Deadline) (p : Search α) (f : Option α → Search β)
    (w : Search.World) :
    (∃ a v, g.search d p w = (.done a, v) ∧
      g.search d (p.attempt >>= f) w = g.search d (f (some a)) v) ∨
    (∃ v, g.search d p w = (.cut, v) ∧
      g.search d (p.attempt >>= f) w = g.search d (f none) v) ∨
    ∃ e v, g.search d (p.attempt >>= f) w = (.fault e, v) := by
  cases hrun : g.search d p w with
  | mk outcome v =>
      cases outcome with
      | done a =>
          have hattempt := Program.run_attempt_of_done hrun
          exact .inl ⟨a, v, rfl, Program.run_bind_of_done hattempt f⟩
      | cut =>
          have hattempt := Program.run_attempt_of_cut hrun
          exact .inr (.inl ⟨v, rfl, Program.run_bind_of_done hattempt f⟩)
      | fault e =>
          have hattempt := Program.run_attempt_of_fault hrun
          exact .inr (.inr ⟨e, v, Program.run_bind_of_fault hattempt f⟩)

end Game

end GeneralGame
