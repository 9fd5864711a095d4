import GeneralGame.Proofs.Play.Run
import GeneralGame.Search.Brief

/-!
Searches that are never interrupted. A search is undisturbed if none of its polls finds the deadline
expired; it then gives the same answer as on a clock that stands still before the deadline, and
changes the world in the same way, the clock apart. Such searches have a small program logic:
`Returns` says that a search comes to its end, from any world, with an answer that meets a
postcondition.
-/
namespace GeneralGame

open Search

variable {α β : Type} {g : Game}

/-- The same world with its clock stopped at zero. -/
def Search.World.atRest (w : Search.World) : Search.World :=
  { w with play := { w.play with clock := ⟨0, 0⟩ } }

@[simp] theorem Search.World.stats_atRest (w : Search.World) : w.atRest.stats = w.stats := rfl

namespace Game

/-- None of the polls of a search finds the deadline expired. -/
def Undisturbed (g : Game) (d : Deadline) (p : Search α) (w : Search.World) : Prop :=
  ∀ e ∈ p.history (Search.answer g d) w,
    e.1 = .play .poll → d.expired e.2.play.clock.now = false

/-- A search with a deadline that never expires, since the clock stands still before it. -/
def searchUndisturbed (g : Game) (p : Search α) (w : Search.World) : Outcome α × Search.World :=
  g.search ⟨1, 0⟩ p w.atRest

/-- Apart from polls that find the deadline expired, a clock at rest changes no answer. -/
theorem answer_atRest {d : Deadline} {w : Search.World} {q : SearchRequest}
    (h : q = .play .poll → d.expired w.play.clock.now = false) :
    Search.answer g ⟨1, 0⟩ q w.atRest =
      ((Search.answer g d q w).1, (Search.answer g d q w).2.atRest) := by
  cases q with
  | play q =>
      cases q with
      | poll =>
          have hopen := h rfl
          simp only [Search.answer, Play.answer, Clock.read, World.atRest, hopen]
          rfl
      | query q => rfl
      | draw width n pos =>
          simp only [Search.answer, Play.answer, World.atRest]
          cases w.play.rng.draw width n pos <;> rfl
  | _ => rfl

/-- An undisturbed search answers as it does with all the time in the world, leaves the same world
but for the clock, and asks the same on its way. -/
theorem rest_of_undisturbed {d : Deadline} {p : Search α} {w : Search.World}
    (h : g.Undisturbed d p w) :
    g.searchUndisturbed p w = ((g.search d p w).1, (g.search d p w).2.atRest) ∧
      p.history (Search.answer g ⟨1, 0⟩) w.atRest =
        (p.history (Search.answer g d) w).map fun e => (e.1, e.2.atRest) := by
  induction p generalizing w with
  | pure a => exact ⟨rfl, rfl⟩
  | cut => exact ⟨rfl, rfl⟩
  | fault f => exact ⟨rfl, rfl⟩
  | ask q next ih =>
      have hhead : (q, w) ∈ (Program.ask q next).history (Search.answer g d) w := by
        rw [Program.history]
        exact List.mem_cons_self
      have hfirst := answer_atRest (g := g) (h (q, w) hhead)
      simp only [searchUndisturbed, search, Program.run, Program.history, hfirst, List.map_cons]
      cases hanswer : Search.answer g d q w with
      | mk reply v =>
          cases reply with
          | error f => exact ⟨rfl, rfl⟩
          | ok a =>
              have hnext : g.Undisturbed d (next a) v := by
                intro e he
                apply h e
                simp only [Program.history, hanswer]
                exact List.mem_cons_of_mem _ he
              obtain ⟨hrun, hhistory⟩ := ih a hnext
              exact ⟨hrun, congrArg _ hhistory⟩

theorem search_of_undisturbed {d : Deadline} {p : Search α} {w : Search.World}
    (h : g.Undisturbed d p w) :
    g.searchUndisturbed p w = ((g.search d p w).1, (g.search d p w).2.atRest) :=
  (rest_of_undisturbed h).1

theorem search_fst_of_undisturbed {d : Deadline} {p : Search α} {w v : Search.World}
    (hclock : v.atRest = w.atRest) (h : g.Undisturbed d p v) :
    (g.search d p v).1 = (g.searchUndisturbed p w).1 := by
  have hsame : g.searchUndisturbed p v = g.searchUndisturbed p w := by
    rw [searchUndisturbed, hclock, searchUndisturbed]
  rw [← hsame, search_of_undisturbed h]

theorem answer_clock {d : Deadline} {w : Search.World} (htick : w.play.clock.tick = 0)
    (q : SearchRequest) : (Search.answer g d q w).2.play.clock = w.play.clock := by
  cases q with
  | play q =>
      cases q with
      | poll =>
          change { w.play.clock with now := w.play.clock.now + w.play.clock.tick } = w.play.clock
          rw [htick, Nat.add_zero]
      | query q => rfl
      | draw width n pos =>
          simp only [Search.answer, Play.answer]
          cases w.play.rng.draw width n pos <;> rfl
  | _ => rfl

/-- A clock that stands still before the deadline disturbs no search. -/
theorem undisturbed_of_still {d : Deadline} {p : Search α} {w : Search.World}
    (htick : w.play.clock.tick = 0) (hopen : d.expired w.play.clock.now = false) :
    g.Undisturbed d p w := by
  induction p generalizing w with
  | pure a => intro e he; cases he
  | cut => intro e he; cases he
  | fault f => intro e he; cases he
  | ask q next ih =>
      intro e he hpoll
      have hclock := answer_clock (g := g) (d := d) htick q
      simp only [Program.history] at he
      rcases List.mem_cons.mp he with rfl | he
      · exact hopen
      · cases hanswer : Search.answer g d q w with
        | mk reply v =>
            rw [hanswer] at hclock he
            cases reply with
            | error f => cases he
            | ok a =>
                have hclock' : v.play.clock = w.play.clock := hclock
                exact ih a (by rw [hclock']; exact htick) (by rw [hclock']; exact hopen) e he hpoll

theorem undisturbed_atRest (p : Search α) (w : Search.World) :
    g.Undisturbed ⟨1, 0⟩ p w.atRest := undisturbed_of_still rfl rfl

theorem searchUndisturbed_snd_atRest (p : Search α) (w : Search.World) :
    (g.searchUndisturbed p w).2.atRest = (g.searchUndisturbed p w).2 :=
  (congrArg Prod.snd (search_of_undisturbed (undisturbed_atRest p w))).symm

theorem searchUndisturbed_query {q : Query} {a : q.Answer} (h : g.answer q = .ok a)
    (w : Search.World) : g.searchUndisturbed (query q) w = (.done a, w.atRest) := by
  simp only [searchUndisturbed, search, query, request, Program.run, Search.answer, Play.answer, h]

theorem searchUndisturbed_of_run {p : Search α} {w v : Search.World} {a : α}
    (h : g.searchUndisturbed p w = (.done a, v)) (f : α → Search β) :
    (f a).run (Search.answer g ⟨1, 0⟩) v = g.searchUndisturbed (f a) v := by
  have hrest := searchUndisturbed_snd_atRest (g := g) p w
  rw [h] at hrest
  have hv : v.atRest = v := hrest
  rw [searchUndisturbed, search, hv]

theorem searchUndisturbed_bind_of_done {p : Search α} {w v : Search.World} {a : α}
    (h : g.searchUndisturbed p w = (.done a, v)) (f : α → Search β) :
    g.searchUndisturbed (p >>= f) w = g.searchUndisturbed (f a) v := by
  rw [← searchUndisturbed_of_run h]
  exact Program.run_bind_of_done h f

theorem searchUndisturbed_bind_eq_done {p : Search α} {f : α → Search β}
    {w w' : Search.World} {b : β} :
    g.searchUndisturbed (p >>= f) w = (.done b, w') ↔
      ∃ a v, g.searchUndisturbed p w = (.done a, v) ∧
        g.searchUndisturbed (f a) v = (.done b, w') := by
  constructor
  · intro h
    obtain ⟨a, v, hp, hf⟩ := Program.run_bind_eq_done.mp h
    exact ⟨a, v, hp, (searchUndisturbed_of_run hp f).symm.trans hf⟩
  · rintro ⟨a, v, hp, hf⟩
    rw [searchUndisturbed_bind_of_done hp]
    exact hf

end Game

end GeneralGame
