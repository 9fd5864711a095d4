import GeneralGame.Nim
import GeneralGame.Proofs.Failing
import GeneralGame.Proofs.Search.Sampling
import GeneralGame.Proofs.Search.Worth

/-!
What the deadline means for a search. The first poll that finds it expired is the last thing that a
search does: it takes down that it was interrupted and answers with a move of the list. Up to there
the polls divide the transitions that it computes into stretches, and these are short, apart from the
successors of a state that a tree search expands.
-/
namespace GeneralGame

open Search

variable {α : Type} {g : Game} {d : Deadline} {fits : List Transition → Prop}
  {since : List Transition} {post : α → List Transition → Prop}

namespace Game

instance (p : Search α) (w : Search.World) : Decidable (g.Undisturbed d p w) :=
  decidable_of_iff
    (∀ e ∈ p.history (Search.answer g d) w, e.1.isPoll = true → d.expired e.2.play.clock.now = false)
    (by simp only [Undisturbed, SearchRequest.isPoll_eq_true])

/-- Where a poll finds the deadline expired, a punctual search is done. -/
theorem done_of_disturbed {last : α → Prop} {p : Search α}
    (hp : g.Punctual fits (Halts last) p since post) {w : Search.World}
    (hdisturbed : ¬ g.Undisturbed d p w) :
    ∃ before v after a, p.history (Search.answer g d) w = before ++ (.play .poll, v) :: after ∧
      d.expired v.play.clock.now = true ∧
      (∀ e ∈ before, e.1 = .play .poll → d.expired e.2.play.clock.now = false) ∧
      (∀ e ∈ after, e.1 = .note .interrupted ∨ e.1 = .table) ∧ last a ∧
      g.search d p w = (.done a, v.polled.stopped) := by
  rcases punctual_cases hp w with ⟨hopen, -⟩ | ⟨before, v, rest, hbreak, hhalts⟩
  · exact absurd hopen hdisturbed
  · obtain ⟨⟨a, hlast, hrun⟩, hafter⟩ := halts_run (g := g) (d := d) hhalts v.polled
    exact ⟨before, v, _, a, hbreak.history, hbreak.expired, hbreak.first, hafter, hlast,
      hbreak.search.trans hrun⟩

end Game

/-! ### Stretches -/

namespace SearchRequest

/-- The transitions between the polls. -/
def stretches (qs : List SearchRequest) : List (List Transition) :=
  (qs.splitOnP isPoll).map fun qs => qs.filterMap transition?

theorem stretches_nil : stretches [] = [[]] := by
  rw [stretches, List.splitOnP_nil]
  rfl

/-- The first stretch, after what was computed before, and the further ones. -/
theorem stretches_cons (q : SearchRequest) (qs : List SearchRequest) (since : List Transition) :
    (stretches (q :: qs)).modifyHead (since ++ ·) =
      (if q.isPoll then [since] else []) ++ (stretches qs).modifyHead (q.extend since ++ ·) := by
  unfold stretches extend
  rw [List.splitOnP_cons_eq_if_modifyHead]
  cases q.isPoll with
  | true => cases qs.splitOnP isPoll <;> simp
  | false =>
      cases qs.splitOnP isPoll with
      | nil => rfl
      | cons first rest =>
          cases htransition : q.transition? <;> simp [htransition]

/-- All stretches fit, where `since` comes before the first one. -/
def AllFit (fits : List Transition → Prop) (since : List Transition) (qs : List SearchRequest) :
    Prop :=
  ∀ ts ∈ (stretches qs).modifyHead (since ++ ·), fits ts

theorem allFit_nil (h : fits since) : AllFit fits since [] := by
  intro ts hts
  rw [stretches_nil, List.modifyHead_cons, List.append_nil] at hts
  rw [List.mem_singleton.mp hts]
  exact h

theorem allFit_cons {q : SearchRequest} {qs : List SearchRequest} (hsince : fits since)
    (h : AllFit fits (q.extend since) qs) : AllFit fits since (q :: qs) := by
  intro ts hts
  rw [stretches_cons] at hts
  rcases List.mem_append.mp hts with hhead | htail
  · split at hhead
    · rw [List.mem_singleton.mp hhead]
      exact hsince
    · cases hhead
  · exact h ts htail

/-- Requests that neither poll nor compute a transition add nothing. -/
theorem allFit_of_quiet {qs : List SearchRequest} (hsince : fits since)
    (h : ∀ q ∈ qs, q.isPoll = false ∧ q.transition? = none) : AllFit fits since qs := by
  induction qs with
  | nil => exact allFit_nil hsince
  | cons q qs ih =>
      obtain ⟨hpoll, htransition⟩ := h q List.mem_cons_self
      apply allFit_cons hsince
      rw [extend, hpoll, htransition]
      exact (List.append_nil since).symm ▸ ih fun q hq => h q (List.mem_cons_of_mem _ hq)

end SearchRequest

namespace Game

/-- The transitions that a search computes before its first poll, between each two polls, and after
the last one. -/
def stretches (g : Game) (d : Deadline) (p : Search α) (w : Search.World) :
    List (List Transition) :=
  SearchRequest.stretches ((p.history (Search.answer g d) w).map Prod.fst)

theorem fits_extend {q : SearchRequest} (hempty : fits []) (hsince : fits since)
    (hq : ∀ t ∈ q.transition?, fits (since ++ [t])) : fits (q.extend since) := by
  unfold SearchRequest.extend
  split
  · exact hempty
  · cases htransition : q.transition? with
    | none =>
        rw [Option.toList_none, List.append_nil]
        exact hsince
    | some t => exact hq t htransition

theorem quiet_of_halts {last : α → Prop} {p : Search α} (hp : Halts last p) (w : Search.World) :
    ∀ q ∈ (p.history (Search.answer g d) w).map Prod.fst,
      q.isPoll = false ∧ q.transition? = none := by
  intro q hq
  obtain ⟨e, he, rfl⟩ := List.mem_map.mp hq
  rcases (halts_run hp w).2 e he with h | h <;> (rw [h]; exact ⟨rfl, rfl⟩)

/-- The induction is on the search; what was computed before goes into its first stretch. -/
theorem allFit_of_punctual {last : α → Prop} {p : Search α}
    (hp : g.Punctual fits (Halts last) p since post) (hempty : fits []) (hsince : fits since)
    (w : Search.World) :
    SearchRequest.AllFit fits since ((p.history (Search.answer g d) w).map Prod.fst) := by
  induction p generalizing since w with
  | pure a => exact SearchRequest.allFit_nil hsince
  | cut => exact hp.elim
  | fault f => exact SearchRequest.allFit_nil hsince
  | ask q next ih =>
      obtain ⟨hfits, hexpired, hnext⟩ := hp
      have hextend := fits_extend hempty hsince hfits
      rw [Program.history, List.map_cons]
      apply SearchRequest.allFit_cons hsince
      cases hanswer : Search.answer g d q w with
      | mk reply w' =>
          cases reply with
          | error f => exact SearchRequest.allFit_nil hextend
          | ok a =>
              rcases answer_cases hanswer with ⟨hgrants, -⟩ | ⟨hexpires, -⟩
              · exact ih a (hnext a hgrants) hextend w'
              · exact SearchRequest.allFit_of_quiet hextend
                  (quiet_of_halts (hexpired a hexpires) w')

theorem stretches_of_punctual {last : α → Prop} {p : Search α}
    (hp : g.Punctual fits (Halts last) p [] post) (hempty : fits []) (w : Search.World) :
    ∀ ts ∈ g.stretches d p w, fits ts := by
  have hfit := allFit_of_punctual (d := d) hp hempty hempty w
  intro ts hts
  apply hfit
  unfold stretches at hts
  revert hts
  cases SearchRequest.stretches ((p.history (Search.answer g d) w).map Prod.fst) <;> exact id

end Game

/-! ### The strategies -/

namespace Strategy

variable {b : Brief} {fuel : Nat} {s : State} {moves : List Move}

/-- What a strategy may compute between two polls. -/
def Fits (g : Game) : Strategy → List Transition → Prop
  | heuristic cutoff => AtMost (cutoff.lag + 1)
  | uct => TreeSearch.Burst g
  | _ => AtMost 1

theorem fits_nil (strategy : Strategy) : strategy.Fits g [] := by
  cases strategy with
  | uct => exact .inl (Nat.zero_le 1)
  | _ => exact Nat.zero_le _

theorem punctual_search (strategy : Strategy) (hplayout : b.playout = .random) (h : moves ≠ []) :
    g.Punctual (strategy.Fits g) (Halts (· ∈ moves)) (strategy.search b fuel s moves h) []
      fun _ _ => True := by
  have hhead : moves.head h ∈ moves := List.head_mem h
  cases strategy with
  | legal => trivial
  | random =>
      apply Game.unpolled_bind (Game.unpolled_draw _ _ _)
      intro i ts _
      trivial
  | minimax =>
      exact punctual_chooseFrom
        (fun m _ => Minimax.timed_moveScore (fun t => Minimax.timed_stateScore fuel 1 t) s m)
        (List.Subset.refl moves) hhead
  | alphaBeta =>
      exact punctual_chooseFrom
        (fun m floor => AlphaBeta.timed_moveScore
          (fun t => AlphaBeta.timed_stateScore none nofun fuel 1 t) s m floor topGoal)
        (List.Subset.refl moves) hhead
  | heuristic cutoff =>
      exact punctual_chooseFrom
        (fun m floor => AlphaBeta.timed_moveScore
          (fun t => AlphaBeta.timed_stateScore (some cutoff) (fun _ _ => .inr hplayout) fuel 1 t)
          s m floor topGoal)
        (List.Subset.refl moves) hhead
  | monteCarlo => exact MonteCarlo.punctual_search hplayout h
  | uct => exact TreeSearch.punctual_search hplayout h

/-- The first poll that finds the deadline expired is the last act of a search with random playouts.
No poll before it does; after it the search takes down that it was interrupted, looks at the visit
table at most, and is done, with one of the moves; and nothing in the world has changed since but for
the clock and that note. -/
theorem expired_poll_is_last_act (strategy : Strategy) (hplayout : b.playout = .random)
    (h : moves ≠ []) {w : Search.World}
    (hdisturbed : ¬ g.Undisturbed d (strategy.search b fuel s moves h) w) :
    ∃ before v after m,
      (strategy.search b fuel s moves h).history (Search.answer g d) w =
        before ++ (.play .poll, v) :: after ∧
      d.expired v.play.clock.now = true ∧
      (∀ e ∈ before, e.1 = .play .poll → d.expired e.2.play.clock.now = false) ∧
      (∀ e ∈ after, e.1 = .note .interrupted ∨ e.1 = .table) ∧ m ∈ moves ∧
      g.search d (strategy.search b fuel s moves h) w = (.done m, v.polled.stopped) ∧
      v.polled.stopped.stats.interrupted = true := by
  obtain ⟨before, v, after, m, hhistory, hexpired, hbefore, hafter, hm, hrun⟩ :=
    Game.done_of_disturbed (punctual_search strategy hplayout h) hdisturbed
  exact ⟨before, v, after, m, hhistory, hexpired, hbefore, hafter, hm, hrun, rfl⟩

open TwoRounds in
/-- A tree search whose third poll, the first of a playout, finds the deadline expired. -/
theorem expired_poll_is_last_act_twoRounds :
    ∃ m v, m ∈ [left, right] ∧ Deadline.expired ⟨3, 0⟩ v.play.clock.now = true ∧
      game.search ⟨3, 0⟩ (uct.search brief 5 game.initial [left, right] (by decide))
        (.new ⟨1, 1⟩ (.ofSeed 42)) = (.done m, Search.World.stopped (Search.World.polled v)) := by
  have hdisturbed : ¬ game.Undisturbed ⟨3, 0⟩
      (uct.search brief 5 game.initial [left, right] (by decide)) (.new ⟨1, 1⟩ (.ofSeed 42)) := by
    decide +kernel
  obtain ⟨before, v, after, m, -, hexpired, -, -, hm, hrun, -⟩ :=
    expired_poll_is_last_act uct rfl (by decide) hdisturbed
  exact ⟨m, v, hm, hexpired, hrun⟩

/-- Between two polls, before the first and after the last, a search with random playouts computes
one transition at most, or two where a heuristic plays the game out; but a tree search computes all
successors of the state that it expands. -/
theorem stretches_fit (strategy : Strategy) (hplayout : b.playout = .random) (h : moves ≠ [])
    (w : Search.World) :
    ∀ ts ∈ g.stretches d (strategy.search b fuel s moves h) w, strategy.Fits g ts :=
  Game.stretches_of_punctual (punctual_search strategy hplayout h) strategy.fits_nil w

open TwoRounds in
/-- A heuristic that plays the game out once for each state leaves a transition behind, and the next
state is one more. -/
theorem stretches_fit_twoRounds :
    let b := { brief with config := { Config.standard with levelLimit := 1 } }
    let stretches := game.stretches ⟨5, 0⟩
      ((heuristic (.monteCarlo 1)).search b 5 game.initial [left, right] (by decide))
      (.new ⟨1, 1⟩ (.ofSeed 42))
    (∀ ts ∈ stretches, AtMost 2 ts) ∧ ∃ ts ∈ stretches, ts.length = 2 :=
  ⟨stretches_fit (heuristic (.monteCarlo 1)) rfl (by decide) _, by decide +kernel⟩

/-- A tree search computes both successors of a pile of two between two polls. -/
theorem uct_overruns_nim :
    ∃ m, Nim.machine 2 = .ok m ∧
      ∃ ts ∈ m.toGame.stretches ⟨3, 0⟩
        (uct.search ⟨2, Nim.white, { Config.standard with treeMarginMs := 0 }, .ucb, .random⟩ 5
          m.initial [Nim.take1, Nim.take2] (by decide)) (.new ⟨1, 1⟩ (.ofSeed 42)),
        ts.length = 2 := by
  apply exists_of_any_toOption
  decide +kernel

end Strategy

end GeneralGame
