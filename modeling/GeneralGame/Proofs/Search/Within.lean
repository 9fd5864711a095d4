import GeneralGame.Proofs.Search.Heeds

/-!
Two searches side by side. `g.Within p q R` says that `p` does no more than `q`: whenever `q` comes
to its end, `p` does too, with an answer that `R` relates to the answer of `q`, after no more nodes,
and with no transition that `q` does not compute at that place too. The rules take both searches one
step further, or let the smaller one stop early.
-/
namespace GeneralGame

open Search

variable {α β γ δ : Type} {g : Game}

namespace Game

/-- The transitions that a search computes, in order. -/
def transitions (g : Game) (d : Deadline) (p : Search α) (w : Search.World) :
    List (State × JointMove) :=
  (p.history (Search.answer g d) w).filterMap fun e => e.1.transition?

theorem transitions_of_undisturbed {d : Deadline} {p : Search α} {w : Search.World}
    (h : g.Undisturbed d p w) :
    g.transitions ⟨1, 0⟩ p w.atRest = g.transitions d p w := by
  rw [transitions, (rest_of_undisturbed h).2, List.filterMap_map]
  rfl

theorem transitions_bind {p : Search α} {w v : Search.World} {a : α}
    (h : g.searchUndisturbed p w = (.done a, v)) (f : α → Search β) :
    g.transitions ⟨1, 0⟩ (p >>= f) w.atRest =
      g.transitions ⟨1, 0⟩ p w.atRest ++ g.transitions ⟨1, 0⟩ (f a) v.atRest := by
  have hrun : p.run (Search.answer g ⟨1, 0⟩) w.atRest = (.done a, v) := h
  have hrest := searchUndisturbed_snd_atRest (g := g) p w
  rw [h] at hrest
  have hv : v.atRest = v := hrest
  rw [transitions, Program.history_bind, hrun, List.filterMap_append, hv]
  rfl

theorem answer_nodes_le (d : Deadline) (q : SearchRequest) (w : Search.World) :
    w.stats.nodes ≤ (Search.answer g d q w).2.stats.nodes := by
  cases q with
  | note n =>
      cases n with
      | node => exact Nat.le_succ _
      | _ => exact Nat.le_refl _
  | _ => exact Nat.le_refl _

/-- The count of nodes never goes down. -/
theorem search_nodes_le (d : Deadline) (p : Search α) (w : Search.World) :
    w.stats.nodes ≤ (g.search d p w).2.stats.nodes := by
  induction p generalizing w with
  | pure a => exact Nat.le_refl _
  | cut => exact Nat.le_refl _
  | fault f => exact Nat.le_refl _
  | ask q next ih =>
      have hfirst := answer_nodes_le (g := g) d q w
      simp only [search, Program.run]
      cases hanswer : Search.answer g d q w with
      | mk reply v =>
          rw [hanswer] at hfirst
          cases reply with
          | error f => exact hfirst
          | ok a => exact Nat.le_trans hfirst (ih a v)

/-- Every answer of the undisturbed search meets `post`, if there is one. -/
def Answers (g : Game) (p : Search α) (post : α → Prop) : Prop :=
  ∀ w a w', g.searchUndisturbed p w = (.done a, w') → post a

theorem answers_imp {p : Search α} {P Q : α → Prop} (h : g.Answers p P)
    (himp : ∀ a, P a → Q a) : g.Answers p Q := fun w a w' hrun => himp a (h w a w' hrun)

theorem answers_pure {a : α} {post : α → Prop} (h : post a) : g.Answers (pure a) post := by
  intro w b w' hrun
  cases hrun
  exact h

theorem answers_bind {p : Search α} {f : α → Search β} {post : β → Prop}
    (h : ∀ a, g.Answers (f a) post) : g.Answers (p >>= f) post := by
  intro w b w' hrun
  obtain ⟨a, v, _, hrest⟩ := searchUndisturbed_bind_eq_done.mp hrun
  exact h a v b w' hrest

/-- Where `q` is done, so is `p`, with a related answer, no more nodes and no other transitions. -/
def Within (g : Game) (p : Search α) (q : Search β) (R : α → β → Prop) : Prop :=
  ∀ w b w', g.searchUndisturbed q w = (.done b, w') → ∀ u, ∃ a u',
    g.searchUndisturbed p u = (.done a, u') ∧ R a b ∧
      u'.stats.nodes + w.stats.nodes ≤ u.stats.nodes + w'.stats.nodes ∧
      (g.transitions ⟨1, 0⟩ p u.atRest).Sublist (g.transitions ⟨1, 0⟩ q w.atRest)

variable {p : Search α} {q : Search β} {R : α → β → Prop}

theorem within_imp {S : α → β → Prop} (h : g.Within p q R) (himp : ∀ a b, R a b → S a b) :
    g.Within p q S := by
  intro w b w' hq u
  obtain ⟨a, u', hp, hR, hcost⟩ := h w b w' hq u
  exact ⟨a, u', hp, himp a b hR, hcost⟩

/-- What is known of every answer of the larger search may be used too. -/
theorem within_and_answers {post : β → Prop} (h : g.Within p q R) (hpost : g.Answers q post) :
    g.Within p q fun a b => R a b ∧ post b := by
  intro w b w' hq u
  obtain ⟨a, u', hp, hR, hcost⟩ := h w b w' hq u
  exact ⟨a, u', hp, ⟨hR, hpost w b w' hq⟩, hcost⟩

theorem within_bind {f : α → Search γ} {h : β → Search δ} {S : γ → δ → Prop}
    (hp : g.Within p q R) (hf : ∀ a b, R a b → g.Within (f a) (h b) S) :
    g.Within (p >>= f) (q >>= h) S := by
  intro w c w' hq u
  obtain ⟨b, v, hfirst, hrest⟩ := searchUndisturbed_bind_eq_done.mp hq
  obtain ⟨a, v', hp, hR, hnodes, htransitions⟩ := hp w b v hfirst u
  obtain ⟨x, u', hx, hS, hnodes', htransitions'⟩ := hf a b hR v c w' hrest v'
  refine ⟨x, u', ?_, hS, by omega, ?_⟩
  · rw [searchUndisturbed_bind_of_done hp]
    exact hx
  · rw [transitions_bind hp, transitions_bind hfirst]
    exact htransitions.append htransitions'

/-- The smaller search may stop while the larger one goes on, if every answer of that will do. -/
theorem within_stop {a : α} (h : g.Answers q (R a)) : g.Within (pure a) q R := by
  intro w b w' hq u
  have hnodes := search_nodes_le (g := g) ⟨1, 0⟩ q w.atRest
  have hrun : g.search ⟨1, 0⟩ q w.atRest = (.done b, w') := hq
  rw [hrun] at hnodes
  refine ⟨a, u.atRest, rfl, h w b w' hq, ?_, List.nil_sublist _⟩
  exact Nat.add_le_add_left hnodes _

theorem within_pure {a : α} {b : β} (h : R a b) : g.Within (pure a) (pure b) R :=
  within_stop (answers_pure h)

/-- What the smaller search takes down alone does not count as long as it is no node. -/
theorem within_note_left {n : Note} (hn : n ≠ .node) {f : Unit → Search α}
    (h : g.Within (f ()) q R) : g.Within (note n >>= f) q R := by
  intro w b w' hq u
  have hnote : g.searchUndisturbed (note n) u =
      (.done (), { u.atRest with stats := u.stats.take n }) := rfl
  obtain ⟨a, u', hp, hR, hnodes, htransitions⟩ := h w b w' hq { u with stats := u.stats.take n }
  refine ⟨a, u', ?_, hR, ?_, ?_⟩
  · rw [searchUndisturbed_bind_of_done hnote]
    exact hp
  · have hsame : (u.stats.take n).nodes = u.stats.nodes := by
      cases n with
      | node => exact absurd rfl hn
      | _ => rfl
    rw [← hsame]
    exact hnodes
  · rw [transitions_bind hnote]
    exact htransitions

theorem within_note (n : Note) : g.Within (note n) (note n) fun _ _ => True := by
  intro w b w' hq u
  cases hq
  refine ⟨(), { u.atRest with stats := u.stats.take n }, rfl, trivial, ?_, List.Sublist.refl _⟩
  change (u.stats.take n).nodes + w.stats.nodes ≤ u.stats.nodes + (w.stats.take n).nodes
  cases n with
  | node =>
      change u.stats.nodes + 1 + w.stats.nodes ≤ u.stats.nodes + (w.stats.nodes + 1)
      omega
  | _ => exact Nat.le_refl _

theorem answers_query (q : Query) : g.Answers (query q) fun a => g.answer q = .ok a := by
  intro w a w' hrun
  cases hanswer : g.answer q with
  | ok b =>
      rw [searchUndisturbed_query hanswer] at hrun
      cases hrun
      rfl
  | error e =>
      simp only [searchUndisturbed, search, query, request, Program.run, Search.answer, Play.answer,
        hanswer] at hrun
      cases hrun

theorem transitions_query (q : Query) (d : Deadline) (w : Search.World) :
    g.transitions d (query q) w = (SearchRequest.play (.query q)).transition?.toList := by
  simp only [transitions, query, request, Program.history]
  cases Search.answer g d (.play (.query q)) w with
  | mk reply v => cases reply <;> rfl

theorem within_query (q : Query) : g.Within (query q) (query q) Eq := by
  intro w a w' hq u
  have hanswer := answers_query q w a w' hq
  rw [searchUndisturbed_query hanswer] at hq
  cases hq
  have hsame : g.transitions ⟨1, 0⟩ (query q) u.atRest = g.transitions ⟨1, 0⟩ (query q) w.atRest :=
    (transitions_query q _ _).trans (transitions_query q _ _).symm
  exact ⟨a, u.atRest, searchUndisturbed_query hanswer u, rfl, Nat.le_refl _, hsame ▸ .refl _⟩

/-- A question of the smaller search alone, where the larger one finds the answer out. -/
theorem within_query_left {r : Query} {q : Search r.Answer}
    (hr : (SearchRequest.play (.query r)).transition? = none)
    (h : g.Answers q fun a => g.answer r = .ok a) : g.Within (query r) q Eq := by
  intro w a w' hq u
  have hnodes := search_nodes_le (g := g) ⟨1, 0⟩ q w.atRest
  have hrun : g.search ⟨1, 0⟩ q w.atRest = (.done a, w') := hq
  rw [hrun] at hnodes
  refine ⟨a, u.atRest, searchUndisturbed_query (h w a w' hq) u, rfl, ?_, ?_⟩
  · exact Nat.add_le_add_left hnodes _
  · rw [transitions_query, hr]
    exact List.nil_sublist _

theorem within_next (s : State) (j : JointMove) :
    g.Within (Search.next s j) (Search.next s j) Eq :=
  within_bind (within_note _) fun _ _ _ => within_query _

theorem within_poll : g.Within poll poll fun a b => a = false ∧ b = false := by
  intro w b w' hq u
  cases hq
  exact ⟨false, u.atRest, rfl, ⟨rfl, rfl⟩, Nat.le_refl _, List.Sublist.refl _⟩

theorem within_checkpoint : g.Within checkpoint checkpoint fun _ _ => True := by
  apply within_bind within_poll
  rintro _ _ ⟨rfl, rfl⟩
  exact within_pure trivial

theorem within_expired : g.Within expired expired fun a b => a = false ∧ b = false := by
  apply within_bind within_poll
  rintro _ _ ⟨rfl, rfl⟩
  exact within_pure ⟨rfl, rfl⟩

theorem transitions_attempt (p : Search α) (d : Deadline) (w : Search.World) :
    g.transitions d p.attempt w = g.transitions d p w := by
  rw [transitions, Program.history_attempt, transitions]

/-- Nothing cuts off an undisturbed search that heeds the deadline. -/
theorem within_attempt (hheeds : g.Heeds q) (h : g.Within p q R) :
    g.Within p.attempt q.attempt fun a b => ∃ x y, a = some x ∧ b = some y ∧ R x y := by
  intro w b w' hq u
  have hdone : ∃ y, g.searchUndisturbed q w = (.done y, w') ∧ b = some y := by
    change q.attempt.run (Search.answer g ⟨1, 0⟩) w.atRest = (.done b, w') at hq
    rw [Program.run_attempt] at hq
    cases hrun : q.run (Search.answer g ⟨1, 0⟩) w.atRest with
    | mk outcome v =>
        rw [hrun] at hq
        cases outcome with
        | done y =>
            cases hq
            exact ⟨y, hrun, rfl⟩
        | cut => exact absurd (undisturbed_atRest q w) (hheeds.disturbed_of_cut hrun)
        | fault f => cases hq
  obtain ⟨y, hrun, rfl⟩ := hdone
  obtain ⟨x, u', hp, hR, hnodes, htransitions⟩ := h w y w' hrun u
  refine ⟨some x, u', Program.run_attempt_of_done hp, ⟨x, y, rfl, rfl, hR⟩, hnodes, ?_⟩
  rw [transitions_attempt, transitions_attempt]
  exact htransitions

end Game

end GeneralGame
