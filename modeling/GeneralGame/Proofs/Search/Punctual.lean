import GeneralGame.Proofs.Search.Undisturbed

/-!
Searches that keep to the deadline. `g.Punctual fits halt p since post` says two things of a search
`p` that has computed the transitions `since` since it last looked at the clock. Between two polls it
only ever computes a list of transitions that `fits`; and when a poll finds the deadline expired, what
is left of the search is a `halt`. Where no poll does, `post` holds of its answer and of the
transitions computed since the last poll then.
-/
namespace GeneralGame

open Search

variable {α β : Type} {g : Game} {d : Deadline}

/-! ### Polls and transitions -/

/-- A state, and the joint move that is made in it. -/
abbrev Transition := State × JointMove

/-- At most so many transitions. -/
def AtMost (n : Nat) (ts : List Transition) : Prop := ts.length ≤ n

theorem AtMost.mono {m n : Nat} (hle : m ≤ n) {ts : List Transition} (h : AtMost m ts) :
    AtMost n ts := Nat.le_trans h hle

theorem AtMost.concat {n : Nat} {ts : List Transition} (h : AtMost n ts) (t : Transition) :
    AtMost (n + 1) (ts ++ [t]) := by
  unfold AtMost at h ⊢
  rw [List.length_append, List.length_singleton]
  omega

namespace SearchRequest

/-- The transition that a request computes, if it is one for a transition. -/
def transition? : SearchRequest → Option (State × JointMove)
  | .play (.query (.next s j)) => some (s, j)
  | _ => none

def isPoll : SearchRequest → Bool
  | .play .poll => true
  | _ => false

theorem isPoll_eq_true {q : SearchRequest} : q.isPoll = true ↔ q = .play .poll := by
  unfold isPoll
  split <;> simp_all

/-- The transitions since the last poll, after one more request. -/
def extend (q : SearchRequest) (since : List Transition) : List Transition :=
  if q.isPoll then [] else since ++ q.transition?.toList

/-- The answer says that the deadline has expired. -/
def Expires : (q : SearchRequest) → q.Answer → Prop
  | .play .poll, expired => expired = true
  | _, _ => False

end SearchRequest

/-- What a world is after a poll. -/
def Search.World.polled (w : Search.World) : Search.World :=
  { w with play := { w.play with clock := w.play.clock.read.2 } }

/-- What a world is once it was taken down that the search was interrupted. -/
def Search.World.stopped (w : Search.World) : Search.World :=
  { w with stats := w.stats.take .interrupted }

namespace Game

/-- The answer is one that the game gives, or that a poll gives before the deadline. -/
def Grants (g : Game) : (q : SearchRequest) → q.Answer → Prop
  | .play .poll, expired => expired = false
  | .play (.query q), a => g.answer q = .ok a
  | _, _ => True

/-- An answer is granted, or it is that of a poll that has found the deadline expired. -/
theorem answer_cases {q : SearchRequest} {w v : Search.World} {a : q.Answer}
    (h : Search.answer g d q w = (.ok a, v)) :
    (g.Grants q a ∧ (q = .play .poll → d.expired w.play.clock.now = false)) ∨
      (q.Expires a ∧ q = .play .poll ∧ d.expired w.play.clock.now = true ∧ v = w.polled) := by
  cases q with
  | play q =>
      cases q with
      | poll =>
          cases h
          cases hexpired : d.expired w.play.clock.now with
          | true => exact .inr ⟨rfl, rfl, rfl, rfl⟩
          | false => exact .inl ⟨rfl, fun _ => rfl⟩
      | query q =>
          refine .inl ⟨?_, fun hpoll => by cases hpoll⟩
          simp only [Search.answer, Play.answer] at h
          cases hanswer : g.answer q with
          | ok a' =>
              rw [hanswer] at h
              cases h
              exact hanswer
          | error e =>
              rw [hanswer] at h
              cases h
      | draw width n pos => exact .inl ⟨trivial, fun hpoll => by cases hpoll⟩
  | _ => exact .inl ⟨trivial, fun hpoll => by cases hpoll⟩

/-- The search keeps to the deadline, where `since` was computed since the last poll. -/
def Punctual (g : Game) (fits : List Transition → Prop) (halt : Search α → Prop) :
    Search α → (since : List Transition) → (post : α → List Transition → Prop) → Prop
  | .pure a, since, post => post a since
  | .cut, _, _ => False
  | .fault _, _, _ => True
  | .ask q next, since, post =>
    (∀ t ∈ q.transition?, fits (since ++ [t])) ∧ (∀ a, q.Expires a → halt (next a)) ∧
      ∀ a, g.Grants q a → g.Punctual fits halt (next a) (q.extend since) post

/-! ### Rules -/

variable {fits : List Transition → Prop} {since : List Transition}

theorem punctual_imp {halt halt' : Search α → Prop} {P Q : α → List Transition → Prop}
    {p : Search α} (h : g.Punctual fits halt p since P) (hhalt : ∀ p, halt p → halt' p)
    (himp : ∀ a ts, P a ts → Q a ts) : g.Punctual fits halt' p since Q := by
  induction p generalizing since with
  | pure a => exact himp a since h
  | cut => exact h
  | fault f => exact h
  | ask q next ih =>
      obtain ⟨hfits, hexpired, hnext⟩ := h
      exact ⟨hfits, fun a ha => hhalt _ (hexpired a ha), fun a ha => ih a (hnext a ha)⟩

theorem punctual_bind {halt : Search α → Prop} {halt' : Search β → Prop}
    {P : α → List Transition → Prop} {Q : β → List Transition → Prop} {p : Search α}
    {f : α → Search β} (hp : g.Punctual fits halt p since P)
    (hhalt : ∀ p, halt p → halt' (p >>= f))
    (hf : ∀ a ts, P a ts → g.Punctual fits halt' (f a) ts Q) :
    g.Punctual fits halt' (p >>= f) since Q := by
  induction p generalizing since with
  | pure a => exact hf a since hp
  | cut => exact hp.elim
  | fault e => trivial
  | ask q next ih =>
      obtain ⟨hfits, hexpired, hnext⟩ := hp
      exact ⟨hfits, fun a ha => hhalt _ (hexpired a ha), fun a ha => ih a (hnext a ha)⟩

/-- Nothing but an expired deadline cuts a punctual search off. -/
theorem punctual_attempt {halt : Search α → Prop} {P : α → List Transition → Prop} {p : Search α}
    (hp : g.Punctual fits halt p since P) :
    g.Punctual fits (fun rest => ∃ p, halt p ∧ rest = p.attempt) p.attempt since
      fun answer ts => ∃ a, answer = some a ∧ P a ts := by
  induction p generalizing since with
  | pure a => exact ⟨a, rfl, hp⟩
  | cut => exact hp.elim
  | fault e => trivial
  | ask q next ih =>
      obtain ⟨hfits, hexpired, hnext⟩ := hp
      exact ⟨hfits, fun a ha => ⟨next a, hexpired a ha, rfl⟩, fun a ha => ih a (hnext a ha)⟩

/-! ### Searches that never look at the clock -/

/-- The search does not poll, so there is nothing to say of a deadline that has expired. -/
abbrev Unpolled (g : Game) (fits : List Transition → Prop) (p : Search α)
    (since : List Transition) (post : α → List Transition → Prop) : Prop :=
  g.Punctual fits (fun _ => False) p since post

theorem unpolled_bind {halt : Search β → Prop} {P : α → List Transition → Prop}
    {Q : β → List Transition → Prop} {p : Search α} {f : α → Search β}
    (hp : g.Unpolled fits p since P) (hf : ∀ a ts, P a ts → g.Punctual fits halt (f a) ts Q) :
    g.Punctual fits halt (p >>= f) since Q :=
  punctual_bind hp (fun _ h => h.elim) hf

theorem punctual_of_unpolled {halt : Search α → Prop} {P Q : α → List Transition → Prop}
    {p : Search α} (hp : g.Unpolled fits p since P) (himp : ∀ a ts, P a ts → Q a ts) :
    g.Punctual fits halt p since Q :=
  punctual_imp hp (fun _ h => h.elim) himp

/-- The invariant speaks of the part of the list that is left. -/
theorem unpolled_mapM {f : β → Search α} {I : List β → List Transition → Prop} {xs : List β}
    (hstep : ∀ x rest ts, I (x :: rest) ts → g.Unpolled fits (f x) ts fun _ => I rest)
    (hstart : I xs since) : g.Unpolled fits (xs.mapM f) since fun _ => I [] := by
  induction xs generalizing since with
  | nil =>
      rw [List.mapM_nil]
      exact hstart
  | cons x xs ih =>
      rw [List.mapM_cons]
      apply unpolled_bind (hstep x xs since hstart)
      intro a ts hts
      apply unpolled_bind (ih hts)
      intro rest ts hts
      exact hts

/-- A request that is no look at the clock and computes no transition. -/
theorem unpolled_request {q : SearchRequest} (hpoll : q.isPoll = false)
    (htransition : q.transition? = none) :
    g.Unpolled fits (request q) since fun a ts => g.Grants q a ∧ ts = since := by
  refine ⟨?_, ?_, ?_⟩
  · rw [htransition]
    nofun
  · intro a ha
    cases q with
    | play q =>
        cases q with
        | poll => cases hpoll
        | _ => exact ha.elim
    | _ => exact ha.elim
  · intro a ha
    refine ⟨ha, ?_⟩
    rw [SearchRequest.extend, hpoll, htransition]
    exact List.append_nil since

theorem unpolled_next {s : State} {j : JointMove} (h : fits (since ++ [(s, j)])) :
    g.Unpolled fits (Search.next s j) since fun t ts =>
      g.next s j = .ok t ∧ ts = since ++ [(s, j)] := by
  apply unpolled_bind (unpolled_request (q := .note .node) rfl rfl)
  rintro _ _ ⟨-, rfl⟩
  refine ⟨?_, nofun, fun t ht => ⟨answer_next.mp ht, rfl⟩⟩
  rintro _ ⟨⟩
  exact h

/-! ### Parts of a search -/

/-- A part of a search: when the deadline has expired, it stops the search. -/
abbrev PunctualPart (g : Game) (fits : List Transition → Prop) (p : Search α)
    (since : List Transition) (post : α → List Transition → Prop) : Prop :=
  g.Punctual fits (· = cutOff) p since post

theorem part_bind {P : α → List Transition → Prop} {Q : β → List Transition → Prop} {p : Search α}
    {f : α → Search β} (hp : g.PunctualPart fits p since P)
    (hf : ∀ a ts, P a ts → g.PunctualPart fits (f a) ts Q) :
    g.PunctualPart fits (p >>= f) since Q := by
  apply punctual_bind hp _ hf
  rintro _ rfl
  rfl

theorem part_fit (size n : Nat) :
    g.PunctualPart fits (.ofExcept (fit size n)) since fun _ ts => ts = since := by
  rcases Program.ofExcept_fit size n with hfit | hfit
  · exact hfit ▸ rfl
  · exact hfit ▸ trivial

theorem part_checkpoint : g.PunctualPart fits checkpoint since fun _ ts => ts = [] := by
  refine ⟨nofun, ?_, ?_⟩
  · rintro _ ⟨⟩
    rfl
  · rintro _ ⟨⟩
    rfl

theorem punctual_expired :
    g.Punctual fits (· = (note .interrupted >>= fun _ => pure true)) expired since
      fun expired ts => expired = false ∧ ts = [] := by
  refine ⟨nofun, ?_, ?_⟩
  · rintro _ ⟨⟩
    rfl
  · rintro _ ⟨⟩
    exact ⟨rfl, rfl⟩

/-! ### Runs -/

variable {halt : Search α → Prop} {post : α → List Transition → Prop}

/-- The run comes to a poll, asked in world `v`, that is the first to find the deadline expired, and
then is the run of `rest`. -/
structure BreaksOff (g : Game) (d : Deadline) (p : Search α) (w : Search.World)
    (before : List (SearchRequest × Search.World)) (v : Search.World) (rest : Search α) : Prop where
  history : p.history (Search.answer g d) w =
    before ++ (.play .poll, v) :: rest.history (Search.answer g d) v.polled
  search : g.search d p w = g.search d rest v.polled
  expired : d.expired v.play.clock.now = true
  first : ∀ e ∈ before, e.1 = .play .poll → d.expired e.2.play.clock.now = false

theorem BreaksOff.disturbed {p : Search α} {w v : Search.World}
    {before : List (SearchRequest × Search.World)} {rest : Search α}
    (h : g.BreaksOff d p w before v rest) : ¬ g.Undisturbed d p w := by
  intro hopen
  have hmem : (.play .poll, v) ∈ p.history (Search.answer g d) w := by
    rw [h.history]
    exact List.mem_append_right before List.mem_cons_self
  have hfirst := hopen _ hmem rfl
  rw [h.expired] at hfirst
  cases hfirst

theorem breaksOff_cons {q : SearchRequest} {next : q.Answer → Search α} {w w' v : Search.World}
    {a : q.Answer} {before : List (SearchRequest × Search.World)} {rest : Search α}
    (hanswer : Search.answer g d q w = (.ok a, w'))
    (hopen : q = .play .poll → d.expired w.play.clock.now = false)
    (h : g.BreaksOff d (next a) w' before v rest) :
    g.BreaksOff d (.ask q next) w ((q, w) :: before) v rest where
  history := by
    simp only [Program.history, hanswer]
    rw [h.history, List.cons_append]
  search := by
    simp only [search, Program.run, hanswer]
    exact h.search
  expired := h.expired
  first e he := by
    rcases List.mem_cons.mp he with rfl | he
    · exact hopen
    · exact h.first e he

/-- A punctual search is undisturbed and not cut off, or it breaks off as it should. -/
theorem punctual_cases {p : Search α} (hp : g.Punctual fits halt p since post)
    (w : Search.World) :
    (g.Undisturbed d p w ∧ ∀ v, g.search d p w ≠ (.cut, v)) ∨
      ∃ before v rest, g.BreaksOff d p w before v rest ∧ halt rest := by
  induction p generalizing since w with
  | pure a =>
      refine .inl ⟨List.forall_mem_nil _, ?_⟩
      intro v h
      cases h
  | cut => exact hp.elim
  | fault f =>
      refine .inl ⟨List.forall_mem_nil _, ?_⟩
      intro v h
      cases h
  | ask q next ih =>
      obtain ⟨-, hexpired, hnext⟩ := hp
      cases hanswer : Search.answer g d q w with
      | mk reply w' =>
          cases reply with
          | error f =>
              -- A poll always has an answer, so this request was none.
              have hopen : q = .play .poll → d.expired w.play.clock.now = false := by
                rintro rfl
                cases hanswer
              simp only [Undisturbed, Program.history, search, Program.run, hanswer,
                List.forall_mem_singleton]
              refine .inl ⟨hopen, ?_⟩
              intro v h
              cases h
          | ok a =>
              rcases answer_cases hanswer with ⟨hgrants, hopen⟩ | ⟨hexpires, rfl, hover, rfl⟩
              · rcases ih a (hnext a hgrants) w' with ⟨hrest, hcut⟩ | ⟨before, v, rest, hbreak, hhalt⟩
                · simp only [Undisturbed, Program.history, search, Program.run, hanswer,
                    List.forall_mem_cons]
                  exact .inl ⟨⟨hopen, hrest⟩, hcut⟩
                · exact .inr ⟨_, v, rest, breaksOff_cons hanswer hopen hbreak, hhalt⟩
              · refine .inr ⟨[], w, next a, ?_, hexpired a hexpires⟩
                refine ⟨?_, ?_, hover, List.forall_mem_nil _⟩
                · simp only [Program.history, hanswer]
                  rfl
                · simp only [search, Program.run, hanswer]

end Game

/-! ### The end of a search -/

namespace Search

/-- The search asks for nothing more but the visit table and is done, with an answer that meets
`last`. -/
def Concludes (last : α → Prop) : Search α → Prop
  | .pure a => last a
  | .ask .table next => ∀ table, Concludes last (next table)
  | _ => False

/-- The search takes down that it was interrupted, and concludes. -/
def Halts (last : α → Prop) (p : Search α) : Prop :=
  ∃ rest, p = (note .interrupted >>= fun _ => rest) ∧ Concludes last rest

theorem concludes_bind {last : α → Prop} {last' : β → Prop} {p : Search α} {f : α → Search β}
    (hp : Concludes last p) (hf : ∀ a, last a → Concludes last' (f a)) :
    Concludes last' (p >>= f) := by
  induction p with
  | pure a => exact hf a hp
  | cut => exact hp.elim
  | fault e => exact hp.elim
  | ask q next ih =>
      cases q with
      | table => exact fun table => ih table (hp table)
      | _ => exact hp.elim

theorem halts_bind {last : α → Prop} {last' : β → Prop} {p : Search α} {f : α → Search β}
    (hp : Halts last p) (hf : ∀ a, last a → Concludes last' (f a)) : Halts last' (p >>= f) := by
  obtain ⟨rest, rfl, hrest⟩ := hp
  exact ⟨rest >>= f, rfl, concludes_bind hrest hf⟩

/-- Where a part of a search is stopped, the search halts with what it has. -/
theorem halts_attempt_bind {last : β → Prop} {p : Search α} {f : Option α → Search β}
    (hp : p = cutOff) (hf : Concludes last (f none)) : Halts last (p.attempt >>= f) := by
  subst hp
  exact ⟨f none, rfl, hf⟩

theorem concludes_run {last : α → Prop} {p : Search α} (hp : Concludes last p) (w : World) :
    (∃ a, last a ∧ g.search d p w = (.done a, w)) ∧ ∀ e ∈ p.history (answer g d) w, e.1 = .table := by
  induction p with
  | pure a => exact ⟨⟨a, hp, rfl⟩, List.forall_mem_nil _⟩
  | cut => exact hp.elim
  | fault e => exact hp.elim
  | ask q next ih =>
      cases q with
      | table =>
          obtain ⟨hrun, hhistory⟩ := ih w.table (hp w.table)
          refine ⟨hrun, ?_⟩
          intro e he
          rcases List.mem_cons.mp he with rfl | he
          · rfl
          · exact hhistory e he
      | _ => exact hp.elim

theorem halts_run {last : α → Prop} {p : Search α} (hp : Halts last p) (w : World) :
    (∃ a, last a ∧ g.search d p w = (.done a, w.stopped)) ∧
      ∀ e ∈ p.history (answer g d) w, e.1 = .note .interrupted ∨ e.1 = .table := by
  obtain ⟨rest, rfl, hrest⟩ := hp
  obtain ⟨hrun, hhistory⟩ := concludes_run (g := g) (d := d) hrest w.stopped
  refine ⟨hrun, ?_⟩
  intro e he
  rcases List.mem_cons.mp he with rfl | he
  · exact .inl rfl
  · exact .inr (hhistory e he)

end Search

end GeneralGame
