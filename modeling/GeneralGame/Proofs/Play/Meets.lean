import GeneralGame.Play.Basic
import GeneralGame.Proofs.Play.Requests

/-!
What programs do on what they can be told. A program meets a description if, whichever reply it gets
of those that each request can have, it asks only what is allowed and has an outcome as described.
Play that meets one keeps to it in every run, since it is told of the game what the game says and
draws some number. Only a draw that never comes to an end is left out.
-/
namespace GeneralGame

variable {α β : Type}

namespace Program

variable {Request World : Type} {Answer : Request → Type}
  {tells : (q : Request) → Except Fault (Answer q) → Prop} {allowed : Request → Prop}
  {post : Outcome α → Prop} {Q : Outcome β → Prop}

/-- On all replies that `tells` admits, the program asks what is allowed and its outcome is as
`post` says. -/
def Meets (tells : (q : Request) → Except Fault (Answer q) → Prop) (allowed : Request → Prop)
    (post : Outcome α → Prop) : Program Request Answer α → Prop
  | .pure a => post (.done a)
  | .cut => post .cut
  | .fault f => post (.fault f)
  | .ask q next => allowed q ∧ (∀ f, tells q (.error f) → post (.fault f)) ∧
      ∀ a, tells q (.ok a) → (next a).Meets tells allowed post

theorem meets_imp {permitted : Request → Prop} {weaker : Outcome α → Prop}
    {p : Program Request Answer α} (hp : p.Meets tells allowed post)
    (hallowed : ∀ q, allowed q → permitted q) (hpost : ∀ o, post o → weaker o) :
    p.Meets tells permitted weaker := by
  induction p with
  | pure a => exact hpost _ hp
  | cut => exact hpost _ hp
  | fault f => exact hpost _ hp
  | ask q next ih =>
      obtain ⟨hq, herror, hok⟩ := hp
      exact ⟨hallowed q hq, fun f hf => hpost _ (herror f hf), fun a ha => ih a (hok a ha)⟩

/-- A request whose replies are as `post` says. -/
theorem meets_request {q : Request} {post : Outcome (Answer q) → Prop} (hq : allowed q)
    (herror : ∀ f, tells q (.error f) → post (.fault f))
    (hok : ∀ a, tells q (.ok a) → post (.done a)) : (ask q pure).Meets tells allowed post :=
  ⟨hq, herror, hok⟩

theorem meets_bind {p : Program Request Answer α} {f : α → Program Request Answer β}
    (hp : p.Meets tells allowed post) (hcut : post .cut → Q .cut)
    (hfault : ∀ e, post (.fault e) → Q (.fault e))
    (hf : ∀ a, post (.done a) → (f a).Meets tells allowed Q) :
    (p >>= f).Meets tells allowed Q := by
  induction p with
  | pure a => exact hf a hp
  | cut => exact hcut hp
  | fault e => exact hfault e hp
  | ask q next ih =>
      obtain ⟨hq, herror, hok⟩ := hp
      exact ⟨hq, fun e he => hfault e (herror e he), fun a ha => ih a (hok a ha)⟩

theorem meets_attempt {p : Program Request Answer α} {Q : Outcome (Option α) → Prop}
    (hp : p.Meets tells allowed post) (hdone : ∀ a, post (.done a) → Q (.done (some a)))
    (hcut : post .cut → Q (.done none)) (hfault : ∀ e, post (.fault e) → Q (.fault e)) :
    p.attempt.Meets tells allowed Q := by
  induction p with
  | pure a => exact hdone a hp
  | cut => exact hcut hp
  | fault e => exact hfault e hp
  | ask q next ih =>
      obtain ⟨hq, herror, hok⟩ := hp
      exact ⟨hq, fun e he => hfault e (herror e he), fun a ha => ih a (hok a ha)⟩

/-- If no answer is given that `tells` does not admit, a run asks only what is allowed. Its outcome
is as described unless it fails with what a request could not be told. -/
theorem run_of_meets {answer : Handler Request Answer World}
    (htells : ∀ q w a, (answer q w).1 = .ok a → tells q (.ok a)) {p : Program Request Answer α}
    (hp : p.Meets tells allowed post) (w : World) :
    (∀ e ∈ p.history answer w, allowed e.1) ∧
      (post (p.run answer w).1 ∨ ∃ e ∈ p.history answer w, ∃ f,
        (answer e.1 e.2).1 = .error f ∧ ¬ tells e.1 (.error f) ∧
          (p.run answer w).1 = .fault f) := by
  induction p generalizing w with
  | pure a => exact ⟨List.forall_mem_nil _, .inl hp⟩
  | cut => exact ⟨List.forall_mem_nil _, .inl hp⟩
  | fault f => exact ⟨List.forall_mem_nil _, .inl hp⟩
  | ask q next ih =>
      obtain ⟨hq, herror, hok⟩ := hp
      have htold := htells q w
      rw [history, run]
      cases hanswer : answer q w with
      | mk reply v =>
          rw [hanswer] at htold
          cases reply with
          | error f =>
              refine ⟨List.forall_mem_singleton.mpr hq, ?_⟩
              by_cases hf : tells q (.error f)
              · exact .inl (herror f hf)
              · have hreply : (answer q w).1 = .error f := congrArg Prod.fst hanswer
                exact .inr ⟨(q, w), List.mem_singleton_self _, f, hreply, hf, rfl⟩
          | ok a =>
              obtain ⟨hasks, houtcome⟩ := ih a (hok a (htold a rfl)) v
              refine ⟨List.forall_mem_cons.mpr ⟨hq, hasks⟩, ?_⟩
              rcases houtcome with hpost | ⟨e, he, hfails⟩
              · exact .inl hpost
              · exact .inr ⟨e, List.mem_cons_of_mem _ he, hfails⟩

end Program

/-- What a request can be told: of the game what the game says, and for the rest some answer. -/
def PlayRequest.Told (g : Game) : (q : PlayRequest) → Except Fault q.Answer → Prop
  | .query q, reply => reply = g.answer q
  | _, reply => reply.isOk

namespace Play

open Program

variable {g : Game} {allowed : PlayRequest → Prop} {post : Outcome α → Prop}

theorem meets_query {q : Query} {post : Outcome q.Answer → Prop} (hq : allowed (.query q))
    (herror : ∀ f, g.answer q = .error f → post (.fault f))
    (hok : ∀ a, g.answer q = .ok a → post (.done a)) :
    (query q).Meets (PlayRequest.Told g) allowed post :=
  meets_request hq (fun f hf => herror f hf.symm) fun a ha => hok a ha.symm

/-- What follows a question about the game goes on with what the game says. -/
theorem meets_query_bind {q : Query} {f : q.Answer → Play α} (hq : allowed (.query q))
    (herror : ∀ e, g.answer q = .error e → post (.fault e))
    (hf : ∀ a, g.answer q = .ok a → (f a).Meets (PlayRequest.Told g) allowed post) :
    (query q >>= f).Meets (PlayRequest.Told g) allowed post := by
  let answered : Outcome q.Answer → Prop
    | .done a => g.answer q = .ok a
    | .cut => False
    | .fault e => post (.fault e)
  have hquery : (query q).Meets (PlayRequest.Told g) allowed answered :=
    meets_query hq herror fun _ ha => ha
  exact meets_bind hquery False.elim (fun _ he => he) hf

theorem meets_draw_bind {width : Rng.Width} {n : Nat} {pos : 0 < n} {f : Fin n → Play α}
    (hq : allowed (.draw width n pos))
    (hf : ∀ i, (f i).Meets (PlayRequest.Told g) allowed post) :
    (draw width n pos >>= f).Meets (PlayRequest.Told g) allowed post :=
  ⟨hq, nofun, fun i _ => hf i⟩

theorem meets_poll_bind {f : Bool → Play α} (hq : allowed .poll)
    (hf : ∀ expired, (f expired).Meets (PlayRequest.Told g) allowed post) :
    (poll >>= f).Meets (PlayRequest.Told g) allowed post :=
  ⟨hq, nofun, fun expired _ => hf expired⟩

variable {d : Deadline}

theorem told_of_answer {q : PlayRequest} {w : World} {a : q.Answer}
    (h : (answer g d q w).1 = .ok a) : q.Told g (.ok a) := by
  cases q with
  | query q => exact h.symm
  | poll => rfl
  | draw width n pos => rfl

/-- The play fails with a draw that never comes to an end. -/
def IsStuck (g : Game) (d : Deadline) (p : Play α) (w : World) : Prop :=
  (p.run (answer g d) w).1 = .fault .outOfFuel ∧ ∃ width n pos v,
    (.draw width n pos, v) ∈ p.history (answer g d) w ∧ v.rng.draw width n pos = none

theorem draw_of_not_told {q : PlayRequest} {w : World} {f : Fault}
    (h : (answer g d q w).1 = .error f) (hf : ¬ q.Told g (.error f)) :
    f = .outOfFuel ∧ ∃ width n pos, q = .draw width n pos ∧ w.rng.draw width n pos = none := by
  cases q with
  | query q => exact absurd h.symm hf
  | poll => cases h
  | draw width n pos =>
      simp only [answer] at h
      cases hdraw : w.rng.draw width n pos with
      | some drawn =>
          rw [hdraw] at h
          cases h
      | none =>
          rw [hdraw] at h
          cases h
          exact ⟨rfl, width, n, pos, rfl, hdraw⟩

/-- Play that meets a description keeps to it in every run, unless it gets stuck. -/
theorem run_of_meets {p : Play α} (hp : p.Meets (PlayRequest.Told g) allowed post) (w : World) :
    (∀ e ∈ p.history (answer g d) w, allowed e.1) ∧
      (post (p.run (answer g d) w).1 ∨ IsStuck g d p w) := by
  have htold : ∀ q w a, (answer g d q w).1 = .ok a → q.Told g (.ok a) :=
    fun _ _ _ => told_of_answer
  obtain ⟨hasks, houtcome⟩ := Program.run_of_meets htold hp w
  refine ⟨hasks, houtcome.imp_right ?_⟩
  rintro ⟨⟨q, v⟩, he, f, hreply, hf, hrun⟩
  obtain ⟨rfl, width, n, pos, rfl, hdraw⟩ := draw_of_not_told hreply hf
  exact ⟨hrun, width, n, pos, v, he, hdraw⟩

theorem outcome_of_meets {p : Play α} (hp : p.Meets (PlayRequest.Told g) allowed post) {w : World}
    {o : Outcome α} (h : (p.run (answer g d) w).1 = o) (ho : o ≠ .fault .outOfFuel) : post o := by
  rcases (run_of_meets hp w).2 with hpost | ⟨hfault, -⟩
  · rwa [h] at hpost
  · exact absurd (h.symm.trans hfault) ho

end Play

end GeneralGame
