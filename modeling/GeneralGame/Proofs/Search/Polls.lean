import GeneralGame.Proofs.Game.Legal
import GeneralGame.Proofs.Search.Fuel
import GeneralGame.Proofs.Search.LastPoll
import Mathlib.Algebra.Order.Floor.Div

/-!
How often a search looks at the clock. Every look moves the clock on by a tick, so only so many of
them can find the deadline open, and a search that keeps to the deadline takes one more at most. With
more fuel than that it does not run out of it.
-/
namespace GeneralGame

open Search

variable {α : Type} {g : Game} {d : Deadline} {c : Clock} {w : Search.World} {n : Nat}

/-! ### The clock -/

namespace Deadline

theorem expired_iff {now : Nat} : d.expired now = true ↔ d.instant - d.margin ≤ now := by
  unfold expired remaining
  rw [decide_eq_true_eq]
  omega

/-- How often the clock can be read before the deadline has expired. -/
def readings (d : Deadline) (c : Clock) : Nat :=
  (d.instant - d.margin - c.now).toNat ⌈/⌉ c.tick

theorem readings_le_iff (htick : 1 ≤ c.tick) :
    d.readings c ≤ n ↔ d.instant - d.margin ≤ (c.now + c.tick * n : Nat) := by
  rw [readings, ceilDiv_le_iff_le_smul htick, smul_eq_mul]
  omega

theorem readings_read_le (htick : 1 ≤ c.tick) : d.readings c.read.2 ≤ d.readings c := by
  have hself := (readings_le_iff htick).mp (Nat.le_refl (d.readings c))
  apply (readings_le_iff (c := c.read.2) htick).mpr
  simp only [Clock.read]
  omega

/-- A reading that finds the deadline open is one of them. -/
theorem readings_read_lt (htick : 1 ≤ c.tick) (hopen : d.expired c.now = false) :
    d.readings c.read.2 < d.readings c := by
  have hpast : ¬ d.instant - d.margin ≤ c.now := by
    rw [← expired_iff, hopen]
    exact Bool.false_ne_true
  have hself := (readings_le_iff htick).mp (Nat.le_refl (d.readings c))
  cases hreadings : d.readings c with
  | zero =>
      rw [hreadings, Nat.mul_zero] at hself
      exact absurd hself hpast
  | succ n =>
      rw [hreadings, Nat.mul_succ] at hself
      apply Nat.lt_succ_of_le
      apply (readings_le_iff (c := c.read.2) htick).mpr
      simp only [Clock.read]
      omega

end Deadline

/-! ### Polls -/

namespace Game

/-- How often a search looks at the clock. -/
def polls (g : Game) (d : Deadline) (p : Search α) (w : Search.World) : Nat :=
  (p.history (Search.answer g d) w).countP (·.1.isPoll)

/-- The look at the clock finds the deadline open. -/
def isOpenPoll (d : Deadline) (e : SearchRequest × Search.World) : Bool :=
  e.1.isPoll && !d.expired e.2.play.clock.now

/-- Only polls move the clock. -/
theorem clock_answer (q : SearchRequest) (w : Search.World) :
    (Search.answer g d q w).2.play.clock =
      if q.isPoll then w.play.clock.read.2 else w.play.clock := by
  cases q with
  | play q =>
      cases q with
      | poll => rfl
      | query q => rfl
      | draw width n pos =>
          simp only [Search.answer, Play.answer]
          cases w.play.rng.draw width n pos <;> rfl
  | _ => rfl

/-- The clock after a request has fewer readings left if it was a poll before the deadline. -/
theorem readings_answer (htick : 1 ≤ w.play.clock.tick) (q : SearchRequest) :
    d.readings (Search.answer g d q w).2.play.clock + (if isOpenPoll d (q, w) then 1 else 0) ≤
      d.readings w.play.clock := by
  rw [clock_answer]
  cases hpoll : q.isPoll with
  | false => simp [isOpenPoll, hpoll]
  | true =>
      cases hexpired : d.expired w.play.clock.now with
      | true => simpa [isOpenPoll, hpoll, hexpired] using Deadline.readings_read_le htick
      | false =>
          simp only [isOpenPoll, hpoll, hexpired, Bool.not_false, Bool.and_self, if_true]
          exact Deadline.readings_read_lt htick hexpired

theorem tick_answer (q : SearchRequest) (w : Search.World) :
    (Search.answer g d q w).2.play.clock.tick = w.play.clock.tick := by
  rw [clock_answer]
  split <;> rfl

/-- Each poll before the deadline uses up one of the readings that are left. -/
theorem countP_isOpenPoll_le (p : Search α) (htick : 1 ≤ w.play.clock.tick) :
    (p.history (Search.answer g d) w).countP (isOpenPoll d) ≤ d.readings w.play.clock := by
  induction p generalizing w with
  | pure a => exact Nat.zero_le _
  | cut => exact Nat.zero_le _
  | fault f => exact Nat.zero_le _
  | ask q next ih =>
      have hreadings := readings_answer (g := g) (d := d) htick q
      have htick' := tick_answer (g := g) (d := d) q w
      rw [Program.history, List.countP_cons]
      cases hanswer : Search.answer g d q w with
      | mk reply v =>
          rw [hanswer] at hreadings htick'
          cases reply with
          | error f =>
              simp only [List.countP_nil]
              omega
          | ok a =>
              have hrest := ih a (w := v) (htick' ▸ htick)
              dsimp only at hreadings ⊢
              omega

theorem countP_isPoll_of_open {history : List (SearchRequest × Search.World)}
    (h : ∀ e ∈ history, e.1 = .play .poll → d.expired e.2.play.clock.now = false) :
    history.countP (·.1.isPoll) = history.countP (isOpenPoll d) := by
  apply List.countP_congr
  intro e he
  cases hpoll : e.1.isPoll with
  | false => simp [isOpenPoll, hpoll]
  | true =>
      have hopen := h e he (SearchRequest.isPoll_eq_true.mp hpoll)
      simp [isOpenPoll, hpoll, hopen]

/-- The last poll of a search that keeps to the deadline is the only one that may find it expired. -/
theorem polls_le {fits : List Transition → Prop} {since : List Transition} {last : α → Prop}
    {post : α → List Transition → Prop} {p : Search α}
    (hp : g.Punctual fits (Halts last) p since post) (htick : 1 ≤ w.play.clock.tick) :
    g.polls d p w ≤ d.readings w.play.clock + 1 := by
  have hcount := countP_isOpenPoll_le (g := g) (d := d) p htick
  by_cases hopen : g.Undisturbed d p w
  · rw [polls, countP_isPoll_of_open hopen]
    exact Nat.le_succ_of_le hcount
  · obtain ⟨before, v, after, a, hhistory, -, hbefore, hafter, -⟩ := done_of_disturbed hp hopen
    have hquiet : after.countP (·.1.isPoll) = 0 := by
      apply List.countP_eq_zero.mpr
      intro e he
      rcases hafter e he with h | h <;> (rw [h]; exact Bool.false_ne_true)
    rw [hhistory, List.countP_append] at hcount
    rw [polls, hhistory, List.countP_append, List.countP_cons, hquiet,
      countP_isPoll_of_open hbefore]
    simp only [SearchRequest.isPoll, if_true]
    omega

/-- A search that keeps to the deadline is never cut off, it has an answer by then. -/
theorem search_ne_cut {fits : List Transition → Prop} {since : List Transition} {last : α → Prop}
    {post : α → List Transition → Prop} {p : Search α}
    (hp : g.Punctual fits (Halts last) p since post) (v : Search.World) :
    g.search d p w ≠ (.cut, v) := by
  rcases punctual_cases hp w with ⟨-, hcut⟩ | ⟨before, u, rest, hbreak, hhalts⟩
  · exact hcut v
  · obtain ⟨⟨a, -, hrun⟩, -⟩ := halts_run (g := g) (d := d) hhalts u.polled
    rw [hbreak.search, hrun]
    nofun

/-- A game answers a question, refuses it, or has no room for its answer. -/
theorem answer_eq_fault {q : Query} {f : Fault} (h : g.answer q = .error f) :
    (∃ e, f = .error e) ∨ f = .panic := by
  cases q with
  | isTerminal s => cases h
  | jointMoves s => exact jointMovesOf_eq_fault (fun _ _ => ne_nil_of_options) h
  | jointMovesWith s r m => exact jointMovesOf_eq_fault (fun _ _ => ne_nil_of_pinned) h
  | _ =>
      obtain ⟨e, -, rfl⟩ := mapError_eq_error.mp h
      exact .inl ⟨e, rfl⟩

/-- A request fails to be answered for want of fuel only if it is a draw that does not return. -/
theorem answer_ne_outOfFuel {q : SearchRequest} (hdrawn : drawReturns (q, w) = true) :
    (Search.answer g d q w).1 ≠ .error .outOfFuel := by
  cases q with
  | play q =>
      cases q with
      | poll => rintro ⟨⟩
      | query q =>
          intro hanswer
          obtain ⟨_, h⟩ | h := answer_eq_fault hanswer <;> cases h
      | draw width n pos =>
          simp only [drawReturns] at hdrawn
          simp only [Search.answer, Play.answer]
          cases hdraw : w.play.rng.draw width n pos with
          | none =>
              rw [hdraw] at hdrawn
              cases hdrawn
          | some drawn => rintro ⟨⟩
  | _ => rintro ⟨⟩

/-- A search that runs out of fuel has looked at the clock as often as its fuel lasts. -/
theorem le_polls_of_outOfFuel {p : Search α} (hp : p.Lasts n)
    (hdraws : DrawsReturn (p.history (Search.answer g d) w)) {v : Search.World}
    (hrun : g.search d p w = (.fault .outOfFuel, v)) : n ≤ g.polls d p w := by
  induction p generalizing w n with
  | pure a => cases hrun
  | cut => cases hrun
  | fault f =>
      cases hrun
      rw [hp rfl]
      exact Nat.zero_le _
  | ask q next ih =>
      rw [Program.history] at hdraws
      have hreply := answer_ne_outOfFuel (g := g) (d := d) (hdraws (q, w) List.mem_cons_self)
      simp only [search, Program.run] at hrun
      rw [polls, Program.history, List.countP_cons]
      cases hanswer : Search.answer g d q w with
      | mk reply u =>
          rw [hanswer] at hreply hrun hdraws
          cases reply with
          | error f =>
              cases hrun
              exact absurd rfl hreply
          | ok a =>
              have hrest := ih a (hp a) (fun e he => hdraws e (List.mem_cons_of_mem _ he)) hrun
              rw [polls] at hrest
              cases hpoll : q.isPoll with
              | true =>
                  simp only [hpoll, if_true] at hrest ⊢
                  omega
              | false =>
                  simp only [hpoll, Bool.false_eq_true, if_false] at hrest ⊢
                  omega

end Game

end GeneralGame
