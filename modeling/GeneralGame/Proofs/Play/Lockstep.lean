import GeneralGame.Play.Random
import GeneralGame.Proofs.Play.Requests
import GeneralGame.Proofs.Search.Worth

/-!
Two ways to play a game to its end at random: until it is over, and until it is over or the deadline
has expired. Side by side they draw the same numbers and meet the same states, since looking at the
clock draws nothing. So a playout that is not cut off scores the end that the game comes to, and one
that is cut off has drawn the first of the numbers.
-/
namespace GeneralGame

def PlayRequest.isDraw : PlayRequest → Bool
  | .draw .. => true
  | _ => false

namespace Play

open Program

variable {α β : Type} {g : Game} {d d' : Deadline} {s : State} {r : RoleId} {w w' : World}
  {roleCount fuel depth : Nat}

/-! ### Play that does not look at the clock -/

theorem answer_query_of_ok {q : Query} {a : q.Answer} (h : g.answer q = .ok a) :
    answer g d (.query q) w = (.ok a, w) := by
  rw [answer, h]

theorem answer_query_of_error {q : Query} {f : Fault} (h : g.answer q = .error f) :
    answer g d (.query q) w = (.error f, w) := by
  rw [answer, h]

/-- What is drawn in a run, each time with the generator that it is drawn from. -/
def draws (g : Game) (d : Deadline) (p : Play α) (w : World) : List (PlayRequest × Rng) :=
  ((p.history (answer g d) w).map fun e => (e.1, e.2.rng)).filter fun e => e.1.isDraw

theorem draws_bind_of_done {p : Play α} {f : α → Play β} {a : α}
    (h : p.run (answer g d) w = (.done a, w')) :
    draws g d (p >>= f) w = draws g d p w ++ draws g d (f a) w' := by
  simp only [draws, history_bind, h, List.map_append, List.filter_append]

/-- The runs have the same outcome, draw the same and leave the same generator. -/
structure DrawsAlike (g : Game) (d d' : Deadline) (p : Play α) (w w' : World) : Prop where
  outcome : (p.run (answer g d) w).1 = (p.run (answer g d') w').1
  rng : (p.run (answer g d) w).2.rng = (p.run (answer g d') w').2.rng
  draws : draws g d p w = draws g d' p w'

/-- Where nobody looks at it, the clock makes no difference, nor does the deadline. -/
theorem drawsAlike_of_noPolls {p : Play α} (hp : p.AsksOnly (· ≠ .poll)) (h : w.rng = w'.rng) :
    DrawsAlike g d d' p w w' := by
  induction p generalizing w w' with
  | pure a => exact ⟨rfl, h, rfl⟩
  | cut => exact ⟨rfl, h, rfl⟩
  | fault e => exact ⟨rfl, h, rfl⟩
  | ask q next ih =>
      obtain ⟨hq, hnext⟩ := hp
      cases q with
      | poll => exact absurd rfl hq
      | query q =>
          cases hanswer : g.answer q with
          | error e =>
              have hreply (d : Deadline) (w : World) := answer_query_of_error (d := d) (w := w) hanswer
              constructor <;> simp [run, draws, history, hreply, h]
          | ok a =>
              have hreply (d : Deadline) (w : World) := answer_query_of_ok (d := d) (w := w) hanswer
              have hrest : DrawsAlike g d d' (next a) w w' := ih a (hnext a) h
              constructor
              · simpa [run, hreply] using hrest.outcome
              · simpa [run, hreply] using hrest.rng
              · simpa [draws, history, hreply, PlayRequest.isDraw] using hrest.draws
      | draw width n pos =>
          cases hdraw : w.rng.draw width n pos with
          | none => constructor <;> simp [run, draws, history, answer, hdraw, ← h]
          | some drawn =>
              obtain ⟨i, rng⟩ := drawn
              have hrest : DrawsAlike g d d' (next i) { w with rng } { w' with rng } :=
                ih i (hnext i) rfl
              constructor
              · simpa [run, answer, hdraw, ← h] using hrest.outcome
              · simpa [run, answer, hdraw, ← h] using hrest.rng
              · simpa [draws, history, answer, hdraw, ← h, PlayRequest.isDraw] using hrest.draws

theorem noPolls_randomMove (s : State) (r : RoleId) : (randomMove s r).AsksOnly (· ≠ .poll) :=
  ⟨nofun, fun _ => ⟨nofun, fun _ => trivial⟩⟩

theorem noPolls_randomNext (roleCount : Nat) (s : State) :
    (randomNext roleCount s).AsksOnly (· ≠ .poll) :=
  asksOnly_bind (asksOnly_bind (asksOnly_mapM (noPolls_randomMove s)) fun _ => trivial)
    fun _ => ⟨nofun, fun _ => trivial⟩

/-! ### One round -/

theorem run_query_of_ok {q : Query} {a : q.Answer} (h : g.answer q = .ok a) :
    (query q).run (answer g d) w = (.done a, w) := by
  rw [query, request, run, answer_query_of_ok h]
  rfl

theorem run_query_of_error {q : Query} {f : Fault} (h : g.answer q = .error f) :
    (query q).run (answer g d) w = (.fault f, w) := by
  rw [query, request, run, answer_query_of_error h]

theorem run_isTerminal : (query (.isTerminal s)).run (answer g d) w = (.done (g.isTerminal s), w) :=
  rfl

theorem run_poll : poll.run (answer g d) w =
    (.done (d.expired w.clock.now), { w with clock := w.clock.read.2 }) := rfl

theorem toEnd_of_terminal (hterminal : g.isTerminal s = true) :
    (toEnd roleCount (fuel + 1) depth s).run (answer g d) w = (.done (s, depth), w) := by
  rw [toEnd, run_bind_of_done run_isTerminal, hterminal]
  rfl

theorem toEnd_of_going (hgoing : g.isTerminal s = false) :
    (toEnd roleCount (fuel + 1) depth s).run (answer g d) w =
        (randomNext roleCount s >>= toEnd roleCount fuel (depth + 1)).run (answer g d) w ∧
      draws g d (toEnd roleCount (fuel + 1) depth s) w =
        draws g d (randomNext roleCount s >>= toEnd roleCount fuel (depth + 1)) w := by
  rw [toEnd, run_bind_of_done run_isTerminal, draws_bind_of_done run_isTerminal, hgoing]
  exact ⟨rfl, rfl⟩

/-- What a playout makes of the end of the game. -/
def scored (g : Game) (r : RoleId) : Outcome (State × Nat) → Outcome Rollout
  | .done (t, n) =>
    match g.goal t r with
    | .ok goal => .done ⟨goal, n⟩
    | .error e => .fault (.error e)
  | .cut => .cut
  | .fault f => .fault f

theorem rollout_of_terminal (hterminal : g.isTerminal s = true) :
    (rollout roleCount r (fuel + 1) depth s).run (answer g d) w =
      (scored g r (.done (s, depth)), w) := by
  rw [rollout, run_bind_of_done run_isTerminal, hterminal, if_pos rfl, scored]
  cases hgoal : g.goal s r with
  | ok goal =>
      have hanswer : g.answer (.goal s r) = .ok goal := Game.answer_goal.mpr hgoal
      exact run_bind_of_done (run_query_of_ok hanswer) _
  | error e =>
      have hanswer : g.answer (.goal s r) = .error (.error e) :=
        mapError_eq_error.mpr ⟨e, hgoal, rfl⟩
      exact run_bind_of_fault (run_query_of_error hanswer) _

/-- The deadline has expired where the game goes on. -/
theorem rollout_of_expired (hgoing : g.isTerminal s = false)
    (hexpired : d.expired w.clock.now = true) :
    ((rollout roleCount r (fuel + 1) depth s).run (answer g d) w).1 = .cut ∧
      (rollout roleCount r (fuel + 1) depth s).history (answer g d) w =
        [(.query (.isTerminal s), w), (.poll, w)] := by
  rw [rollout, run_bind_of_done run_isTerminal, history_bind, run_isTerminal, hgoing]
  dsimp only
  rw [if_neg Bool.false_ne_true, run_bind_of_done run_poll, history_bind, run_poll, hexpired]
  exact ⟨rfl, rfl⟩

theorem rollout_of_going (hgoing : g.isTerminal s = false)
    (hearly : d.expired w.clock.now = false) :
    (rollout roleCount r (fuel + 1) depth s).run (answer g d) w =
        (randomNext roleCount s >>= rollout roleCount r fuel (depth + 1)).run (answer g d)
          { w with clock := w.clock.read.2 } ∧
      (rollout roleCount r (fuel + 1) depth s).history (answer g d) w =
        [(.query (.isTerminal s), w), (.poll, w)] ++
          (randomNext roleCount s >>= rollout roleCount r fuel (depth + 1)).history (answer g d)
            { w with clock := w.clock.read.2 } := by
  rw [rollout, run_bind_of_done run_isTerminal, history_bind, run_isTerminal, hgoing]
  dsimp only
  rw [if_neg Bool.false_ne_true, run_bind_of_done run_poll, history_bind, run_poll, hearly]
  exact ⟨rfl, rfl⟩

/-! ### Whole playouts -/

/-- The playout scores the end that the game comes to, or fails as the game does, and leaves the
generator that the game leaves. -/
structure Finishes (g : Game) (d : Deadline) (r : RoleId) (charge : Outcome (State × Nat)) (rng : Rng)
    (playout : Play Rollout) (w : World) : Prop where
  outcome : (playout.run (answer g d) w).1 = scored g r charge
  rng : (playout.run (answer g d) w).2.rng = rng

/-- The playout is cut off where the deadline has expired and the game is not over, after the first
of the draws. -/
structure IsCutShort (g : Game) (d : Deadline) (drawn : List (PlayRequest × Rng))
    (playout : Play Rollout) (w : World) : Prop where
  outcome : (playout.run (answer g d) w).1 = .cut
  draws : draws g d playout w <+: drawn
  last : ∃ before t v, playout.history (answer g d) w =
      before ++ [(.query (.isTerminal t), v), (.poll, v)] ∧
    g.isTerminal t = false ∧ d.expired v.clock.now = true

/-- The playout finishes as the game that is played to its end, or it is cut short. -/
def KeepsUp (g : Game) (d d' : Deadline) (r : RoleId) (charge : Play (State × Nat)) (w' : World)
    (playout : Play Rollout) (w : World) : Prop :=
  Finishes g d r (charge.run (answer g d') w').1 (charge.run (answer g d') w').2.rng playout w ∨
    IsCutShort g d (draws g d' charge w') playout w

theorem IsCutShort.after {first : Play α} {rest : α → Play Rollout} {a : α} {v : World}
    {drawn : List (PlayRequest × Rng)} (h : IsCutShort g d drawn (rest a) v)
    (hfirst : first.run (answer g d) w = (.done a, v)) :
    IsCutShort g d (Play.draws g d first w ++ drawn) (first >>= rest) w := by
  obtain ⟨before, t, u, hhistory, hlast⟩ := h.last
  refine ⟨?_, ?_, first.history (answer g d) w ++ before, t, u, ?_, hlast⟩
  · rw [run_bind_of_done hfirst]
    exact h.outcome
  · rw [draws_bind_of_done hfirst, List.prefix_append_right_inj]
    exact h.draws
  · rw [history_bind, hfirst, List.append_assoc, ← hhistory]

/-- The step: what does not look at the clock can be put before both. -/
theorem keepsUp_bind {first : Play α} {rest : α → Play Rollout}
    {rest' : α → Play (State × Nat)} (hfirst : first.AsksOnly (· ≠ .poll)) (hrng : w.rng = w'.rng)
    (hrest : ∀ a v v', v.rng = v'.rng → KeepsUp g d d' r (rest' a) v' (rest a) v) :
    KeepsUp g d d' r (first >>= rest') w' (first >>= rest) w := by
  have halike : DrawsAlike g d d' first w w' := drawsAlike_of_noPolls hfirst hrng
  obtain ⟨houtcome, hrng, hdraws⟩ := halike
  cases hrun : first.run (answer g d) w with
  | mk o v =>
      cases hrun' : first.run (answer g d') w' with
      | mk o' v' =>
          rw [hrun, hrun'] at houtcome hrng
          cases houtcome
          cases o with
          | done a =>
              rcases hrest a v v' hrng with hfinishes | hcut
              · refine .inl ⟨?_, ?_⟩ <;> rw [run_bind_of_done hrun, run_bind_of_done hrun']
                · exact hfinishes.outcome
                · exact hfinishes.rng
              · have hafter := hcut.after hrun
                rw [hdraws, ← draws_bind_of_done hrun'] at hafter
                exact .inr hafter
          | cut =>
              refine .inl ⟨?_, ?_⟩ <;> rw [run_bind, run_bind, hrun, hrun']
              · rfl
              · exact hrng
          | fault e =>
              refine .inl ⟨?_, ?_⟩ <;> rw [run_bind_of_fault hrun, run_bind_of_fault hrun']
              · rfl
              · exact hrng

theorem keepsUp_of_going (hgoing : g.isTerminal s = false) (hearly : d.expired w.clock.now = false)
    (h : KeepsUp g d d' r (randomNext roleCount s >>= toEnd roleCount fuel (depth + 1)) w'
      (randomNext roleCount s >>= rollout roleCount r fuel (depth + 1))
      { w with clock := w.clock.read.2 }) :
    KeepsUp g d d' r (toEnd roleCount (fuel + 1) depth s) w'
      (rollout roleCount r (fuel + 1) depth s) w := by
  obtain ⟨hrun, hhistory⟩ := rollout_of_going hgoing hearly
  obtain ⟨hrun', hdraws'⟩ := toEnd_of_going hgoing
  rcases h with hfinishes | hcut
  · refine .inl ⟨?_, ?_⟩ <;> rw [hrun, hrun']
    · exact hfinishes.outcome
    · exact hfinishes.rng
  · obtain ⟨before, t, v, hlast, hend⟩ := hcut.last
    refine .inr ⟨?_, ?_, (.query (.isTerminal s), w) :: (.poll, w) :: before, t, v, ?_, hend⟩
    · rw [hrun]
      exact hcut.outcome
    · rw [hdraws', draws, hhistory]
      exact hcut.draws
    · rw [hhistory, hlast]
      rfl

/-- The run: side by side, a playout and a game that is played to its end draw alike until the
deadline cuts the playout off. -/
theorem keepsUp_rollout (fuel depth : Nat) (s : State) (hrng : w.rng = w'.rng) :
    KeepsUp g d d' r (toEnd roleCount fuel depth s) w' (rollout roleCount r fuel depth s) w := by
  induction fuel generalizing depth s w w' with
  | zero => exact .inl ⟨rfl, hrng⟩
  | succ fuel ih =>
      cases hterminal : g.isTerminal s with
      | true =>
          refine .inl ⟨?_, ?_⟩ <;>
            rw [rollout_of_terminal hterminal, toEnd_of_terminal hterminal]
          exact hrng
      | false =>
          cases hexpired : d.expired w.clock.now with
          | true =>
              obtain ⟨hcut, hhistory⟩ := rollout_of_expired hterminal hexpired
              refine .inr ⟨hcut, ?_, [], s, w, hhistory, hterminal, hexpired⟩
              rw [draws, hhistory]
              exact List.nil_prefix
          | false =>
              refine keepsUp_of_going hterminal hexpired ?_
              exact keepsUp_bind (noPolls_randomNext roleCount s) hrng
                fun t v v' hv => ih (depth + 1) t hv

/-- A game that came to its end comes to it with more fuel as well. -/
theorem toEnd_of_more_fuel {o : Outcome (State × Nat)} {v : World} (more : Nat)
    (h : (toEnd roleCount fuel depth s).run (answer g d) w = (o, v)) (ho : o ≠ .fault .outOfFuel) :
    (toEnd roleCount (fuel + more) depth s).run (answer g d) w = (o, v) := by
  induction fuel generalizing depth s w with
  | zero =>
      cases h
      exact absurd rfl ho
  | succ fuel ih =>
      rw [Nat.succ_add]
      cases hterminal : g.isTerminal s with
      | true =>
          rw [toEnd_of_terminal hterminal] at h ⊢
          exact h
      | false =>
          rw [(toEnd_of_going hterminal).1] at h ⊢
          rcases run_bind_cases h with ⟨o', hfirst, ho', -⟩ | ⟨t, u, hfirst, hrest⟩
          · rw [run_bind, hfirst] at h ⊢
            cases o' with
            | done t => cases ho'
            | cut => exact h
            | fault e => exact h
          · rw [run_bind_of_done hfirst]
            exact ih hrest

/-! ### Depths in machine words -/

/-- The playout, where the joint moves are counted in a machine word. -/
def rolloutInWords (roleCount : Nat) (r : RoleId) :
    (fuel : Nat) → (depth : UInt32) → State → Play (Nat × UInt32)
  | 0, _, _ => .outOfFuel
  | fuel + 1, depth, s => do
    if ← query (.isTerminal s) then return (← query (.goal s r), depth)
    else if ← poll then .cut
    else rolloutInWords roleCount r fuel (depth + 1) (← randomNext roleCount s)

theorem rolloutInWords_eq (roleCount : Nat) (r : RoleId) (fuel depth : Nat) (s : State) :
    rolloutInWords roleCount r fuel (.ofNat depth) s =
      (fun o : Rollout => (o.goal, UInt32.ofNat o.depth)) <$> rollout roleCount r fuel depth s := by
  induction fuel generalizing depth s with
  | zero => rfl
  | succ fuel ih =>
      have hdepth : UInt32.ofNat depth + 1 = .ofNat (depth + 1) := by simp
      rw [rolloutInWords, rollout, map_bind]
      congr
      funext terminal
      cases terminal with
      | true => simp
      | false =>
          simp only [Bool.false_eq_true, if_false, map_bind, hdepth, ih]
          congr
          funext expired
          cases expired with
          | true => rfl
          | false => simp [map_bind]

/-- A playout from the same generator as a game that is played to its end: it scores the state that
the game ends in, with the number of joint moves as its depth, or it fails as the game or the goal
does, and it leaves the same generator, unless it reads the deadline as expired. In that case it stops
right there, in a state where the game goes on, and its draws are the first of the game's. A depth
below 2 ^ 32 fits the word that it is counted in. -/
theorem playouts_agree (g : Game) (s : State) (r : RoleId) (fuel : Nat) (d : Deadline) (w : World) :
    ((∀ v, (.poll, v) ∈ (rollout g.roleCount r fuel 0 s).history (answer g d) w →
        d.expired v.clock.now = false) →
      Finishes g d r (g.play (toEnd g.roleCount fuel 0 s) w.rng).1
        (g.play (toEnd g.roleCount fuel 0 s) w.rng).2 (rollout g.roleCount r fuel 0 s) w) ∧
    (Finishes g d r (g.play (toEnd g.roleCount fuel 0 s) w.rng).1
        (g.play (toEnd g.roleCount fuel 0 s) w.rng).2 (rollout g.roleCount r fuel 0 s) w ∨
      IsCutShort g d (draws g ⟨0, 0⟩ (toEnd g.roleCount fuel 0 s) ⟨⟨0, 0⟩, w.rng⟩)
        (rollout g.roleCount r fuel 0 s) w) ∧
    (∀ o, ((rollout g.roleCount r fuel 0 s).run (answer g d) w).1 = .done o → o.depth < UInt32.size →
      ∃ depth, ((rolloutInWords g.roleCount r fuel (.ofNat 0) s).run (answer g d) w).1 =
          .done (o.goal, depth) ∧ depth.toNat = o.depth) ∧
    ∀ more, (g.play (toEnd g.roleCount fuel 0 s) w.rng).1 ≠ .fault .outOfFuel →
      g.play (toEnd g.roleCount (fuel + more) 0 s) w.rng =
        g.play (toEnd g.roleCount fuel 0 s) w.rng := by
  have hkeeps : KeepsUp g d ⟨0, 0⟩ r (toEnd g.roleCount fuel 0 s) ⟨⟨0, 0⟩, w.rng⟩
      (rollout g.roleCount r fuel 0 s) w := keepsUp_rollout fuel 0 s rfl
  refine ⟨fun hearly => ?_, hkeeps, fun o ho hdepth => ?_, fun more hended => ?_⟩
  · refine hkeeps.resolve_right fun hcut => ?_
    obtain ⟨before, t, v, hhistory, -, hexpired⟩ := hcut.last
    have hpoll := hearly v (by rw [hhistory]; simp)
    rw [hexpired] at hpoll
    cases hpoll
  · refine ⟨.ofNat o.depth, ?_, UInt32.toNat_ofNat_of_lt hdepth⟩
    cases hrun : (rollout g.roleCount r fuel 0 s).run (answer g d) w with
    | mk o' v =>
        rw [hrun] at ho
        cases ho
        rw [rolloutInWords_eq, ← bind_pure_comp, run_bind_of_done hrun]
        rfl
  · have hmore := toEnd_of_more_fuel (g := g) (d := ⟨0, 0⟩) (w := ⟨⟨0, 0⟩, w.rng⟩) more rfl hended
    rw [Game.play, hmore]
    rfl

open TwoRounds in
/-- On a clock that stands still the playout comes to the end of the two rounds. On one that ticks it
is cut off after the first. -/
theorem playouts_agree_twoRounds :
    Finishes game ⟨1, 0⟩ (.ofIndex 0) (game.play (toEnd 2 3 0 game.initial) (.ofSeed 42)).1
        (game.play (toEnd 2 3 0 game.initial) (.ofSeed 42)).2
        (rollout 2 (.ofIndex 0) 3 0 game.initial) ⟨⟨0, 0⟩, .ofSeed 42⟩ ∧
      IsCutShort game ⟨1, 0⟩ (draws game ⟨0, 0⟩ (toEnd 2 3 0 game.initial) ⟨⟨0, 0⟩, .ofSeed 42⟩)
        (rollout 2 (.ofIndex 0) 3 0 game.initial) ⟨⟨0, 1⟩, .ofSeed 42⟩ := by
  obtain ⟨hstill, -⟩ :=
    playouts_agree game game.initial (.ofIndex 0) 3 ⟨1, 0⟩ ⟨⟨0, 0⟩, .ofSeed 42⟩
  obtain ⟨-, hticking, -⟩ :=
    playouts_agree game game.initial (.ofIndex 0) 3 ⟨1, 0⟩ ⟨⟨0, 1⟩, .ofSeed 42⟩
  refine ⟨hstill fun v hv => ?_, hticking.resolve_left fun hfinishes => ?_⟩
  · have hearly : (((rollout 2 (.ofIndex 0) 3 0 game.initial).history (answer game ⟨1, 0⟩)
        ⟨⟨0, 0⟩, .ofSeed 42⟩).all fun e => !(Deadline.expired ⟨1, 0⟩ e.2.clock.now)) = true := by
      decide +kernel
    simpa using List.all_eq_true.mp hearly _ hv
  · have hcut : ((rollout 2 (.ofIndex 0) 3 0 game.initial).run (answer game ⟨1, 0⟩)
        ⟨⟨0, 1⟩, .ofSeed 42⟩).1.isDone = false := by decide +kernel
    have hscored : (scored game (.ofIndex 0)
        (game.play (toEnd 2 3 0 game.initial) (.ofSeed 42)).1).isDone = true := by decide +kernel
    have houtcome : ((rollout 2 (.ofIndex 0) 3 0 game.initial).run (answer game ⟨1, 0⟩)
        ⟨⟨0, 1⟩, .ofSeed 42⟩).1 = scored game (.ofIndex 0)
          (game.play (toEnd 2 3 0 game.initial) (.ofSeed 42)).1 := hfinishes.outcome
    rw [houtcome, hscored] at hcut
    cases hcut

end Play

end GeneralGame
