import GeneralGame.Proofs.Game.Value
import GeneralGame.Proofs.Player.Decision
import GeneralGame.Proofs.Search.Choice
import GeneralGame.Proofs.Search.Finite

/-!
What an alpha-beta player is sure of. In a finite game it scores at least what its best move is worth
at the start, whatever the other players do, as long as no deadline disturbs it. A turn keeps what
the state is worth to the player, and brings the end one ply nearer.
-/
namespace GeneralGame.Player

open Search

variable {p q : Player} {role : RoleId} {s t : State} {plies fuel n : Nat}

/-- No look at the clock during the decision finds the deadline expired. -/
def Undisturbed (p : Player) (fuel : Nat) (role : RoleId) (s : State) (instant : Int)
    (clock : Clock) : Prop :=
  ∀ e ∈ p.history fuel role s instant clock,
    e.1 = .play .poll → (p.deadline instant).expired e.2.play.clock.now = false

/-- A clock that stands still before the deadline disturbs no decision. -/
theorem undisturbed_of_still {instant : Int} {clock : Clock} (htick : clock.tick = 0)
    (hopen : (p.deadline instant).expired clock.now = false) :
    p.Undisturbed fuel role s instant clock := by
  cases hmoves : p.game.moves s role with
  | error e =>
      rw [Undisturbed, history, hmoves]
      rintro _ ⟨⟩
  | ok ms =>
      obtain ⟨moves, h⟩ := ms
      by_cases hlength : moves.length = 1
      · rw [Undisturbed, history_of_single hmoves hlength]
        rintro _ ⟨⟩
      · rw [Undisturbed, history_of_search hmoves hlength]
        have hstill : clock.read.2 = clock := by
          obtain ⟨now, tick⟩ := clock
          cases htick
          rfl
        rw [hstill]
        exact Game.undisturbed_of_still htick hopen

/-- What may come of some turns: in each of them the player decides undisturbed on the move of its
role, and everybody else makes any legal move. -/
inductive Plays (fuel : Nat) (role : RoleId) (p : Player) (s : State) : Nat → Player → State → Prop
  | start : Plays fuel role p s 0 p s
  | turn {n : Nat} {q : Player} {t u : State} {instant : Int} {clock : Clock}
      {selected : SelectedMove} {j : JointMove} (before : Plays fuel role p s n q t)
      (hon : q.game.isTerminal t = false) (hopen : q.Undisturbed fuel role t instant clock)
      (hselect : (q.select fuel role t instant clock).outcome = .done selected)
      (hlegal : q.game.IsLegal t j) (hmove : j.get? role = some selected.selection)
      (hnext : q.game.next t j = .ok u) :
      Plays fuel role p s (n + 1) (q.select fuel role t instant clock).player u

/-- An undisturbed decision is for a legal move, and none is worth more. -/
theorem select_best (hstrategy : p.strategy = .alphaBeta)
    (hrole : role ∈ RoleId.all p.game.roleCount)
    (hgoals : ∀ t v, p.game.goal t role = .ok v → v ≤ topGoal)
    (hends : p.game.EndsWithin role (p.game.CanPlay · role) p.game.IsLegal (plies + 1) s)
    (hon : p.game.isTerminal s = false) (hfuel : plies + 1 ≤ fuel) {instant : Int} {clock : Clock}
    (hopen : p.Undisturbed fuel role s instant clock) :
    ∃ selected v, (p.select fuel role s instant clock).outcome = .done selected ∧
      p.game.CanPlay s role selected.selection ∧
      p.game.rootWorth? (p.brief role) none (plies + 1) s selected.selection = some v ∧
      ∀ m x, p.game.CanPlay s role m →
        p.game.rootWorth? (p.brief role) none (plies + 1) s m = some x → x ≤ v := by
  cases hends with
  | ended hterminal _ => exact absurd hterminal (by rw [hon]; exact Bool.false_ne_true)
  | going _ hmoves hjoints hnext hrest =>
      have hworths : ∀ m, p.game.CanPlay s role m →
          ∃ v, p.game.rootWorth? (p.brief role) none (plies + 1) s m = some v := by
        intro m hm
        obtain ⟨joints, hlisted⟩ := hjoints m hm
        apply Game.exists_moveWorth (b := p.brief role) hlisted hrole hm
        intro j hj
        obtain ⟨t, ht⟩ := hnext j hj
        exact ⟨t, ht, Game.exists_stateWorth (b := p.brief role) hrole hgoals (hrest j t hj ht)⟩
      obtain ⟨⟨moves, h⟩, hms⟩ := hmoves role hrole
      by_cases hlength : moves.length = 1
      · -- The only move is taken without a search, and there is nothing else to compare it with.
        obtain ⟨m, rfl⟩ := List.length_eq_one_iff.mp hlength
        obtain ⟨us, hdone⟩ := select_of_single fuel instant clock hms hlength
        have hm : p.game.CanPlay s role m := (Game.mem_moves_iff hms).mp List.mem_cons_self
        obtain ⟨v, hv⟩ := hworths m hm
        refine ⟨_, v, hdone, hm, hv, fun m' x hm' hx => ?_⟩
        have hsame : m' = m := List.mem_singleton.mp ((Game.mem_moves_iff hms).mpr hm')
        rw [hsame, hv] at hx
        exact Nat.le_of_eq (Option.some.inj hx).symm
      · obtain ⟨us, houtcome⟩ := select_of_search fuel instant clock hms hlength
        rw [Undisturbed, history_of_search hms hlength] at hopen
        rw [hstrategy] at houtcome hopen
        have hworth : ∀ m ∈ moves, p.game.rootWorth? (p.brief role) none (plies + 1) s m =
            some ((p.game.rootWorth? (p.brief role) none (plies + 1) s m).getD 0) := by
          intro m hm
          obtain ⟨v, hv⟩ := hworths m ((Game.mem_moves_iff hms).mp hm)
          rw [hv, Option.getD_some]
        obtain ⟨m, w, hrun, hbest⟩ :=
          Game.done_of_returns (AlphaBeta.search_returns h hworth hfuel) hopen
        have hm := List.argmax_mem hbest
        have hdone : (p.select fuel role s instant clock).outcome = .done ⟨moves, m, us⟩ := by
          rw [houtcome]
          exact congrArg (fun r => r.1.map fun m => SelectedMove.mk moves m us) hrun
        refine ⟨_, _, hdone, (Game.mem_moves_iff hms).mp hm, hworth m hm, fun m' x hm' hx => ?_⟩
        have hle := List.le_of_mem_argmax ((Game.mem_moves_iff hms).mpr hm') hbest
        rw [hx, Option.getD_some] at hle
        exact hle

/-- What every turn keeps: the end is as many plies nearer as there were turns, and until then the
state is worth `floor` at least to the player. -/
structure OnCourse (p : Player) (role : RoleId) (plies floor : Nat) (n : Nat) (q : Player)
    (t : State) : Prop where
  game : q.game = p.game
  strategy : q.strategy = p.strategy
  brief : q.brief role = p.brief role
  worth : ∃ left v, n + left ≤ plies ∧
    p.game.EndsWithin role (p.game.CanPlay · role) p.game.IsLegal left t ∧
    p.game.stateWorth? (p.brief role) none (left + 1) 0 t = some v ∧ floor ≤ v

namespace OnCourse

variable {floor : Nat}

/-- The step: the decision is for a legal move, and whatever the others do the player stays on
course. -/
theorem turn (h : OnCourse p role plies floor n q t) (hstrategy : p.strategy = .alphaBeta)
    (hrole : role ∈ RoleId.all p.game.roleCount)
    (hgoals : ∀ t v, p.game.goal t role = .ok v → v ≤ topGoal) (hfuel : plies ≤ fuel)
    (hon : q.game.isTerminal t = false) {instant : Int} {clock : Clock}
    (hopen : q.Undisturbed fuel role t instant clock) :
    ∃ selected, (q.select fuel role t instant clock).outcome = .done selected ∧
      (∃ j, p.game.IsLegal t j ∧ j.get? role = some selected.selection) ∧
      ∀ j, p.game.IsLegal t j → j.get? role = some selected.selection →
        ∃ u, p.game.next t j = .ok u ∧
          OnCourse p role plies floor (n + 1) (q.select fuel role t instant clock).player u := by
  obtain ⟨hgame, hsame, hbrief, left, v, hleft, hends, hv, hfloor⟩ := h
  rw [hgame] at hon
  cases left with
  | zero =>
      cases hends with
      | ended hterminal _ => exact absurd hterminal (by rw [hon]; exact Bool.false_ne_true)
  | succ left =>
      have hends' : q.game.EndsWithin role (q.game.CanPlay · role) q.game.IsLegal (left + 1) t :=
        hgame.symm ▸ hends
      have hfuel' : left + 1 ≤ fuel := by omega
      have hbest := select_best (hsame.trans hstrategy) (hgame.symm ▸ hrole) (hgame.symm ▸ hgoals)
        hends' (hgame.symm ▸ hon) hfuel' hopen
      rw [hgame, hbrief] at hbest
      obtain ⟨selected, x, hdone, hlegal, hx, hmax⟩ := hbest
      -- The move that the state owes its worth to is worth no more than the selected one.
      obtain ⟨-, m, hm, hworth⟩ := Game.stateWorth?_eq_best hon hv
      have hle : v ≤ x := hmax m v hm hworth
      cases hends with
      | ended hterminal _ => exact absurd hterminal (by rw [hon]; exact Bool.false_ne_true)
      | going _ hmoves _ _ hrest =>
          refine ⟨selected, hdone, Game.exists_isLegal hmoves hrole hlegal, fun j hj hmove => ?_⟩
          obtain ⟨u, y, hnext, hy, hxy⟩ :=
            Game.le_of_moveWorth (b := p.brief role) hrole hlegal hx hj hmove
          obtain ⟨hgame', hsame', hbrief'⟩ := select_player q fuel role t instant clock
          refine ⟨u, hnext, hgame'.trans hgame, hsame'.trans hsame, (hbrief' role).trans hbrief,
            left, y, by omega, hrest j u hj hnext, ?_, by omega⟩
          rw [Game.stateWorth?_level 0 1]
          exact hy

/-- The run: the player is on course after any number of turns. -/
theorem of_plays (h : Plays fuel role p s n q t) (hstart : OnCourse p role plies floor 0 p s)
    (hstrategy : p.strategy = .alphaBeta) (hrole : role ∈ RoleId.all p.game.roleCount)
    (hgoals : ∀ t v, p.game.goal t role = .ok v → v ≤ topGoal) (hfuel : plies ≤ fuel) :
    OnCourse p role plies floor n q t := by
  induction h with
  | start => exact hstart
  | turn before hon hopen hselect hlegal hmove hnext ih =>
      rename_i q t u _ _ selected j
      obtain ⟨selected', hdone, -, hcourse⟩ := ih.turn hstrategy hrole hgoals hfuel hon hopen
      rw [hselect] at hdone
      cases hdone
      rw [ih.game] at hlegal hnext
      obtain ⟨u', hnext', hcourse⟩ := hcourse j hlegal hmove
      rw [hnext] at hnext'
      cases hnext'
      exact hcourse

theorem goal_ge (h : OnCourse p role plies floor n q t) (hterminal : p.game.isTerminal t = true) :
    ∃ v, p.game.goal t role = .ok v ∧ floor ≤ v := by
  obtain ⟨left, v, -, -, hv, hfloor⟩ := h.worth
  rw [Game.stateWorth?, if_pos hterminal] at hv
  exact ⟨v, (Game.goalOnScale?_eq_some.mp hv).1, hfloor⟩

end OnCourse

/-- A player that decides by alpha-beta search, and whom no deadline disturbs, in a game that ends
within some plies without an error and has goals up to 100. Every legal move has a worth in the full
tree at the start. Whatever legal moves the others make, play goes on with a legal move of the player
as long as the game is not over; it is over after these plies at most; and then the role's goal is no
less than the worth of any move at the start. -/
theorem alphaBeta_secures_worth (hstrategy : p.strategy = .alphaBeta)
    (hrole : role ∈ RoleId.all p.game.roleCount)
    (hgoals : ∀ t v, p.game.goal t role = .ok v → v ≤ topGoal)
    (hends : p.game.EndsWithin role (p.game.CanPlay · role) p.game.IsLegal plies s)
    (hon : p.game.isTerminal s = false) (hfuel : plies ≤ fuel) :
    ∃ worth : Move → Nat,
      (∀ m, p.game.CanPlay s role m →
        p.game.rootWorth? (p.brief role) none plies s m = some (worth m)) ∧
      ∀ n q t, Plays fuel role p s n q t → n ≤ plies ∧
        (p.game.isTerminal t = true → ∃ v, p.game.goal t role = .ok v ∧
          ∀ m, p.game.CanPlay s role m → worth m ≤ v) ∧
        (p.game.isTerminal t = false → ∀ instant clock, q.Undisturbed fuel role t instant clock →
          ∃ selected, (q.select fuel role t instant clock).outcome = .done selected ∧
            (∃ j, p.game.IsLegal t j ∧ j.get? role = some selected.selection) ∧
            ∀ j, p.game.IsLegal t j → j.get? role = some selected.selection →
              ∃ u, p.game.next t j = .ok u) := by
  have hvalue : ∃ v, p.game.stateWorth? (p.brief role) none (plies + 1) 0 s = some v :=
    Game.exists_stateWorth hrole hgoals hends
  obtain ⟨v, hv⟩ := hvalue
  have hstart : OnCourse p role plies v 0 p s :=
    ⟨rfl, rfl, rfl, plies, v, Nat.le_of_eq (Nat.zero_add plies), hends, hv, Nat.le_refl v⟩
  choose! worth hworth using (Game.stateWorth?_eq_best hon hv).1
  refine ⟨worth, fun m hm => (hworth m hm).1, fun n q t hplays => ?_⟩
  have hcourse := OnCourse.of_plays hplays hstart hstrategy hrole hgoals hfuel
  refine ⟨?_, fun hterminal => ?_, fun hon' instant clock hopen => ?_⟩
  · obtain ⟨left, -, hleft, -⟩ := hcourse.worth
    omega
  · obtain ⟨goal, hgoal, hfloor⟩ := hcourse.goal_ge hterminal
    exact ⟨goal, hgoal, fun m hm => Nat.le_trans (hworth m hm).2 hfloor⟩
  · rw [← hcourse.game] at hon'
    obtain ⟨selected, hdone, hexists, hnext⟩ :=
      hcourse.turn hstrategy hrole hgoals hfuel hon' hopen
    refine ⟨selected, hdone, hexists, fun j hj hmove => ?_⟩
    obtain ⟨u, hu, -⟩ := hnext j hj hmove
    exact ⟨u, hu⟩

/-- Plays the first part in the game of two rounds. -/
def careful : Player := .new TwoRounds.game .alphaBeta .standard .ucb .random

open TwoRounds in
/-- In the second round, against a column player that goes right, the player scores more than the 33
that its better move is worth. -/
theorem alphaBeta_secures_worth_twoRounds :
    ∃ q t v, Plays 1 (.ofIndex 0) careful (.ofFacts [5]) 1 q t ∧
      TwoRounds.game.goal t (.ofIndex 0) = .ok v ∧ 33 ≤ v := by
  have hgoals : ∀ t v, careful.game.goal t (.ofIndex 0) = .ok v → v ≤ topGoal := by
    rintro t _ ⟨⟩
    have hscale := Nat.mod_lt (place t * 37) (show 0 < 101 by decide)
    exact Nat.le_of_lt_succ hscale
  have hends : careful.game.EndsWithin (.ofIndex 0) (careful.game.CanPlay · (.ofIndex 0))
      careful.game.IsLegal 1 (.ofFacts [5]) :=
    endsWithin (by decide)
  obtain ⟨worth, hworth, hplays⟩ :=
    alphaBeta_secures_worth (p := careful) rfl (by decide) hgoals hends rfl (Nat.le_refl 1)
  have hselect : (careful.select 1 (.ofIndex 0) (.ofFacts [5]) 1000000 ⟨0, 0⟩).outcome =
    .done ⟨[left, right], left, 0⟩ := rfl
  have hlegal : careful.game.IsLegal (.ofFacts [5]) ⟨[left, right]⟩ :=
    .cons ⟨[left, right], rfl, by decide⟩ (.cons ⟨[left, right], rfl, by decide⟩ .nil)
  have hturn := Plays.start.turn rfl (undisturbed_of_still rfl rfl) hselect hlegal rfl rfl
  obtain ⟨v, hv, hge⟩ := (hplays _ _ _ hturn).2.1 rfl
  have hleft : careful.game.CanPlay (.ofFacts [5]) (.ofIndex 0) left :=
    ⟨[left, right], rfl, by decide⟩
  have hvalue : careful.game.rootWorth? (careful.brief (.ofIndex 0)) none 1 (.ofFacts [5]) left =
      some 33 := by decide
  rw [hworth left hleft] at hvalue
  exact ⟨_, _, v, hturn, hv, Option.some.inj hvalue ▸ hge left hleft⟩

end GeneralGame.Player
