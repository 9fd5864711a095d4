import GeneralGame.Player
import GeneralGame.Proofs.Game.Legal
import GeneralGame.Proofs.Play.Run

/-!
What a decision does. It fails where the role has no legal moves, takes the only one without a
search, and otherwise comes to what the search of the player's strategy comes to. The player keeps
its game, its strategy and its settings, and forks its generator if it has to search.
-/
namespace GeneralGame

/-- What a program came to, with another answer. -/
def Outcome.map {α β : Type} (f : α → β) : Outcome α → Outcome β
  | .done a => .done (f a)
  | .cut => .cut
  | .fault e => .fault e

theorem Program.run_map {Request World : Type} {Answer : Request → Type} {α β : Type}
    (answer : Handler Request Answer World) (f : α → β) (p : Program Request Answer α) (w : World) :
    (f <$> p).run answer w = ((p.run answer w).1.map f, (p.run answer w).2) := by
  change (p >>= fun a => Pure.pure (f a)).run answer w = _
  rw [run_bind]
  rcases p.run answer w with ⟨_ | _ | _, v⟩ <;> rfl

/-- The role has two moves or more to decide between. -/
def Game.isContested (g : Game) (s : State) (r : RoleId) : Bool :=
  match g.legal s r with
  | .ok moves => 2 ≤ moves.length
  | .error _ => false

namespace Player

variable {p : Player} {fuel : Nat} {role : RoleId} {s : State} {instant : Int} {clock : Clock}
  {moves : List Move} {h : moves ≠ []}

/-- The deadline that a search of the player keeps to. -/
def deadline (p : Player) (instant : Int) : Deadline := ⟨instant, p.strategy.marginUs p.config⟩

/-- The world that a search of the player starts in. -/
def searchWorld (p : Player) (clock : Clock) : Search.World :=
  { Search.World.new clock p.rng.fork.1 with selections := p.selections, playouts := p.playouts }

/-- What a decision asks in its search, which starts after the clock was read once; nothing where it
needs no search. -/
def history (p : Player) (fuel : Nat) (role : RoleId) (s : State) (instant : Int) (clock : Clock) :
    List (SearchRequest × Search.World) :=
  match p.game.moves s role with
  | .error _ => []
  | .ok ⟨moves, h⟩ =>
    if moves.length = 1 then []
    else (p.strategy.search (p.brief role) fuel s moves h).history
      (Search.answer p.game (p.deadline instant)) (p.searchWorld clock.read.2)

/-! ### The parts of a decision -/

/-- The choice among legal moves, of which the only one is taken without a search. -/
def choose (p : Player) (fuel : Nat) (role : RoleId) (s : State) (moves : List Move)
    (h : moves ≠ []) (instant : Int) (clock : Clock) : Outcome Move × Player × Clock :=
  if moves.length = 1 then (.done (moves.head h), p, clock)
  else p.search fuel role s moves h instant clock

/-- What a decision makes of a choice that was started at an instant. -/
def conclude (role : RoleId) (moves : List Move) (start : Nat) :
    Outcome Move × Player × Clock → Decision
  | (.cut, p, clock) => ⟨.cut, [], p, clock⟩
  | (.fault f, p, clock) => ⟨.fault f, [], p, clock⟩
  | (.done selection, p, clock) =>
    let selected : SelectedMove := ⟨moves, selection, clock.read.1 - start⟩
    ⟨.done selected, [(role, selected)],
      { p with stats := { p.stats with timeUs := selected.elapsedUs } }, clock.read.2⟩

theorem select_eq_of_error {e : GameError} (hmoves : p.game.moves s role = .error e) :
    p.select fuel role s instant clock =
      ⟨.fault (.error e), [], { p with stats := .zero }, clock.read.2⟩ := by
  simp only [select, hmoves]

theorem select_eq_of_moves (hmoves : p.game.moves s role = .ok ⟨moves, h⟩) :
    p.select fuel role s instant clock =
      conclude role moves clock.read.1
        ({ p with stats := .zero }.choose fuel role s moves h instant clock.read.2) := by
  cases hchoice : { p with stats := .zero }.choose fuel role s moves h instant clock.read.2 with
  | mk outcome rest =>
      rw [choose] at hchoice
      simp only [select, hmoves, hchoice]
      cases outcome <;> rfl

theorem conclude_outcome (choice : Outcome Move × Player × Clock) (start : Nat) :
    ∃ us, (conclude role moves start choice).outcome = choice.1.map fun m => ⟨moves, m, us⟩ := by
  obtain ⟨outcome, p, clock⟩ := choice
  cases outcome with
  | done m => exact ⟨_, rfl⟩
  | cut => exact ⟨0, rfl⟩
  | fault f => exact ⟨0, rfl⟩

theorem conclude_player (choice : Outcome Move × Player × Clock) (start : Nat) :
    ∃ stats, (conclude role moves start choice).player = { choice.2.1 with stats } := by
  obtain ⟨outcome, p, clock⟩ := choice
  cases outcome <;> exact ⟨_, rfl⟩

/-! ### The outcome -/

theorem select_of_error {e : GameError} (hmoves : p.game.moves s role = .error e) :
    (p.select fuel role s instant clock).outcome = .fault (.error e) := by
  rw [select_eq_of_error hmoves]

theorem select_of_single (fuel : Nat) (instant : Int) (clock : Clock)
    (hmoves : p.game.moves s role = .ok ⟨moves, h⟩)
    (hlength : moves.length = 1) :
    ∃ us, (p.select fuel role s instant clock).outcome = .done ⟨moves, moves.head h, us⟩ := by
  rw [select_eq_of_moves hmoves, choose, if_pos hlength]
  exact conclude_outcome _ _

theorem history_of_single (hmoves : p.game.moves s role = .ok ⟨moves, h⟩)
    (hlength : moves.length = 1) : p.history fuel role s instant clock = [] := by
  simp only [history, hmoves, hlength, if_true]

theorem select_of_search (fuel : Nat) (instant : Int) (clock : Clock)
    (hmoves : p.game.moves s role = .ok ⟨moves, h⟩)
    (hlength : moves.length ≠ 1) :
    ∃ us, (p.select fuel role s instant clock).outcome =
      (p.game.search (p.deadline instant) (p.strategy.search (p.brief role) fuel s moves h)
        (p.searchWorld clock.read.2)).1.map fun m => ⟨moves, m, us⟩ := by
  rw [select_eq_of_moves hmoves, choose, if_neg hlength]
  exact conclude_outcome _ _

theorem history_of_search (hmoves : p.game.moves s role = .ok ⟨moves, h⟩)
    (hlength : moves.length ≠ 1) :
    p.history fuel role s instant clock =
      (p.strategy.search (p.brief role) fuel s moves h).history
        (Search.answer p.game (p.deadline instant)) (p.searchWorld clock.read.2) := by
  simp only [history, hmoves, hlength, if_false]

/-! ### The player -/

/-- A decision changes what the player has counted, and forks the generator if there is a choice. -/
theorem select_player_eq (p : Player) (fuel : Nat) (role : RoleId) (s : State) (instant : Int)
    (clock : Clock) :
    ∃ stats selections playouts, (p.select fuel role s instant clock).player =
      { p with
        rng := if p.game.isContested s role then p.rng.fork.2 else p.rng
        stats, selections, playouts } := by
  cases hmoves : p.game.moves s role with
  | error e =>
      have hlegal : p.game.isContested s role = false := by
        rcases Game.moves_eq_error.mp hmoves with h | ⟨h, -⟩ <;> simp [Game.isContested, h]
      rw [select_eq_of_error hmoves, hlegal]
      exact ⟨_, _, _, rfl⟩
  | ok ms =>
      obtain ⟨moves, h⟩ := ms
      have hlegal := Game.moves_eq_ok.mp hmoves
      rw [select_eq_of_moves hmoves, choose, Game.isContested, hlegal]
      obtain ⟨stats, hplayer⟩ := conclude_player _ _
      rw [hplayer]
      have hpos : 0 < moves.length := List.length_pos_iff.mpr h
      by_cases hlength : moves.length = 1
      · simp only [hlength]
        exact ⟨_, _, _, rfl⟩
      · have hle : 2 ≤ moves.length := by omega
        simp only [hlength, hle]
        exact ⟨_, _, _, rfl⟩

/-- A decision changes nothing of what the player is. -/
theorem select_player (p : Player) (fuel : Nat) (role : RoleId) (s : State) (instant : Int)
    (clock : Clock) :
    (p.select fuel role s instant clock).player.game = p.game ∧
      (p.select fuel role s instant clock).player.strategy = p.strategy ∧
      ∀ r, (p.select fuel role s instant clock).player.brief r = p.brief r := by
  obtain ⟨_, _, _, hplayer⟩ := p.select_player_eq fuel role s instant clock
  rw [hplayer]
  exact ⟨rfl, rfl, fun _ => rfl⟩

end Player

end GeneralGame
