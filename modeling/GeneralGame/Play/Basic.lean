import GeneralGame.Game
import GeneralGame.Play.Clock
import GeneralGame.Play.Program
import GeneralGame.Random.Rng

/-!
Play: programs that question a game, draw random numbers and look at the deadline.
-/
namespace GeneralGame

/-- A question about the game. -/
inductive Query where
  | isTerminal (s : State)
  | goal (s : State) (r : RoleId)
  | legal (s : State) (r : RoleId)
  /-- The legal moves of a role that has to move. -/
  | moves (s : State) (r : RoleId)
  | next (s : State) (j : JointMove)
  | jointMoves (s : State)
  | jointMovesWith (s : State) (r : RoleId) (m : Move)

@[reducible] def Query.Answer : Query → Type
  | isTerminal _ => Bool
  | goal .. => Nat
  | legal .. => List Move
  | moves .. => { ms : List Move // ms ≠ [] }
  | next .. => State
  | jointMoves _ => List JointMove
  | jointMovesWith .. => List JointMove

def Game.answer (g : Game) : (q : Query) → Except Fault q.Answer
  | .isTerminal s => .ok (g.isTerminal s)
  | .goal s r => (g.goal s r).mapError .error
  | .legal s r => (g.legal s r).mapError .error
  | .moves s r => (g.moves s r).mapError .error
  | .next s j => (g.next s j).mapError .error
  | .jointMoves s => g.jointMoves s
  | .jointMovesWith s r m => g.jointMovesWith s r m

section

variable {g : Game} {s : State} {r : RoleId}

theorem Game.answer_goal {v : Nat} : g.answer (.goal s r) = .ok v ↔ g.goal s r = .ok v :=
  mapError_eq_ok

theorem Game.answer_legal {ms : List Move} : g.answer (.legal s r) = .ok ms ↔ g.legal s r = .ok ms :=
  mapError_eq_ok

theorem Game.answer_moves {ms : { ms : List Move // ms ≠ [] }} :
    g.answer (.moves s r) = .ok ms ↔ g.moves s r = .ok ms := mapError_eq_ok

theorem Game.answer_next {j : JointMove} {t : State} :
    g.answer (.next s j) = .ok t ↔ g.next s j = .ok t := mapError_eq_ok

end

inductive PlayRequest where
  /-- Has the deadline expired? -/
  | poll
  | query (q : Query)
  /-- A random place among `n`. -/
  | draw (w : Rng.Width) (n : Nat) (pos : 0 < n)

@[reducible] def PlayRequest.Answer : PlayRequest → Type
  | poll => Bool
  | query q => q.Answer
  | draw _ n _ => Fin n

abbrev Play := Program PlayRequest PlayRequest.Answer

namespace Play

def request (q : PlayRequest) : Play q.Answer := .ask q .pure

def poll : Play Bool := request .poll

def query (q : Query) : Play q.Answer := request (.query q)

def draw (w : Rng.Width) (n : Nat) (pos : 0 < n) : Play (Fin n) := request (.draw w n pos)

/-- What play changes. -/
structure World where
  clock : Clock
  rng : Rng

/-- Answers play of a game until a deadline. -/
def answer (game : Game) (deadline : Deadline) : Handler PlayRequest PlayRequest.Answer World
  | .poll, w =>
    let (now, clock) := w.clock.read
    (.ok (deadline.expired now), { w with clock })
  | .query q, w => (game.answer q, w)
  | .draw width n pos, w =>
    match w.rng.draw width n pos with
    | some (i, rng) => (.ok i, { w with rng })
    | none => (.error .outOfFuel, w)

end Play

/-- Runs play that does not look at the deadline. -/
def Game.play {α : Type} (g : Game) (p : Play α) (rng : Rng) : Outcome α × Rng :=
  let (outcome, w) := p.run (Play.answer g ⟨0, 0⟩) ⟨⟨0, 0⟩, rng⟩
  (outcome, w.rng)

end GeneralGame
