import GeneralGame.Play.Random
import GeneralGame.Search.Sampling.VisitTable
import GeneralGame.Search.Stats

/-!
Search: play that takes notes of what it does and keeps a visit table.
-/
namespace GeneralGame

inductive SearchRequest where
  | play (q : PlayRequest)
  | note (n : Note)
  /-- How often was a child selected before? -/
  | selectionTurn
  /-- How many playouts were started before? -/
  | playoutTurn
  /-- Starts the visit table over, with a root alone. -/
  | plant (root : State)
  | table
  | register (s : State)
  | setChildren (s : State) (children : List Child)
  | backup (path : List State) (visits : Nat) (reward : Float)

@[reducible] def SearchRequest.Answer : SearchRequest → Type
  | play q => q.Answer
  | selectionTurn => Nat
  | playoutTurn => Nat
  | table => VisitTable
  | note _ => Unit
  | plant _ => Unit
  | register _ => Unit
  | setChildren .. => Unit
  | backup .. => Unit

abbrev Search := Program SearchRequest SearchRequest.Answer

namespace Search

variable {α : Type}

/-- Play as a part of a search. -/
def ofPlay : Play α → Search α
  | .pure a => .pure a
  | .cut => .cut
  | .fault e => .fault e
  | .ask q next => .ask (.play q) fun a => ofPlay (next a)

def request (q : SearchRequest) : Search q.Answer := .ask q .pure

def query (q : Query) : Search q.Answer := request (.play (.query q))

def poll : Search Bool := request (.play .poll)

def note (n : Note) : Search Unit := request (.note n)

def selectionTurn : Search Nat := request .selectionTurn

def playoutTurn : Search Nat := request .playoutTurn

def plant (root : State) : Search Unit := request (.plant root)

def table : Search VisitTable := request .table

def register (s : State) : Search Unit := request (.register s)

def setChildren (s : State) (children : List Child) : Search Unit :=
  request (.setChildren s children)

def backup (path : List State) (visits : Nat) (reward : Float) : Search Unit :=
  request (.backup path visits reward)

/-- Takes down that the search was interrupted, and stops. -/
def cutOff : Search α := do
  note .interrupted
  .cut

/-- Whether the deadline has expired; if so, that is taken down. -/
def expired : Search Bool := do
  if ← poll then
    note .interrupted
    return true
  else return false

/-- Stops where the deadline has expired. -/
def checkpoint : Search Unit := do
  if ← poll then cutOff else return

/-- The state after a joint move, which counts as a node. -/
def next (s : State) (j : JointMove) : Search State := do
  note .node
  query (.next s j)

/-- What a search changes. -/
structure World where
  play : Play.World
  stats : Stats
  table : VisitTable
  /-- How often a child was selected. -/
  selections : Nat
  /-- How many playouts were started. -/
  playouts : Nat

def World.new (clock : Clock) (rng : Rng) : World := ⟨⟨clock, rng⟩, .zero, .empty, 0, 0⟩

/-- Answers a search on a game until a deadline. -/
@[inline]
def answer (game : Game) (deadline : Deadline) :
    Handler SearchRequest SearchRequest.Answer World
  | .play q, w =>
    let (a, play) := Play.answer game deadline q w.play
    (a, { w with play })
  | .note n, w => (.ok (), { w with stats := w.stats.take n })
  | .selectionTurn, w => (.ok w.selections, { w with selections := w.selections + 1 })
  | .playoutTurn, w => (.ok w.playouts, { w with playouts := w.playouts + 1 })
  | .plant root, w => (.ok (), { w with table := .withRoot root })
  | .table, w => (.ok w.table, w)
  | .register s, w => (.ok (), { w with table := w.table.register s })
  | .setChildren s children, w => (.ok (), { w with table := w.table.expand s children })
  | .backup path visits reward, w => (.ok (), { w with table := w.table.backup path visits reward })

end Search

/-- Runs a search on a game until a deadline. -/
def Game.search {α : Type} (g : Game) (deadline : Deadline) (p : Search α) (w : Search.World) :
    Outcome α × Search.World :=
  p.run (Search.answer g deadline) w

end GeneralGame
