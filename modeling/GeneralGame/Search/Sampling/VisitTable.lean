import GeneralGame.Move
import GeneralGame.State
import Std.Data.TreeMap

/-!
What a tree search knows of the states that it has met. Entries belong to states and not to
positions in a tree, so a state that is reached in several ways has one entry.
-/
namespace GeneralGame

/-- A successor and the joint move that leads to it. -/
structure Child where
  joint : JointMove
  state : State
deriving DecidableEq

def Child.playedBy (c : Child) (r : RoleId) (m : Move) : Bool := c.joint.get? r = some m

structure Node where
  visits : Nat
  total : Float
  /-- The successors, once the state was expanded. -/
  children : Option (List Child)

namespace Node

def new : Node := ⟨0, 0, none⟩

def mean (n : Node) : Float := if n.visits = 0 then 0 else n.total / n.visits.toFloat

def isVisited (n : Node) : Bool := 0 < n.visits

def isExpanded (n : Node) : Bool := n.children.isSome

def record (n : Node) (visits : Nat) (reward : Float) : Node :=
  { n with visits := n.visits + visits, total := n.total + reward }

def expand (n : Node) (children : List Child) : Node := { n with children := some children }

end Node

structure VisitTable where
  nodes : Std.TreeMap State Node

namespace VisitTable

def empty : VisitTable := ⟨∅⟩

def get? (t : VisitTable) (s : State) : Option Node := t.nodes[s]?

def contains (t : VisitTable) (s : State) : Bool := t.nodes.contains s

/-- The entry of a state, new if it has none. -/
def node (t : VisitTable) (s : State) : Node := (t.get? s).getD .new

/-- Changes the entry of a state, which gets a new one first if it has none. -/
def alter (t : VisitTable) (s : State) (change : Node → Node) : VisitTable :=
  ⟨t.nodes.insert s (change (t.node s))⟩

@[simp] theorem get?_empty (s : State) : empty.get? s = none := Std.TreeMap.getElem?_emptyc

theorem get?_alter (t : VisitTable) (s u : State) (change : Node → Node) :
    (t.alter s change).get? u = if s = u then some (change (t.node s)) else t.get? u := by
  simp [get?, alter, Std.TreeMap.getElem?_insert]

/-- Changes the entry of a state that has one. -/
def modify? (t : VisitTable) (s : State) (change : Node → Node) : Option VisitTable :=
  if t.contains s then some (t.alter s change) else none

def register (t : VisitTable) (s : State) : VisitTable := t.alter s fun n => n

def record (t : VisitTable) (s : State) (visits : Nat) (reward : Float) : VisitTable :=
  t.alter s (·.record visits reward)

def expand (t : VisitTable) (s : State) (children : List Child) : VisitTable :=
  t.alter s (·.expand children)

def withRoot (root : State) : VisitTable := empty.register root

def visits (t : VisitTable) (s : State) : Nat := (t.get? s).elim 0 Node.visits

/-- Records the same for every entry of a path. -/
def backup (t : VisitTable) (path : List State) (visits : Nat) (reward : Float) : VisitTable :=
  path.foldl (fun t s => t.record s visits reward) t

def size (t : VisitTable) : Nat := t.nodes.size

def isEmpty (t : VisitTable) : Bool := t.nodes.isEmpty

/-- The number of entries of a kind. -/
def count (t : VisitTable) (kind : Node → Bool) : Nat :=
  t.nodes.foldl (fun n _ node => if kind node then n + 1 else n) 0

end VisitTable

end GeneralGame
