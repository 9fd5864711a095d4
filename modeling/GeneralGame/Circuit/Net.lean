import GeneralGame.Circuit.Component
import GeneralGame.Error
import GeneralGame.RoleTable
import GeneralGame.State

/-!
Propositional networks: the components of a game's circuit, and which of them stand for its facts,
moves, goals and end.
-/
namespace GeneralGame

/-- The input propositions of one role, by the move that each of them stands for. -/
@[ext]
structure MoveTable where
  entries : List (Move × ComponentId)
  nodup : (entries.map Prod.fst).Nodup
deriving DecidableEq

namespace MoveTable

def empty : MoveTable := ⟨[], .nil⟩

def get? (t : MoveTable) (m : Move) : Option ComponentId :=
  (t.entries.find? fun e => e.1 = m).map Prod.snd

/-- A move that is already there keeps its place and takes the new component. -/
def insertEntry (m : Move) (id : ComponentId) : List (Move × ComponentId) → List (Move × ComponentId)
  | [] => [(m, id)]
  | e :: es => if e.1 = m then (m, id) :: es else e :: insertEntry m id es

theorem mem_moves_insertEntry {m x : Move} {id : ComponentId} {es : List (Move × ComponentId)} :
    x ∈ (insertEntry m id es).map Prod.fst ↔ x = m ∨ x ∈ es.map Prod.fst := by
  induction es with
  | nil => simp [insertEntry]
  | cons e es ih =>
    simp only [insertEntry]
    split
    · rename_i h
      subst h
      simp
    · simp only [List.map_cons, List.mem_cons, ih]
      constructor <;> rintro (h | h | h) <;> simp [h]

theorem nodup_insertEntry (m : Move) (id : ComponentId) {es : List (Move × ComponentId)}
    (h : (es.map Prod.fst).Nodup) : ((insertEntry m id es).map Prod.fst).Nodup := by
  induction es with
  | nil => simp [insertEntry]
  | cons e es ih =>
    obtain ⟨he, hes⟩ := List.nodup_cons.mp h
    simp only [insertEntry]
    split
    · rename_i hm
      subst hm
      exact h
    · rename_i hm
      refine List.nodup_cons.mpr ⟨fun hmem => ?_, ih hes⟩
      rcases mem_moves_insertEntry.mp hmem with hmem | hmem
      · exact hm hmem
      · exact he hmem

def insert (t : MoveTable) (m : Move) (id : ComponentId) : MoveTable :=
  ⟨insertEntry m id t.entries, nodup_insertEntry m id t.nodup⟩

theorem find?_insertEntry (m x : Move) (id : ComponentId) (es : List (Move × ComponentId)) :
    ((insertEntry m id es).find? fun e => e.1 = x).map Prod.snd =
      if m = x then some id else (es.find? fun e => e.1 = x).map Prod.snd := by
  induction es with
  | nil => by_cases h : m = x <;> simp [insertEntry, h]
  | cons e es ih =>
    by_cases he : e.1 = m
    · subst he
      by_cases h : e.1 = x <;> simp [insertEntry, h]
    · by_cases hx : e.1 = x
      · subst hx
        simp [insertEntry, he, Ne.symm he]
      · simpa [insertEntry, he, hx] using ih

@[simp] theorem get?_empty (x : Move) : empty.get? x = none := rfl

theorem get?_insert (t : MoveTable) (m x : Move) (id : ComponentId) :
    (t.insert m id).get? x = if m = x then some id else t.get? x :=
  find?_insertEntry m x id t.entries

/-- Of two entries for one move the later one counts. -/
def ofList (es : List (Move × ComponentId)) : MoveTable :=
  es.foldl (fun t e => t.insert e.1 e.2) empty

def ids (t : MoveTable) : List ComponentId := t.entries.map Prod.snd

end MoveTable

structure Net where
  roles : List String
  components : Array Component
  init : ComponentId
  bases : Array ComponentId
  inputs : RoleTable MoveTable
  legals : RoleTable (List (Move × ComponentId))
  goals : RoleTable (List (Nat × ComponentId))
  terminal : ComponentId
deriving DecidableEq

namespace Net

def roleCount (net : Net) : Nat := net.roles.length

/-- The first role of that name. -/
def roleIndex? (net : Net) (name : String) : Option RoleId :=
  (net.roles.findIdx? (· = name)).map .ofIndex

def component? (net : Net) (id : ComponentId) : Option Component := net.components[id]?

def size (net : Net) : Nat := net.components.size

def isEmpty (net : Net) : Bool := net.components.isEmpty

def input? (net : Net) (r : RoleId) (m : Move) : Option ComponentId :=
  (net.inputs.get? r).bind (·.get? m)

/-- The moves of a role with their legal propositions, in the order of their declaration; none for
a role that does not exist. -/
def legalsOf (net : Net) (r : RoleId) : List (Move × ComponentId) := (net.legals.get? r).getD []

/-- The goal values of a role with their propositions, in the order of their declaration. -/
def goalsOf (net : Net) (r : RoleId) : List (Nat × ComponentId) := (net.goals.get? r).getD []

def nameOf? (net : Net) (id : ComponentId) : Option String := (net.component? id).bind (·.name)

def factName? (net : Net) (f : FactId) : Option String := net.bases[f]?.bind net.nameOf?

/-- The first fact whose base proposition has that name. -/
def factId? (net : Net) (name : String) : Option FactId :=
  net.bases.toList.findIdx? fun id => net.nameOf? id = some name

/-- The state in which the named facts hold; names of no fact are left out. -/
def stateOf (net : Net) (names : List String) : State := .ofFacts (names.filterMap net.factId?)

def describe (net : Net) (s : State) : String :=
  "\x7b" ++ ", ".intercalate (s.facts.map fun f => (net.factName? f).getD f.text) ++ "\x7d"

/-- A component's name, or its kind and place where it has none. -/
def label (net : Net) (id : ComponentId) : String :=
  match net.component? id with
  | some { name := some name, .. } => name
  | some c => c.kind.text ++ id.text
  | none => id.text

/-- The components whose values are set from outside: the initial marker, the facts and the
moves. -/
def independentIds (net : Net) : List ComponentId :=
  net.init :: net.bases.toList ++ net.inputs.toList.flatMap MoveTable.ids

/-- Marks the listed components among all components of the net. -/
def mark (net : Net) (ids : List ComponentId) : Array Bool :=
  ids.foldl (fun marks id => marks.setIfInBounds id true) (Array.replicate net.size false)

def independentMask (net : Net) : Array Bool := net.mark net.independentIds

end Net

end GeneralGame
