import GeneralGame.Fault
import GeneralGame.Move

/-!
Joint moves from a list of moves for each role. One place in each list makes a joint move, and the
places are advanced like the wheels of an odometer, the last one fastest. The joint moves are
counted before the first one is made, and room is made for all of them; both are done in machine
words.
-/
namespace GeneralGame.Game

variable {α : Type}

/-- The entries at the places. -/
def pickAt (lists : List (List α)) (places : List Nat) : Option (List α) :=
  (places.zip lists).mapM fun (i, as) => as[i]?

/-- Moves the last place before `pos` on that can be, and the places behind it back to the start;
and whether there is one. -/
def advanceAt (lists : List (List α)) : (pos : Nat) → List Nat → Option (Bool × List Nat)
  | 0, places => some (false, places)
  | pos + 1, places => do
    let i ← places[pos]?
    let as ← lists[pos]?
    if i + 1 < as.length then return (true, places.set pos (i + 1))
    else advanceAt lists pos (places.set pos 0)

/-- The choices from some places on; there must be no more than `fuel` of them. -/
def choicesAt (lists : List (List α)) : (fuel : Nat) → List Nat → Option (List (List α))
  | 0, _ => none
  | fuel + 1, places => do
    let choice ← pickAt lists places
    let (more, places) ← advanceAt lists lists.length places
    if more then return choice :: (← choicesAt lists fuel places) else return [choice]

/-- How many choices there are, counted in a word. -/
def countChoices (lists : List (List α)) : Except Fault Nat :=
  lists.foldlM (fun count as => fit UInt64.size (count * as.length)) 1

/-- The room that a joint move takes, in bytes: four moves of three words each, and two words. -/
def jointMoveBytes : Nat := 112

/-- Makes room for the joint moves, and tells how many there are. -/
def reserve (lists : List (List Move)) : Except Fault Nat := do
  let total ← countChoices lists
  let _ ← fit (UInt64.size / 2) (total * jointMoveBytes)
  return total

/-- All joint moves that take one move from each list. -/
def cartesian (lists : List (List Move)) : Except Fault (List JointMove) := do
  let total ← reserve lists
  if total = 0 then return []
  match choicesAt lists total (List.replicate lists.length 0) with
  | some choices => return choices.map .mk
  | none => throw .panic

end GeneralGame.Game
