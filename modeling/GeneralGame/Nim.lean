import GeneralGame.Circuit.Draft
import GeneralGame.Circuit.Machine

/-!
Nim with one pile: white and black take one or two objects in turn, white first, and who takes the
last object wins. The net has a fact for every size of the pile and one for each role's turn.
-/
namespace GeneralGame.Nim

open Draft

def white : RoleId := .ofIndex 0

def black : RoleId := .ofIndex 1

def take1 : Move := ⟨"take1"⟩

def take2 : Move := ⟨"take2"⟩

/-- The size of the pile where none is named. -/
def defaultPile : Nat := 5

/-- The components that tell how the pile shrinks. -/
structure Takes where
  one : ComponentId
  two : ComponentId
  notOne : ComponentId
  notTwo : ComponentId

def takes : Drafting Takes := do
  let white1 ← input white take1
  let white2 ← input white take2
  let black1 ← input black take1
  let black2 ← input black take2
  let one ← or [white1, black1]
  let two ← or [white2, black2]
  let notOne ← not one
  let notTwo ← not two
  return { one, two, notOne, notTwo }

/-- A gate that is there only under a condition. -/
def gateIf (condition : Bool) (gate : Drafting ComponentId) : Drafting (List ComponentId) :=
  if condition then return [← gate] else return []

/-- The pile has `k` objects next if it starts with them, is taken down to them or is left at
them. `count i` is the fact that it has `i`. -/
def pileOf (n : Nat) (count : Nat → ComponentId) (t : Takes) (k : Nat) : Drafting Unit := do
  let atStart := if k = n then [init] else []
  let fromOneMore ← gateIf (k < n) (and [count (k + 1), t.one])
  let fromTwoMore ← gateIf (k + 2 ≤ n) (and [count (k + 2), t.two])
  let stays ← and [count k, t.notOne, t.notTwo]
  let source ← or (atStart ++ fromOneMore ++ fromTwoMore ++ [stays])
  discard (next (count k) source)

/-- A role may make a move while all the conditions hold. -/
def allow (role : RoleId) (m : Move) (conditions : List ComponentId) : Drafting Unit := do
  let mark ← legal role m
  let holds ← and conditions
  connect holds mark

/-- A role may take two objects on its turn while there are two; where there never are, it has no
condition to do so. -/
def allowTwo (role : RoleId) (own : ComponentId) : Option ComponentId → Drafting Unit
  | some two => allow role take2 [own, two]
  | none => discard (legal role take2)

/-- A role scores a value while a condition holds. -/
def score (role : RoleId) (value : Nat) (condition : ComponentId) : Drafting Unit := do
  let mark ← goal role value
  connect condition mark

/-- Whether there are two objects to take, for a pile that ever has so many. -/
def hasTwo (n : Nat) (counts : List ComponentId) : Drafting (Option ComponentId) :=
  if 2 ≤ n then some <$> or (counts.drop 2) else pure none

/-- What a role may do and scores. `own` is the fact that it is the role's turn, `other` that it is
the opponent's; `two` holds if there are two objects to take. -/
def roleOf (role : RoleId) (own other isEmpty notEmpty : ComponentId) (two : Option ComponentId) :
    Drafting Unit := do
  allow role take1 [own, notEmpty]
  allowTwo role own two
  allow role .noop [other, notEmpty]
  -- Who took the last object has handed the turn to the other role.
  let won ← and [isEmpty, other]
  score role 100 won
  let lost ← not won
  score role 0 lost

/-- The net's components for a pile of `n` objects at the start. -/
def draft (n : Nat) : Drafting Unit := do
  let counts ← (List.range (n + 1)).mapM fun k => base s!"count_{k}"
  let count i := counts.getD i init
  let controlWhite ← base "control_white"
  let controlBlack ← base "control_black"
  let t ← takes
  (List.range (n + 1)).forM (pileOf n count t)
  let whiteNext ← or [init, controlBlack]
  discard (next controlWhite whiteNext)
  discard (next controlBlack controlWhite)
  let isEmpty := count 0
  let notEmpty ← not isEmpty
  let two ← hasTwo n counts
  roleOf white controlWhite controlBlack isEmpty notEmpty two
  roleOf black controlBlack controlWhite isEmpty notEmpty two
  let terminal ← terminalMark
  connect isEmpty terminal

def net (n : Nat) : Except GameError Net := ((draft n).run (.new ["white", "black"])).2.toNet

def machine (n : Nat) : Except GameError Machine := do Machine.ofNet (← net n)

end GeneralGame.Nim
