import GeneralGame.Role

/-!
One entry for each role of a game, in role order.
-/
namespace GeneralGame

structure RoleTable (α : Type) where
  entries : Array α
deriving DecidableEq

namespace RoleTable

variable {α : Type}

/-- The entries of the roles of a game with `count` of them, computed from the roles. -/
def ofRoles (count : Nat) (entry : RoleId → α) : RoleTable α :=
  ⟨((RoleId.all count).map entry).toArray⟩

/-- The same table, for a count of roles that a game may have. -/
def ofRoles? (count : Nat) (entry : RoleId → α) : Option (RoleTable α) :=
  if 1 ≤ count ∧ count ≤ maxRoles then some (ofRoles count entry) else none

def size (t : RoleTable α) : Nat := t.entries.size

def get? (t : RoleTable α) (r : RoleId) : Option α := t.entries[r.index]?

/-- Replaces the entry of a role that the table has. -/
def set? (t : RoleTable α) (r : RoleId) (a : α) : Option (RoleTable α) :=
  if r.index < t.size then some ⟨t.entries.setIfInBounds r.index a⟩ else none

def toList (t : RoleTable α) : List α := t.entries.toList

/-- Every entry with its role. -/
def items (t : RoleTable α) : List (RoleId × α) :=
  t.toList.mapIdx fun i a => (.ofIndex i, a)

def roles (t : RoleTable α) : List RoleId := RoleId.all t.size

end RoleTable

end GeneralGame
