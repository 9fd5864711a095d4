/-!
Roles. A game names its roles in one list; everywhere else a role is the byte that tells its
place in that list.
-/
namespace GeneralGame

structure RoleId where
  byte : UInt8
deriving DecidableEq

namespace RoleId

def index (r : RoleId) : Nat := r.byte.toNat

/-- Places past 255 start again at 0. -/
def ofIndex (i : Nat) : RoleId := ⟨UInt8.ofNat i⟩

/-- The roles of a game with `count` of them, in order. The count is a byte too, so a list of
256 roles has none that can be named. -/
def all (count : Nat) : List RoleId :=
  (List.range (count % 256)).map ofIndex

def text (r : RoleId) : String := s!"Role {r.index}"

theorem index_ofIndex {i : Nat} (h : i < 256) : (ofIndex i).index = i := by
  simp [ofIndex, index]
  omega

@[simp] theorem ofIndex_index (r : RoleId) : ofIndex r.index = r := by
  cases r
  simp [ofIndex, index]

theorem length_all (count : Nat) : (all count).length = count % 256 := by
  simp [all]

end RoleId

/-- The most roles a game may have: every place fits a byte, and so does their number. -/
def maxRoles : Nat := 255

end GeneralGame
