/-!
Time. A clock counts microseconds and moves by a fixed tick whenever it is read; a deadline is an
instant with a margin, and has expired once no more than the margin remains.
-/
namespace GeneralGame

structure Clock where
  now : Nat
  tick : Nat
deriving DecidableEq

namespace Clock

/-- The present time, and the clock after it was read. -/
def read (c : Clock) : Nat × Clock := (c.now, { c with now := c.now + c.tick })

def advance (c : Clock) (us : Nat) : Clock := { c with now := c.now + us }

end Clock

structure Deadline where
  /-- The instant, which may lie before the clock's start. -/
  instant : Int
  margin : Nat
deriving DecidableEq

namespace Deadline

def remaining (d : Deadline) (now : Nat) : Nat := (d.instant - now).toNat

def expired (d : Deadline) (now : Nat) : Bool := d.remaining now ≤ d.margin

/-- The deadline that comes `budget` after `now`, without a margin. -/
def after (now budget : Nat) : Deadline := ⟨now + budget, 0⟩

end Deadline

end GeneralGame
