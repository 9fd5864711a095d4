/-!
Uniform choice by multiplication. A word `v` of `bits` bits chooses one of `n` places by the high
half of `v * n`; words whose low half is too large are refused, so that every place is chosen by
equally many words.
-/
namespace GeneralGame.Uniform

/-- The largest low half that is accepted: `n` shifted to the left until its top bit is the top
bit of a word, less one. -/
def limit (bits n : Nat) : Nat := (n <<< (bits - 1 - n.log2)) - 1

theorem high_lt {bits n : Nat} (pos : 0 < n) (v : BitVec bits) : (v.toNat * n) >>> bits < n := by
  rw [Nat.shiftRight_eq_div_pow]
  exact Nat.div_lt_of_lt_mul (Nat.mul_lt_mul_of_pos_right v.isLt pos)

/-- The place that a word chooses among `n`, if it chooses one. -/
def place? (bits n : Nat) (pos : 0 < n) (v : BitVec bits) : Option (Fin n) :=
  if (v * BitVec.ofNat bits n).toNat ≤ limit bits n then some ⟨_, high_lt pos v⟩ else none

end GeneralGame.Uniform
