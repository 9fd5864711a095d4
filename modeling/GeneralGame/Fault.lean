import GeneralGame.Error

/-!
Why a computation has no answer, and the arithmetic of machine words, in which a result that does
not fit breaks the program down.
-/
namespace GeneralGame

/-- Why a program has no answer. -/
inductive Fault where
  | error (e : GameError)
  /-- The program broke down: a number did not fit its word, or a list lacked an entry. -/
  | panic
  /-- It was given too little fuel to come to its end. -/
  | outOfFuel
deriving DecidableEq

section

variable {ε ε' α : Type} {f : ε → ε'} {x : Except ε α} {a : α} {e' : ε'}

theorem mapError_eq_ok : x.mapError f = .ok a ↔ x = .ok a := by
  cases x with
  | error e => exact ⟨nofun, nofun⟩
  | ok b =>
    constructor <;> intro h <;> exact congrArg Except.ok (Except.ok.inj h)

theorem mapError_eq_error : x.mapError f = .error e' ↔ ∃ e, x = .error e ∧ f e = e' := by
  cases x with
  | error e =>
    constructor
    · intro h
      exact ⟨e, rfl, Except.error.inj h⟩
    · rintro ⟨_, ⟨⟩, rfl⟩
      rfl
  | ok b => exact ⟨nofun, nofun⟩

end

/-- A number that is kept in a word of that many values. -/
def fit (size n : Nat) : Except Fault Nat := if n < size then .ok n else .error .panic

theorem fit_of_lt {size n : Nat} (h : n < size) : fit size n = .ok n := if_pos h

theorem fit_of_le {size n : Nat} (h : size ≤ n) : fit size n = .error .panic :=
  if_neg (Nat.not_lt.mpr h)

end GeneralGame
