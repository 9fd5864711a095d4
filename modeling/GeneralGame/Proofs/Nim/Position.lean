import GeneralGame.Proofs.Nim.Sketch

/-!
The subtraction game. A position is a number of objects and the role that is to take one or two of
them; the state of a position has one fact for the number and one for the turn.
-/
namespace GeneralGame.Nim

/-- A position of the subtraction game. -/
structure Position where
  left : Nat
  mover : RoleId

namespace Position

variable {n : Nat} {p : Position}

def opponent (p : Position) : RoleId := if p.mover = white then black else white

/-- The position of a game that starts with `n` objects. -/
structure Valid (n : Nat) (p : Position) : Prop where
  le : p.left ≤ n
  mover : p.mover = white ∨ p.mover = black

/-- Exactly two facts hold in a position: how many objects are left, and whose turn it is. -/
def state (n : Nat) (p : Position) : State := .ofFacts [p.left, turnFact n p.mover]

/-- Who is to move takes one object or two, if there are so many; the other one waits. -/
def legal (p : Position) (r : RoleId) : List Move :=
  if p.left = 0 then [] else if r ≠ p.mover then [.noop]
  else if p.left = 1 then [take1] else [take1, take2]

/-- Who took the last object wins: it is the other one's turn. -/
def goal (p : Position) (r : RoleId) : Nat := if p.left = 0 ∧ r ≠ p.mover then 100 else 0

/-- The joint move in which the role that is to move makes the move. -/
def turn (p : Position) (m : Move) : JointMove := .placeholder 2 p.mover m

/-- The position after some objects were taken. -/
def take (p : Position) (t : Nat) : Position := ⟨p.left - t, p.opponent⟩

end Position

/-- The moves with the numbers of objects that they take. -/
def takings : List (Move × Nat) := [(take1, 1), (take2, 2)]

section

variable {n : Nat} {p : Position}

theorem white_ne_black : white ≠ black := by decide

theorem role_cases {r : RoleId} : r.index < 2 ↔ r = white ∨ r = black := by
  constructor
  · intro h
    rw [← r.ofIndex_index]
    match r.index, h with
    | 0, _ => exact .inl rfl
    | 1, _ => exact .inr rfl
  · rintro (rfl | rfl)
    · decide
    · decide

theorem Position.Valid.ne_white (hp : p.Valid n) : p.mover ≠ white ↔ p.mover = black := by
  rcases hp.mover with hmover | hmover
  · exact iff_of_false (not_not_intro hmover) (hmover ▸ white_ne_black)
  · exact iff_of_true (hmover ▸ white_ne_black.symm) hmover

theorem Position.Valid.ne_black (hp : p.Valid n) : p.mover ≠ black ↔ p.mover = white := by
  rw [ne_eq, ← hp.ne_white, not_not]

theorem lt_turnFact {k : Nat} (hk : k ≤ n) (r : RoleId) : k < turnFact n r :=
  Nat.lt_of_lt_of_le (Nat.lt_succ_of_le hk) (Nat.le_add_right (n + 1) r.index)

theorem Position.mem_state {f : FactId} : f ∈ p.state n ↔ f = p.left ∨ f = turnFact n p.mover := by
  rw [state, State.mem_ofFacts, List.mem_cons, List.mem_singleton]

/-- Of the facts for the turns only the mover's belongs to a position. -/
theorem turnFact_inj (hp : p.Valid n) (r : RoleId) :
    turnFact n r = p.left ∨ turnFact n r = turnFact n p.mover ↔ p.mover = r := by
  rw [or_iff_right (Nat.ne_of_gt (lt_turnFact hp.le r))]
  constructor
  · intro h
    have hindex : r.index = p.mover.index := Nat.add_left_cancel h
    rw [← r.ofIndex_index, hindex, RoleId.ofIndex_index]
  · rintro rfl
    rfl

/-- The facts of a position tell which one it is. -/
theorem Position.Valid.state_inj (hp : p.Valid n) {q : Position} (hq : q.Valid n)
    (h : p.state n = q.state n) : p = q := by
  have hleft : p.left ∈ q.state n := h ▸ mem_state.mpr (.inl rfl)
  have hturn : turnFact n p.mover ∈ q.state n := h ▸ mem_state.mpr (.inr rfl)
  rw [mem_state, or_iff_left (Nat.ne_of_lt (lt_turnFact hp.le q.mover))] at hleft
  rw [mem_state, turnFact_inj hq] at hturn
  cases p
  cases q
  simp only at hleft hturn
  rw [hleft, hturn]

theorem Position.Valid.take (hp : p.Valid n) (t : Nat) : (p.take t).Valid n := by
  refine ⟨Nat.le_trans (Nat.sub_le p.left t) hp.le, ?_⟩
  change p.opponent = white ∨ p.opponent = black
  rw [opponent]
  split
  · exact .inr rfl
  · exact .inl rfl

theorem Position.Valid.white_after (hp : p.Valid n) (t : Nat) :
    (p.take t).mover = white ↔ p.mover = black := by
  have hne := white_ne_black
  rcases hp.mover with hmover | hmover <;> simp [Position.take, opponent, hmover, hne, hne.symm]

theorem Position.Valid.black_after (hp : p.Valid n) (t : Nat) :
    (p.take t).mover = black ↔ p.mover = white := by
  have hne := white_ne_black
  rcases hp.mover with hmover | hmover <;> simp [Position.take, opponent, hmover, hne, hne.symm]

theorem Position.mem_legal_mover {a : Move} :
    a ∈ p.legal p.mover ↔ ∃ taking ∈ takings, taking.2 ≤ p.left ∧ a = taking.1 := by
  rcases hleft : p.left with _ | _ | left <;> simp [legal, hleft, takings]

theorem Position.mem_legal_other {r : RoleId} (hr : r ≠ p.mover) {a : Move} :
    a ∈ p.legal r ↔ 1 ≤ p.left ∧ a = .noop := by
  rcases hleft : p.left with _ | left <;> simp [legal, hleft, hr]

theorem taking_bounds {taking : Move × Nat} (ht : taking ∈ takings) :
    1 ≤ taking.2 ∧ taking.2 ≤ 2 := by
  have hall : ∀ entry ∈ takings, 1 ≤ entry.2 ∧ entry.2 ≤ 2 := by decide
  exact hall taking ht

theorem turn_white (hmover : p.mover = white) (a : Move) : p.turn a = ⟨[a, .noop]⟩ := by
  rw [Position.turn, hmover]
  rfl

theorem turn_black (hmover : p.mover = black) (a : Move) : p.turn a = ⟨[.noop, a]⟩ := by
  rw [Position.turn, hmover]
  rfl

/-- Both roles make a legal move exactly if the mover takes objects that are there. -/
theorem legal_pair_iff (hp : p.Valid n) {a b : Move} :
    a ∈ p.legal white ∧ b ∈ p.legal black ↔
      ∃ taking ∈ takings, taking.2 ≤ p.left ∧ JointMove.mk [a, b] = p.turn taking.1 := by
  have hne := white_ne_black
  have hleft : ∀ taking ∈ takings, taking.2 ≤ p.left → 1 ≤ p.left :=
    fun taking ht hle => Nat.le_trans (taking_bounds ht).1 hle
  rcases hp.mover with hmover | hmover
  · rw [← hmover, Position.mem_legal_mover, Position.mem_legal_other (hmover ▸ hne.symm)]
    constructor
    · rintro ⟨⟨taking, ht, hle, rfl⟩, -, rfl⟩
      exact ⟨taking, ht, hle, (turn_white hmover _).symm⟩
    · rintro ⟨taking, ht, hle, hj⟩
      rw [turn_white hmover] at hj
      cases hj
      exact ⟨⟨taking, ht, hle, rfl⟩, hleft taking ht hle, rfl⟩
  · rw [← hmover, Position.mem_legal_mover, Position.mem_legal_other (hmover ▸ hne)]
    constructor
    · rintro ⟨⟨-, rfl⟩, taking, ht, hle, rfl⟩
      exact ⟨taking, ht, hle, (turn_black hmover _).symm⟩
    · rintro ⟨taking, ht, hle, hj⟩
      rw [turn_black hmover] at hj
      cases hj
      exact ⟨⟨hleft taking ht hle, rfl⟩, taking, ht, hle, rfl⟩

end

end GeneralGame.Nim
