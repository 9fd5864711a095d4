import GeneralGame.Proofs.Circuit.Accepted
import GeneralGame.Proofs.Circuit.Evaluation

/-!
Goals that are well defined. A role scores in a state exactly if one of its goal propositions holds
in the solution of the circuit, and then it scores the value that this one was declared with, which
is on the scale. If none or several hold, the query is refused with their number; two propositions of
one value are still two.
-/
namespace GeneralGame

variable {net : Net} {m : Machine} {s : State} {r : RoleId} {v : Assignment} {value : Nat}

namespace Net

/-- A goal of that value, among those that the role declares, holds. -/
def Scores (net : Net) (v : Assignment) (r : RoleId) (value : Nat) : Prop :=
  ∃ id, (value, id) ∈ net.goalsOf r ∧ v.get id = true

/-- How many goals of the role hold. -/
def goalCount (net : Net) (v : Assignment) (r : RoleId) : Nat :=
  (net.goalsOf r).countP fun goal => v.get goal.2

theorem goalCount_eq_length : net.goalCount v r =
    ((net.goalsOf r).filter fun goal => v.get goal.2).length :=
  List.countP_eq_length_filter

theorem scores_iff_mem : net.Scores v r value ↔
    ∃ id, (value, id) ∈ (net.goalsOf r).filter fun goal => v.get goal.2 := by
  simp only [Scores, List.mem_filter]

/-- The declared values of the roles that exist are on the scale. -/
theorem value_le_of_scores (h : net.WellFormed) (hr : r.index < net.roleCount)
    (hscores : net.Scores v r value) : value ≤ 100 := by
  obtain ⟨id, hid, -⟩ := hscores
  exact ((wellFormed_iff.mp h).provides r hr).values (value, id) hid

end Net

namespace Machine

/-- Only a role that exists is asked for its goals. -/
theorem goal_of_not_lt (hr : ¬ r.index < m.net.roleCount) :
    m.goal s r = .error (.unknownRole r.index m.net.roleCount) := by
  rw [goal, checkRole, if_neg hr]
  rfl

/-- One goal that holds is scored; any other number of them is reported. -/
theorem goal_of_lt (hr : r.index < m.net.roleCount) :
    m.goal s r = match (m.net.goalsOf r).filter fun goal => (m.evaluateState s).get goal.2 with
      | [(value, _)] => .ok value
      | held => .error (.goalDefinition r held.length) := by
  rw [goal, checkRole, if_pos hr]
  change (match (m.net.goalsOf r).filter fun goal => (m.evaluateState s).get goal.2 with
    | [(value, _)] => pure value
    | held => throw (GameError.goalDefinition r held.length)) = _
  split <;> rfl

theorem goal_eq_ok_of_lt (hr : r.index < m.net.roleCount) : m.goal s r = .ok value ↔
    m.net.goalCount (m.evaluateState s) r = 1 ∧ m.net.Scores (m.evaluateState s) r value := by
  rw [goal_of_lt hr, Net.goalCount_eq_length, Net.scores_iff_mem]
  split
  · rename_i x id hheld
    simp [hheld, eq_comm]
  · rename_i hother
    refine iff_of_false nofun ?_
    rintro ⟨hone, -⟩
    obtain ⟨⟨x, id⟩, hheld⟩ := List.length_eq_one_iff.mp hone
    exact hother x id hheld

theorem goal_eq_error_of_lt (hr : r.index < m.net.roleCount) {e : GameError} :
    m.goal s r = .error e ↔ m.net.goalCount (m.evaluateState s) r ≠ 1 ∧
      e = .goalDefinition r (m.net.goalCount (m.evaluateState s) r) := by
  rw [goal_of_lt hr, Net.goalCount_eq_length]
  split
  · rename_i x id hheld
    simp [hheld]
  · rename_i hother
    have hne : ((m.net.goalsOf r).filter fun goal => (m.evaluateState s).get goal.2).length ≠ 1 := by
      intro hone
      obtain ⟨⟨x, id⟩, hheld⟩ := List.length_eq_one_iff.mp hone
      exact hother x id hheld
    simp [hne, eq_comm]

/-- Whatever is scored is on the scale. -/
theorem goal_le (h : ofNet net = .ok m) (hvalue : m.goal s r = .ok value) : value ≤ 100 := by
  obtain ⟨rfl, hnet, -, -⟩ := ofNet_eq_ok h
  by_cases hr : r.index < m.net.roleCount
  · exact Net.value_le_of_scores hnet hr ((goal_eq_ok_of_lt hr).mp hvalue).2
  · rw [goal_of_not_lt hr] at hvalue
    cases hvalue

/-- A goal is well defined or refused. In the one solution of the circuit for a state, reachable or
not, a role scores a value exactly if the role exists, one of its goals holds and that one was
declared with the value; no value exceeds 100. A role that exists is refused exactly if another
number of its goals holds, and that number is reported; a role that does not exist is refused as
such. -/
theorem goal_defined_or_refused (h : ofNet net = .ok m) (s : State) (r : RoleId) :
    ∃ v, (∀ v', m.net.Solves (m.net.given s none) v' ↔ v' = v) ∧
      (∀ value, m.goal s r = .ok value ↔
        r.index < m.net.roleCount ∧ m.net.goalCount v r = 1 ∧ m.net.Scores v r value) ∧
      (∀ value, m.goal s r = .ok value → value ≤ 100) ∧
      ∀ e, m.goal s r = .error e ↔
        if r.index < m.net.roleCount then
          m.net.goalCount v r ≠ 1 ∧ e = .goalDefinition r (m.net.goalCount v r)
        else e = .unknownRole r.index m.net.roleCount := by
  obtain ⟨rfl, hnet, horder, -⟩ := ofNet_eq_ok h
  have hvalues : m.evaluate s none = .ok (m.evaluateState s) := rfl
  have hsolves := solves_of_evaluate hnet horder hvalues
  refine ⟨m.evaluateState s, hsolves, fun value => ?_, fun value => goal_le h, fun e => ?_⟩
  · by_cases hr : r.index < m.net.roleCount
    · simpa only [hr, true_and] using goal_eq_ok_of_lt hr
    · simp [hr, goal_of_not_lt hr]
  · split
    · exact goal_eq_error_of_lt ‹_›
    · rename_i hr
      rw [goal_of_not_lt hr, Except.error.injEq, eq_comm]

/-- A light that goes on and off. Two goals of the same value hold while it is on, one while it is
off. -/
def twinGoals : Draft := .ofDeclarations ["watcher"]
  [.base "on", .not 1, .next 1 2, .legal (.ofIndex 0) .noop, .connect 2 4, .goal (.ofIndex 0) 100,
    .connect 1 5, .goal (.ofIndex 0) 100, .connect 1 6, .goal (.ofIndex 0) 0, .connect 2 7, .terminal]

theorem goal_defined_or_refused_twinGoals :
    ∃ m v, ofNet (twinGoals.assemble 8) = .ok m ∧
      m.net.Solves (m.net.given (.ofFacts [0]) none) v ∧
      m.goal (.ofFacts [0]) (.ofIndex 0) = .error (.goalDefinition (.ofIndex 0) 2) ∧
      m.net.goalCount v (.ofIndex 0) = 2 ∧ m.goal .empty (.ofIndex 0) = .ok 0 := by
  have hgoals : ∃ m, ofNet (twinGoals.assemble 8) = .ok m ∧
      m.goal (.ofFacts [0]) (.ofIndex 0) = .error (.goalDefinition (.ofIndex 0) 2) ∧
      m.goal .empty (.ofIndex 0) = .ok 0 := by
    apply exists_of_any_toOption
    decide +kernel
  obtain ⟨m, hm, hon, hoff⟩ := hgoals
  obtain ⟨v, hsolves, -, -, hrefused⟩ := goal_defined_or_refused hm (.ofFacts [0]) (.ofIndex 0)
  have hcount := (hrefused _).mp hon
  split at hcount
  · obtain ⟨-, hcount⟩ := hcount
    injection hcount with _ hcount
    exact ⟨m, v, hm, (hsolves v).mpr rfl, hon, hcount.symm, hoff⟩
  · cases hcount

end Machine

end GeneralGame
