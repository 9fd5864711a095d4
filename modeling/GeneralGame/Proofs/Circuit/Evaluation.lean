import GeneralGame.Nim
import GeneralGame.Proofs.Circuit.Solution

/-!
The answers of a machine come from the solution of its circuit for the facts of a state and the
moves of a joint move. Facts that the net does not know have no part in it.
-/
namespace GeneralGame

namespace Net

variable {net : Net} {s : State} {u v : Assignment}

/-- The components that a state and a joint move make true. -/
def given (net : Net) (s : State) (joint : Option JointMove) (id : ComponentId) : Prop :=
  (∃ f ∈ s, net.bases[f]? = some id) ∨
    ∃ j ∈ joint, ∃ r m, j.get? r = some m ∧ net.input? r m = some id

/-- The facts of the state are those whose base propositions have a true input. -/
def Announces (net : Net) (v : Assignment) (s : State) : Prop :=
  ∀ f, f ∈ s ↔ ∃ id c, net.bases[f]? = some id ∧ net.component? id = some c ∧
    ∃ i ∈ c.inputs, v.get i = true

/-- The values that an evaluation starts with. -/
def startValues (net : Net) (s : State) : Option JointMove → Except GameError Assignment
  | none => .ok (net.markState s net.noValues)
  | some j => net.markJointMove j (net.markState s net.noValues)

theorem size_markState (net : Net) (s : State) (u : Assignment) :
    (net.markState s u).values.size = u.values.size := by
  rw [markState_eq, Assignment.size_setAll]

theorem size_noValues (net : Net) : net.noValues.values.size = net.size :=
  Assignment.size_allFalse net.size

theorem get_markState (h : net.WellFormed) (s : State) (id : ComponentId) :
    (net.markState s net.noValues).get id = true ↔ ∃ f ∈ s, net.bases[f]? = some id := by
  rw [markState_eq, Assignment.get_setAll, List.mem_filterMap, noValues, Assignment.get_allFalse,
    Assignment.size_allFalse]
  constructor
  · rintro (hfalse | ⟨hf, -⟩)
    · cases hfalse
    · exact hf
  · rintro ⟨f, hf, hid⟩
    exact .inr ⟨⟨f, hf, hid⟩, h.base_lt hid⟩

theorem size_startValues {joint : Option JointMove} (hstart : net.startValues s joint = .ok u) :
    u.values.size = net.size := by
  cases joint with
  | none =>
      cases hstart
      rw [size_markState, size_noValues]
  | some j =>
      rw [markJointMove_eq hstart, Assignment.size_setAll, size_markState, size_noValues]

theorem get_startValues (h : net.WellFormed) {joint : Option JointMove}
    (hstart : net.startValues s joint = .ok u) (id : ComponentId) :
    u.get id = true ↔ net.given s joint id := by
  cases joint with
  | none =>
      cases hstart
      simp [get_markState h, given]
  | some j =>
      have hsize : j.size ≤ 256 := by
        have hcount := h.roleCount_le
        rw [size_of_markJointMove hstart]
        unfold maxRoles at hcount
        omega
      rw [markJointMove_eq hstart, Assignment.get_setAll, get_markState h, size_markState,
        size_noValues, List.mem_filterMap, given]
      apply or_congr_right
      constructor
      · rintro ⟨⟨⟨r, m⟩, he, hid⟩, -⟩
        exact ⟨j, rfl, r, m, (JointMove.mem_entries hsize).mp he, hid⟩
      · rintro ⟨_, hj, r, m, hm, hid⟩
        cases hj
        exact ⟨⟨(r, m), (JointMove.mem_entries hsize).mpr hm, hid⟩, h.input_lt hid⟩

theorem get_markInit (h : net.WellFormed) (id : ComponentId) :
    (net.noValues.set net.init true).get id = true ↔ id = net.init := by
  rw [Assignment.get_set, size_noValues]
  constructor
  · intro hget
    split at hget
    · rename_i hand
      exact hand.1.symm
    · rw [noValues, Assignment.get_allFalse] at hget
      cases hget
  · rintro rfl
    rw [if_pos ⟨rfl, h.init_lt⟩]

theorem mem_readNext {f : FactId} :
    f ∈ net.readNext v ↔ f < net.bases.size ∧
      ((net.bases[f]?.bind net.component?).bind (·.inputs.head?)).any v.get = true := by
  rw [readNext, State.mem_ofFacts, List.mem_filter, List.mem_range]

theorem readNext_announces (h : net.WellFormed) (v : Assignment) :
    net.Announces v (net.readNext v) := by
  intro f
  rw [mem_readNext]
  constructor
  · rintro ⟨-, hany⟩
    obtain ⟨i, hi, hv⟩ := (Option.any_eq_true _ _).mp hany
    obtain ⟨c, hc, hhead⟩ := Option.bind_eq_some_iff.mp hi
    obtain ⟨id, hid, hc⟩ := Option.bind_eq_some_iff.mp hc
    exact ⟨id, c, hid, hc, i, List.mem_of_mem_head? hhead, hv⟩
  · rintro ⟨id, c, hid, hc, i, hi, hv⟩
    have hlength := h.length_base_inputs_le hid hc
    have hhead : c.inputs.head? = some i := by
      cases hinputs : c.inputs with
      | nil =>
          rw [hinputs] at hi
          cases hi
      | cons first rest =>
          rw [hinputs] at hi hlength
          have hrest : rest = [] := by
            rw [List.length_cons] at hlength
            apply List.length_eq_zero_iff.mp
            omega
          rw [hrest, List.mem_singleton] at hi
          rw [hi]
          rfl
    refine ⟨(Array.getElem?_eq_some_iff.mp hid).1, ?_⟩
    simp [hid, hc, hhead, hv]

theorem markState_congr {s t : State} (h : ∀ f < net.bases.size, f ∈ s ↔ f ∈ t) (u : Assignment) :
    net.markState s u = net.markState t u := by
  have hids : ∀ id, (∃ f ∈ s.facts, net.bases[f]? = some id) ↔
      ∃ f ∈ t.facts, net.bases[f]? = some id := by
    intro id
    apply exists_congr
    intro f
    apply and_congr_left
    intro hid
    exact h f (Array.getElem?_eq_some_iff.mp hid).1
  apply Assignment.ext_get
  · rw [size_markState, size_markState]
  · intro i _
    rw [markState_eq, markState_eq, Bool.eq_iff_iff, Assignment.get_setAll, Assignment.get_setAll,
      List.mem_filterMap, List.mem_filterMap, hids]

end Net

namespace Machine

variable {net : Net} {m : Machine}

theorem evaluate_eq (m : Machine) (s : State) (joint : Option JointMove) :
    m.evaluate s joint = (m.net.startValues s joint).map (m.net.propagate m.order) := by
  cases joint with
  | none => rfl
  | some j =>
      rw [evaluate, Net.startValues]
      cases m.net.markJointMove j (m.net.markState s m.net.noValues) <;> rfl

theorem ofNet_eq_ok (h : ofNet net = .ok m) :
    m.net = net ∧ net.WellFormed ∧ net.isOrder m.order = true ∧
      m.initial = net.initialState m.order := by
  obtain ⟨_, hcheck, h⟩ := exists_of_bind_eq_ok h
  obtain ⟨ids, horder, h⟩ := exists_of_bind_eq_ok h
  cases h
  exact ⟨rfl, hcheck, Net.isOrder_of_order horder, rfl⟩

theorem solves_of_evaluate (hnet : m.net.WellFormed) (horder : m.net.isOrder m.order = true)
    {s : State} {joint : Option JointMove} {v : Assignment} (h : m.evaluate s joint = .ok v)
    (v' : Assignment) : m.net.Solves (m.net.given s joint) v' ↔ v' = v := by
  rw [evaluate_eq] at h
  cases hstart : m.net.startValues s joint with
  | error e =>
      rw [hstart] at h
      cases h
  | ok u =>
      rw [hstart] at h
      cases h
      exact Net.solves_iff horder (Net.size_startValues hstart) (Net.get_startValues hnet hstart)

theorem evaluate_order (h : m.net.isOrder m.order = true) {ids : List ComponentId}
    (hids : m.net.isOrder ids = true) : { m with order := ids }.evaluate = m.evaluate := by
  funext s joint
  rw [evaluate_eq, evaluate_eq]
  cases hstart : m.net.startValues s joint with
  | error e => rfl
  | ok u =>
      have hvalues := Net.propagate_eq_of_isOrder hids h (Net.size_startValues hstart)
      exact congrArg Except.ok hvalues

theorem next_eq_ok {s : State} {j : JointMove} {t : State} (h : m.next s j = .ok t) :
    ∃ v, m.evaluate s (some j) = .ok v ∧ t = m.net.readNext v := by
  obtain ⟨v, hv, h⟩ := exists_of_bind_eq_ok h
  cases h
  exact ⟨v, hv, rfl⟩

theorem answers_congr {s t : State} (h : ∀ f < m.net.bases.size, f ∈ s ↔ f ∈ t) :
    m.evaluate s = m.evaluate t ∧ m.isTerminal s = m.isTerminal t ∧ m.goal s = m.goal t ∧
      m.legal s = m.legal t ∧ m.next s = m.next t := by
  have hmarks := Net.markState_congr h
  have hstate : m.evaluateState s = m.evaluateState t := by
    rw [evaluateState, evaluateState, hmarks]
  have hevaluate : m.evaluate s = m.evaluate t := by
    funext joint
    cases joint with
    | none => exact congrArg Except.ok hstate
    | some j => rw [evaluate, evaluate, hmarks]
  refine ⟨hevaluate, ?_, ?_, ?_, ?_⟩
  · rw [isTerminal, isTerminal, hstate]
  · funext r
    rw [goal, goal, hstate]
  · funext r
    rw [legal, legal, hstate]
  · funext j
    rw [next, next, hevaluate]

/-- What it means that a machine answers with the solutions of its circuit. -/
structure SolvesCircuit (m : Machine) : Prop where
  /-- The values of an evaluation are the only solution. -/
  unique {s : State} {joint : Option JointMove} {v : Assignment} :
    m.evaluate s joint = .ok v → ∀ v', m.net.Solves (m.net.given s joint) v' ↔ v' = v
  /-- Every order of evaluation gives the same values. -/
  anyOrder {ids : List ComponentId} : m.net.isOrder ids = true →
    { m with order := ids }.evaluate = m.evaluate ∧ m.net.initialState ids = m.initial
  /-- The next state is read off the values. -/
  next {s : State} {j : JointMove} {v : Assignment} : m.evaluate s (some j) = .ok v →
    ∃ t, m.next s j = .ok t ∧ m.net.Announces v t
  /-- The initial state is read off the only solution in which the initial marker alone is set. -/
  initial : ∃ v, (∀ v', m.net.Solves (· = m.net.init) v' ↔ v' = v) ∧ m.net.Announces v m.initial
  /-- Facts that the net does not know change no answer. -/
  unknown {s t : State} : (∀ f < m.net.bases.size, f ∈ s ↔ f ∈ t) →
    m.evaluate s = m.evaluate t ∧ m.isTerminal s = m.isTerminal t ∧ m.goal s = m.goal t ∧
      m.legal s = m.legal t ∧ m.next s = m.next t
  /-- No such fact holds in a state that the machine gives. -/
  known {f : FactId} : (f ∈ m.initial ∨ ∃ s j t, m.next s j = .ok t ∧ f ∈ t) →
    f < m.net.bases.size

theorem ofNet_solvesCircuit (h : ofNet net = .ok m) : m.net = net ∧ m.SolvesCircuit := by
  obtain ⟨rfl, hnet, horder, hinitial⟩ := ofNet_eq_ok h
  have hsize : (m.net.noValues.set m.net.init true).values.size = m.net.size := by
    rw [Assignment.size_set, Net.size_noValues]
  refine ⟨rfl, ?_⟩
  constructor
  · exact solves_of_evaluate hnet horder
  · intro ids hids
    rw [hinitial, Net.initialState, Net.initialState, Net.propagate_eq_of_isOrder hids horder hsize]
    exact ⟨evaluate_order horder hids, rfl⟩
  · intro s j v hv
    refine ⟨m.net.readNext v, ?_, Net.readNext_announces hnet v⟩
    rw [next, hv]
    rfl
  · refine ⟨_, fun v' => Net.solves_iff horder hsize (Net.get_markInit hnet), ?_⟩
    rw [hinitial]
    exact Net.readNext_announces hnet _
  · exact answers_congr
  · rintro f (hf | ⟨s, j, t, ht, hf⟩)
    · rw [hinitial] at hf
      exact (Net.mem_readNext.mp hf).1
    · obtain ⟨v, -, rfl⟩ := next_eq_ok ht
      exact (Net.mem_readNext.mp hf).1

theorem ofNet_solvesCircuit_nim :
    ∃ net m v, Nim.net 1 = .ok net ∧ ofNet net = .ok m ∧ m.SolvesCircuit ∧
      m.evaluate m.initial (some ⟨[Nim.take1, .noop]⟩) = .ok v ∧
      ∀ v', m.net.Solves (m.net.given m.initial (some ⟨[Nim.take1, .noop]⟩)) v' ↔ v' = v := by
  have hvalues : (do
      let m ← Nim.machine 1
      m.evaluate m.initial (some ⟨[Nim.take1, .noop]⟩)).toOption.isSome = true := by
    decide +kernel
  cases hevaluate : (do
      let m ← Nim.machine 1
      m.evaluate m.initial (some ⟨[Nim.take1, .noop]⟩)) with
  | error e =>
      rw [hevaluate] at hvalues
      cases hvalues
  | ok v =>
      obtain ⟨m, hm, hv⟩ := exists_of_bind_eq_ok hevaluate
      obtain ⟨net, hnet, hm⟩ := exists_of_bind_eq_ok hm
      have hsolves := (ofNet_solvesCircuit hm).2
      exact ⟨net, m, v, hnet, hm, hsolves, hv, hsolves.unique hv⟩

end Machine

end GeneralGame
