import GeneralGame.Circuit.Draft
import GeneralGame.Circuit.Encoding
import GeneralGame.Proofs.Circuit.Check

/-!
What the check accepts. A net passes it exactly if its tables fit its roles, what it refers to
exists, every component has the inputs that its kind and its part in the game ask for, and every
role has moves and goals.
-/
namespace GeneralGame

namespace Net

variable {net : Net} {id : ComponentId} {c : Component}

theorem checkRoleCount_eq_ok_iff {roles : List String} :
    checkRoleCount roles = .ok () ↔ 1 ≤ roles.length ∧ roles.length ≤ maxRoles := by
  have hpositive : ¬ roles.isEmpty = true ↔ 1 ≤ roles.length := by
    rw [List.isEmpty_iff]
    exact List.length_pos_iff.symm
  rw [checkRoleCount, ite_throw_eq_ok_iff, ite_throw_eq_ok_iff, hpositive, Nat.not_lt]
  exact and_congr_right' (and_iff_left rfl)

/-- The inputs that a component may have: a base proposition takes one transition, and the number
of inputs of another one depends on its kind and on whether it is set from outside. -/
structure Admits (net : Net) (id : ComponentId) (c : Component) : Prop where
  feed : id ∈ net.bases → ∀ i source, c.inputs.head? = some i → net.component? i = some source →
    source.kind = .transition
  base : id ∈ net.bases → c.inputs.length ≤ 1
  other : id ∉ net.bases →
    (expectedInputs c.kind (net.independent.get id)).admits c.inputs.length = true

theorem checkFeed_eq_ok_iff : net.checkFeed id c = .ok () ↔
    ∀ i source, c.inputs.head? = some i → net.component? i = some source →
      source.kind = .transition := by
  rw [checkFeed]
  cases hsource : c.inputs.head?.bind net.component? with
  | none =>
      refine iff_of_true rfl fun i source hi hs => ?_
      rw [hi, Option.bind_some, hs] at hsource
      cases hsource
  | some source =>
      obtain ⟨i, hi, hs⟩ := Option.bind_eq_some_iff.mp hsource
      refine Iff.trans ite_pure_eq_ok_iff ?_
      constructor
      · intro h j source' hj hs'
        rw [hi] at hj
        cases hj
        rw [hs] at hs'
        cases hs'
        exact h
      · exact fun h => h i source hi hs

theorem checkInputCount_eq_ok_iff {expected : InputCount} :
    checkInputCount id c expected = .ok () ↔ expected.admits c.inputs.length = true :=
  ite_pure_eq_ok_iff

theorem checkComponent_eq_ok_iff (hc : net.component? id = some c) :
    net.checkComponent (net.mark net.bases.toList) net.independentMask id c = .ok () ↔
      net.Admits id c := by
  have hlt : id < net.size := (Array.getElem?_eq_some_iff.mp hc).1
  have hbase : (net.mark net.bases.toList).getD id false = true ↔ id ∈ net.bases := by
    rw [← Array.mem_toList_iff]
    exact (net.get_mark _ id).trans (and_iff_left hlt)
  rw [checkComponent]
  by_cases h : id ∈ net.bases
  · rw [if_pos (hbase.mpr h), checkBase, bind_unit_eq_ok_iff, checkFeed_eq_ok_iff,
      checkInputCount_eq_ok_iff]
    constructor
    · rintro ⟨hfeed, hcount⟩
      exact ⟨fun _ => hfeed, fun _ => by simpa [InputCount.admits] using hcount,
        fun hother => absurd h hother⟩
    · intro hadmits
      refine ⟨hadmits.feed h, ?_⟩
      simpa [InputCount.admits] using hadmits.base h
  · rw [if_neg (mt hbase.mp h), checkInputCount_eq_ok_iff]
    constructor
    · exact fun hcount => ⟨fun hb => absurd hb h, fun hb => absurd hb h, fun _ => hcount⟩
    · exact fun hadmits => hadmits.other h

theorem checkComponents_eq_ok_iff :
    net.checkComponents = .ok () ↔ ∀ id c, net.component? id = some c → net.Admits id c := by
  rw [checkComponents, forM_eq_ok_iff]
  constructor
  · intro h id c hc
    rw [← checkComponent_eq_ok_iff hc]
    apply h (c, id)
    rw [List.mk_mem_zipIdx_iff_getElem?, Array.getElem?_toList]
    exact hc
  · rintro h ⟨c, id⟩ hmem
    rw [List.mk_mem_zipIdx_iff_getElem?, Array.getElem?_toList] at hmem
    exact (checkComponent_eq_ok_iff hmem).mpr (h id c hmem)

/-- What every role must declare. -/
structure Provides (net : Net) (r : RoleId) : Prop where
  goals : net.goalsOf r ≠ []
  values : ∀ goal ∈ net.goalsOf r, goal.1 ≤ 100
  legals : net.legalsOf r ≠ []

theorem checkGoals_eq_ok_iff {role : String} {goals : List (Nat × ComponentId)} :
    checkGoals role goals = .ok () ↔ goals ≠ [] ∧ ∀ goal ∈ goals, goal.1 ≤ 100 := by
  rw [checkGoals, ite_throw_eq_ok_iff, List.isEmpty_iff]
  apply and_congr_right'
  cases hfind : goals.find? (100 < ·.1) with
  | none =>
      refine iff_of_true rfl fun goal hgoal => ?_
      simpa using List.find?_eq_none.mp hfind goal hgoal
  | some goal =>
      refine iff_of_false nofun fun h => ?_
      have hle := h goal (List.mem_of_find?_eq_some hfind)
      have hlt := List.find?_some hfind
      simp only [decide_eq_true_eq] at hlt
      omega

theorem checkRole_eq_ok_iff {role : String} {r : RoleId} :
    net.checkRole role r = .ok () ↔ net.Provides r := by
  rw [checkRole, bind_unit_eq_ok_iff, checkGoals_eq_ok_iff, checkLegals, ite_throw_eq_ok_iff,
    List.isEmpty_iff]
  constructor
  · rintro ⟨⟨hgoals, hle⟩, hlegals, -⟩
    exact ⟨hgoals, hle, hlegals⟩
  · rintro ⟨hgoals, hle, hlegals⟩
    exact ⟨⟨hgoals, hle⟩, hlegals, rfl⟩

/-- The conditions of the check. -/
structure IsCircuit (net : Net) : Prop where
  roles : 1 ≤ net.roleCount ∧ net.roleCount ≤ maxRoles
  inputs : net.inputs.size = net.roleCount
  legals : net.legals.size = net.roleCount
  goals : net.goals.size = net.roleCount
  references : ∀ id ∈ net.references, id < net.size
  components : ∀ id c, net.component? id = some c → net.Admits id c
  provides : ∀ r : RoleId, r.index < net.roleCount → net.Provides r

theorem checkTableSize_eq_ok_iff {size : Nat} :
    net.checkTableSize size = .ok () ↔ size = net.roleCount :=
  ite_pure_eq_ok_iff

theorem checkReferences_eq_ok_iff :
    net.references.forM net.checkReference = .ok () ↔ ∀ id ∈ net.references, id < net.size := by
  rw [forM_eq_ok_iff]
  exact forall₂_congr fun id _ => ite_pure_eq_ok_iff

theorem checkRoles_eq_ok_iff (hcount : net.roleCount ≤ maxRoles) :
    (net.roles.zipIdx.forM fun (role, i) => net.checkRole role (.ofIndex i)) = .ok () ↔
      ∀ r : RoleId, r.index < net.roleCount → net.Provides r := by
  rw [forM_eq_ok_iff]
  constructor
  · intro h r hr
    rw [← r.ofIndex_index]
    refine checkRole_eq_ok_iff.mp (h (net.roles[r.index], r.index) ?_)
    rw [List.mk_mem_zipIdx_iff_getElem?]
    exact List.getElem?_eq_getElem hr
  · rintro h ⟨role, i⟩ hmem
    rw [List.mk_mem_zipIdx_iff_getElem?] at hmem
    have hlt : i < net.roleCount := (List.getElem?_eq_some_iff.mp hmem).1
    apply checkRole_eq_ok_iff.mpr
    apply h
    unfold maxRoles at hcount
    rw [RoleId.index_ofIndex (by omega)]
    exact hlt

theorem wellFormed_iff : net.WellFormed ↔ net.IsCircuit := by
  rw [WellFormed, check, bind_unit_eq_ok_iff, bind_unit_eq_ok_iff, bind_unit_eq_ok_iff,
    bind_unit_eq_ok_iff, bind_unit_eq_ok_iff, bind_unit_eq_ok_iff, checkRoleCount_eq_ok_iff,
    checkTableSize_eq_ok_iff, checkTableSize_eq_ok_iff, checkTableSize_eq_ok_iff,
    checkReferences_eq_ok_iff, checkComponents_eq_ok_iff]
  constructor
  · rintro ⟨hroles, hinputs, hlegals, hgoals, hreferences, hcomponents, hprovides⟩
    exact ⟨hroles, hinputs, hlegals, hgoals, hreferences, hcomponents,
      (checkRoles_eq_ok_iff hroles.2).mp hprovides⟩
  · rintro ⟨hroles, hinputs, hlegals, hgoals, hreferences, hcomponents, hprovides⟩
    exact ⟨hroles, hinputs, hlegals, hgoals, hreferences, hcomponents,
      (checkRoles_eq_ok_iff hroles.2).mpr hprovides⟩

end Net

namespace Draft

variable {d : Draft} {terminal : ComponentId} {net : Net}

theorem checkConnections_eq_ok_iff : d.checkConnections = .ok () ↔ d.dangling = #[] := by
  rw [checkConnections, ← Array.size_eq_zero_iff, ← Nat.le_zero, ← Array.getElem?_eq_none_iff]
  cases d.dangling[0]? with
  | none => exact iff_of_true rfl rfl
  | some id => exact iff_of_false nofun nofun

theorem declaredTerminal_eq_ok_iff :
    d.declaredTerminal = .ok terminal ↔ d.terminal = some terminal := by
  rw [declaredTerminal]
  cases d.terminal with
  | none => exact iff_of_false nofun nofun
  | some id =>
      rw [Option.some.injEq]
      exact ⟨fun h => by cases h; rfl, fun h => congrArg Except.ok h⟩

theorem checkRoles_eq_ok_iff {β : Type} {entries : Array (RoleId × β)} {count : Nat} :
    (entries.toList.forM fun e => checkRole count e.1) = .ok () ↔
      ∀ e ∈ entries.toList, e.1.index < count := by
  rw [forM_eq_ok_iff]
  exact forall₂_congr fun _ _ => ite_pure_eq_ok_iff

/-- The parts of the check of a draft. -/
theorem toNet_eq_ok_iff : d.toNet = .ok net ↔
    (1 ≤ d.roles.length ∧ d.roles.length ≤ maxRoles) ∧ d.dangling = #[] ∧
      ∃ terminal, d.terminal = some terminal ∧
        (∀ e ∈ d.inputs.toList, e.1.index < d.roles.length) ∧
        (∀ e ∈ d.legals.toList, e.1.index < d.roles.length) ∧
        (∀ e ∈ d.goals.toList, e.1.index < d.roles.length) ∧
        (d.assemble terminal).WellFormed ∧ net = d.assemble terminal := by
  rw [toNet, bind_unit_eq_ok_iff, Net.checkRoleCount_eq_ok_iff, bind_unit_eq_ok_iff,
    checkConnections_eq_ok_iff, bind_eq_ok_iff]
  refine and_congr_right' (and_congr_right' (exists_congr fun terminal => ?_))
  have hresult : (pure (d.assemble terminal) : Except GameError Net) = .ok net ↔
      net = d.assemble terminal := by
    constructor
    · rintro ⟨⟩
      rfl
    · rintro rfl
      rfl
  rw [declaredTerminal_eq_ok_iff, bind_unit_eq_ok_iff, bind_unit_eq_ok_iff, bind_unit_eq_ok_iff,
    checkRoles_eq_ok_iff, checkRoles_eq_ok_iff, checkRoles_eq_ok_iff, bind_unit_eq_ok_iff, hresult]
  rfl

/-- A net that was drafted is the draft's, and passes the check. -/
theorem assembled_of_toNet (h : d.toNet = .ok net) :
    ∃ terminal, d.terminal = some terminal ∧ net = d.assemble terminal ∧ net.WellFormed := by
  obtain ⟨-, -, terminal, hterminal, -, -, -, hcheck, rfl⟩ := toNet_eq_ok_iff.mp h
  exact ⟨terminal, hterminal, rfl, hcheck⟩

end Draft

namespace Net

theorem ofBytes_eq_ok {bytes : Bytes} {net : Net} :
    ofBytes bytes = .ok net ↔ (∃ rest, Codec.net.read bytes = some (net, rest)) ∧ net.WellFormed := by
  rw [ofBytes]
  cases hread : Codec.net.read bytes with
  | none => simp
  | some found =>
      obtain ⟨net', rest⟩ := found
      simp only [Option.some.injEq, Prod.mk.injEq, bind_unit_eq_ok_iff]
      constructor
      · rintro ⟨hcheck, h⟩
        cases h
        exact ⟨⟨rest, rfl, rfl⟩, hcheck⟩
      · rintro ⟨⟨_, rfl, -⟩, hcheck⟩
        exact ⟨hcheck, rfl⟩

/-- A net that was drafted, or read from bytes. -/
inductive IsAccepted (net : Net) : Prop
  | drafted (d : Draft) (h : d.toNet = .ok net)
  | loaded (bytes : Bytes) (h : ofBytes bytes = .ok net)

theorem IsAccepted.wellFormed {net : Net} (h : net.IsAccepted) : net.WellFormed := by
  cases h with
  | drafted d h =>
      obtain ⟨_, -, -, hcheck⟩ := Draft.assembled_of_toNet h
      exact hcheck
  | loaded bytes h => exact (ofBytes_eq_ok.mp h).2

end Net

end GeneralGame
