import GeneralGame.Proofs.Circuit.Faults
import GeneralGame.Proofs.Game.Legal

/-!
What the marks of a state and a joint move say. Where the initial marker, the facts and the moves
have components of their own, the values of an evaluation show exactly the facts of the state and the
moves that are made. Where two of them share a component, some state or joint move that is accepted
makes one true by the other. The check of a net does not look at this.
-/
namespace GeneralGame

theorem JointMove.get?_placeholder {count : Nat} (hcount : count ≤ maxRoles) (r r' : RoleId)
    (m : Move) : (placeholder count r m).get? r' =
      if r'.index < count then some (if r' = r then m else .noop) else none := by
  rw [get?, placeholder, List.getElem?_map, RoleId.getElem?_all hcount]
  split <;> rfl

namespace Net

variable {net : Net} {id : ComponentId}

/-- The initial marker, the facts and the moves have components of their own. -/
structure Separates (net : Net) : Prop where
  facts : ∀ (f g : FactId) id, net.bases[f]? = some id → net.bases[g]? = some id → f = g
  moves : ∀ r m r' m' id, net.input? r m = some id → net.input? r' m' = some id → r = r' ∧ m = m'
  start : (∀ f : FactId, net.bases[f]? ≠ some net.init) ∧ ∀ r m, net.input? r m ≠ some net.init
  apart : ∀ (f : FactId) r m id, net.bases[f]? = some id → net.input? r m ≠ some id

theorem isIndependent_init : net.IsIndependent net.init := List.mem_cons_self

theorem isIndependent_base {f : FactId} (h : net.bases[f]? = some id) : net.IsIndependent id := by
  apply List.mem_append_left
  exact List.mem_cons_of_mem _ (Array.mem_toList_iff.mpr (Array.mem_of_getElem? h))

theorem isIndependent_input {r : RoleId} {m : Move} (h : net.input? r m = some id) :
    net.IsIndependent id := by
  obtain ⟨t, ht, hget⟩ := Option.bind_eq_some_iff.mp h
  apply List.mem_append_right
  exact List.mem_flatMap.mpr ⟨t, Array.mem_toList_iff.mpr (Array.mem_of_getElem? ht),
    MoveTable.mem_ids_of_get? hget⟩

theorem isIndependent_iff (hcount : net.inputs.size ≤ maxRoles) : net.IsIndependent id ↔
    id = net.init ∨ id ∈ net.bases ∨ ∃ r m, net.input? r m = some id := by
  constructor
  · intro h
    rw [IsIndependent, independentIds, List.cons_append, List.mem_cons, List.mem_append,
      Array.mem_toList_iff, List.mem_flatMap] at h
    refine h.imp_right (Or.imp_right ?_)
    rintro ⟨t, ht, hid⟩
    obtain ⟨⟨m, id⟩, he, rfl⟩ := List.mem_map.mp hid
    obtain ⟨i, hi⟩ := List.mem_iff_getElem?.mp ht
    have hlt : i < net.inputs.size := (List.getElem?_eq_some_iff.mp hi).1
    unfold maxRoles at hcount
    have htable : net.inputs.get? (.ofIndex i) = some t := by
      rw [RoleTable.get?, RoleId.index_ofIndex (by omega), ← Array.getElem?_toList]
      exact hi
    refine ⟨.ofIndex i, m, ?_⟩
    rw [input?, htable]
    exact MoveTable.get?_eq_some_iff.mpr he
  · rintro (rfl | hbase | ⟨r, m, hinput⟩)
    · exact isIndependent_init
    · obtain ⟨f, hf⟩ := Array.mem_iff_getElem?.mp hbase
      exact isIndependent_base hf
    · exact isIndependent_input hinput

/-- A joint move of the right size whose moves are all known is accepted. -/
theorem exists_markJointMove {j : JointMove} (hsize : j.size = net.roleCount)
    (hknown : ∀ entry ∈ j.entries, net.Knows entry) (values : Assignment) :
    ∃ values', net.markJointMove j values = .ok values' := by
  rw [markJointMove, if_pos hsize]
  cases hmark : j.entries.foldlM net.markMove values with
  | ok values' => exact ⟨values', rfl⟩
  | error e =>
      obtain ⟨before, entry, after, hentries, -, hunknown, -⟩ := markMoves_fails values e hmark
      exact absurd (hknown entry (by rw [hentries]; simp)) hunknown

end Net

namespace Machine

variable {net : Net} {m : Machine}

/-- In every evaluation the base propositions hold of the facts of the state, the input propositions
of the moves that are made, and the initial marker does not hold; it does while the initial state is
computed. -/
structure MarksFaithfully (m : Machine) : Prop where
  fact : ∀ s joint v (f : FactId) id, m.evaluate s joint = .ok v → m.net.bases[f]? = some id →
    (v.get id = true ↔ f ∈ s)
  move : ∀ s joint v r a id, m.evaluate s joint = .ok v → m.net.input? r a = some id →
    (v.get id = true ↔ ∃ j ∈ joint, j.get? r = some a)
  marker : ∀ s joint v, m.evaluate s joint = .ok v → v.get m.net.init = false
  start : (m.net.propagate m.order (m.net.noValues.set m.net.init true)).get m.net.init = true

theorem get_of_evaluate (h : ofNet net = .ok m) {s : State} {joint : Option JointMove}
    {v : Assignment} (hv : m.evaluate s joint = .ok v) {id : ComponentId}
    (hid : m.net.IsIndependent id) : v.get id = true ↔ m.net.given s joint id := by
  obtain ⟨rfl, hnet, horder, -⟩ := ofNet_eq_ok h
  exact ((solves_of_evaluate hnet horder hv v).mpr rfl).independent id hid

theorem marksFaithfully_of_separates (h : ofNet net = .ok m) (hnet : m.net.Separates) :
    m.MarksFaithfully := by
  constructor
  · intro s joint v f id hv hid
    rw [get_of_evaluate h hv (Net.isIndependent_base hid), Net.given]
    constructor
    · rintro (⟨g, hg, hid'⟩ | ⟨j, -, r, a, -, hinput⟩)
      · rwa [hnet.facts f g id hid hid']
      · exact absurd hinput (hnet.apart f r a id hid)
    · exact fun hf => .inl ⟨f, hf, hid⟩
  · intro s joint v r a id hv hid
    rw [get_of_evaluate h hv (Net.isIndependent_input hid), Net.given]
    constructor
    · rintro (⟨g, -, hid'⟩ | ⟨j, hj, r', a', hmove, hinput⟩)
      · exact absurd hid (hnet.apart g r a id hid')
      · obtain ⟨rfl, rfl⟩ := hnet.moves r a r' a' id hid hinput
        exact ⟨j, hj, hmove⟩
    · rintro ⟨j, hj, hmove⟩
      exact .inr ⟨j, hj, r, a, hmove, hid⟩
  · intro s joint v hv
    rw [← Bool.not_eq_true, get_of_evaluate h hv Net.isIndependent_init, Net.given]
    rintro (⟨f, -, hid⟩ | ⟨j, -, r, a, -, hinput⟩)
    · exact hnet.start.1 f hid
    · exact hnet.start.2 r a hinput
  · obtain ⟨rfl, hwell, horder, -⟩ := ofNet_eq_ok h
    have hsize : (m.net.noValues.set m.net.init true).values.size = m.net.size := by
      rw [Assignment.size_set, Net.size_noValues]
    have hsolves := (Net.solves_iff horder hsize (Net.get_markInit hwell)).mpr rfl
    exact (hsolves.independent _ Net.isIndependent_init).mpr rfl

/-- One role makes a move that the net knows, and all others wait: such a joint move is accepted. -/
theorem exists_evaluate_placeholder (hcount : m.net.roleCount ≤ maxRoles) {r : RoleId} {a : Move}
    {id : ComponentId} (hinput : m.net.input? r a = some id) :
    ∃ v, m.evaluate .empty (some (.placeholder m.net.roleCount r a)) = .ok v := by
  have hsize : (JointMove.placeholder m.net.roleCount r a).size = m.net.roleCount := by
    unfold maxRoles at hcount
    rw [JointMove.size, JointMove.placeholder, List.length_map, RoleId.length_all,
      Nat.mod_eq_of_lt (by omega)]
  have hknown : ∀ entry ∈ (JointMove.placeholder m.net.roleCount r a).entries, m.net.Knows entry := by
    intro entry hentry
    obtain ⟨i, hi, rfl⟩ := List.mem_mapIdx.mp hentry
    obtain ⟨-, hmove⟩ := Game.placeholder_getElem? (List.getElem?_eq_getElem hi)
    rw [Net.Knows, hmove]
    by_cases hr : .ofIndex i = r
    · rw [hr, if_pos rfl, hinput]
      exact .inl (Option.some_ne_none id)
    · rw [if_neg hr]
      exact .inr rfl
  obtain ⟨values, hmark⟩ := Net.exists_markJointMove hsize hknown (m.net.markState .empty m.net.noValues)
  rw [evaluate, hmark]
  exact ⟨_, rfl⟩

/-- Whoever can do more than wait. -/
def HasMove (m : Machine) (r : RoleId) : Prop := ∃ a id, a ≠ .noop ∧ m.net.input? r a = some id

/-- A move of one role does not show as the move of another. The case in which both could only wait
is left out by what the role can do besides. -/
theorem move_of_marksFaithfully (hnet : m.net.WellFormed) (hfaithful : m.MarksFaithfully)
    {r r' : RoleId} {a a' : Move} {id : ComponentId} (hmove : m.HasMove r)
    (hinput : m.net.input? r a = some id) (hinput' : m.net.input? r' a' = some id) :
    r = r' ∧ a = a' := by
  have hget := @JointMove.get?_placeholder _ hnet.roleCount_le
  have hshown : ∀ {r a r' a'}, m.net.input? r a = some id → m.net.input? r' a' = some id →
      (if r' = r then a else .noop) = a' := by
    intro r a r' a' hinput hinput'
    obtain ⟨v, hv⟩ := exists_evaluate_placeholder hnet.roleCount_le hinput
    have hmade := (hfaithful.move _ _ v r a id hv hinput).mpr
      ⟨_, rfl, by rw [hget, if_pos (hnet.role_lt_of_input hinput), if_pos rfl]⟩
    obtain ⟨_, ⟨⟩, hmove⟩ := (hfaithful.move _ _ v r' a' id hv hinput').mp hmade
    rw [hget, if_pos (hnet.role_lt_of_input hinput'), Option.some.injEq] at hmove
    exact hmove
  have hother := hshown hinput hinput'
  have hself := hshown hinput' hinput
  by_cases hr : r' = r
  · rw [if_pos hr] at hother
    exact ⟨hr.symm, hother⟩
  · rw [if_neg hr] at hother
    rw [if_neg (Ne.symm hr)] at hself
    obtain ⟨b, id', hb, hinputb⟩ := hmove
    obtain ⟨v, hv⟩ := exists_evaluate_placeholder hnet.roleCount_le hinputb
    have hwaits := (hfaithful.move _ _ v r' a' id hv hinput').mpr
      ⟨_, rfl, by rw [hget, if_pos (hnet.role_lt_of_input hinput'), if_neg hr, hother]⟩
    obtain ⟨_, ⟨⟩, hmade⟩ := (hfaithful.move _ _ v r a id hv hinput).mp hwaits
    rw [hget, if_pos (hnet.role_lt_of_input hinput), if_pos rfl, Option.some.injEq, ← hself] at hmade
    exact absurd hmade hb

theorem separates_of_marksFaithfully (hnet : m.net.WellFormed)
    (hmoves : ∀ r : RoleId, r.index < m.net.roleCount → m.HasMove r) (hfaithful : m.MarksFaithfully) :
    m.net.Separates := by
  have hfact : ∀ (f : FactId) id, m.net.bases[f]? = some id →
      (m.evaluateState (.ofFacts [f])).get id = true := fun f id hid =>
    (hfaithful.fact _ none _ f id rfl hid).mpr (by simp)
  have hmade : ∀ r a id, m.net.input? r a = some id →
      ∃ j v, m.evaluate .empty (some j) = .ok v ∧ v.get id = true := by
    intro r a id hinput
    obtain ⟨v, hv⟩ := exists_evaluate_placeholder hnet.roleCount_le hinput
    refine ⟨_, v, hv, (hfaithful.move _ _ v r a id hv hinput).mpr ⟨_, rfl, ?_⟩⟩
    rw [JointMove.get?_placeholder hnet.roleCount_le, if_pos (hnet.role_lt_of_input hinput), if_pos rfl]
  constructor
  · intro f g id hf hg
    have hheld := (hfaithful.fact _ none _ g id rfl hg).mp (hfact f id hf)
    exact (List.mem_singleton.mp (State.mem_ofFacts.mp hheld)).symm
  · intro r a r' a' id hinput hinput'
    exact move_of_marksFaithfully hnet hfaithful (hmoves r (hnet.role_lt_of_input hinput)) hinput hinput'
  · constructor
    · intro f hf
      have htrue := hfact f _ hf
      rw [hfaithful.marker _ none _ rfl] at htrue
      cases htrue
    · intro r a hinput
      obtain ⟨j, v, hv, htrue⟩ := hmade r a _ hinput
      rw [hfaithful.marker _ _ v hv] at htrue
      cases htrue
  · intro f r a id hf hinput
    obtain ⟨j, v, hv, htrue⟩ := hmade r a id hinput
    exact State.not_mem_empty ((hfaithful.fact _ _ v f id hv hf).mp htrue)

end Machine

end GeneralGame
