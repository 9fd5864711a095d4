import GeneralGame.Proofs.Circuit.Marks
import GeneralGame.Proofs.Failing

/-!
What a net that passes the check is like. Every component that it refers to exists, its tables have
an entry for each role, and a base proposition has one input at most.
-/
namespace GeneralGame

namespace Net

variable {net : Net} {id : ComponentId} {c : Component}

/-- The parts of the check that all passed. -/
theorem WellFormed.parts (h : net.WellFormed) :
    checkRoleCount net.roles = .ok () ∧ net.checkTableSize net.inputs.size = .ok () ∧
      (∀ id ∈ net.references, net.checkReference id = .ok ()) ∧ net.checkComponents = .ok () := by
  rw [WellFormed, check] at h
  obtain ⟨_, hroles, h⟩ := exists_of_bind_eq_ok h
  obtain ⟨_, hinputs, h⟩ := exists_of_bind_eq_ok h
  obtain ⟨_, -, h⟩ := exists_of_bind_eq_ok h
  obtain ⟨_, -, h⟩ := exists_of_bind_eq_ok h
  obtain ⟨_, hreferences, h⟩ := exists_of_bind_eq_ok h
  obtain ⟨_, hcomponents, -⟩ := exists_of_bind_eq_ok h
  exact ⟨hroles, hinputs, forall_of_forM_eq_ok hreferences, hcomponents⟩

theorem WellFormed.roleCount_le (h : net.WellFormed) : net.roleCount ≤ maxRoles := by
  have hroles := h.parts.1
  rw [checkRoleCount] at hroles
  split at hroles
  · cases hroles
  · split at hroles
    · cases hroles
    · rename_i hle
      exact Nat.not_lt.mp hle

theorem WellFormed.size_inputs (h : net.WellFormed) : net.inputs.size = net.roleCount :=
  (of_ite_eq_ok h.parts.2.1).1

theorem WellFormed.reference_lt (h : net.WellFormed) (hid : id ∈ net.references) : id < net.size :=
  (of_ite_eq_ok (h.parts.2.2.1 id hid)).1

theorem WellFormed.init_lt (h : net.WellFormed) : net.init < net.size :=
  h.reference_lt (by simp [references])

theorem WellFormed.base_lt (h : net.WellFormed) {f : FactId} (hid : net.bases[f]? = some id) :
    id < net.size := by
  have hmem : id ∈ net.bases.toList := Array.mem_toList_iff.mpr (Array.mem_of_getElem? hid)
  exact h.reference_lt (by simp [references, hmem])

theorem WellFormed.role_lt_of_input (h : net.WellFormed) {r : RoleId} {m : Move}
    (hid : net.input? r m = some id) : r.index < net.roleCount := by
  obtain ⟨t, ht, -⟩ := Option.bind_eq_some_iff.mp hid
  have hlt : r.index < net.inputs.size := (Array.getElem?_eq_some_iff.mp ht).1
  rwa [h.size_inputs] at hlt

theorem WellFormed.input_lt (h : net.WellFormed) {r : RoleId} {m : Move}
    (hid : net.input? r m = some id) : id < net.size := by
  have hlt := h.role_lt_of_input hid
  obtain ⟨t, ht, hget⟩ := Option.bind_eq_some_iff.mp hid
  have hcount := h.roleCount_le
  unfold maxRoles at hcount
  have hrole : r ∈ RoleId.all net.roleCount := RoleId.mem_all.mpr (by omega)
  have hids : id ∈ (net.inputs.get? r).elim [] MoveTable.ids := by
    rw [ht]
    exact MoveTable.mem_ids_of_get? hget
  apply h.reference_lt
  apply List.mem_append_left
  apply List.mem_append_right
  rw [List.mem_flatMap]
  exact ⟨r, hrole, List.mem_append_left _ (List.mem_append_left _ hids)⟩

/-- A base proposition has one input at most. -/
theorem WellFormed.length_base_inputs_le (h : net.WellFormed) {f : FactId}
    (hid : net.bases[f]? = some id) (hc : net.component? id = some c) : c.inputs.length ≤ 1 := by
  have hcomponents := h.parts.2.2.2
  rw [checkComponents] at hcomponents
  have hmem : (c, id) ∈ net.components.toList.zipIdx := by
    rw [List.mk_mem_zipIdx_iff_getElem?, Array.getElem?_toList]
    exact hc
  have hcheck := forall_of_forM_eq_ok hcomponents (c, id) hmem
  have hbase : (net.mark net.bases.toList).getD id false = true :=
    (net.get_mark _ id).mpr ⟨Array.mem_toList_iff.mpr (Array.mem_of_getElem? hid), h.base_lt hid⟩
  change net.checkComponent _ _ id c = .ok () at hcheck
  rw [checkComponent, if_pos hbase, checkBase] at hcheck
  obtain ⟨_, -, hcount⟩ := exists_of_bind_eq_ok hcheck
  have hadmits := (of_ite_eq_ok hcount).1
  simpa [InputCount.admits] using hadmits

end Net

end GeneralGame
