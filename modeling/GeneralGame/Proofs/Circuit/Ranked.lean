import GeneralGame.Proofs.Circuit.Order

/-!
Orders of evaluation exist. The passes stop only where no component that waits has all its inputs
ready; if the components can be ranked so that each ranks above those it reads, the lowest of them
that waits would be ready, so none waits.
-/
namespace GeneralGame.Net

variable {net : Net} {id : ComponentId}

/-- Every dependent component reads only components that exist, each of them set from outside or of
a lower rank. -/
def IsRanked (net : Net) (rank : ComponentId → Nat) : Prop :=
  ∀ id c, net.component? id = some c → ¬ net.IsIndependent id →
    ∀ i ∈ c.inputs, i < net.size ∧ (net.IsIndependent i ∨ rank i < rank id)

namespace Schedule

variable {o : Schedule} {left : List ComponentId}

theorem Valid.size_ready (h : Valid net left o) : o.ready.size = net.size := by
  have hsizes := congrArg (fun a => a.values.size) h.ready
  rw [Assignment.size_setAll, size_independent] at hsizes
  exact hsizes

theorem Valid.mem_dependentIds_of_ordered (h : Valid net left o) (hid : id ∈ o.ordered.toList) :
    id ∈ net.dependentIds := by
  obtain ⟨hlt, hfalse⟩ := unmarked_of_follows h.follows id hid
  rw [size_independent] at hlt
  exact mem_dependentIds.mpr ⟨hlt, hfalse⟩

/-- Ready is what is set from outside and what was ordered. -/
theorem Valid.ready_iff (h : Valid net left o) :
    o.ready.getD id false = true ↔ net.independent.get id = true ∨ id ∈ o.ordered.toList := by
  change (Assignment.mk o.ready).get id = true ↔ _
  rw [h.ready, Assignment.get_setAll, size_independent]
  apply or_congr_right
  exact and_iff_left_of_imp fun hid => (mem_dependentIds.mp (h.mem_dependentIds_of_ordered hid)).1

theorem Valid.mem_dependentIds_of_waiting (h : Valid net left o) (hid : id ∈ o.waiting.toList) :
    id ∈ net.dependentIds := by
  obtain ⟨hlt, hfalse⟩ := h.new id (List.mem_append_right left hid)
  rw [h.size_ready] at hlt
  rw [← Bool.not_eq_true, h.ready_iff, not_or, Bool.not_eq_true] at hfalse
  exact mem_dependentIds.mpr ⟨hlt, hfalse.1⟩

/-- Between two passes what was ordered and what waits are the dependent components. -/
theorem Valid.mem_ordered_or_waiting (h : Valid net [] o) (hid : id ∈ net.dependentIds) :
    id ∈ o.ordered.toList ∨ id ∈ o.waiting.toList := by
  have hdisjoint : ∀ i ∈ o.ordered.toList, ∀ j ∈ o.waiting.toList, i ≠ j := by
    rintro i hi _ hwaits rfl
    have hready := h.ready_iff.mpr (.inr hi)
    rw [(h.new i hwaits).2] at hready
    cases hready
  have hnodup : (o.ordered.toList ++ o.waiting.toList).Nodup :=
    List.nodup_append.mpr ⟨nodup_of_follows h.follows, h.nodup, hdisjoint⟩
  have hsubset : o.ordered.toList ++ o.waiting.toList ⊆ net.dependentIds := by
    intro i hi
    rcases List.mem_append.mp hi with hi | hi
    · exact h.mem_dependentIds_of_ordered hi
    · exact h.mem_dependentIds_of_waiting hi
  have hlength : net.dependentIds.length ≤ (o.ordered.toList ++ o.waiting.toList).length := by
    rw [List.length_append, ← h.total]
    exact Nat.le_refl _
  have hperm := (List.subperm_of_subset hnodup hsubset).perm_of_length_le hlength
  exact List.mem_append.mp (hperm.mem_iff.mpr hid)

theorem size_waiting_visit_le (net : Net) (o : Schedule) (id : ComponentId) :
    (visit net o id).waiting.size ≤ o.waiting.size + 1 := by
  rw [visit]
  split
  · exact Nat.le_succ _
  · exact Nat.le_of_eq (Array.size_push id)

theorem size_waiting_foldl_le (net : Net) (left : List ComponentId) (o : Schedule) :
    (left.foldl (visit net) o).waiting.size ≤ o.waiting.size + left.length := by
  induction left generalizing o with
  | nil => exact Nat.le_refl _
  | cons id left ih =>
      have hvisit := size_waiting_visit_le net o id
      have hrest := ih (visit net o id)
      rw [List.foldl_cons, List.length_cons]
      omega

/-- A component that is ready before the visits does not wait after them. -/
theorem size_waiting_foldl_lt (hid : id ∈ left) (hready : inputsReady net o.ready id = true) :
    (left.foldl (visit net) o).waiting.size < o.waiting.size + left.length := by
  induction left generalizing o with
  | nil => cases hid
  | cons first left ih =>
      rw [List.foldl_cons, List.length_cons, visit]
      split
      · have hrest := size_waiting_foldl_le net left
          { o with ready := o.ready.setIfInBounds first true, ordered := o.ordered.push first }
        exact Nat.lt_succ_of_le hrest
      · rename_i hfirst
        have hid : id ∈ left := by
          rcases List.mem_cons.mp hid with rfl | hid
          · exact absurd hready hfirst
          · exact hid
        have hrest := @ih { o with waiting := o.waiting.push first } hid hready
        rw [Array.size_push] at hrest
        omega

/-- Nothing that waits is ready. -/
def IsStuck (net : Net) (o : Schedule) : Prop :=
  ∀ id ∈ o.waiting.toList, inputsReady net o.ready id = false

theorem isStuck_of_pass (h : ¬ (o.pass net).waiting.size < o.waiting.size) : IsStuck net o := by
  intro id hid
  rw [← Bool.not_eq_true]
  intro hready
  apply h
  rw [pass, ← Array.foldl_toList]
  have hlt := @size_waiting_foldl_lt net id { o with waiting := #[] } _ hid hready
  simpa using hlt

/-- With a pass for each component that waits, the passes only stop where they are stuck. -/
theorem isStuck_settle (net : Net) (fuel : Nat) (h : o.waiting.size ≤ fuel) :
    IsStuck net (settle net fuel o) := by
  induction fuel generalizing o with
  | zero =>
      intro id hid
      have hempty : o.waiting.toList = [] := by
        apply List.eq_nil_of_length_eq_zero
        rw [Array.length_toList]
        exact Nat.le_zero.mp h
      rw [settle, hempty] at hid
      cases hid
  | succ fuel ih =>
      rw [settle]
      split
      · rename_i hlt
        exact ih (by omega)
      · rename_i hstays
        exact isStuck_of_pass hstays

/-- Nothing waits where the passes are stuck, by induction on the rank of what would wait. -/
theorem Valid.not_mem_waiting {rank : ComponentId → Nat} (hranked : net.IsRanked rank)
    (h : Valid net [] o) (hstuck : IsStuck net o) : id ∉ o.waiting.toList := by
  induction hrank : rank id using Nat.strongRecOn generalizing id with
  | ind r ih =>
      intro hid
      obtain ⟨hlt, hdependent⟩ := mem_dependentIds_iff.mp (h.mem_dependentIds_of_waiting hid)
      obtain ⟨c, hc⟩ : ∃ c, net.component? id = some c := ⟨_, Array.getElem?_eq_getElem hlt⟩
      have hready : inputsReady net o.ready id = true := by
        rw [inputsReady, hc, Option.any_some, List.all_eq_true]
        intro i hi
        obtain ⟨hlt, hi⟩ := hranked id c hc hdependent i hi
        rw [h.ready_iff]
        cases hmark : net.independent.get i with
        | true => exact .inl rfl
        | false =>
            have hlower : rank i < r := by
              rcases hi with hi | hi
              · rw [(get_independent hlt).mpr hi] at hmark
                cases hmark
              · exact hrank ▸ hi
            have hwaits : i ∉ o.waiting.toList := ih (rank i) hlower rfl
            have hwhere := h.mem_ordered_or_waiting (mem_dependentIds.mpr ⟨hlt, hmark⟩)
            exact .inr (hwhere.resolve_right hwaits)
      rw [hstuck id hid] at hready
      cases hready

end Schedule

/-- A net whose components can be ranked has an order of evaluation. -/
theorem exists_order {rank : ComponentId → Nat} (hranked : net.IsRanked rank) :
    ∃ ids, net.order = .ok ids := by
  have hvalid := Schedule.valid_settle net.size (Schedule.valid_start net)
  have hstuck := Schedule.isStuck_settle net net.size (Schedule.size_waiting_start_le net)
  rw [order]
  split
  · exact ⟨_, rfl⟩
  · rename_i id hid
    have hmem := Array.mem_toList_iff.mpr (Array.mem_of_getElem? hid)
    exact absurd hmem (hvalid.not_mem_waiting hranked hstuck)

end GeneralGame.Net
