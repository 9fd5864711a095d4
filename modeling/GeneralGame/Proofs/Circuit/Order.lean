import GeneralGame.Proofs.Circuit.Marks
import Mathlib.Data.List.Perm.Subperm

/-!
Orders of evaluation. An order of a net has every component that is not set from outside, and the
passes over the waiting components come to such an order if they come to an end without a cycle.
-/
namespace GeneralGame.Net

variable {net : Net} {a : Assignment} {id : ComponentId} {ids : List ComponentId}

/-- A component all of whose inputs are marked. -/
def IsReady (net : Net) (a : Assignment) (id : ComponentId) : Prop :=
  ∃ c, net.component? id = some c ∧ ∀ i ∈ c.inputs, a.get i = true

theorem inputsReady_iff : Schedule.inputsReady net a.values id = true ↔ net.IsReady a id := by
  simp only [Schedule.inputsReady, Option.any_eq_true, List.all_eq_true, IsReady]
  rfl

/-- A component that does not exist counts as marked where new ones are asked for. -/
theorem isNew_iff : a.values.getD id true = false ↔ id < a.values.size ∧ a.get id = false := by
  by_cases h : id < a.values.size
  · simp [Assignment.get, h]
  · simp [h]

theorem follows_cons :
    net.follows a.values (id :: ids) = true ↔
      (id < a.values.size ∧ a.get id = false) ∧ net.IsReady a id ∧
        net.follows (a.set id true).values ids = true := by
  rw [follows, Bool.and_eq_true, Bool.and_eq_true, Bool.not_eq_true', isNew_iff, inputsReady_iff,
    and_assoc]
  rfl

theorem follows_append (xs ys : List ComponentId) :
    net.follows a.values (xs ++ ys) = true ↔
      net.follows a.values xs = true ∧ net.follows (a.setAll xs).values ys = true := by
  induction xs generalizing a with
  | nil => simp [follows]
  | cons id xs ih =>
      rw [List.cons_append, follows_cons, follows_cons, ih, Assignment.setAll_cons]
      simp only [and_assoc]

/-- Only components that exist and are not yet marked are ordered. -/
theorem unmarked_of_follows (h : net.follows a.values ids = true) :
    ∀ id ∈ ids, id < a.values.size ∧ a.get id = false := by
  induction ids generalizing a with
  | nil => simp
  | cons first rest ih =>
      obtain ⟨hnew, -, hrest⟩ := follows_cons.mp h
      intro id hid
      rcases List.mem_cons.mp hid with rfl | hid
      · exact hnew
      · obtain ⟨hlt, hfalse⟩ := ih hrest id hid
        rw [Assignment.size_set] at hlt
        rw [Assignment.get_set] at hfalse
        split at hfalse
        · cases hfalse
        · exact ⟨hlt, hfalse⟩

theorem not_mem_of_follows (h : net.follows (a.set id true).values ids = true)
    (hid : id < a.values.size) : id ∉ ids := by
  intro hmem
  have hfalse := (unmarked_of_follows h id hmem).2
  rw [Assignment.get_set_self hid] at hfalse
  cases hfalse

theorem nodup_of_follows (h : net.follows a.values ids = true) : ids.Nodup := by
  induction ids generalizing a with
  | nil => exact .nil
  | cons first rest ih =>
      obtain ⟨hnew, -, hrest⟩ := follows_cons.mp h
      exact List.nodup_cons.mpr ⟨not_mem_of_follows hrest hnew.1, ih hrest⟩

/-- The components that are not set from outside. -/
def dependentIds (net : Net) : List ComponentId :=
  (List.range net.size).filter fun id => !net.independent.get id

theorem mem_dependentIds :
    id ∈ net.dependentIds ↔ id < net.size ∧ net.independent.get id = false := by
  simp [dependentIds]

theorem mem_dependentIds_iff : id ∈ net.dependentIds ↔ id < net.size ∧ ¬ net.IsIndependent id := by
  rw [mem_dependentIds]
  exact and_congr_right fun hlt => by rw [← get_independent hlt, Bool.not_eq_true]

theorem length_dependentIds (net : Net) :
    net.dependentIds.length = net.independentMask.count false := by
  have hlist : net.independentMask.toList = (List.range net.size).map net.independent.get := by
    apply List.ext_getElem
    · rw [Array.length_toList, List.length_map, List.length_range]
      exact net.size_independent
    · intro i hi _
      have hlt : i < net.independentMask.size := by simpa using hi
      simp [Assignment.get, independent, hlt]
  rw [← Array.count_toList, hlist, List.count_eq_countP, List.countP_map,
    List.countP_eq_length_filter, dependentIds]
  congr 2
  funext id
  cases h : net.independent.get id <;> simp [h]

theorem isOrder_iff : net.isOrder ids = true ↔
    net.dependentIds.length = ids.length ∧ net.follows net.independent.values ids = true := by
  rw [isOrder, Bool.and_eq_true, decide_eq_true_eq, length_dependentIds]
  rfl

/-- No component that is set from outside is ordered. -/
theorem not_isIndependent_of_mem (h : net.follows net.independent.values ids = true)
    (hid : id ∈ ids) : ¬ net.IsIndependent id := by
  intro hindependent
  obtain ⟨hlt, hunmarked⟩ := unmarked_of_follows h id hid
  rw [size_independent] at hlt
  rw [(get_independent hlt).mpr hindependent] at hunmarked
  cases hunmarked

theorem nodup_dependentIds (net : Net) : net.dependentIds.Nodup := List.nodup_range.filter _

/-- An order has every dependent component once, and no other one. -/
theorem perm_of_isOrder (h : net.isOrder ids = true) : ids.Perm net.dependentIds := by
  obtain ⟨hcount, hfollows⟩ := isOrder_iff.mp h
  have hsubset : ids ⊆ net.dependentIds := by
    intro i hi
    have hi' := unmarked_of_follows hfollows i hi
    rw [size_independent] at hi'
    exact mem_dependentIds.mpr hi'
  have hlength : net.dependentIds.length ≤ ids.length := Nat.le_of_eq hcount
  have hsubperm := List.subperm_of_subset (nodup_of_follows hfollows) hsubset
  exact hsubperm.perm_of_length_le hlength

/-- An order leaves no component out. -/
theorem mem_of_isOrder (h : net.isOrder ids = true) (hid : id < net.size)
    (hdependent : net.independent.get id = false) : id ∈ ids :=
  (perm_of_isOrder h).mem_iff.mpr (mem_dependentIds.mpr ⟨hid, hdependent⟩)

/-! ### The passes -/

namespace Schedule

/-- What every visit keeps: what was ordered is an order so far, and of the other dependent
components each either is left for this pass or waits for the next one. -/
structure Valid (net : Net) (left : List ComponentId) (o : Schedule) : Prop where
  ready : Assignment.mk o.ready = net.independent.setAll o.ordered.toList
  follows : net.follows net.independent.values o.ordered.toList = true
  new : ∀ id ∈ left ++ o.waiting.toList, id < o.ready.size ∧ o.ready.getD id false = false
  nodup : (left ++ o.waiting.toList).Nodup
  total : o.ordered.size + (left ++ o.waiting.toList).length = net.dependentIds.length

variable {o : Schedule} {left : List ComponentId}

theorem valid_visit (h : Valid net (id :: left) o) : Valid net left (visit net o id) := by
  obtain ⟨hready, hfollows, hnew, hnodup, htotal⟩ := h
  rw [List.cons_append] at hnew hnodup htotal
  obtain ⟨hid, hnodup⟩ := List.nodup_cons.mp hnodup
  have hnewId := hnew id List.mem_cons_self
  have hnewRest := fun i hi => hnew i (List.mem_cons_of_mem id hi)
  rw [visit]
  by_cases hinputs : inputsReady net o.ready id = true
  · rw [if_pos hinputs]
    have hmarks : Assignment.mk (o.ready.setIfInBounds id true) =
        net.independent.setAll (o.ordered.push id).toList := by
      rw [Array.toList_push, Assignment.setAll_append, ← hready]
      rfl
    constructor
    · exact hmarks
    · rw [Array.toList_push, follows_append, ← hready]
      exact ⟨hfollows, follows_cons.mpr ⟨hnewId, inputsReady_iff.mp hinputs, rfl⟩⟩
    · intro i hi
      obtain ⟨hlt, hfalse⟩ := hnewRest i hi
      have hne : id ≠ i := fun heq => hid (heq ▸ hi)
      rw [Array.size_setIfInBounds, getD_setIfInBounds, if_neg fun hand => hne hand.1]
      exact ⟨hlt, hfalse⟩
    · exact hnodup
    · simp only [Array.size_push, List.length_cons] at htotal ⊢
      omega
  · rw [if_neg hinputs]
    have hperm : (left ++ (o.waiting.push id).toList).Perm (id :: (left ++ o.waiting.toList)) := by
      rw [Array.toList_push, ← List.append_assoc]
      exact List.perm_append_singleton id _
    constructor
    · exact hready
    · exact hfollows
    · intro i hi
      exact hnew i (hperm.mem_iff.mp hi)
    · exact hperm.nodup_iff.mpr (List.nodup_cons.mpr ⟨hid, hnodup⟩)
    · rw [hperm.length_eq]
      exact htotal

theorem valid_foldl_visit (h : Valid net left o) : Valid net [] (left.foldl (visit net) o) := by
  induction left generalizing o with
  | nil => exact h
  | cons id left ih => exact ih (valid_visit h)

theorem valid_pass (h : Valid net [] o) : Valid net [] (o.pass net) := by
  rw [pass, ← Array.foldl_toList]
  apply valid_foldl_visit
  obtain ⟨hready, hfollows, hnew, hnodup, htotal⟩ := h
  rw [List.nil_append] at hnew hnodup htotal
  constructor
  · exact hready
  · exact hfollows
  · rw [List.append_nil]
    exact hnew
  · rw [List.append_nil]
    exact hnodup
  · rw [List.append_nil]
    exact htotal

theorem valid_settle (fuel : Nat) (h : Valid net [] o) : Valid net [] (settle net fuel o) := by
  induction fuel generalizing o with
  | zero => exact h
  | succ fuel ih =>
      rw [settle]
      split
      · exact ih (valid_pass h)
      · exact h

theorem waiting_start (net : Net) : (start net).waiting.toList = net.dependentIds := by
  rw [start, Array.toList_filter, Array.toList_range]
  rfl

theorem size_waiting_start_le (net : Net) : (start net).waiting.size ≤ net.size := by
  rw [start]
  exact Nat.le_trans Array.size_filter_le (Nat.le_of_eq Array.size_range)

theorem valid_start (net : Net) : Valid net [] (start net) := by
  have hwaiting := waiting_start net
  constructor
  · rfl
  · rfl
  · intro id hid
    rw [List.nil_append, hwaiting] at hid
    have hsize : (start net).ready.size = net.size := net.size_independent
    rw [hsize]
    exact mem_dependentIds.mp hid
  · rw [List.nil_append, hwaiting]
    exact net.nodup_dependentIds
  · rw [List.nil_append, hwaiting]
    exact Nat.zero_add _

end Schedule

/-- The passes come to an order. -/
theorem isOrder_of_order (h : net.order = .ok ids) : net.isOrder ids = true := by
  have hvalid := Schedule.valid_settle net.size (Schedule.valid_start net)
  rw [order] at h
  split at h
  · rename_i hnone
    cases h
    have hempty := Array.getElem?_eq_none_iff.mp hnone
    have htotal := hvalid.total
    rw [List.nil_append, Array.length_toList] at htotal
    apply isOrder_iff.mpr
    constructor
    · change _ = Array.size _
      omega
    · exact hvalid.follows
  · cases h

end GeneralGame.Net
