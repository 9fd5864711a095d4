import GeneralGame.Circuit.Machine
import GeneralGame.Proofs.Circuit.Tables

/-!
What is true before anything is computed. Setting a list of components makes those of the list
true that exist, and leaves the others; the marks of a net, of a state and of a joint move are all
made in this way.
-/
namespace GeneralGame

theorem getD_setIfInBounds {α : Type} (xs : Array α) (i j : Nat) (a d : α) :
    (xs.setIfInBounds i a).getD j d = if i = j ∧ j < xs.size then a else xs.getD j d := by
  rw [Array.getD_eq_getD_getElem?, Array.getD_eq_getD_getElem?, Array.getElem?_setIfInBounds]
  cases Nat.decEq i j with
  | isFalse hne => simp [hne]
  | isTrue heq =>
      subst heq
      rcases Nat.lt_or_ge i xs.size with hlt | hge
      · simp [hlt]
      · simp [Nat.not_lt.mpr hge]

namespace Assignment

variable {a b : Assignment} {id i : ComponentId} {v : Bool}

@[simp] theorem size_set : (a.set id v).values.size = a.values.size := Array.size_setIfInBounds

@[simp] theorem size_allFalse (n : Nat) : (allFalse n).values.size = n := Array.size_replicate

@[simp] theorem get_allFalse (n : Nat) : (allFalse n).get i = false := by
  simp only [get, allFalse, Array.getD_eq_getD_getElem?, Array.getElem?_replicate]
  split <;> rfl

theorem get_of_size_le (h : a.values.size ≤ i) : a.get i = false := by
  simp [get, h]

theorem lt_size_of_get (h : a.get i = true) : i < a.values.size := by
  apply Nat.lt_of_not_le
  intro hle
  rw [get_of_size_le hle] at h
  cases h

theorem get_set (a : Assignment) (id i : ComponentId) (v : Bool) :
    (a.set id v).get i = if id = i ∧ i < a.values.size then v else a.get i :=
  getD_setIfInBounds a.values id i v false

theorem get_set_self (h : id < a.values.size) : (a.set id v).get id = v := by
  rw [get_set, if_pos ⟨rfl, h⟩]

theorem get_set_of_ne (h : id ≠ i) : (a.set id v).get i = a.get i := by
  rw [get_set, if_neg fun hand => h hand.1]

/-- Two assignments of one size are equal if their components are. -/
theorem ext_get (hsize : a.values.size = b.values.size)
    (h : ∀ i < a.values.size, a.get i = b.get i) : a = b := by
  obtain ⟨xs⟩ := a
  obtain ⟨ys⟩ := b
  congr 1
  apply Array.ext hsize
  intro i hi hi'
  have hget := h i hi
  simpa [get, hi, hi'] using hget

/-- Makes all the listed components true. -/
def setAll (a : Assignment) (ids : List ComponentId) : Assignment :=
  ids.foldl (fun a id => a.set id true) a

@[simp] theorem setAll_nil : a.setAll [] = a := rfl

@[simp] theorem setAll_cons (ids : List ComponentId) :
    a.setAll (id :: ids) = (a.set id true).setAll ids := rfl

theorem setAll_append (a : Assignment) (xs ys : List ComponentId) :
    a.setAll (xs ++ ys) = (a.setAll xs).setAll ys := List.foldl_append

@[simp] theorem size_setAll (a : Assignment) (ids : List ComponentId) :
    (a.setAll ids).values.size = a.values.size := by
  induction ids generalizing a with
  | nil => rfl
  | cons id ids ih => rw [setAll_cons, ih, size_set]

theorem get_setAll (a : Assignment) (ids : List ComponentId) (i : ComponentId) :
    (a.setAll ids).get i = true ↔ a.get i = true ∨ i ∈ ids ∧ i < a.values.size := by
  induction ids generalizing a with
  | nil => simp
  | cons id ids ih =>
      rw [setAll_cons, ih, size_set, List.mem_cons, get_set]
      by_cases hi : id = i ∧ i < a.values.size
      · rw [if_pos hi]
        simp [hi.1, hi.2]
      · rw [if_neg hi]
        constructor
        · rintro (h | ⟨h, hlt⟩)
          · exact .inl h
          · exact .inr ⟨.inr h, hlt⟩
        · rintro (h | ⟨rfl | h, hlt⟩)
          · exact .inl h
          · exact absurd ⟨rfl, hlt⟩ hi
          · exact .inr ⟨h, hlt⟩

end Assignment

namespace Net

variable {net : Net}

/-- A component that is set from outside. -/
def IsIndependent (net : Net) (id : ComponentId) : Prop := id ∈ net.independentIds

/-- The marks of independent components, read as values. -/
def independent (net : Net) : Assignment := ⟨net.independentMask⟩

theorem mark_eq (net : Net) (ids : List ComponentId) :
    Assignment.mk (net.mark ids) = net.noValues.setAll ids :=
  (List.foldl_hom Assignment.mk fun _ _ => rfl).symm

theorem size_mark (net : Net) (ids : List ComponentId) : (net.mark ids).size = net.size := by
  have h := congrArg (fun a => a.values.size) (net.mark_eq ids)
  simpa [noValues] using h

theorem get_mark (net : Net) (ids : List ComponentId) (id : ComponentId) :
    (Assignment.mk (net.mark ids)).get id = true ↔ id ∈ ids ∧ id < net.size := by
  rw [mark_eq, Assignment.get_setAll]
  simp [noValues]

theorem size_independent (net : Net) : net.independent.values.size = net.size := net.size_mark _

theorem get_independent {id : ComponentId} (h : id < net.size) :
    net.independent.get id = true ↔ net.IsIndependent id := by
  rw [independent, independentMask, get_mark, and_iff_left h, IsIndependent]

theorem markState_eq (net : Net) (s : State) (a : Assignment) :
    net.markState s a = a.setAll (s.facts.filterMap fun f => net.bases[f]?) := by
  rw [markState, Assignment.setAll, List.foldl_filterMap]
  congr 1
  funext a f
  cases net.bases[f]? <;> rfl

theorem markMoves_eq {entries : List (RoleId × Move)} {a v : Assignment}
    (h : entries.foldlM net.markMove a = .ok v) :
    v = a.setAll (entries.filterMap fun e => net.input? e.1 e.2) := by
  induction entries generalizing a with
  | nil =>
      cases h
      rfl
  | cons e entries ih =>
      rw [List.foldlM_cons, markMove] at h
      cases hid : net.input? e.1 e.2 with
      | some id =>
          rw [hid] at h
          simp only [List.filterMap_cons, hid]
          exact ih h
      | none =>
          rw [hid] at h
          simp only [List.filterMap_cons, hid]
          by_cases hnoop : e.2.isNoop
          · rw [if_pos hnoop] at h
            exact ih h
          · rw [if_neg hnoop] at h
            cases h

theorem size_of_markJointMove {j : JointMove} {a v : Assignment}
    (h : net.markJointMove j a = .ok v) : j.size = net.roleCount := by
  rw [markJointMove] at h
  split at h
  · assumption
  · cases h

theorem markJointMove_eq {j : JointMove} {a v : Assignment} (h : net.markJointMove j a = .ok v) :
    v = a.setAll (j.entries.filterMap fun e => net.input? e.1 e.2) := by
  rw [markJointMove, if_pos (size_of_markJointMove h)] at h
  exact markMoves_eq h

end Net

/-- The entries of a joint move of no more roles than there can be are its roles with their
moves. -/
theorem JointMove.mem_entries {j : JointMove} (h : j.size ≤ 256) {r : RoleId} {m : Move} :
    (r, m) ∈ j.entries ↔ j.get? r = some m := by
  rw [entries, List.mem_mapIdx, get?]
  constructor
  · rintro ⟨i, hi, he⟩
    cases he
    rw [RoleId.index_ofIndex (Nat.lt_of_lt_of_le hi h)]
    exact List.getElem?_eq_getElem hi
  · intro hm
    obtain ⟨hlt, rfl⟩ := List.getElem?_eq_some_iff.mp hm
    exact ⟨r.index, hlt, by rw [RoleId.ofIndex_index]⟩

end GeneralGame
