import GeneralGame.Circuit.Net
import Mathlib.Data.List.Induction
import Mathlib.Data.List.Nodup

/-!
The tables of a net: one entry for each role, and one component for each move.
-/
namespace GeneralGame

theorem filterMap_concat {α β : Type} (f : α → Option β) (as : List α) (a : α) :
    (as ++ [a]).filterMap f = as.filterMap f ++ (f a).toList := by
  rw [List.filterMap_append]
  cases h : f a <;> simp [h]

theorem RoleId.mem_all {r : RoleId} {count : Nat} : r ∈ RoleId.all count ↔ r.index < count % 256 := by
  rw [RoleId.all, List.mem_map]
  constructor
  · rintro ⟨i, hi, rfl⟩
    rw [List.mem_range] at hi
    rwa [RoleId.index_ofIndex (by omega)]
  · intro h
    exact ⟨r.index, List.mem_range.mpr h, r.ofIndex_index⟩

theorem RoleId.getElem?_all {count : Nat} (hcount : count ≤ maxRoles) (r : RoleId) :
    (RoleId.all count)[r.index]? = if r.index < count then some r else none := by
  unfold maxRoles at hcount
  have hmod : count % 256 = count := Nat.mod_eq_of_lt (by omega)
  rw [RoleId.all, hmod, List.getElem?_map]
  split
  · rename_i hlt
    rw [List.getElem?_range hlt, Option.map_some, r.ofIndex_index]
  · rename_i hge
    rw [List.getElem?_eq_none (by rw [List.length_range]; omega), Option.map_none]

theorem RoleTable.get?_ofRoles {α : Type} {count : Nat} (hcount : count ≤ maxRoles)
    (entry : RoleId → α) (r : RoleId) :
    (RoleTable.ofRoles count entry).get? r = if r.index < count then some (entry r) else none := by
  rw [get?, ofRoles, List.getElem?_toArray, List.getElem?_map, RoleId.getElem?_all hcount]
  split <;> rfl

theorem RoleTable.size_ofRoles {α : Type} {count : Nat} (hcount : count ≤ maxRoles)
    (entry : RoleId → α) : (RoleTable.ofRoles count entry).size = count := by
  unfold maxRoles at hcount
  have hmod : count % 256 = count := Nat.mod_eq_of_lt (by omega)
  simp [size, ofRoles, RoleId.length_all, hmod]

namespace MoveTable

theorem insertEntry_of_not_mem {m : Move} {id : ComponentId} {es : List (Move × ComponentId)}
    (h : m ∉ es.map Prod.fst) : insertEntry m id es = es ++ [(m, id)] := by
  induction es with
  | nil => rfl
  | cons e es ih =>
      rw [List.map_cons, List.mem_cons, not_or] at h
      rw [insertEntry, if_neg (Ne.symm h.1), ih h.2, List.cons_append]

theorem entries_foldl_insert {es : List (Move × ComponentId)} {t : MoveTable}
    (h : ((t.entries ++ es).map Prod.fst).Nodup) :
    (es.foldl (fun t e => t.insert e.1 e.2) t).entries = t.entries ++ es := by
  induction es generalizing t with
  | nil => exact (List.append_nil _).symm
  | cons e es ih =>
      have hnew : e.1 ∉ t.entries.map Prod.fst := by
        rw [List.map_append, List.nodup_append] at h
        exact fun hmem => h.2.2 _ hmem _ List.mem_cons_self rfl
      have hentries : (t.insert e.1 e.2).entries = t.entries ++ [e] := insertEntry_of_not_mem hnew
      rw [List.foldl_cons, ih, hentries, List.append_assoc]
      · rfl
      · rw [hentries, List.append_assoc]
        exact h

/-- A list with one entry for each move is the table's list of entries. -/
theorem entries_ofList {es : List (Move × ComponentId)} (h : (es.map Prod.fst).Nodup) :
    (ofList es).entries = es :=
  entries_foldl_insert h

theorem mem_insertEntry {m : Move} {id : ComponentId} {es : List (Move × ComponentId)}
    {x : Move × ComponentId} (hx : x ∈ insertEntry m id es) : x = (m, id) ∨ x ∈ es := by
  induction es with
  | nil => exact .inl (List.mem_singleton.mp hx)
  | cons e es ih =>
      rw [insertEntry] at hx
      split at hx
      · exact (List.mem_cons.mp hx).imp_right (List.mem_cons_of_mem e)
      · rcases List.mem_cons.mp hx with rfl | hx
        · exact .inr List.mem_cons_self
        · exact (ih hx).imp_right (List.mem_cons_of_mem e)

theorem length_insertEntry_le (m : Move) (id : ComponentId) (es : List (Move × ComponentId)) :
    (insertEntry m id es).length ≤ es.length + 1 := by
  induction es with
  | nil => exact Nat.le_refl 1
  | cons e es ih =>
      rw [insertEntry]
      split
      · exact Nat.le_succ _
      · exact Nat.succ_le_succ ih

/-- A table has no entries but those that it was made of. -/
theorem entries_foldl_insert_sub (es : List (Move × ComponentId)) (t : MoveTable) :
    (∀ e ∈ (es.foldl (fun t e => t.insert e.1 e.2) t).entries, e ∈ t.entries ∨ e ∈ es) ∧
      (es.foldl (fun t e => t.insert e.1 e.2) t).entries.length ≤ t.entries.length + es.length := by
  induction es generalizing t with
  | nil => exact ⟨fun e he => .inl he, Nat.le_refl _⟩
  | cons e es ih =>
      obtain ⟨hmem, hlength⟩ := ih (t.insert e.1 e.2)
      have hstep : (t.insert e.1 e.2).entries.length ≤ t.entries.length + 1 :=
        length_insertEntry_le e.1 e.2 t.entries
      constructor
      · intro x hx
        rcases hmem x hx with hx | hx
        · rcases mem_insertEntry hx with rfl | hx
          · exact .inr List.mem_cons_self
          · exact .inl hx
        · exact .inr (List.mem_cons_of_mem e hx)
      · rw [List.foldl_cons, List.length_cons]
        omega

theorem mem_entries_ofList {es : List (Move × ComponentId)} {e : Move × ComponentId}
    (h : e ∈ (ofList es).entries) : e ∈ es :=
  ((entries_foldl_insert_sub es empty).1 e h).resolve_left List.not_mem_nil

theorem length_entries_ofList_le (es : List (Move × ComponentId)) :
    (ofList es).entries.length ≤ es.length :=
  Nat.le_trans (entries_foldl_insert_sub es empty).2 (Nat.le_of_eq (Nat.zero_add _))

theorem get?_eq_some_iff {t : MoveTable} {m : Move} {id : ComponentId} :
    t.get? m = some id ↔ (m, id) ∈ t.entries := by
  rw [get?, Option.map_eq_some_iff]
  constructor
  · rintro ⟨⟨m', id'⟩, he, rfl⟩
    have hm := List.find?_some he
    simp only [decide_eq_true_eq] at hm
    subst hm
    exact List.mem_of_find?_eq_some he
  · intro hmem
    cases hfind : t.entries.find? fun e => e.1 = m with
    | none =>
        have hall := List.find?_eq_none.mp hfind (m, id) hmem
        simp at hall
    | some e =>
        refine ⟨e, rfl, ?_⟩
        have hm := List.find?_some hfind
        simp only [decide_eq_true_eq] at hm
        have heq := List.inj_on_of_nodup_map t.nodup (List.mem_of_find?_eq_some hfind) hmem hm
        rw [heq]

/-- Of all entries for a move the last one counts. -/
theorem get?_ofList (es : List (Move × ComponentId)) (m : Move) :
    (ofList es).get? m = (es.filterMap fun e => if e.1 = m then some e.2 else none).getLast? := by
  induction es using List.reverseRecOn with
  | nil => rfl
  | append_singleton es e ih =>
      rw [filterMap_concat, List.getLast?_append, ofList, List.foldl_concat, get?_insert]
      split
      · rfl
      · exact ih

/-- Look-ups do not depend on the order of the entries. -/
theorem get?_of_perm {t u : MoveTable} (h : t.entries.Perm u.entries) (m : Move) :
    t.get? m = u.get? m := by
  apply Option.ext
  intro id
  rw [get?_eq_some_iff, get?_eq_some_iff, h.mem_iff]

theorem mem_ids_of_get? {t : MoveTable} {m : Move} {id : ComponentId}
    (h : t.get? m = some id) : id ∈ t.ids := by
  obtain ⟨e, he, rfl⟩ := Option.map_eq_some_iff.mp h
  exact List.mem_map_of_mem (List.mem_of_find?_eq_some he)

end MoveTable

end GeneralGame
