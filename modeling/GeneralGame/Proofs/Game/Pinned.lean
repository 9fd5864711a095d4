import GeneralGame.Proofs.Game.Legal
import Mathlib.Data.List.Nodup

/-!
Joint moves with the move of one role given. They are those of all joint moves in which the role
makes that move, in the same order, whichever place the role has among the others. The reason is one
about products: to put a single entry in the place of a list gives the choices that have this entry
there.
-/
namespace GeneralGame

variable {α β : Type}

/-- If only one entry of a list without repetitions contributes, that is all there is. -/
theorem flatMap_eq_of_nodup {f : α → List β} {as : List α} {a : α} (hnodup : as.Nodup)
    (ha : a ∈ as) (hother : ∀ x ∈ as, x ≠ a → f x = []) : as.flatMap f = f a := by
  induction as with
  | nil => cases ha
  | cons x as ih =>
      obtain ⟨hx, hnodup⟩ := List.nodup_cons.mp hnodup
      obtain ⟨hfirst, hrest⟩ := List.forall_mem_cons.mp hother
      rw [List.flatMap_cons]
      rcases List.mem_cons.mp ha with heq | ha
      · have hnil : as.flatMap f = [] :=
          List.flatMap_eq_nil_iff.mpr fun y hy => hrest y hy fun h => hx (heq ▸ h ▸ hy)
        rw [hnil, List.append_nil, heq]
      · have hne : x ≠ a := fun h => hx (h ▸ ha)
        rw [hfirst hne, List.nil_append, ih hnodup ha hrest]

namespace Game

/-- A single entry in the place of a list gives the choices that have it there. The induction is on
the lists up to that place. -/
theorem product_set [DecidableEq α] {lists : List (List α)} {i : Nat} {as : List α} {a : α}
    (hi : lists[i]? = some as) (hnodup : as.Nodup) (ha : a ∈ as) :
    product (lists.set i [a]) = (product lists).filter fun xs => xs[i]? = some a := by
  induction lists generalizing i with
  | nil => cases hi
  | cons first rest ih =>
      rw [product, List.filter_flatMap]
      cases i with
      | zero =>
          cases hi
          rw [List.set_cons_zero, product, List.flatMap_singleton, flatMap_eq_of_nodup hnodup ha]
          · simp [List.filter_map, Function.comp_def]
          · intro x _ hne
            simp [List.filter_map, Function.comp_def, hne]
      | succ i =>
          rw [List.set_cons_succ, product, ih hi]
          simp [List.filter_map, Function.comp_def]

variable {g : Game} {s : State} {r role : RoleId} {m : Move} {joints : List JointMove}

theorem filter_map_mk (lists : List (List Move)) (role : RoleId) (m : Move) :
    ((product lists).map JointMove.mk).filter (fun j => j.get? role = some m) =
      ((product lists).filter fun ms => ms[role.index]? = some m).map .mk := by
  rw [List.filter_map]
  rfl

/-- To ask all roles but one, whose entry is given, changes the entry in its place. -/
theorem mapM_pinned {ε : Type} {f : RoleId → Except ε (List α)} {count : Nat}
    {lists : List (List α)} (h : (RoleId.all count).mapM f = .ok lists) (role : RoleId)
    (as : List α) :
    (RoleId.all count).mapM (fun r => if r = role then .ok as else f r) =
      .ok (lists.set role.index as) := by
  obtain ⟨hlength, hget⟩ := RoleId.forall₂_all_iff.mp (mapM_eq_ok_iff.mp h)
  refine mapM_eq_ok_iff.mpr (RoleId.forall₂_all_iff.mpr ⟨?_, fun i xs hxs => ?_⟩)
  · rw [List.length_set, hlength]
  · have hi : i < 256 := by
      have := (List.getElem?_eq_some_iff.mp hxs).1
      rw [List.length_set] at this
      omega
    rw [List.getElem?_set] at hxs
    by_cases heq : role.index = i
    · rw [if_pos heq] at hxs
      rw [← heq, role.ofIndex_index, if_pos rfl]
      split at hxs
      · exact congrArg Except.ok (Option.some.inj hxs)
      · cases hxs
    · rw [if_neg heq] at hxs
      have hne : RoleId.ofIndex i ≠ role := by
        rintro rfl
        exact heq (RoleId.index_ofIndex hi)
      rw [if_neg hne]
      exact hget i xs hxs

/-- A legal joint move has one of the role's legal moves for the role, and only that. -/
theorem IsLegal.existsUnique_get? {j : JointMove} (hj : g.IsLegal s j)
    (hrole : role ∈ RoleId.all g.roleCount) {ms : List Move} (hms : g.legal s role = .ok ms) :
    ∃! m, m ∈ ms ∧ j.get? role = some m := by
  obtain ⟨hlength, hget⟩ := RoleId.forall₂_all_iff.mp hj
  have hlt : role.index < j.moves.length := hlength ▸ RoleId.mem_all.mp hrole
  have hentry : j.moves[role.index]? = some j.moves[role.index] := List.getElem?_eq_getElem hlt
  obtain ⟨legal, hlegal, hmem⟩ := hget role.index _ hentry
  rw [role.ofIndex_index, hms] at hlegal
  cases hlegal
  refine ⟨_, ⟨hmem, hentry⟩, fun x hx => ?_⟩
  exact Option.some.inj (hx.2.symm.trans hentry)

/-- With one list cut down to a single entry of it there are no more joint moves than before. -/
theorem fits_set {lists : List (List Move)} {i : Nat} {ms : List Move} (hi : lists[i]? = some ms)
    (hnodup : ms.Nodup) (hm : m ∈ ms) (h : Fits lists) : Fits (lists.set i [m]) := by
  refine Nat.lt_of_le_of_lt (Nat.mul_le_mul_right _ ?_) h
  rw [← length_product, ← length_product, product_set hi hnodup hm]
  exact List.length_filter_le _ _

theorem getElem?_of_mapM_options {lists : List (List Move)}
    (hlists : (RoleId.all g.roleCount).mapM (g.options s) = .ok lists)
    (hrole : role ∈ RoleId.all g.roleCount) {ms : List Move} (hms : g.legal s role = .ok ms)
    (hm : m ∈ ms) : lists[role.index]? = some ms := by
  obtain ⟨hlength, hget⟩ := RoleId.forall₂_all_iff.mp (mapM_eq_ok_iff.mp hlists)
  have hlt : role.index < lists.length := hlength ▸ RoleId.mem_all.mp hrole
  have hentry : lists[role.index]? = some lists[role.index] := List.getElem?_eq_getElem hlt
  have hoptions : g.options s role = .ok ms := options_eq_ok.mpr ⟨hms, List.ne_nil_of_mem hm⟩
  have hfound := hget role.index _ hentry
  rw [role.ofIndex_index, hoptions] at hfound
  rw [hentry]
  exact congrArg some (Except.ok.inj hfound).symm

/-- The joint moves with a role's move given are those of all joint moves in which the role makes
it. -/
theorem jointMovesWith_eq_filter (hrole : role ∈ RoleId.all g.roleCount)
    (hjoints : g.jointMoves s = .ok joints) {ms : List Move} (hms : g.legal s role = .ok ms)
    (hnodup : ms.Nodup) (hm : m ∈ ms) :
    g.jointMovesWith s role m = .ok (joints.filter fun j => j.get? role = some m) := by
  obtain ⟨lists, hlists, hfits, rfl⟩ := (jointMovesOf_eq_ok fun _ _ => ne_nil_of_options).mp hjoints
  have hplace := getElem?_of_mapM_options hlists hrole hms hm
  rw [filter_map_mk, ← product_set hplace hnodup hm]
  exact (jointMovesOf_eq_ok fun _ _ => ne_nil_of_pinned).mpr
    ⟨_, mapM_pinned hlists role [m], fits_set hplace hnodup hm hfits, rfl⟩

end Game

end GeneralGame
