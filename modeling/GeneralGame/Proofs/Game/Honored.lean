import GeneralGame.Proofs.Game.Enumeration

/-!
Games that honor what the roles know: each role knows its legal moves and how to wait, and no joint
move of known entries is refused. Joint moves come about by waiting while one role moves, by one role
answering to such a joint move, by putting a move together with all legal moves of the others, or by
listing the moves of all. In each of them every role has an entry that it knows.
-/
namespace GeneralGame

variable {g : Game} {s : State} {role : RoleId} {knows : RoleId → Move → Prop}
  {declines : GameError → Prop} {j : JointMove} {m : Move}

/-- Every role of the game has an entry that it knows. -/
def Game.Known (g : Game) (knows : RoleId → Move → Prop) (j : JointMove) : Prop :=
  List.Forall₂ knows (RoleId.all g.roleCount) j.moves

/-- The roles know their legal moves and how to wait, and known joint moves can be made. What else
can go wrong for the role is among the errors that the game declines with. -/
structure Game.Honors (g : Game) (role : RoleId) (knows : RoleId → Move → Prop)
    (declines : GameError → Prop) : Prop where
  role_mem : role ∈ RoleId.all g.roleCount
  legal : ∀ {s r m}, g.CanPlay s r m → knows r m
  noop : ∀ r, knows r .noop
  next : ∀ s {j}, g.Known knows j → ∃ t, g.next s j = .ok t
  unlisted : ∀ {s r e}, r ∈ RoleId.all g.roleCount → g.legal s r = .error e → declines e
  noMoves : ∀ {s r}, r ∈ RoleId.all g.roleCount → g.legal s r = .ok [] →
    declines (.noLegalMoves r)
  goal : ∀ {s e}, g.goal s role = .error e → declines e

namespace Game.Honors

variable (honors : g.Honors role knows declines)

include honors

/-! ### Joint moves -/

theorem known_of_jointMoves {joints : List JointMove} (h : g.jointMoves s = .ok joints)
    (hj : j ∈ joints) : g.Known knows j :=
  ((mem_jointMoves h).mp hj).imp fun _ _ => honors.legal

theorem known_of_pinned (hm : knows role m)
    (h : List.Forall₂ (fun r x => if r = role then x = m else g.CanPlay s r x)
      (RoleId.all g.roleCount) j.moves) : g.Known knows j := by
  refine h.imp fun r x hx => ?_
  split at hx
  · rename_i heq
    rw [heq, hx]
    exact hm
  · exact honors.legal hx

theorem known_of_jointMovesWith {joints : List JointMove} (hm : knows role m)
    (h : g.jointMovesWith s role m = .ok joints) (hj : j ∈ joints) : g.Known knows j := by
  obtain ⟨lists, hlists, -, rfl⟩ := (jointMovesOf_eq_ok fun _ _ => ne_nil_of_pinned).mp h
  have hentries := (mem_product_of_mapM hlists).mp (mem_map_mk.mp hj)
  exact honors.known_of_pinned hm (hentries.imp fun _ _ => exists_pinned_iff.mp)

theorem known_placeholder (hm : knows role m) :
    g.Known knows (.placeholder g.roleCount role m) := by
  refine RoleId.forall₂_all_iff.mpr ⟨?_, fun i x hx => ?_⟩
  · rw [JointMove.placeholder, List.length_map, RoleId.length_all]
  · obtain ⟨-, rfl⟩ := placeholder_getElem? hx
    split
    · rename_i heq
      rw [heq]
      exact hm
    · exact honors.noop _

omit honors in
theorem known_set {r : RoleId} (hj : g.Known knows j) (hm : knows r m) :
    g.Known knows (j.set r m) := by
  obtain ⟨hlength, hget⟩ := RoleId.forall₂_all_iff.mp hj
  refine RoleId.forall₂_all_iff.mpr ⟨?_, fun i x hx => ?_⟩
  · rw [JointMove.set, List.length_set, hlength]
  · rw [JointMove.set, List.getElem?_set] at hx
    split at hx
    · rename_i heq
      split at hx
      · cases hx
        rw [← heq, RoleId.ofIndex_index]
        exact hm
      · cases hx
    · exact hget i x hx

/-! ### Errors -/

theorem declines_of_moves {r : RoleId} {e : GameError} (hr : r ∈ RoleId.all g.roleCount)
    (h : g.moves s r = .error e) : declines e := by
  rcases moves_eq_error.mp h with hlegal | ⟨hlegal, rfl⟩
  · exact honors.unlisted hr hlegal
  · exact honors.noMoves hr hlegal

theorem declines_of_options {r : RoleId} {e : GameError} (hr : r ∈ RoleId.all g.roleCount)
    (h : g.options s r = .error e) : declines e :=
  honors.declines_of_moves hr (moves_eq_error.mpr (options_eq_error.mp h))

omit honors in
theorem declines_of_jointMovesOf {entry : RoleId → Except GameError (List Move)} {e : GameError}
    (hok : ∀ r ms, entry r = .ok ms → ms ≠ [])
    (herror : ∀ r ∈ RoleId.all g.roleCount, ∀ e, entry r = .error e → declines e)
    (h : g.jointMovesOf entry = .error (.error e)) : declines e := by
  cases hlists : (RoleId.all g.roleCount).mapM entry with
  | ok lists =>
      rw [jointMovesOf_eq hok hlists] at h
      split at h <;> cases h
  | error e' =>
      rw [jointMovesOf_eq_error hlists] at h
      cases h
      obtain ⟨before, r, after, hroles, -, hr⟩ := exists_of_mapM_eq_error hlists
      exact herror r (by rw [hroles]; simp) e hr

theorem declines_of_jointMoves {e : GameError} (h : g.jointMoves s = .error (.error e)) :
    declines e :=
  declines_of_jointMovesOf (fun _ _ => ne_nil_of_options)
    (fun _ hr _ => honors.declines_of_options hr) h

theorem declines_of_jointMovesWith {e : GameError}
    (h : g.jointMovesWith s role m = .error (.error e)) : declines e := by
  refine declines_of_jointMovesOf (fun _ _ => ne_nil_of_pinned) (fun r hr e he => ?_) h
  rw [pinned] at he
  split at he
  · cases he
  · exact honors.declines_of_options hr he

end Game.Honors

end GeneralGame
