import GeneralGame.Proofs.Search.Punctual
import GeneralGame.Search.Brief

/-!
Random playouts keep to the deadline. A playout looks at the clock in every state where the game is
not over, so it makes one step between two polls, and at most one after the last.
-/
namespace GeneralGame

open Search

variable {α β : Type} {g : Game} {fits : List Transition → Prop} {since : List Transition}

namespace Search

theorem ofPlay_bind (p : Play α) (f : α → Play β) :
    ofPlay (p >>= f) = ofPlay p >>= fun a => ofPlay (f a) := by
  induction p with
  | pure a => rfl
  | cut => rfl
  | fault e => rfl
  | ask q next ih =>
      change ofPlay (.ask q fun a => next a >>= f) = _
      simp only [ofPlay, ih]
      rfl

theorem ofPlay_mapM (xs : List β) (f : β → Play α) :
    ofPlay (xs.mapM f) = xs.mapM fun x => ofPlay (f x) := by
  induction xs with
  | nil =>
      rw [List.mapM_nil, List.mapM_nil]
      rfl
  | cons x xs ih =>
      rw [List.mapM_cons, List.mapM_cons, ofPlay_bind]
      congr
      funext a
      rw [ofPlay_bind, ih]
      rfl

end Search

namespace Game

theorem unpolled_draw (width : Rng.Width) (n : Nat) (pos : 0 < n) :
    g.Unpolled fits (ofPlay (Play.draw width n pos)) since fun _ ts => ts = since :=
  punctual_of_unpolled (unpolled_request (q := .play (.draw width n pos)) rfl rfl) fun _ _ h => h.2

theorem unpolled_query {q : Query} (h : (SearchRequest.play (.query q)).transition? = none) :
    g.Unpolled fits (query q) since fun a ts => g.answer q = .ok a ∧ ts = since :=
  unpolled_request rfl h

theorem unpolled_goal (b : Brief) (s : State) :
    g.Unpolled fits (b.goal s) since fun _ ts => ts = since :=
  punctual_of_unpolled (unpolled_query rfl) fun _ _ h => h.2

theorem unpolled_randomMove (s : State) (r : RoleId) :
    g.Unpolled fits (ofPlay (Play.randomMove s r)) since fun _ ts => ts = since := by
  rw [Play.randomMove, ofPlay_bind]
  apply unpolled_bind (unpolled_query rfl)
  rintro ms _ ⟨-, rfl⟩
  rw [ofPlay_bind]
  apply unpolled_bind (unpolled_draw _ _ _)
  rintro i _ rfl
  rfl

theorem unpolled_randomJointMove (roleCount : Nat) (s : State) :
    g.Unpolled fits (ofPlay (Play.randomJointMove roleCount s)) since fun _ ts => ts = since := by
  rw [Play.randomJointMove, ofPlay_bind, ofPlay_mapM]
  apply unpolled_bind (unpolled_mapM (I := fun _ ts => ts = since) _ rfl)
  · rintro ms _ rfl
    rfl
  · rintro r _ _ rfl
    exact unpolled_randomMove s r

theorem unpolled_randomJointMoveWith (roleCount : Nat) (s : State) (role : RoleId) (m : Move) :
    g.Unpolled fits (ofPlay (Play.randomJointMoveWith roleCount s role m)) since
      fun _ ts => ts = since := by
  rw [Play.randomJointMoveWith, ofPlay_bind, ofPlay_mapM]
  apply unpolled_bind (unpolled_mapM (I := fun _ ts => ts = since) _ rfl)
  · rintro ms _ rfl
    rfl
  · rintro r _ _ rfl
    split
    · rfl
    · exact unpolled_randomMove s r

theorem unpolled_randomNext (roleCount : Nat) (s : State) (h : ∀ j, fits (since ++ [(s, j)])) :
    g.Unpolled fits (ofPlay (Play.randomNext roleCount s)) since
      fun _ ts => ∃ j, ts = since ++ [(s, j)] := by
  rw [Play.randomNext, ofPlay_bind]
  apply unpolled_bind (unpolled_randomJointMove roleCount s)
  rintro j _ rfl
  refine ⟨?_, nofun, fun t _ => ⟨j, rfl⟩⟩
  rintro _ ⟨⟩
  exact h j

/-- From a state where the game is over, nothing is computed. -/
theorem punctual_rollout (hone : ∀ ts, AtMost 1 ts → fits ts) (roleCount : Nat)
    (r : RoleId) (fuel depth : Nat) (s : State) :
    g.Punctual fits (· = .cut) (ofPlay (Play.rollout roleCount r fuel depth s)) since
      fun _ ts => AtMost 1 ts ∨ ts = since := by
  induction fuel generalizing depth s since with
  | zero => trivial
  | succ fuel ih =>
      rw [Play.rollout, ofPlay_bind]
      apply unpolled_bind (unpolled_query rfl)
      rintro terminal _ ⟨-, rfl⟩
      cases terminal with
      | true =>
          rw [if_pos rfl, ofPlay_bind]
          apply unpolled_bind (unpolled_query rfl)
          rintro goal _ ⟨-, rfl⟩
          exact .inr rfl
      | false =>
          rw [if_neg Bool.false_ne_true, ofPlay_bind]
          refine ⟨nofun, ?_, ?_⟩
          · rintro _ ⟨⟩
            rfl
          · rintro _ ⟨⟩
            have hstep (j : JointMove) : fits ([] ++ [(s, j)]) := hone [(s, j)] (Nat.le_refl 1)
            change g.Punctual fits (· = .cut) (ofPlay (Play.randomNext roleCount s >>= _)) [] _
            rw [ofPlay_bind]
            apply unpolled_bind (unpolled_randomNext roleCount s hstep)
            rintro t _ ⟨j, rfl⟩
            apply punctual_imp (ih (depth + 1) t) (fun _ h => h)
            rintro _ ts (hshort | rfl)
            · exact .inl hshort
            · exact .inl (Nat.le_refl 1)

/-- A random playout that is cut off stops the search. -/
theorem part_depthCharge (hone : ∀ ts, AtMost 1 ts → fits ts) {b : Brief}
    (hplayout : b.playout = .random) (fuel : Nat) (s : State) :
    g.PunctualPart fits (b.depthCharge fuel s) since
      fun _ ts => AtMost 1 ts ∨ ts = since := by
  rw [Brief.depthCharge, hplayout]
  apply unpolled_bind (unpolled_request rfl rfl)
  rintro turn _ ⟨-, rfl⟩
  apply punctual_bind (punctual_attempt (punctual_rollout hone b.roleCount b.role fuel 0 s))
  · rintro _ ⟨_, rfl, rfl⟩
    rfl
  · rintro _ ts ⟨ended, rfl, hts⟩
    apply unpolled_bind (unpolled_request rfl rfl)
    rintro _ _ ⟨-, rfl⟩
    apply unpolled_bind (unpolled_request rfl rfl)
    rintro _ _ ⟨-, rfl⟩
    exact hts

/-- Playouts one after the other, each of which looks at the clock before its first step. -/
theorem part_charges (hone : ∀ ts, AtMost 1 ts → fits ts) {b : Brief}
    (hplayout : b.playout = .random) {s : State} {fuel : Nat} {total : Nat → α → Search α}
    (hzero : ∀ sum, total 0 sum = pure sum) (add : α → Nat → Search α)
    (hadd : ∀ sum goal since, g.PunctualPart fits (add sum goal) since fun _ ts => ts = since)
    (hsucc : ∀ n sum, total (n + 1) sum =
      b.depthCharge fuel s >>= fun goal => add sum goal >>= total n) (n : Nat) (sum : α) :
    g.PunctualPart fits (total n sum) since fun _ ts => AtMost 1 ts ∨ ts = since := by
  induction n generalizing sum since with
  | zero =>
      rw [hzero]
      exact .inr rfl
  | succ n ih =>
      rw [hsucc]
      apply part_bind (part_depthCharge hone hplayout fuel s)
      intro goal ts hts
      apply part_bind (hadd sum goal ts)
      rintro sum _ rfl
      apply punctual_imp (ih _) (fun _ h => h)
      rintro _ us (hshort | rfl)
      · exact .inl hshort
      · exact hts

end Game

end GeneralGame
