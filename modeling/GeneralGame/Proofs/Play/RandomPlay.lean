import GeneralGame.Proofs.Game.Enumeration
import GeneralGame.Proofs.Play.Meets
import GeneralGame.Proofs.Play.Places
import GeneralGame.Proofs.Search.Worth

/-!
Random play is legal play. Joint moves are drawn role by role and never listed, and yet what comes of
a draw is one of those that the game lists, or the error that it lists them with. Only where they are
too many to be listed, one is drawn all the same. This holds for all numbers that might be drawn,
hence for every generator. So a game that is played at random to its end goes along legal joint moves.
-/
namespace GeneralGame

variable {α β : Type}

/-- The outcome is one of the entries of the list, or its error where there is no list. -/
def Outcome.OneOf : Except GameError (List α) → Outcome α → Prop
  | .ok as, o => ∃ a ∈ as, o = .done a
  | .error e, o => o = .fault (.error e)

namespace Outcome

variable {listed : Except GameError (List α)} {a : α} {f : Fault}

theorem oneOf_done_iff : OneOf listed (.done a) ↔ ∃ as, listed = .ok as ∧ a ∈ as := by
  cases listed <;> simp [OneOf]

theorem oneOf_fault_iff : OneOf listed (.fault f) ↔ ∃ e, listed = .error e ∧ f = .error e := by
  cases listed <;> simp [OneOf]

theorem isDone_iff {o : Outcome α} : o.isDone = true ↔ ∃ a, o = .done a := by
  cases o <;> simp [isDone]

theorem not_oneOf_cut : ¬ OneOf listed .cut := by
  cases listed <;> simp [OneOf]

end Outcome

/-- The outcome of drawing a joint move from the roles' entries: one of those that are listed, or
the error that they are listed with. If they are too many to be listed, it is one that the list would
have. -/
inductive Game.Drawn (g : Game) (entry : RoleId → Except GameError (List Move)) :
    Outcome JointMove → Prop
  | listed {joints : List JointMove} {j : JointMove} (hjoints : g.jointMovesOf entry = .ok joints)
      (hj : j ∈ joints) : Drawn g entry (.done j)
  | refused {e : GameError} (herror : g.jointMovesOf entry = .error (.error e)) :
      Drawn g entry (.fault (.error e))
  | unlisted {lists : List (List Move)} {j : JointMove}
      (hpanic : g.jointMovesOf entry = .error .panic)
      (hlists : (RoleId.all g.roleCount).mapM entry = .ok lists) (hroom : ¬Game.Fits lists)
      (hj : List.Forall₂ (fun ms m => m ∈ ms) lists j.moves) : Drawn g entry (.done j)

/-- The game, started in a state. -/
def Game.startedIn (g : Game) (s : State) : Game := { g with initial := s }

namespace Play

open Program Outcome

variable {g : Game} {s t : State} {allowed : PlayRequest → Prop} {depth : Nat}

/-! ### Joint moves -/

/-- To draw from a list and to go on with what is drawn. -/
theorem meets_oneOf_bind {p : Play α} {f : α → Play β} {listed : Except GameError (List α)}
    {rest : List α → Except GameError (List β)}
    (hp : p.Meets (PlayRequest.Told g) allowed (OneOf listed))
    (hf : ∀ as, ∀ a ∈ as, (f a).Meets (PlayRequest.Told g) allowed (OneOf (rest as))) :
    (p >>= f).Meets (PlayRequest.Told g) allowed (OneOf (listed >>= rest)) := by
  refine meets_bind hp (absurd · not_oneOf_cut) (fun f hfault => ?_) fun a ha => ?_
  · obtain ⟨e, rfl, rfl⟩ := oneOf_fault_iff.mp hfault
    rfl
  · obtain ⟨as, rfl, hmem⟩ := oneOf_done_iff.mp ha
    exact hf as a hmem

/-- To draw from one list after the other is to draw from their product. -/
theorem meets_mapM {xs : List β} {f : β → Play α} {listed : β → Except GameError (List α)}
    (hf : ∀ x, (f x).Meets (PlayRequest.Told g) allowed (OneOf (listed x))) :
    (xs.mapM f).Meets (PlayRequest.Told g) allowed
      (OneOf ((xs.mapM listed).map Game.product)) := by
  induction xs with
  | nil => exact oneOf_done_iff.mpr ⟨[[]], rfl, List.mem_singleton_self []⟩
  | cons x xs ih =>
      have hproduct : ((x :: xs).mapM listed).map Game.product = (do
          let as ← listed x
          let tails ← (xs.mapM listed).map Game.product
          return as.flatMap fun a => tails.map (a :: ·)) := by
        rw [List.mapM_cons]
        cases listed x with
        | error e => rfl
        | ok as => cases xs.mapM listed <;> rfl
      rw [hproduct, List.mapM_cons]
      refine meets_oneOf_bind (hf x) fun as a ha => meets_oneOf_bind ih fun tails tail htail => ?_
      exact ⟨a :: tail, List.mem_flatMap.mpr ⟨a, ha, List.mem_map_of_mem htail⟩, rfl⟩

theorem meets_randomMove (hmoves : ∀ r, allowed (.query (.moves s r)))
    (hdraw : ∀ width n pos, allowed (.draw width n pos)) (r : RoleId) :
    (randomMove s r).Meets (PlayRequest.Told g) allowed (OneOf (g.options s r)) := by
  apply meets_query_bind (hmoves r)
  · intro f hf
    obtain ⟨e, he, rfl⟩ := mapError_eq_error.mp hf
    rw [Game.options, he]
    rfl
  intro ms hms
  rw [Game.options_of_moves (Game.answer_moves.mp hms)]
  refine meets_draw_bind (hdraw _ _ _) fun i => ?_
  exact ⟨ms.val.get i, List.get_mem ms.val i, rfl⟩

/-- To draw an entry for each role is to draw a joint move, whether or not all could be listed. -/
theorem meets_joint {p : Play (List Move)} {entry : RoleId → Except GameError (List Move)}
    (hentry : ∀ r ms, entry r = .ok ms → ms ≠ [])
    (hp : p.Meets (PlayRequest.Told g) allowed
      (OneOf (((RoleId.all g.roleCount).mapM entry).map Game.product))) :
    (return ⟨← p⟩ : Play JointMove).Meets (PlayRequest.Told g) allowed (g.Drawn entry) := by
  refine meets_bind hp (absurd · not_oneOf_cut) (fun f hfault => ?_) fun ms hms => ?_
  · obtain ⟨e, herror, rfl⟩ := oneOf_fault_iff.mp hfault
    cases hlists : (RoleId.all g.roleCount).mapM entry with
    | ok lists =>
        rw [hlists] at herror
        cases herror
    | error e' =>
        rw [hlists] at herror
        cases herror
        exact .refused (Game.jointMovesOf_eq_error hlists)
  · obtain ⟨products, hproducts, hmem⟩ := oneOf_done_iff.mp hms
    cases hlists : (RoleId.all g.roleCount).mapM entry with
    | error e =>
        rw [hlists] at hproducts
        cases hproducts
    | ok lists =>
        rw [hlists] at hproducts
        cases hproducts
        have hjoints := Game.jointMovesOf_eq hentry hlists
        by_cases hfits : Game.Fits lists
        · rw [if_pos hfits] at hjoints
          exact .listed hjoints (List.mem_map_of_mem hmem)
        · rw [if_neg hfits] at hjoints
          exact .unlisted hjoints hlists hfits (Game.mem_product.mp hmem)

theorem meets_randomJointMove (hmoves : ∀ r, allowed (.query (.moves s r)))
    (hdraw : ∀ width n pos, allowed (.draw width n pos)) :
    (randomJointMove g.roleCount s).Meets (PlayRequest.Told g) allowed (g.Drawn (g.options s)) :=
  meets_joint (fun _ _ => Game.ne_nil_of_options) (meets_mapM (meets_randomMove hmoves hdraw))

theorem meets_randomJointMoveWith (hmoves : ∀ r, allowed (.query (.moves s r)))
    (hdraw : ∀ width n pos, allowed (.draw width n pos)) (role : RoleId) (m : Move) :
    (randomJointMoveWith g.roleCount s role m).Meets (PlayRequest.Told g) allowed
      (g.Drawn (g.pinned s role m)) := by
  refine meets_joint (fun _ _ => Game.ne_nil_of_pinned) (meets_mapM fun r => ?_)
  rw [Game.pinned]
  split
  · exact ⟨m, List.mem_singleton_self m, rfl⟩
  · exact meets_randomMove hmoves hdraw r

/-- A joint move that is drawn has an entry of each role, also where there is no list of them. -/
theorem entries_of_drawn {entry : RoleId → Except GameError (List Move)}
    (hentry : ∀ r ms, entry r = .ok ms → ms ≠ []) {j : JointMove} (h : g.Drawn entry (.done j)) :
    List.Forall₂ (fun r m => ∃ ms, entry r = .ok ms ∧ m ∈ ms) (RoleId.all g.roleCount) j.moves := by
  cases h with
  | listed hjoints hj =>
      obtain ⟨lists, hlists, -, rfl⟩ := (Game.jointMovesOf_eq_ok hentry).mp hjoints
      exact (Game.mem_product_of_mapM hlists).mp (Game.mem_map_mk.mp hj)
  | unlisted _ hlists _ hj => exact (Game.mem_product_of_mapM hlists).mp (Game.mem_product.mpr hj)

theorem isLegal_of_drawn {j : JointMove} (h : g.Drawn (g.options s) (.done j)) : g.IsLegal s j :=
  (entries_of_drawn (fun _ _ => Game.ne_nil_of_options) h).imp
    fun _ _ => Game.exists_options_iff.mp

theorem pinned_of_drawn {role : RoleId} {m : Move} {j : JointMove}
    (h : g.Drawn (g.pinned s role m) (.done j)) :
    List.Forall₂ (fun r x => if r = role then x = m else g.CanPlay s r x)
      (RoleId.all g.roleCount) j.moves :=
  (entries_of_drawn (fun _ _ => Game.ne_nil_of_pinned) h).imp fun _ _ => Game.exists_pinned_iff.mp

/-! ### Playouts -/

/-- The play looks at states that legal joint moves lead to from `s` while the game goes on, and goes
on from them by legal joint moves. -/
def OnLine (g : Game) (s : State) : PlayRequest → Prop
  | .query (.isTerminal t) | .query (.goal t _) | .query (.moves t _) =>
    ∃ n, (g.startedIn s).Line n t
  | .query (.next t j) => ∃ n, (g.startedIn s).Line n t ∧ g.isTerminal t = false ∧ g.IsLegal t j
  | .query _ => False
  | _ => True

/-- The game fails on such a line: joint moves are not listed, or a legal one cannot be made. -/
inductive FailsOnLine (g : Game) (s : State) : GameError → Prop
  | listing {n : Nat} {t : State} {e : GameError} (hline : (g.startedIn s).Line n t)
      (hgoing : g.isTerminal t = false) (herror : g.jointMoves t = .error (.error e)) :
      FailsOnLine g s e
  | move {n : Nat} {t : State} {j : JointMove} {e : GameError} (hline : (g.startedIn s).Line n t)
      (hgoing : g.isTerminal t = false) (hj : g.IsLegal t j) (herror : g.next t j = .error e) :
      FailsOnLine g s e

theorem meets_randomNext (hline : (g.startedIn s).Line depth t) (hgoing : g.isTerminal t = false) :
    (randomNext g.roleCount t).Meets (PlayRequest.Told g) (OnLine g s) fun
      | .done u => (g.startedIn s).Line (depth + 1) u
      | .cut => False
      | .fault f => ∃ e, f = .error e ∧ FailsOnLine g s e := by
  have hdrawn : (randomJointMove g.roleCount t).Meets (PlayRequest.Told g) (OnLine g s)
      (g.Drawn (g.options t)) :=
    meets_randomJointMove (fun _ => ⟨depth, hline⟩) fun _ _ _ => trivial
  refine meets_bind hdrawn nofun (fun f hf => ?_) fun j hj => ?_
  · cases hf with
    | refused herror => exact ⟨_, rfl, .listing hline hgoing herror⟩
  · have hlegal : g.IsLegal t j := isLegal_of_drawn hj
    apply meets_query (q := .next t j)
    · exact ⟨depth, hline, hgoing, hlegal⟩
    · intro f hf
      obtain ⟨e, herror, rfl⟩ := mapError_eq_error.mp hf
      exact ⟨e, rfl, .move hline hgoing hlegal herror⟩
    · exact fun u hu => .step hline hgoing hlegal (Game.answer_next.mp hu)

/-- A game that is played to its end goes along legal joint moves, and as many as are counted. -/
theorem meets_toEnd (fuel : Nat) (hline : (g.startedIn s).Line depth t) :
    (toEnd g.roleCount fuel depth t).Meets (PlayRequest.Told g) (OnLine g s) fun
      | .done (u, n) => (g.startedIn s).Line n u ∧ g.isTerminal u = true
      | .cut => False
      | .fault f => f ≠ .panic ∧ ∀ e, f = .error e → FailsOnLine g s e := by
  induction fuel generalizing depth t with
  | zero => exact ⟨nofun, nofun⟩
  | succ fuel ih =>
      refine meets_query_bind ⟨depth, hline⟩ nofun fun terminal hterminal => ?_
      cases terminal with
      | true => exact ⟨hline, Except.ok.inj hterminal⟩
      | false =>
          have hnext := meets_randomNext hline (Except.ok.inj hterminal)
          refine meets_bind hnext id ?_ fun u hu => ih hu
          rintro _ ⟨_, rfl, hfails⟩
          refine ⟨nofun, ?_⟩
          rintro _ ⟨⟩
          exact hfails

theorem meets_rollout (r : RoleId) (fuel : Nat) (hline : (g.startedIn s).Line depth t) :
    (rollout g.roleCount r fuel depth t).Meets (PlayRequest.Told g) (OnLine g s) fun
      | .done o => ∃ u, (g.startedIn s).Line o.depth u ∧ g.isTerminal u = true ∧
          g.goal u r = .ok o.goal
      | .cut => True
      | .fault f => f ≠ .panic ∧ ∀ e, f = .error e → FailsOnLine g s e ∨
          ∃ n u, (g.startedIn s).Line n u ∧ g.isTerminal u = true ∧ g.goal u r = .error e := by
  induction fuel generalizing depth t with
  | zero => exact ⟨nofun, nofun⟩
  | succ fuel ih =>
      refine meets_query_bind ⟨depth, hline⟩ nofun fun terminal hterminal => ?_
      cases terminal with
      | true =>
          have hended : g.isTerminal t = true := Except.ok.inj hterminal
          refine meets_query_bind ⟨depth, hline⟩ ?_ fun goal hgoal =>
            ⟨t, hline, hended, Game.answer_goal.mp hgoal⟩
          intro f hgoal
          obtain ⟨e, herror, rfl⟩ := mapError_eq_error.mp hgoal
          refine ⟨nofun, ?_⟩
          rintro _ ⟨⟩
          exact .inr ⟨depth, t, hline, hended, herror⟩
      | false =>
          refine meets_poll_bind trivial fun expired => ?_
          cases expired with
          | true => trivial
          | false =>
              have hnext := meets_randomNext hline (Except.ok.inj hterminal)
              refine meets_bind hnext False.elim ?_ fun u hu => ih hu
              rintro _ ⟨_, rfl, hfails⟩
              refine ⟨nofun, ?_⟩
              rintro _ ⟨⟩
              exact .inl hfails

/-- To play to the end, where a draw from nothing has no answer. -/
def toEndAt (roleCount : Nat) : (fuel depth : Nat) → State → OptionT Play (State × Nat)
  | 0, _, _ => liftM (.outOfFuel : Play (State × Nat))
  | fuel + 1, depth, s => do
    if ← query (.isTerminal s) then return (s, depth)
    toEndAt roleCount fuel (depth + 1) (← randomNextAt roleCount s)

theorem toEndAt_eq (roleCount fuel depth : Nat) (s : State) :
    toEndAt roleCount fuel depth s = liftM (toEnd roleCount fuel depth s) := by
  induction fuel generalizing depth s with
  | zero => rfl
  | succ fuel ih =>
      rw [toEndAt, toEnd, liftM_bind]
      congr
      funext terminal
      cases terminal with
      | true => simp
      | false => simp [ih, randomNextAt_eq]

/-- A random joint move is one of those that the game lists, also with the move of one role given,
and where the game fails to list any, it fails with the same error, unless a draw never comes to an
end. The only difference is that joint moves that are too many to be listed can be drawn. So a game
that is played at random, to its end or until the deadline, only meets states that legal joint moves
lead to while the game goes on, counts these joint moves, and fails only where the game fails on the
way. It never panics, and nothing is ever drawn from an empty range. -/
theorem random_play_is_legal (g : Game) (d : Deadline) (s : State) (w : World) :
    (g.Drawn (g.options s) ((randomJointMove g.roleCount s).run (answer g d) w).1 ∨
      IsStuck g d (randomJointMove g.roleCount s) w) ∧
    (∀ role m,
      g.Drawn (g.pinned s role m)
        ((randomJointMoveWith g.roleCount s role m).run (answer g d) w).1 ∨
      IsStuck g d (randomJointMoveWith g.roleCount s role m) w) ∧
    (∀ fuel,
      (∀ e ∈ (toEnd g.roleCount fuel 0 s).history (answer g d) w, OnLine g s e.1) ∧
      (∀ t n, ((toEnd g.roleCount fuel 0 s).run (answer g d) w).1 = .done (t, n) →
        (g.startedIn s).Line n t ∧ g.isTerminal t = true) ∧
      (∀ e, ((toEnd g.roleCount fuel 0 s).run (answer g d) w).1 = .fault (.error e) →
        FailsOnLine g s e) ∧
      ((toEnd g.roleCount fuel 0 s).run (answer g d) w).1 ≠ .fault .panic) ∧
    (∀ r fuel,
      (∀ e ∈ (rollout g.roleCount r fuel 0 s).history (answer g d) w, OnLine g s e.1) ∧
      (∀ o, ((rollout g.roleCount r fuel 0 s).run (answer g d) w).1 = .done o →
        ∃ t, (g.startedIn s).Line o.depth t ∧ g.isTerminal t = true ∧ g.goal t r = .ok o.goal) ∧
      (∀ e, ((rollout g.roleCount r fuel 0 s).run (answer g d) w).1 = .fault (.error e) →
        FailsOnLine g s e ∨ ∃ n t, (g.startedIn s).Line n t ∧ g.isTerminal t = true ∧
          g.goal t r = .error e) ∧
      ((rollout g.roleCount r fuel 0 s).run (answer g d) w).1 ≠ .fault .panic) ∧
    randomJointMoveAt g.roleCount s = liftM (randomJointMove g.roleCount s) ∧
    (∀ role m, randomJointMoveWithAt g.roleCount s role m =
      liftM (randomJointMoveWith g.roleCount s role m)) ∧
    ∀ r fuel, toEndAt g.roleCount fuel 0 s = liftM (toEnd g.roleCount fuel 0 s) ∧
      rolloutAt g.roleCount r fuel 0 s = liftM (rollout g.roleCount r fuel 0 s) := by
  have hdrawn : (randomJointMove g.roleCount s).Meets (PlayRequest.Told g) (fun _ => True)
      (g.Drawn (g.options s)) := meets_randomJointMove (fun _ => trivial) fun _ _ _ => trivial
  have hpinned (role : RoleId) (m : Move) : (randomJointMoveWith g.roleCount s role m).Meets
      (PlayRequest.Told g) (fun _ => True) (g.Drawn (g.pinned s role m)) :=
    meets_randomJointMoveWith (fun _ => trivial) (fun _ _ _ => trivial) role m
  have hstart : (g.startedIn s).Line 0 s := .start
  refine ⟨(run_of_meets hdrawn w).2, fun role m => (run_of_meets (hpinned role m) w).2,
    fun fuel => ?_, fun r fuel => ?_, randomJointMoveAt_eq _ s, randomJointMoveWithAt_eq _ s,
    fun r fuel => ⟨toEndAt_eq _ fuel 0 s, rolloutAt_eq _ r fuel 0 s⟩⟩
  · have hends := meets_toEnd fuel hstart
    exact ⟨(run_of_meets hends w).1, fun t n hdone => outcome_of_meets hends hdone nofun,
      fun e herror => (outcome_of_meets hends herror nofun).2 e rfl,
      fun hpanic => (outcome_of_meets hends hpanic nofun).1 rfl⟩
  · have hends := meets_rollout r fuel hstart
    exact ⟨(run_of_meets hends w).1, fun o hdone => outcome_of_meets hends hdone nofun,
      fun e herror => (outcome_of_meets hends herror nofun).2 e rfl,
      fun hpanic => (outcome_of_meets hends hpanic nofun).1 rfl⟩

open TwoRounds in
/-- The two rounds are played at random, along a line of joint moves. -/
theorem random_play_is_legal_twoRounds :
    ∃ t n, ((toEnd 2 3 0 game.initial).run (answer game ⟨1, 0⟩) ⟨⟨0, 0⟩, .ofSeed 42⟩).1 =
        .done (t, n) ∧
      (game.startedIn game.initial).Line n t ∧ game.isTerminal t = true := by
  have hplayed : ((toEnd 2 3 0 game.initial).run (answer game ⟨1, 0⟩)
      ⟨⟨0, 0⟩, .ofSeed 42⟩).1.isDone = true := by decide +kernel
  obtain ⟨-, -, hcharge, -⟩ :=
    random_play_is_legal game ⟨1, 0⟩ game.initial ⟨⟨0, 0⟩, .ofSeed 42⟩
  obtain ⟨⟨t, n⟩, hdone⟩ := Outcome.isDone_iff.mp hplayed
  exact ⟨t, n, hdone, (hcharge 3).2.1 t n hdone⟩

open Crowd in
/-- A joint move of the crowd is drawn, but there is no list that it could be on. -/
theorem random_joint_move_unlisted_crowd :
    ∃ m j, Machine.ofNet net = .ok m ∧
      ((randomJointMove m.toGame.roleCount m.initial).run (answer m.toGame ⟨0, 0⟩)
        ⟨⟨0, 0⟩, .ofSeed 0⟩).1 = .done j ∧
      m.toGame.IsLegal m.initial j ∧ m.toGame.jointMoves m.initial = .error .panic := by
  have hdrawn : (Machine.ofNet net).toOption.any (fun m =>
      ((randomJointMove m.toGame.roleCount m.initial).run (answer m.toGame ⟨0, 0⟩)
        ⟨⟨0, 0⟩, .ofSeed 0⟩).1.isDone) = true := by decide +kernel
  obtain ⟨m, hm, -, -, hpanic, -⟩ := exists_machine
  rw [hm] at hdrawn
  obtain ⟨j, hj⟩ := Outcome.isDone_iff.mp hdrawn
  have hmeets : (randomJointMove m.toGame.roleCount m.initial).Meets (PlayRequest.Told m.toGame)
      (fun _ => True) (m.toGame.Drawn (m.toGame.options m.initial)) :=
    meets_randomJointMove (fun _ => trivial) fun _ _ _ => trivial
  exact ⟨m, j, hm, hj, isLegal_of_drawn (outcome_of_meets hmeets hj nofun), hpanic⟩

end Play

end GeneralGame
