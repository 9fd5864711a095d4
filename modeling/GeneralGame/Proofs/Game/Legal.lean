import GeneralGame.Game
import GeneralGame.Proofs.Circuit.Tables
import GeneralGame.Proofs.Game.Odometer

/-!
Legal play. A joint move is legal if every role makes one of its legal moves, and the joint moves
that a game lists are exactly these. A game ends within some plies if it is over after so many
joint moves at most, whichever of them are made, and no query fails on the way.
-/
namespace GeneralGame

variable {ε α β : Type}

/-- What stands beside the roles of a game is found at their places. -/
theorem RoleId.forall₂_all_iff {R : RoleId → α → Prop} {count : Nat} {xs : List α} :
    List.Forall₂ R (RoleId.all count) xs ↔
      xs.length = count % 256 ∧ ∀ i x, xs[i]? = some x → R (.ofIndex i) x := by
  have hall := length_all count
  rw [List.forall₂_iff_get]
  constructor
  · rintro ⟨hlength, hget⟩
    refine ⟨hlength.symm.trans hall, fun i x hx => ?_⟩
    obtain ⟨hi, rfl⟩ := List.getElem?_eq_some_iff.mp hx
    simpa [RoleId.all] using hget i (hlength ▸ hi) hi
  · rintro ⟨hlength, hget⟩
    refine ⟨hall.trans hlength.symm, fun i hi hi' => ?_⟩
    simpa [RoleId.all] using hget i xs[i] (List.getElem?_eq_getElem hi')

namespace Game

variable {g : Game} {s t : State} {r role : RoleId} {m : Move} {j : JointMove}
  {joints : List JointMove}

/-- The role may make the move. -/
def CanPlay (g : Game) (s : State) (r : RoleId) (m : Move) : Prop :=
  ∃ ms, g.legal s r = .ok ms ∧ m ∈ ms

/-- Every role makes one of its legal moves. -/
def IsLegal (g : Game) (s : State) (j : JointMove) : Prop :=
  List.Forall₂ (g.CanPlay s) (RoleId.all g.roleCount) j.moves

theorem moves_eq_ok {ms : { ms : List Move // ms ≠ [] }} :
    g.moves s r = .ok ms ↔ g.legal s r = .ok ms.val := by
  obtain ⟨ms, hms⟩ := ms
  constructor
  · intro h
    obtain ⟨legal, hlegal, h⟩ := exists_of_bind_eq_ok h
    split at h
    · cases h
    · cases h
      exact hlegal
  · intro h
    simp only [moves, h]
    exact dif_neg hms

theorem moves_eq_error {e : GameError} :
    g.moves s r = .error e ↔
      g.legal s r = .error e ∨ g.legal s r = .ok [] ∧ e = .noLegalMoves r := by
  unfold moves
  cases g.legal s r with
  | error e' => simp [bind, Except.bind]
  | ok legal =>
      cases legal with
      | nil => simp [bind, Except.bind, throw, throwThe, MonadExceptOf.throw, eq_comm]
      | cons m ms => simp [bind, Except.bind, pure, Except.pure]

theorem mem_moves_iff {ms : { ms : List Move // ms ≠ [] }} (h : g.moves s r = .ok ms) :
    m ∈ ms.val ↔ g.CanPlay s r m := by
  have hlegal := moves_eq_ok.mp h
  constructor
  · exact fun hm => ⟨ms.val, hlegal, hm⟩
  · rintro ⟨legal, hlegal', hm⟩
    rw [hlegal] at hlegal'
    cases hlegal'
    exact hm

theorem mem_product {lists : List (List α)} {xs : List α} :
    xs ∈ product lists ↔ List.Forall₂ (fun as x => x ∈ as) lists xs := by
  induction lists generalizing xs with
  | nil => rw [List.forall₂_nil_left_iff, product, List.mem_singleton]
  | cons as lists ih =>
      simp only [product, List.mem_flatMap, List.mem_map, List.forall₂_cons_left_iff, ← ih]
      constructor
      · rintro ⟨x, hx, rest, hrest, rfl⟩
        exact ⟨x, rest, hx, hrest, rfl⟩
      · rintro ⟨x, rest, hx, hrest, rfl⟩
        exact ⟨x, hx, rest, hrest, rfl⟩

theorem product_ne_nil {lists : List (List α)} (h : ∀ xs ∈ lists, xs ≠ []) :
    product lists ≠ [] := by
  induction lists with
  | nil => exact List.cons_ne_nil [] []
  | cons xs rest ih =>
      obtain ⟨x, xs, rfl⟩ := List.exists_cons_of_ne_nil (h xs List.mem_cons_self)
      have hrest := ih fun ys hys => h ys (List.mem_cons_of_mem _ hys)
      simp [product, hrest]

/-- Choices from lists that were computed one by one. -/
theorem mem_product_of_mapM {f : α → Except ε (List β)} {xs : List α} {lists : List (List β)}
    {ys : List β} (h : xs.mapM f = .ok lists) :
    ys ∈ product lists ↔ List.Forall₂ (fun x y => ∃ as, f x = .ok as ∧ y ∈ as) xs ys := by
  rw [mem_product]
  have hlists := mapM_eq_ok_iff.mp h
  clear h
  induction hlists generalizing ys with
  | nil => rw [List.forall₂_nil_left_iff, List.forall₂_nil_left_iff]
  | cons hx _ ih =>
      rw [List.forall₂_cons_left_iff, List.forall₂_cons_left_iff]
      simp only [hx, ih, Except.ok.injEq, exists_eq_left']

theorem options_eq_ok {ms : List Move} :
    g.options s r = .ok ms ↔ g.legal s r = .ok ms ∧ ms ≠ [] := by
  constructor
  · intro h
    obtain ⟨found, hfound, h⟩ := exists_of_bind_eq_ok h
    cases h
    exact ⟨moves_eq_ok.mp hfound, found.property⟩
  · rintro ⟨hlegal, hne⟩
    have hmoves : g.moves s r = .ok ⟨ms, hne⟩ := moves_eq_ok.mpr hlegal
    rw [options, hmoves]
    rfl

theorem options_eq_error {e : GameError} :
    g.options s r = .error e ↔
      g.legal s r = .error e ∨ g.legal s r = .ok [] ∧ e = .noLegalMoves r := by
  rw [← moves_eq_error, options]
  cases g.moves s r <;> simp [pure, Except.pure, bind, Except.bind]

theorem options_of_moves {ms : { ms : List Move // ms ≠ [] }} (h : g.moves s r = .ok ms) :
    g.options s r = .ok ms.val := options_eq_ok.mpr ⟨moves_eq_ok.mp h, ms.property⟩

theorem ne_nil_of_options {ms : List Move} (h : g.options s r = .ok ms) : ms ≠ [] :=
  (options_eq_ok.mp h).2

theorem exists_options_iff : (∃ ms, g.options s r = .ok ms ∧ m ∈ ms) ↔ g.CanPlay s r m := by
  simp only [options_eq_ok]
  constructor
  · rintro ⟨ms, ⟨hlegal, -⟩, hm⟩
    exact ⟨ms, hlegal, hm⟩
  · rintro ⟨ms, hlegal, hm⟩
    exact ⟨ms, ⟨hlegal, List.ne_nil_of_mem hm⟩, hm⟩

theorem mem_map_mk {lists : List (List Move)} :
    j ∈ (product lists).map .mk ↔ j.moves ∈ product lists := by
  rw [List.mem_map]
  constructor
  · rintro ⟨ms, hms, rfl⟩
    exact hms
  · exact fun hj => ⟨j.moves, hj, rfl⟩

/-! ### Joint moves -/

variable {entry : RoleId → Except GameError (List Move)}

theorem forall_ne_nil_of_mapM {lists : List (List Move)}
    (hentry : ∀ r ms, entry r = .ok ms → ms ≠ [])
    (hlists : (RoleId.all g.roleCount).mapM entry = .ok lists) : ∀ ms ∈ lists, ms ≠ [] := by
  intro ms hms
  obtain ⟨r, -, hr⟩ := (forall_of_mapM_eq_ok hlists).2 ms hms
  exact hentry r ms hr

/-- If no role has an empty list, then there are joint moves unless they are too many. -/
theorem jointMovesOf_eq {lists : List (List Move)}
    (hentry : ∀ r ms, entry r = .ok ms → ms ≠ [])
    (hlists : (RoleId.all g.roleCount).mapM entry = .ok lists) :
    g.jointMovesOf entry =
      if Fits lists then .ok ((product lists).map .mk) else .error .panic := by
  rw [jointMovesOf, hlists]
  exact cartesian_eq (forall_ne_nil_of_mapM hentry hlists)

theorem jointMovesOf_eq_ok (hentry : ∀ r ms, entry r = .ok ms → ms ≠ []) :
    g.jointMovesOf entry = .ok joints ↔ ∃ lists, (RoleId.all g.roleCount).mapM entry = .ok lists ∧
      Fits lists ∧ joints = (product lists).map .mk := by
  constructor
  · intro h
    obtain ⟨lists, hlists, -⟩ := exists_of_bind_eq_ok h
    have hlists := mapError_eq_ok.mp hlists
    rw [jointMovesOf_eq hentry hlists] at h
    split at h
    · cases h
      exact ⟨lists, hlists, ‹_›, rfl⟩
    · cases h
  · rintro ⟨lists, hlists, hfits, rfl⟩
    rw [jointMovesOf_eq hentry hlists, if_pos hfits]

theorem jointMovesOf_eq_error {e : GameError}
    (h : (RoleId.all g.roleCount).mapM entry = .error e) :
    g.jointMovesOf entry = .error (.error e) := by
  rw [jointMovesOf, h]
  rfl

/-- Where there are no joint moves, an entry was refused or the joint moves are too many. -/
theorem jointMovesOf_eq_fault (hentry : ∀ r ms, entry r = .ok ms → ms ≠ []) {f : Fault}
    (h : g.jointMovesOf entry = .error f) : (∃ e, f = .error e) ∨ f = .panic := by
  cases hlists : (RoleId.all g.roleCount).mapM entry with
  | error e =>
      rw [jointMovesOf_eq_error hlists] at h
      cases h
      exact .inl ⟨e, rfl⟩
  | ok lists =>
      rw [jointMovesOf_eq hentry hlists] at h
      split at h
      · cases h
      · cases h
        exact .inr rfl

theorem jointMovesOf_ne_nil (hentry : ∀ r ms, entry r = .ok ms → ms ≠ [])
    (h : g.jointMovesOf entry = .ok joints) : joints ≠ [] := by
  obtain ⟨lists, hlists, -, rfl⟩ := (jointMovesOf_eq_ok hentry).mp h
  simpa using product_ne_nil (forall_ne_nil_of_mapM hentry hlists)

theorem ne_nil_of_pinned {ms : List Move} (h : g.pinned s role m r = .ok ms) : ms ≠ [] := by
  rw [pinned] at h
  split at h
  · cases h
    exact List.cons_ne_nil m []
  · exact ne_nil_of_options h

/-- Where every role has a move, there is a joint move. -/
theorem jointMoves_ne_nil (h : g.jointMoves s = .ok joints) : joints ≠ [] :=
  jointMovesOf_ne_nil (fun _ _ => ne_nil_of_options) h

theorem jointMovesWith_ne_nil (h : g.jointMovesWith s role m = .ok joints) : joints ≠ [] :=
  jointMovesOf_ne_nil (fun _ _ => ne_nil_of_pinned) h

/-- The joint moves that a game lists are the legal ones. -/
theorem mem_jointMoves (h : g.jointMoves s = .ok joints) : j ∈ joints ↔ g.IsLegal s j := by
  obtain ⟨lists, hlists, -, rfl⟩ := (jointMovesOf_eq_ok fun _ _ => ne_nil_of_options).mp h
  rw [mem_map_mk, mem_product_of_mapM hlists]
  simp only [exists_options_iff]
  rfl

theorem placeholder_getElem? {count i : Nat} {role : RoleId} {m x : Move}
    (h : (JointMove.placeholder count role m).moves[i]? = some x) :
    i < count % 256 ∧ x = if .ofIndex i = role then m else .noop := by
  rw [JointMove.placeholder, RoleId.all, List.map_map, List.getElem?_map,
    Option.map_eq_some_iff] at h
  obtain ⟨k, hk, hx⟩ := h
  obtain ⟨hi, rfl⟩ := List.getElem?_eq_some_iff.mp hk
  rw [List.getElem_range] at hx
  rw [List.length_range] at hi
  exact ⟨hi, hx.symm⟩

theorem forall₂_pinned_iff (hrole : role ∈ RoleId.all g.roleCount) (hm : g.CanPlay s role m) :
    List.Forall₂ (fun r x => if r = role then x = m else g.CanPlay s r x)
        (RoleId.all g.roleCount) j.moves ↔
      g.IsLegal s j ∧ j.get? role = some m := by
  rw [IsLegal, RoleId.forall₂_all_iff, RoleId.forall₂_all_iff, JointMove.get?]
  have hself := role.ofIndex_index
  have hlt := RoleId.mem_all.mp hrole
  constructor
  · rintro ⟨hlength, hpinned⟩
    have hget := List.getElem?_eq_getElem (hlength ▸ hlt)
    have hchosen := hpinned role.index _ hget
    rw [if_pos hself] at hchosen
    rw [hchosen] at hget
    refine ⟨⟨hlength, fun i x hx => ?_⟩, hget⟩
    have hx' := hpinned i x hx
    split at hx'
    · rename_i heq
      rw [heq, hx']
      exact hm
    · exact hx'
  · rintro ⟨⟨hlength, hlegal⟩, hget⟩
    refine ⟨hlength, fun i x hx => ?_⟩
    split
    · rename_i heq
      have hi : i < j.moves.length := (List.getElem?_eq_some_iff.mp hx).1
      have hindex : i = role.index := by
        rw [← heq, RoleId.index_ofIndex (by omega)]
      rw [hindex, hget] at hx
      exact (Option.some.inj hx).symm
    · exact hlegal i x hx

theorem exists_pinned_iff {x : Move} :
    (∃ ms, g.pinned s role m r = .ok ms ∧ x ∈ ms) ↔ if r = role then x = m else g.CanPlay s r x := by
  rw [pinned]
  split
  · constructor
    · rintro ⟨_, h, hx⟩
      cases h
      exact List.mem_singleton.mp hx
    · rintro rfl
      exact ⟨[x], rfl, List.mem_singleton_self x⟩
  · exact exists_options_iff

theorem mem_product_pinned (hrole : role ∈ RoleId.all g.roleCount) (hm : g.CanPlay s role m)
    {lists : List (List Move)}
    (h : (RoleId.all g.roleCount).mapM (g.pinned s role m) = .ok lists) :
    j.moves ∈ product lists ↔ g.IsLegal s j ∧ j.get? role = some m := by
  rw [mem_product_of_mapM h, ← forall₂_pinned_iff hrole hm]
  simp only [exists_pinned_iff]

/-- The joint moves that a game lists for a role's move are the legal ones in which the role makes
it. -/
theorem mem_jointMovesWith (hrole : role ∈ RoleId.all g.roleCount) (hm : g.CanPlay s role m)
    (h : g.jointMovesWith s role m = .ok joints) :
    j ∈ joints ↔ g.IsLegal s j ∧ j.get? role = some m := by
  obtain ⟨lists, hlists, -, rfl⟩ := (jointMovesOf_eq_ok fun _ _ => ne_nil_of_pinned).mp h
  rw [mem_map_mk]
  exact mem_product_pinned hrole hm hlists

theorem exists_mapM_pinned
    (hmoves : ∀ r ∈ RoleId.all g.roleCount, ∃ ms, g.moves s r = .ok ms) (role : RoleId) (m : Move) :
    ∃ lists, (RoleId.all g.roleCount).mapM (g.pinned s role m) = .ok lists := by
  apply exists_mapM_eq_ok
  intro r hr
  obtain ⟨ms, hms⟩ := hmoves r hr
  rw [pinned]
  split
  · exact ⟨[m], rfl⟩
  · exact ⟨ms.val, options_of_moves hms⟩

/-- With `most` moves for each role at most, and few enough roles, there is room for the joint
moves. -/
theorem exists_jointMovesWith (most : Nat) (hpos : 0 < most)
    (hroom : most ^ (g.roleCount % 256) * jointMoveBytes < 2 ^ 63)
    (hmoves : ∀ r ∈ RoleId.all g.roleCount, ∃ ms, g.moves s r = .ok ms ∧ ms.val.length ≤ most)
    (role : RoleId) (m : Move) : ∃ joints, g.jointMovesWith s role m = .ok joints := by
  obtain ⟨lists, hlists⟩ :=
    exists_mapM_pinned (fun r hr => (hmoves r hr).imp fun _ => And.left) role m
  obtain ⟨hlength, hlist⟩ := forall_of_mapM_eq_ok hlists
  have hfits : Fits lists := by
    refine fits_of_length_le most (fun ms hms => ?_) ?_
    · obtain ⟨r, hr, hpinned⟩ := hlist ms hms
      obtain ⟨found, hfound, hle⟩ := hmoves r hr
      rw [pinned] at hpinned
      split at hpinned
      · cases hpinned
        exact hpos
      · rw [options_of_moves hfound] at hpinned
        cases hpinned
        exact hle
    · rwa [hlength, RoleId.length_all]
  refine ⟨(product lists).map .mk, ?_⟩
  rw [jointMovesWith, jointMovesOf_eq (fun _ _ => ne_nil_of_pinned) hlists, if_pos hfits]

/-- Whatever a role does, the others can complete it to a legal joint move. -/
theorem exists_isLegal (hmoves : ∀ r ∈ RoleId.all g.roleCount, ∃ ms, g.moves s r = .ok ms)
    (hrole : role ∈ RoleId.all g.roleCount) (hm : g.CanPlay s role m) :
    ∃ j, g.IsLegal s j ∧ j.get? role = some m := by
  obtain ⟨lists, hlists⟩ := exists_mapM_pinned hmoves role m
  have hne := forall_ne_nil_of_mapM (fun _ _ => ne_nil_of_pinned) hlists
  obtain ⟨ms, hms⟩ := List.exists_mem_of_ne_nil _ (product_ne_nil hne)
  exact ⟨⟨ms⟩, (mem_product_pinned hrole hm hlists).mp hms⟩

/-- Play from the state is over after `plies` joint moves at most, if only those are made that
`tries` allows, and no query that it takes fails: every state on the way has moves for all roles, a
list of joint moves for each of the role's moves that `lists` allows and a successor by each joint
move that is tried, and in the end the role has a goal. -/
inductive EndsWithin (g : Game) (role : RoleId) (lists : State → Move → Prop)
    (tries : State → JointMove → Prop) : (plies : Nat) → State → Prop
  | ended {plies : Nat} {s : State} {v : Nat} (hterminal : g.isTerminal s = true)
      (hgoal : g.goal s role = .ok v) : EndsWithin g role lists tries plies s
  | going {plies : Nat} {s : State} (hterminal : g.isTerminal s = false)
      (hmoves : ∀ r ∈ RoleId.all g.roleCount, ∃ ms, g.moves s r = .ok ms)
      (hjoints : ∀ m, lists s m → ∃ joints, g.jointMovesWith s role m = .ok joints)
      (hnext : ∀ j, tries s j → ∃ t, g.next s j = .ok t)
      (hrest : ∀ j t, tries s j → g.next s j = .ok t → EndsWithin g role lists tries plies t) :
      EndsWithin g role lists tries (plies + 1) s

/-- Legal joint moves, made while the game is not over, lead from the start to the state. -/
inductive Line (g : Game) : (length : Nat) → State → Prop
  | start : g.Line 0 g.initial
  | step {length : Nat} {s t : State} {j : JointMove} (hline : g.Line length s)
      (hterminal : g.isTerminal s = false) (hj : g.IsLegal s j) (hnext : g.next s j = .ok t) :
      g.Line (length + 1) t

end Game

end GeneralGame
