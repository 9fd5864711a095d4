import GeneralGame.Proofs.Circuit.Accepted
import GeneralGame.Proofs.Circuit.Evaluation

/-!
The errors of nets and machines. What the check throws is a fault of the configuration, an ordering
only fails on a cycle, and a question about a state only on a role that does not exist, on goals that
are not exactly one, or on a joint move of the wrong size or with a move that nobody can make.
-/
namespace GeneralGame

/-- Every error is such a one. -/
def FailsWith {α : Type} (P : GameError → Prop) (y : Except GameError α) : Prop :=
  ∀ e, y = .error e → P e

section

variable {α β : Type} {P : GameError → Prop} {y : Except GameError α}

theorem failsWith_ok (a : α) : FailsWith P (.ok a) := nofun

theorem failsWith_throw {e : GameError} (h : P e) : FailsWith P (throw e : Except GameError α) := by
  rintro _ ⟨⟩
  exact h

theorem failsWith_bind {f : α → Except GameError β} (hy : FailsWith P y)
    (hf : ∀ a, y = .ok a → FailsWith P (f a)) : FailsWith P (y >>= f) := by
  cases y with
  | error e =>
      rintro _ ⟨⟩
      exact hy e rfl
  | ok a => exact hf a rfl

theorem failsWith_forM {f : α → Except GameError Unit} {xs : List α}
    (h : ∀ x ∈ xs, FailsWith P (f x)) : FailsWith P (xs.forM f) := by
  induction xs with
  | nil => exact failsWith_ok ()
  | cons x xs ih =>
      obtain ⟨hx, hxs⟩ := List.forall_mem_cons.mp h
      rw [List.forM_eq_forM, List.forM_cons]
      exact failsWith_bind hx fun _ _ => ih hxs

theorem failsWith_guard {p : Prop} [Decidable p] {e : GameError} (h : ¬ p → P e) :
    FailsWith P (if p then pure () else throw e) := by
  split
  · exact failsWith_ok ()
  · rename_i hp
    exact failsWith_throw (h hp)

end

namespace Net

variable {net : Net}

/-- The faults that keep a net from being a game. -/
def Faulty (e : GameError) : Prop := e.isConfiguration = true

theorem checkRoleCount_faulty (roles : List String) : FailsWith Faulty (checkRoleCount roles) := by
  rw [checkRoleCount]
  split
  · exact failsWith_throw rfl
  · split
    · exact failsWith_throw rfl
    · exact failsWith_ok ()

theorem checkComponent_faulty (isBase isIndependent : Array Bool) (id : ComponentId)
    (c : Component) : FailsWith Faulty (net.checkComponent isBase isIndependent id c) := by
  rw [checkComponent]
  split
  · refine failsWith_bind ?_ fun _ _ => failsWith_guard fun _ => rfl
    rw [checkFeed]
    split
    · exact failsWith_ok ()
    · exact failsWith_guard fun _ => rfl
  · exact failsWith_guard fun _ => rfl

theorem checkRole_faulty (role : String) (r : RoleId) :
    FailsWith Faulty (net.checkRole role r) := by
  refine failsWith_bind ?_ fun _ _ => ?_
  · rw [checkGoals]
    split
    · exact failsWith_throw rfl
    · split
      · exact failsWith_ok ()
      · exact failsWith_throw rfl
  · rw [checkLegals]
    split
    · exact failsWith_throw rfl
    · exact failsWith_ok ()

theorem check_faulty (net : Net) : FailsWith Faulty net.check := by
  have hsize : ∀ size, FailsWith Faulty (net.checkTableSize size) := fun size =>
    failsWith_guard fun _ => rfl
  refine failsWith_bind (checkRoleCount_faulty _) fun _ _ => ?_
  refine failsWith_bind (hsize _) fun _ _ => ?_
  refine failsWith_bind (hsize _) fun _ _ => ?_
  refine failsWith_bind (hsize _) fun _ _ => ?_
  refine failsWith_bind (failsWith_forM fun _ _ => failsWith_guard fun _ => rfl) fun _ _ => ?_
  refine failsWith_bind (failsWith_forM fun _ _ => checkComponent_faulty _ _ _ _) fun _ _ => ?_
  exact failsWith_forM fun _ _ => checkRole_faulty _ _

theorem ofBytes_faulty (bytes : Bytes) :
    FailsWith (fun e => e = .malformedBytes ∨ Faulty e) (ofBytes bytes) := by
  rw [ofBytes]
  split
  · exact failsWith_throw (.inl rfl)
  · refine failsWith_bind (fun e he => .inr (check_faulty _ e he)) fun _ _ => failsWith_ok _

theorem order_cyclic (net : Net) :
    FailsWith (fun e => ∃ unordered first, e = .cyclicDependency unordered first) net.order := by
  rw [order]
  split
  · exact failsWith_ok _
  · exact failsWith_throw ⟨_, _, rfl⟩

/-- The net has the move of the role, or it does nothing. -/
def Knows (net : Net) (entry : RoleId × Move) : Prop :=
  net.input? entry.1 entry.2 ≠ none ∨ entry.2 = .noop

theorem markMove_cases (net : Net) (values : Assignment) (entry : RoleId × Move) :
    (net.Knows entry ∧ ∃ values', net.markMove values entry = .ok values') ∨
      (¬ net.Knows entry ∧
        net.markMove values entry = .error (.moveDefinition entry.1 entry.2)) := by
  rw [Knows, markMove]
  cases hinput : net.input? entry.1 entry.2 with
  | some id => exact .inl ⟨.inl (Option.some_ne_none id), _, rfl⟩
  | none =>
      by_cases hnoop : entry.2 = .noop
      · exact .inl ⟨.inr hnoop, values, by simp [Move.isNoop, hnoop]⟩
      · exact .inr ⟨by simp [hnoop], by simp [Move.isNoop, hnoop]⟩

/-- Marking stops at the first move that is not known. -/
theorem markMoves_fails {entries : List (RoleId × Move)} (values : Assignment) :
    FailsWith (fun e => ∃ before entry after, entries = before ++ entry :: after ∧
      e = .moveDefinition entry.1 entry.2 ∧ ¬ net.Knows entry ∧ ∀ x ∈ before, net.Knows x)
      (entries.foldlM net.markMove values) := by
  induction entries generalizing values with
  | nil => exact failsWith_ok values
  | cons entry entries ih =>
      intro e he
      rw [List.foldlM_cons] at he
      rcases markMove_cases net values entry with ⟨hknown, values', hmark⟩ | ⟨hunknown, hmark⟩
      · rw [hmark] at he
        obtain ⟨before, found, after, rfl, herror, hunknown, hbefore⟩ := ih values' e he
        exact ⟨entry :: before, found, after, rfl, herror, hunknown,
          List.forall_mem_cons.mpr ⟨hknown, hbefore⟩⟩
      · rw [hmark] at he
        cases he
        exact ⟨[], entry, entries, rfl, rfl, hunknown, nofun⟩

/-- The first role whose move the net does not know. -/
structure FirstUnknown (net : Net) (j : JointMove) (r : RoleId) (m : Move) : Prop where
  move : j.get? r = some m
  unknown : ¬ net.Knows (r, m)
  first : ∀ r' m', r'.index < r.index → j.get? r' = some m' → net.Knows (r', m')

theorem firstUnknown_of_entries {j : JointMove} (hsize : j.size ≤ 256)
    {before after : List (RoleId × Move)} {entry : RoleId × Move}
    (hentries : j.entries = before ++ entry :: after) (hunknown : ¬ net.Knows entry)
    (hbefore : ∀ x ∈ before, net.Knows x) : net.FirstUnknown j entry.1 entry.2 := by
  have hget : ∀ i, j.entries[i]? = j.moves[i]?.map fun m => (RoleId.ofIndex i, m) := fun i =>
    List.getElem?_mapIdx
  have hentry : j.entries[before.length]? = some entry := by
    rw [hentries, List.getElem?_append_right (Nat.le_refl _), Nat.sub_self]
    rfl
  rw [hget] at hentry
  obtain ⟨m, hm, rfl⟩ := Option.map_eq_some_iff.mp hentry
  have hlt : before.length < 256 := Nat.lt_of_lt_of_le (List.getElem?_eq_some_iff.mp hm).1 hsize
  have hindex := RoleId.index_ofIndex hlt
  constructor
  · rw [JointMove.get?, hindex, hm]
  · exact hunknown
  · intro r' m' hr' hm'
    rw [hindex] at hr'
    apply hbefore
    have hmem : j.entries[r'.index]? = some (r', m') := by
      rw [hget, show j.moves[r'.index]? = some m' from hm', RoleId.ofIndex_index]
      rfl
    rw [hentries, List.getElem?_append_left hr'] at hmem
    exact List.mem_of_getElem? hmem

/-- What is wrong with a joint move. -/
def Misplayed (net : Net) (j : JointMove) (e : GameError) : Prop :=
  (j.size ≠ net.roleCount ∧ e = .jointMoveSize net.roleCount j.size) ∨
    (j.size = net.roleCount ∧ ∃ r m, e = .moveDefinition r m ∧ net.FirstUnknown j r m)

theorem markJointMove_fails (hcount : net.roleCount ≤ maxRoles) (j : JointMove)
    (values : Assignment) : FailsWith (net.Misplayed j) (net.markJointMove j values) := by
  rw [markJointMove]
  split
  · rename_i hsize
    intro e he
    obtain ⟨before, entry, after, hentries, herror, hunknown, hbefore⟩ := markMoves_fails values e he
    have hle : j.size ≤ 256 := hsize ▸ Nat.le_trans hcount (by decide)
    exact .inr ⟨hsize, entry.1, entry.2, herror,
      firstUnknown_of_entries hle hentries hunknown hbefore⟩
  · rename_i hsize
    exact failsWith_throw (.inl ⟨hsize, rfl⟩)

end Net

namespace Machine

variable {net : Net} {m : Machine}

theorem ofNet_cyclic (h : net.WellFormed) :
    FailsWith (fun e => ∃ unordered first, e = .cyclicDependency unordered first) (ofNet net) := by
  have hcheck : net.check = .ok () := h
  refine failsWith_bind (fun e he => ?_) fun _ _ =>
    failsWith_bind (Net.order_cyclic net) fun _ _ => failsWith_ok _
  rw [hcheck] at he
  cases he

/-- Every error of a question. -/
structure Fails (m : Machine) : Prop where
  goal : ∀ s r, FailsWith (fun e =>
    (m.net.roleCount ≤ r.index ∧ e = .unknownRole r.index m.net.roleCount) ∨
      (r.index < m.net.roleCount ∧ ∃ held, held ≠ 1 ∧ e = .goalDefinition r held)) (m.goal s r)
  legal : ∀ s r, FailsWith (fun e =>
    m.net.roleCount ≤ r.index ∧ e = .unknownRole r.index m.net.roleCount) (m.legal s r)
  next : ∀ s j, FailsWith (m.net.Misplayed j) (m.next s j)
  evaluate : ∀ s joint, FailsWith (fun e => ∃ j ∈ joint, m.net.Misplayed j e) (m.evaluate s joint)

theorem checkRole_fails (m : Machine) (r : RoleId) : FailsWith (fun e =>
    m.net.roleCount ≤ r.index ∧ e = .unknownRole r.index m.net.roleCount) (m.checkRole r) :=
  failsWith_guard fun hge => ⟨Nat.not_lt.mp hge, rfl⟩

theorem fails_of_wellFormed (h : m.net.WellFormed) : m.Fails := by
  have hevaluate : ∀ s j, FailsWith (m.net.Misplayed j) (m.evaluate s (some j)) := fun s j =>
    failsWith_bind (Net.markJointMove_fails h.roleCount_le j _) fun _ _ => failsWith_ok _
  constructor
  · intro s r
    refine failsWith_bind (fun e he => .inl (checkRole_fails m r e he)) fun _ hrole => ?_
    have hlt : r.index < m.net.roleCount := (of_ite_eq_ok hrole).1
    dsimp only
    generalize (m.net.goalsOf r).filter (fun goal => (m.evaluateState s).get goal.2) = held
    match held with
    | [] => exact failsWith_throw (.inr ⟨hlt, 0, by decide, rfl⟩)
    | [_] => exact failsWith_ok _
    | _ :: _ :: rest =>
        exact failsWith_throw (.inr ⟨hlt, rest.length + 2, by omega, rfl⟩)
  · intro s r
    exact failsWith_bind (checkRole_fails m r) fun _ _ => failsWith_ok _
  · intro s j
    exact failsWith_bind (hevaluate s j) fun _ _ => failsWith_ok _
  · intro s joint e he
    cases joint with
    | none => cases he
    | some j => exact ⟨j, rfl, hevaluate s j e he⟩

end Machine

end GeneralGame
