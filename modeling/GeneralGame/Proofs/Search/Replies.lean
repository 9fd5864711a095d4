import GeneralGame.Proofs.Game.Value
import GeneralGame.Proofs.Search.Agreement
import GeneralGame.Proofs.Search.Merit

/-!
The game that minimax searches. In it an opponent answers a move while all others wait; a move is
worth the least of what follows these replies. With one role, or two, this game is the game itself.
-/
namespace GeneralGame

open Search

variable {g : Game} {b : Brief} {s : State} {m : Move}

namespace Game

/-- The joint moves that answer a move of the role. -/
def replies? (g : Game) (b : Brief) (s : State) (m : Move) : Option (List JointMove) := do
  let lists ← ((RoleId.all b.roleCount).filter (· ≠ b.role)).mapM fun r => do
    let ms ← (g.moves s r).toOption
    return ms.val.map ((b.placeholder m).set r)
  return if lists.flatten.isEmpty then [b.placeholder m] else lists.flatten

/-- The worth of a move against single replies, where `rest` is the worth of a state one ply
further. -/
def moveReplyWorth? (g : Game) (b : Brief) (rest : State → Option Nat) (s : State) (m : Move) :
    Option Nat := do
  let joints ← g.replies? b s m
  let values ← joints.mapM fun j => (g.next s j).toOption.bind rest
  values.min?

/-- The worth of a state against single replies, where the game is over within `plies` plies. -/
def stateReplyWorth? (g : Game) (b : Brief) : (plies : Nat) → State → Option Nat
  | 0, _ => none
  | plies + 1, s =>
    if g.isTerminal s then g.goalOnScale? s b.role
    else do
      let ms ← (g.moves s b.role).toOption
      let values ← ms.val.mapM (g.moveReplyWorth? b (g.stateReplyWorth? b plies) s)
      values.max?

/-- The merit of a state against single replies, which is its worth with goals of every size. -/
def stateReplyMerit? (g : Game) (b : Brief) : (plies : Nat) → State → Option Nat
  | 0, _ => none
  | plies + 1, s =>
    if g.isTerminal s then (g.goal s b.role).toOption
    else do
      let ms ← (g.moves s b.role).toOption
      let values ← ms.val.mapM (g.moveReplyWorth? b (g.stateReplyMerit? b plies) s)
      values.max?

/-- Each reply to a move leads to a state that is as `rest` says, and no query on the way fails. -/
def MoveRepliesEnd (g : Game) (b : Brief) (rest : State → Prop) (s : State) (m : Move) : Prop :=
  ∃ joints, g.replies? b s m = some joints ∧ ∀ j ∈ joints, ∃ t, g.next s j = .ok t ∧ rest t

/-- The tree of moves and single replies below a state ends within `plies` plies, and no query on it
fails. -/
def RepliesEnd (g : Game) (b : Brief) : (plies : Nat) → State → Prop
  | 0, _ => False
  | plies + 1, s =>
    if g.isTerminal s then ∃ v, g.goal s b.role = .ok v
    else ∃ ms, g.moves s b.role = .ok ms ∧ ∀ m ∈ ms.val, g.MoveRepliesEnd b (g.RepliesEnd b plies) s m

theorem moveReplyWorth?_eq_some {rest : State → Option Nat} {v : Nat} :
    g.moveReplyWorth? b rest s m = some v ↔
      ∃ joints, g.replies? b s m = some joints ∧ ∃ values,
        (joints.mapM fun j => (g.next s j).toOption.bind rest) = some values ∧
          values.min? = some v := by
  simp only [moveReplyWorth?, Option.bind_eq_bind, Option.bind_eq_some_iff]

theorem stateReplyWorth?_on {plies v : Nat} (hon : g.isTerminal s = false) :
    g.stateReplyWorth? b (plies + 1) s = some v ↔
      ∃ ms, g.moves s b.role = .ok ms ∧ ∃ values,
        ms.val.mapM (g.moveReplyWorth? b (g.stateReplyWorth? b plies) s) = some values ∧
          values.max? = some v := by
  rw [stateReplyWorth?, if_neg (by rw [hon]; exact Bool.false_ne_true)]
  simp only [Option.bind_eq_bind, Option.bind_eq_some_iff, toOption_eq_some]

theorem stateReplyMerit?_on {plies v : Nat} (hon : g.isTerminal s = false) :
    g.stateReplyMerit? b (plies + 1) s = some v ↔
      ∃ ms, g.moves s b.role = .ok ms ∧ ∃ values,
        ms.val.mapM (g.moveReplyWorth? b (g.stateReplyMerit? b plies) s) = some values ∧
          values.max? = some v := by
  rw [stateReplyMerit?, if_neg (by rw [hon]; exact Bool.false_ne_true)]
  simp only [Option.bind_eq_bind, Option.bind_eq_some_iff, toOption_eq_some]

theorem moveReplyWorth?_of_imp {rest rest' : State → Option Nat} {v : Nat}
    (hrest : ∀ t w, rest t = some w → rest' t = some w)
    (hv : g.moveReplyWorth? b rest s m = some v) : g.moveReplyWorth? b rest' s m = some v := by
  obtain ⟨joints, hjoints, values, hvalues, hmin⟩ := moveReplyWorth?_eq_some.mp hv
  refine moveReplyWorth?_eq_some.mpr ⟨joints, hjoints, values, ?_, hmin⟩
  refine mapM_eq_some_of_imp hvalues fun j _ w hw => ?_
  obtain ⟨t, ht, hw⟩ := Option.bind_eq_some_iff.mp hw
  exact Option.bind_eq_some_iff.mpr ⟨t, ht, hrest t w hw⟩

theorem stateReplyMerit?_of_stateReplyWorth {plies v : Nat}
    (hv : g.stateReplyWorth? b plies s = some v) : g.stateReplyMerit? b plies s = some v := by
  induction plies generalizing s v with
  | zero => cases hv
  | succ plies ih =>
      cases hterminal : g.isTerminal s with
      | true =>
          rw [stateReplyWorth?, if_pos hterminal] at hv
          rw [stateReplyMerit?, if_pos hterminal]
          exact toOption_eq_some.mpr (goalOnScale?_eq_some.mp hv).1
      | false =>
          obtain ⟨ms, hms, values, hvalues, hmax⟩ := (stateReplyWorth?_on hterminal).mp hv
          refine (stateReplyMerit?_on hterminal).mpr ⟨ms, hms, values, ?_, hmax⟩
          exact mapM_eq_some_of_imp hvalues fun m _ w hw =>
            moveReplyWorth?_of_imp (fun t u hu => ih hu) hw

/-- A merit that shows within some plies is the merit within more. -/
theorem stateReplyMerit?_mono {plies plies' v : Nat} (hle : plies ≤ plies')
    (hv : g.stateReplyMerit? b plies s = some v) : g.stateReplyMerit? b plies' s = some v := by
  induction plies generalizing plies' s v with
  | zero => cases hv
  | succ plies ih =>
      obtain ⟨plies', rfl⟩ : ∃ n, plies' = n + 1 := ⟨plies' - 1, by omega⟩
      cases hterminal : g.isTerminal s with
      | true =>
          rw [stateReplyMerit?, if_pos hterminal] at hv ⊢
          exact hv
      | false =>
          obtain ⟨ms, hms, values, hvalues, hmax⟩ := (stateReplyMerit?_on hterminal).mp hv
          refine (stateReplyMerit?_on hterminal).mpr ⟨ms, hms, values, ?_, hmax⟩
          exact mapM_eq_some_of_imp hvalues fun m _ w hw =>
            moveReplyWorth?_of_imp (fun t u hu => ih (Nat.le_of_succ_le_succ hle) hu) hw

theorem replies?_ne_nil {joints : List JointMove} (h : g.replies? b s m = some joints) :
    joints ≠ [] := by
  obtain ⟨lists, -, h⟩ := Option.bind_eq_some_iff.mp h
  cases h
  split
  · exact List.cons_ne_nil _ _
  · rename_i hne
    simpa [List.isEmpty_iff] using hne

/-- Where all replies to a move lead to states with a merit, so has the move. -/
theorem exists_moveReplyMerit {rest : State → Option Nat} {ends : State → Prop}
    (hrest : ∀ t, ends t → ∃ v, rest t = some v) (h : g.MoveRepliesEnd b ends s m) :
    ∃ v, g.moveReplyWorth? b rest s m = some v := by
  obtain ⟨joints, hjoints, hall⟩ := h
  obtain ⟨values, hvalues, v, hv⟩ := exists_least_worth (replies?_ne_nil hjoints)
    fun j hj => (hall j hj).imp fun t ht => ⟨ht.1, hrest t ht.2⟩
  exact ⟨v, moveReplyWorth?_eq_some.mpr ⟨joints, hjoints, values, hvalues, hv⟩⟩

/-- Where the tree of replies ends, every state has a merit. -/
theorem exists_stateReplyMerit {plies : Nat} (h : g.RepliesEnd b plies s) :
    ∃ v, g.stateReplyMerit? b plies s = some v := by
  induction plies generalizing s with
  | zero => exact h.elim
  | succ plies ih =>
      rw [RepliesEnd] at h
      cases hterminal : g.isTerminal s with
      | true =>
          rw [if_pos hterminal] at h
          obtain ⟨v, hv⟩ := h
          rw [stateReplyMerit?, if_pos hterminal]
          exact ⟨v, toOption_eq_some.mpr hv⟩
      | false =>
          rw [if_neg (by rw [hterminal]; exact Bool.false_ne_true)] at h
          obtain ⟨ms, hms, hall⟩ := h
          obtain ⟨values, hvalues, v, hv⟩ := exists_greatest_worth ms.property
            fun m hm => exists_moveReplyMerit (fun t ht => ih ht) (hall m hm)
          exact ⟨v, (stateReplyMerit?_on hterminal).mpr ⟨ms, hms, values, hvalues, hv⟩⟩

theorem moveReplyWorth?_le {rest : State → Option Nat} {v : Nat}
    (hrest : ∀ t w, rest t = some w → w ≤ topGoal) (hv : g.moveReplyWorth? b rest s m = some v) :
    v ≤ topGoal := by
  obtain ⟨joints, -, values, hvalues, hmin⟩ := moveReplyWorth?_eq_some.mp hv
  have hall : ∀ w ∈ values, w ≤ topGoal := by
    refine forall_mem_of_mapM_eq_some hvalues fun j _ w hw => ?_
    obtain ⟨t, -, ht⟩ := Option.bind_eq_some_iff.mp hw
    exact hrest t w ht
  exact hall v (List.min?_mem hmin)

theorem stateReplyWorth?_le {plies v : Nat} (hv : g.stateReplyWorth? b plies s = some v) :
    v ≤ topGoal := by
  induction plies generalizing s v with
  | zero => cases hv
  | succ plies ih =>
      cases hterminal : g.isTerminal s with
      | true =>
          rw [stateReplyWorth?, if_pos hterminal] at hv
          exact (goalOnScale?_eq_some.mp hv).2
      | false =>
          obtain ⟨ms, -, values, hvalues, hmax⟩ := (stateReplyWorth?_on hterminal).mp hv
          have hall : ∀ w ∈ values, w ≤ topGoal :=
            forall_mem_of_mapM_eq_some hvalues fun m _ w hw =>
              moveReplyWorth?_le (fun t u hu => ih hu) hw
          exact hall v (List.max?_mem hmax)

/-- Merits are goals, so they are on the scale if all goals are. -/
theorem stateReplyMerit?_le (hgoals : ∀ t v, g.goal t b.role = .ok v → v ≤ topGoal) {plies v : Nat}
    (hv : g.stateReplyMerit? b plies s = some v) : v ≤ topGoal := by
  induction plies generalizing s v with
  | zero => cases hv
  | succ plies ih =>
      cases hterminal : g.isTerminal s with
      | true =>
          rw [stateReplyMerit?, if_pos hterminal] at hv
          exact hgoals s v (toOption_eq_some.mp hv)
      | false =>
          obtain ⟨ms, -, values, hvalues, hmax⟩ := (stateReplyMerit?_on hterminal).mp hv
          have hall : ∀ w ∈ values, w ≤ topGoal :=
            forall_mem_of_mapM_eq_some hvalues fun m _ w hw =>
              moveReplyWorth?_le (fun t u hu => ih hu) hw
          exact hall v (List.max?_mem hmax)

/-! ### One role or two -/

theorem exists_moves_of_jointMovesWith {role r : RoleId} {joints : List JointMove}
    (hjoints : g.jointMovesWith s role m = .ok joints) (hr : r ∈ RoleId.all g.roleCount)
    (hne : r ≠ role) : ∃ ms, g.moves s r = .ok ms := by
  obtain ⟨lists, hlists, -⟩ := (jointMovesOf_eq_ok fun _ _ => ne_nil_of_pinned).mp hjoints
  obtain ⟨entry, -, hentry⟩ := exists_of_mem_forall₂ (mapM_eq_ok_iff.mp hlists) hr
  rw [pinned, if_neg hne] at hentry
  obtain ⟨ms, hms, -⟩ := exists_of_bind_eq_ok hentry
  exact ⟨ms, hms⟩

/-- With one role, or two, the replies are the legal joint moves. -/
theorem replies?_eq (hcount : b.roleCount = g.roleCount)
    (hroles : g.roleCount = 1 ∨ g.roleCount = 2) (hrole : b.role.index < g.roleCount)
    {joints : List JointMove} (hjoints : g.jointMovesWith s b.role m = .ok joints) :
    g.replies? b s m = some joints := by
  rcases hroles with hroles | hroles
  · have hself : b.role = .ofIndex 0 := by
      have hfirst : b.role.index = 0 := by omega
      rw [← hfirst, b.role.ofIndex_index]
    rw [hself, jointMovesWith_alone hroles] at hjoints
    cases hjoints
    rw [replies?, Brief.placeholder, hcount, hroles, hself]
    rfl
  · rw [hroles] at hrole
    obtain ⟨o, hopponent, hwith⟩ := exists_opponent (s := s) hroles hrole
    have hother : o ∈ RoleId.all 2 ∧ o ≠ b.role := by
      have hmem : o ∈ (RoleId.all 2).filter (· ≠ b.role) := hopponent ▸ List.mem_singleton_self o
      simpa using hmem
    obtain ⟨ms, hms⟩ := exists_moves_of_jointMovesWith hjoints (hroles ▸ hother.1) hother.2
    have hanswer : (g.moves s o).toOption = some ms := toOption_eq_some.mpr hms
    rw [hwith ms m hms] at hjoints
    split at hjoints
    · cases hjoints
      rw [replies?, Brief.placeholder, hcount, hroles, hopponent, List.mapM_cons, List.mapM_nil,
        hanswer]
      simp [ms.property]
    · cases hjoints

/-- With one role, or two, a move has the same worth in both games. -/
theorem moveReplyWorth?_of_moveWorth (hcount : b.roleCount = g.roleCount)
    (hroles : g.roleCount = 1 ∨ g.roleCount = 2) (hrole : b.role.index < g.roleCount)
    {rest rest' : State → Option Nat} {v : Nat} (hrest : ∀ t w, rest t = some w → rest' t = some w)
    (hv : g.moveWorth? b.role rest s m = some v) : g.moveReplyWorth? b rest' s m = some v := by
  simp only [moveWorth?, Option.bind_eq_bind, Option.bind_eq_some_iff] at hv
  obtain ⟨joints, hjoints, values, hvalues, hmin⟩ := hv
  have hreplies := replies?_eq hcount hroles hrole (toOption_eq_some.mp hjoints)
  refine moveReplyWorth?_eq_some.mpr ⟨joints, hreplies, values, ?_, hmin⟩
  refine mapM_eq_some_of_imp hvalues fun j _ w hw => ?_
  obtain ⟨t, ht, hw⟩ := Option.bind_eq_some_iff.mp hw
  exact Option.bind_eq_some_iff.mpr ⟨t, ht, hrest t w hw⟩

theorem stateReplyWorth?_of_stateWorth (hcount : b.roleCount = g.roleCount)
    (hroles : g.roleCount = 1 ∨ g.roleCount = 2) (hrole : b.role.index < g.roleCount)
    {plies level v : Nat} (hv : g.stateWorth? b none plies level s = some v) :
    g.stateReplyWorth? b plies s = some v := by
  induction plies generalizing s level v with
  | zero => cases hv
  | succ plies ih =>
      cases hterminal : g.isTerminal s with
      | true =>
          rw [stateWorth?, if_pos hterminal] at hv
          rw [stateReplyWorth?, if_pos hterminal, hv]
      | false =>
          obtain ⟨ms, hms, values, hvalues, hmax⟩ := (stateWorth?_on hterminal).mp hv
          refine (stateReplyWorth?_on hterminal).mpr ⟨ms, hms, values, ?_, hmax⟩
          exact mapM_eq_some_of_imp hvalues fun m _ w hw =>
            moveReplyWorth?_of_moveWorth hcount hroles hrole (fun t u hu => ih hu) hw

end Game

end GeneralGame
