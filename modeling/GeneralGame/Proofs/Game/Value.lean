import GeneralGame.Proofs.Game.Legal
import GeneralGame.Proofs.Search.Worth

/-!
Worth in finite games. Where every play ends within some plies every state on the way has a worth,
and so has every legal move. A move that is worth something keeps that much, whatever the others do;
and a state is worth what its best move is worth.
-/
namespace GeneralGame

variable {α β : Type}

theorem exists_mapM_eq_some {f : α → Option β} {xs : List α} (h : ∀ x ∈ xs, ∃ y, f x = some y) :
    ∃ ys, xs.mapM f = some ys := by
  induction xs with
  | nil => exact ⟨[], rfl⟩
  | cons x xs ih =>
      obtain ⟨y, hy⟩ := h x List.mem_cons_self
      obtain ⟨ys, hys⟩ := ih fun z hz => h z (List.mem_cons_of_mem x hz)
      exact ⟨y :: ys, mapM_cons_eq_some.mpr ⟨y, ys, hy, hys, rfl⟩⟩

theorem exists_mem_of_mapM_eq_some {f : α → Option β} {xs : List α} {ys : List β}
    (h : xs.mapM f = some ys) {x : α} (hx : x ∈ xs) : ∃ y ∈ ys, f x = some y := by
  induction xs generalizing ys with
  | nil => cases hx
  | cons z xs ih =>
      obtain ⟨y, rest, hy, hrest, rfl⟩ := mapM_cons_eq_some.mp h
      rcases List.mem_cons.mp hx with rfl | hx
      · exact ⟨y, List.mem_cons_self, hy⟩
      · obtain ⟨u, hu, hfu⟩ := ih hrest hx
        exact ⟨u, List.mem_cons_of_mem y hu, hfu⟩

theorem ne_nil_of_mapM_eq_some {f : α → Option β} {xs : List α} {ys : List β}
    (h : xs.mapM f = some ys) (hxs : xs ≠ []) : ys ≠ [] := by
  obtain ⟨x, hx⟩ := List.exists_mem_of_ne_nil xs hxs
  obtain ⟨y, hy, -⟩ := exists_mem_of_mapM_eq_some h hx
  exact List.ne_nil_of_mem hy

namespace Game

variable {g : Game} {b : Brief} {s t : State} {m : Move} {j : JointMove} {plies level v : Nat}

/-- The worth of a state in which the game is not over: that of the best move. -/
theorem stateWorth?_on (hon : g.isTerminal s = false) :
    g.stateWorth? b none (plies + 1) level s = some v ↔
      ∃ ms, g.moves s b.role = .ok ms ∧ ∃ values,
        ms.val.mapM (g.moveWorth? b.role (g.stateWorth? b none plies (level + 1)) s) =
          some values ∧ values.max? = some v := by
  rw [stateWorth?, if_neg (by rw [hon]; exact Bool.false_ne_true), ite_self]
  simp only [Option.bind_eq_bind, Option.bind_eq_some_iff, toOption_eq_some]

/-- Without a heuristic the level makes no difference. -/
theorem stateWorth?_level (level level' : Nat) :
    g.stateWorth? b none plies level = g.stateWorth? b none plies level' := by
  induction plies generalizing level level' with
  | zero => rfl
  | succ plies ih =>
      funext s
      rw [stateWorth?, stateWorth?, ite_self, ite_self, ih (level + 1) (level' + 1)]

/-- If every joint move leads to a state that has a worth, then one of these worths is the least. -/
theorem exists_least_worth {rest : State → Option Nat} {joints : List JointMove}
    (hne : joints ≠ []) (h : ∀ j ∈ joints, ∃ t, g.next s j = .ok t ∧ ∃ v, rest t = some v) :
    ∃ values, (joints.mapM fun j => (g.next s j).toOption.bind rest) = some values ∧
      ∃ v, values.min? = some v := by
  have hvalues : ∃ values, (joints.mapM fun j => (g.next s j).toOption.bind rest) = some values := by
    apply exists_mapM_eq_some
    intro j hj
    obtain ⟨t, ht, v, hv⟩ := h j hj
    exact ⟨v, Option.bind_eq_some_iff.mpr ⟨t, toOption_eq_some.mpr ht, hv⟩⟩
  obtain ⟨values, hvalues⟩ := hvalues
  have hne' := ne_nil_of_mapM_eq_some hvalues hne
  exact ⟨values, hvalues, Option.ne_none_iff_exists'.mp (mt List.min?_eq_none_iff.mp hne')⟩

/-- If every move has a worth, then one of these worths is the greatest. -/
theorem exists_greatest_worth {worth : Move → Option Nat} {ms : List Move} (hne : ms ≠ [])
    (h : ∀ m ∈ ms, ∃ v, worth m = some v) :
    ∃ values, ms.mapM worth = some values ∧ ∃ v, values.max? = some v := by
  obtain ⟨values, hvalues⟩ := exists_mapM_eq_some h
  have hne' := ne_nil_of_mapM_eq_some hvalues hne
  exact ⟨values, hvalues, Option.ne_none_iff_exists'.mp (mt List.max?_eq_none_iff.mp hne')⟩

theorem exists_moveWorth {rest : State → Option Nat} {joints : List JointMove}
    (hjoints : g.jointMovesWith s b.role m = .ok joints)
    (hrole : b.role ∈ RoleId.all g.roleCount) (hm : g.CanPlay s b.role m)
    (hrest : ∀ j, g.IsLegal s j → ∃ t, g.next s j = .ok t ∧ ∃ v, rest t = some v) :
    ∃ v, g.moveWorth? b.role rest s m = some v := by
  obtain ⟨values, hvalues, v, hv⟩ := exists_least_worth (jointMovesWith_ne_nil hjoints)
    fun j hj => hrest j ((mem_jointMovesWith hrole hm hjoints).mp hj).1
  refine ⟨v, ?_⟩
  simp only [moveWorth?, Option.bind_eq_bind, Option.bind_eq_some_iff]
  exact ⟨joints, toOption_eq_some.mpr hjoints, values, hvalues, hv⟩

/-- Where play ends within `plies` plies, the tree of one ply more gives the state a worth. -/
theorem exists_stateWorth (hrole : b.role ∈ RoleId.all g.roleCount)
    (hgoals : ∀ t v, g.goal t b.role = .ok v → v ≤ topGoal)
    (h : g.EndsWithin b.role (g.CanPlay · b.role) g.IsLegal plies s) :
    ∃ v, g.stateWorth? b none (plies + 1) level s = some v := by
  induction h generalizing level with
  | @ended plies s v hterminal hgoal =>
      refine ⟨v, ?_⟩
      rw [stateWorth?, if_pos hterminal]
      exact goalOnScale?_eq_some.mpr ⟨hgoal, hgoals s v hgoal⟩
  | @going plies s hon hmoves hjoints hnext _ ih =>
      obtain ⟨ms, hms⟩ := hmoves b.role hrole
      have hworth : ∀ m ∈ ms.val, ∃ v,
          g.moveWorth? b.role (g.stateWorth? b none (plies + 1) (level + 1)) s m = some v := by
        intro m hm
        have hcan := (mem_moves_iff hms).mp hm
        obtain ⟨joints, hlist⟩ := hjoints m hcan
        apply exists_moveWorth hlist hrole hcan
        intro j hj
        obtain ⟨t, ht⟩ := hnext j hj
        exact ⟨t, ht, ih j t hj ht⟩
      obtain ⟨values, hvalues, v, hv⟩ := exists_greatest_worth ms.property hworth
      exact ⟨v, (stateWorth?_on hon).mpr ⟨ms, hms, values, hvalues, hv⟩⟩

/-- Whatever the others do, a move leads to a state that is worth no less. -/
theorem le_of_moveWorth {rest : State → Option Nat} (hrole : b.role ∈ RoleId.all g.roleCount)
    (hm : g.CanPlay s b.role m) (hv : g.moveWorth? b.role rest s m = some v)
    (hlegal : g.IsLegal s j) (hmove : j.get? b.role = some m) :
    ∃ t x, g.next s j = .ok t ∧ rest t = some x ∧ v ≤ x := by
  simp only [moveWorth?, Option.bind_eq_bind, Option.bind_eq_some_iff] at hv
  obtain ⟨joints, hjoints, values, hvalues, hmin⟩ := hv
  have hj := (mem_jointMovesWith hrole hm (toOption_eq_some.mp hjoints)).mpr ⟨hlegal, hmove⟩
  obtain ⟨x, hx, hbind⟩ := exists_mem_of_mapM_eq_some hvalues hj
  obtain ⟨t, ht, hrest⟩ := Option.bind_eq_some_iff.mp hbind
  exact ⟨t, x, toOption_eq_some.mp ht, hrest, (List.min?_eq_some_iff.mp hmin).2 x hx⟩

/-- A move is worth the least of what follows its legal joint moves. -/
theorem moveWorth?_of_least {rest : State → Option Nat} {joints : List JointMove}
    (hjoints : g.jointMovesWith s b.role m = .ok joints)
    (hrole : b.role ∈ RoleId.all g.roleCount) (hm : g.CanPlay s b.role m)
    (hrest : ∀ j, g.IsLegal s j → j.get? b.role = some m →
      ∃ t x, g.next s j = .ok t ∧ rest t = some x ∧ v ≤ x)
    (hleast : ∃ j t, g.IsLegal s j ∧ j.get? b.role = some m ∧ g.next s j = .ok t ∧ rest t = some v) :
    g.moveWorth? b.role rest s m = some v := by
  have hworth : ∀ j ∈ joints, ∃ x, (g.next s j).toOption.bind rest = some x ∧ v ≤ x := by
    intro j hj
    obtain ⟨hlegal, hmove⟩ := (mem_jointMovesWith hrole hm hjoints).mp hj
    obtain ⟨t, x, ht, hx, hle⟩ := hrest j hlegal hmove
    exact ⟨x, Option.bind_eq_some_iff.mpr ⟨t, toOption_eq_some.mpr ht, hx⟩, hle⟩
  obtain ⟨values, hvalues⟩ := exists_mapM_eq_some fun j hj => (hworth j hj).imp fun _ => And.left
  have hmin : values.min? = some v := by
    rw [List.min?_eq_some_iff]
    constructor
    · obtain ⟨j, t, hlegal, hmove, ht, hv⟩ := hleast
      have hj := (mem_jointMovesWith hrole hm hjoints).mpr ⟨hlegal, hmove⟩
      obtain ⟨x, hx, hbind⟩ := exists_mem_of_mapM_eq_some hvalues hj
      rw [toOption_eq_some.mpr ht] at hbind
      exact Option.some.inj (hv.symm.trans hbind) ▸ hx
    · refine forall_mem_of_mapM_eq_some hvalues fun j hj x hx => ?_
      obtain ⟨y, hy, hle⟩ := hworth j hj
      rw [hy] at hx
      exact Option.some.inj hx ▸ hle
  simp only [moveWorth?, Option.bind_eq_bind, Option.bind_eq_some_iff]
  exact ⟨joints, toOption_eq_some.mpr hjoints, values, hvalues, hmin⟩

/-- A state is worth what its best move is worth. -/
theorem stateWorth?_of_best (hon : g.isTerminal s = false) {ms : { ms : List Move // ms ≠ [] }}
    (hms : g.moves s b.role = .ok ms)
    (hall : ∀ m, g.CanPlay s b.role m →
      ∃ x, g.moveWorth? b.role (g.stateWorth? b none plies (level + 1)) s m = some x ∧ x ≤ v)
    (hbest : ∃ m, g.CanPlay s b.role m ∧
      g.moveWorth? b.role (g.stateWorth? b none plies (level + 1)) s m = some v) :
    g.stateWorth? b none (plies + 1) level s = some v := by
  have hworth : ∀ m ∈ ms.val, ∃ x,
      g.moveWorth? b.role (g.stateWorth? b none plies (level + 1)) s m = some x ∧ x ≤ v :=
    fun m hm => hall m ((mem_moves_iff hms).mp hm)
  obtain ⟨values, hvalues⟩ := exists_mapM_eq_some fun m hm => (hworth m hm).imp fun _ => And.left
  refine (stateWorth?_on hon).mpr ⟨ms, hms, values, hvalues, List.max?_eq_some_iff.mpr ⟨?_, ?_⟩⟩
  · obtain ⟨m, hm, hv⟩ := hbest
    obtain ⟨x, hx, hxv⟩ := exists_mem_of_mapM_eq_some hvalues ((mem_moves_iff hms).mpr hm)
    exact Option.some.inj (hv.symm.trans hxv) ▸ hx
  · refine forall_mem_of_mapM_eq_some hvalues fun m hm x hx => ?_
    obtain ⟨y, hy, hle⟩ := hworth m hm
    rw [hy] at hx
    exact Option.some.inj hx ▸ hle

/-- Among the legal moves of a state there is a best one, and the state is worth as much. -/
theorem stateWorth?_eq_best (hon : g.isTerminal s = false)
    (hv : g.stateWorth? b none (plies + 1) level s = some v) :
    (∀ m, g.CanPlay s b.role m →
        ∃ x, g.moveWorth? b.role (g.stateWorth? b none plies (level + 1)) s m = some x ∧ x ≤ v) ∧
      ∃ m, g.CanPlay s b.role m ∧
        g.moveWorth? b.role (g.stateWorth? b none plies (level + 1)) s m = some v := by
  obtain ⟨ms, hms, values, hvalues, hmax⟩ := (stateWorth?_on hon).mp hv
  obtain ⟨hmem, hle⟩ := List.max?_eq_some_iff.mp hmax
  constructor
  · intro m hm
    obtain ⟨x, hx, hworth⟩ := exists_mem_of_mapM_eq_some hvalues ((mem_moves_iff hms).mpr hm)
    exact ⟨x, hworth, hle x hx⟩
  · have hsource : ∀ x ∈ values, ∃ m, g.CanPlay s b.role m ∧
        g.moveWorth? b.role (g.stateWorth? b none plies (level + 1)) s m = some x :=
      forall_mem_of_mapM_eq_some hvalues fun m hm x hx => ⟨m, (mem_moves_iff hms).mp hm, hx⟩
    exact hsource v hmem

end Game

end GeneralGame
