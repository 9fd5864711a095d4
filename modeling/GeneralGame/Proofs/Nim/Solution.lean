import GeneralGame.Proofs.Nim.Refinement
import GeneralGame.Proofs.Player.SelfPlay

/-!
The solution of Nim. Whoever leaves a multiple of three objects wins, and takes what completes the
other's taking to three from then on. An exhaustive player finds these moves on the net of Nim for a
pile of any size, and the first move where all of them lose. So white wins a pile that both parts
play in this way unless it starts with a multiple of three.
-/
namespace GeneralGame.Nim

open Player

namespace Position

/-- Who wins from a position if both play their best. -/
def winner (p : Position) : RoleId := if p.left % 3 = 0 then p.opponent else p.mover

def worth (p : Position) (r : RoleId) : Nat := if r = p.winner then 100 else 0

/-- The move that leaves a multiple of three, and the first one where there is none. -/
def best (p : Position) : Move := if p.left % 3 = 2 then take2 else take1

end Position

/-- How many objects a move takes. -/
def taken (a : Move) : Nat := if a = take2 then 2 else 1

section

variable {n plies level v : Nat} {p : Position} {m : Machine} {b : Brief} {r : RoleId} {a : Move}

/-! ### Who wins -/

theorem taken_fst {taking : Move × Nat} (ht : taking ∈ takings) : taken taking.1 = taking.2 := by
  have hall : ∀ entry ∈ takings, taken entry.1 = entry.2 := by decide
  exact hall taking ht

theorem Position.Valid.opponent_ne (hp : p.Valid n) : p.opponent ≠ p.mover := by
  rw [Position.opponent]
  rcases hp.mover with hmover | hmover
  · rw [if_pos hmover, hmover]
    exact white_ne_black.symm
  · rw [if_neg (hmover ▸ white_ne_black.symm), hmover]
    exact white_ne_black

theorem Position.Valid.role_cases (hp : p.Valid n) (hr : r = white ∨ r = black) :
    r = p.mover ∨ r = p.opponent := by
  rw [Position.opponent]
  rcases hp.mover with hmover | hmover
  · rwa [if_pos hmover, hmover]
  · rw [if_neg (hmover ▸ white_ne_black.symm), hmover]
    exact hr.symm

theorem Position.Valid.opponent_take (hp : p.Valid n) (t : Nat) : (p.take t).opponent = p.mover := by
  rw [Position.opponent]
  rcases hp.mover with hmover | hmover
  · rw [if_neg ((hp.white_after t).not.mpr (hmover ▸ white_ne_black)), hmover]
  · rw [if_pos ((hp.white_after t).mpr hmover), hmover]

theorem Position.Valid.winner_take (hp : p.Valid n) (t : Nat) :
    (p.take t).winner = if (p.left - t) % 3 = 0 then p.mover else p.opponent := by
  rw [Position.winner, hp.opponent_take]
  rfl

theorem Position.Valid.worth_mover (hp : p.Valid n) :
    p.worth p.mover = if p.left % 3 = 0 then 0 else 100 := by
  rw [Position.worth, Position.winner]
  split
  · exact if_neg hp.opponent_ne.symm
  · exact if_pos rfl

theorem Position.Valid.worth_opponent (hp : p.Valid n) :
    p.worth p.opponent = if p.left % 3 = 0 then 100 else 0 := by
  rw [Position.worth, Position.winner]
  split
  · exact if_pos rfl
  · exact if_neg hp.opponent_ne

theorem Position.Valid.worth_mover_take (hp : p.Valid n) (t : Nat) :
    (p.take t).worth p.mover = if (p.left - t) % 3 = 0 then 100 else 0 := by
  rw [Position.worth, hp.winner_take]
  split
  · exact if_pos rfl
  · exact if_neg hp.opponent_ne.symm

theorem Position.Valid.worth_opponent_take (hp : p.Valid n) (t : Nat) :
    (p.take t).worth p.opponent = if (p.left - t) % 3 = 0 then 0 else 100 := by
  rw [Position.worth, hp.winner_take]
  split
  · exact if_neg hp.opponent_ne
  · exact if_pos rfl

/-- No move makes a position worth more to the mover. -/
theorem Position.Valid.worth_mover_take_le (hp : p.Valid n) {taking : Move × Nat}
    (ht : taking ∈ takings) (hle : taking.2 ≤ p.left) :
    (p.take taking.2).worth p.mover ≤ p.worth p.mover := by
  obtain ⟨hone, htwo⟩ := taking_bounds ht
  rw [hp.worth_mover, hp.worth_mover_take]
  split <;> split <;> omega

/-- No move makes a position worth less to the opponent. -/
theorem Position.Valid.worth_opponent_le_take (hp : p.Valid n) {taking : Move × Nat}
    (ht : taking ∈ takings) (hle : taking.2 ≤ p.left) :
    p.worth p.opponent ≤ (p.take taking.2).worth p.opponent := by
  obtain ⟨hone, htwo⟩ := taking_bounds ht
  rw [hp.worth_opponent, hp.worth_opponent_take]
  split <;> split <;> omega

theorem Position.goal_le (p : Position) (r : RoleId) : p.goal r ≤ topGoal := by
  rw [Position.goal]
  split
  · exact Nat.le_refl 100
  · exact Nat.zero_le 100

/-- A position that is over is worth the goals. -/
theorem Position.Valid.worth_of_over (hp : p.Valid n) (hleft : p.left = 0)
    (hr : r = white ∨ r = black) : p.goal r = p.worth r := by
  rcases hp.role_cases hr with rfl | rfl
  · rw [Position.goal, if_neg (fun h => h.2 rfl), hp.worth_mover, hleft]
    rfl
  · rw [Position.goal, if_pos ⟨hleft, hp.opponent_ne⟩, hp.worth_opponent, hleft]
    rfl

/-- The best move takes objects that are there. -/
theorem Position.exists_best (hleft : p.left ≠ 0) :
    ∃ taking ∈ takings, taking.2 ≤ p.left ∧ p.best = taking.1 := by
  rw [Position.best]
  split
  · exact ⟨(take2, 2), List.mem_cons_of_mem _ List.mem_cons_self, by dsimp only; omega, rfl⟩
  · exact ⟨(take1, 1), List.mem_cons_self, Nat.one_le_iff_ne_zero.mpr hleft, rfl⟩

/-- The best move keeps the winner. -/
theorem Position.Valid.winner_best (hp : p.Valid n) (hleft : p.left ≠ 0) :
    (p.take (taken p.best)).winner = p.winner := by
  rw [hp.winner_take, Position.winner, Position.best]
  by_cases htwo : p.left % 3 = 2
  · have htaken : taken take2 = 2 := rfl
    rw [if_pos htwo, htaken, if_pos (by omega), if_neg (by omega)]
  · have htaken : taken take1 = 1 := rfl
    rw [if_neg htwo, htaken]
    by_cases hzero : p.left % 3 = 0
    · rw [if_neg (by omega), if_pos hzero]
    · rw [if_pos (by omega), if_neg hzero]

theorem Position.Valid.worth_best (hp : p.Valid n) (hleft : p.left ≠ 0) (r : RoleId) :
    (p.take (taken p.best)).worth r = p.worth r := by
  rw [Position.worth, Position.worth, hp.winner_best hleft]

/-! ### What positions are worth -/

theorem Position.legal_ne_nil (hleft : p.left ≠ 0) (r : RoleId) : p.legal r ≠ [] := by
  rw [Position.legal, if_neg hleft]
  split
  · exact List.cons_ne_nil _ _
  · split <;> exact List.cons_ne_nil _ _

theorem Answers.roleCount (ha : Answers n m) : m.toGame.roleCount = 2 :=
  congrArg List.length ha.roles

theorem Answers.moves (ha : Answers n m) (hp : p.Valid n) (hleft : p.left ≠ 0)
    (hr : r = white ∨ r = black) :
    m.toGame.moves (p.state n) r = .ok ⟨p.legal r, p.legal_ne_nil hleft r⟩ :=
  Game.moves_eq_ok.mpr (ha.legal p hp r (by simpa using hr))

theorem Position.length_legal_le (p : Position) (r : RoleId) : (p.legal r).length ≤ 2 := by
  unfold Position.legal
  split
  · exact Nat.zero_le 2
  · split
    · exact Nat.le_succ 1
    · split
      · exact Nat.le_succ 1
      · exact Nat.le_refl 2

theorem Answers.exists_jointMovesWith (ha : Answers n m) (hp : p.Valid n) (hleft : p.left ≠ 0)
    (r : RoleId) (a : Move) : ∃ joints, m.toGame.jointMovesWith (p.state n) r a = .ok joints := by
  refine Game.exists_jointMovesWith 2 Nat.two_pos ?_ (fun q hq => ?_) r a
  · rw [ha.roleCount]
    decide
  · rw [ha.roleCount, RoleId.mem_all] at hq
    exact ⟨_, ha.moves hp hleft (role_cases.mp hq), p.length_legal_le q⟩

theorem Answers.mem_all (ha : Answers n m) (hr : r = white ∨ r = black) :
    r ∈ RoleId.all m.toGame.roleCount := by
  rw [ha.roleCount, RoleId.mem_all]
  exact role_cases.mpr hr

theorem Answers.canPlay_iff (ha : Answers n m) (hp : p.Valid n) (hr : r = white ∨ r = black) :
    m.toGame.CanPlay (p.state n) r a ↔ a ∈ p.legal r := by
  have hanswer : m.toGame.legal (p.state n) r = .ok (p.legal r) := ha.legal p hp r (by simpa using hr)
  simp only [Game.CanPlay, hanswer, Except.ok.injEq, exists_eq_left']

theorem turn_get?_mover (hp : p.Valid n) (a : Move) : (p.turn a).get? p.mover = some a := by
  rcases hp.mover with hmover | hmover
  · rw [turn_white hmover, hmover]
    rfl
  · rw [turn_black hmover, hmover]
    rfl

theorem turn_get?_opponent (hp : p.Valid n) (a : Move) :
    (p.turn a).get? p.opponent = some .noop := by
  rw [Position.opponent]
  rcases hp.mover with hmover | hmover
  · rw [turn_white hmover, if_pos hmover]
    rfl
  · rw [turn_black hmover, if_neg (hmover ▸ white_ne_black.symm)]
    rfl

variable {rest : State → Option Nat}

/-- The mover's move is worth what it leads to. -/
theorem Answers.moveWorth_mover (ha : Answers n m) (hp : p.Valid n) (hrole : b.role = p.mover)
    {taking : Move × Nat} (ht : taking ∈ takings) (hle : taking.2 ≤ p.left)
    (hrest : rest ((p.take taking.2).state n) = some v) :
    m.toGame.moveWorth? b.role rest (p.state n) taking.1 = some v := by
  have hleft : p.left ≠ 0 := Nat.ne_of_gt (Nat.lt_of_lt_of_le (taking_bounds ht).1 hle)
  have hmove : m.toGame.CanPlay (p.state n) b.role taking.1 := by
    rw [ha.canPlay_iff hp (hrole ▸ hp.mover), hrole, Position.mem_legal_mover]
    exact ⟨taking, ht, hle, rfl⟩
  obtain ⟨joints, hjoints⟩ := ha.exists_jointMovesWith hp hleft b.role taking.1
  apply Game.moveWorth?_of_least hjoints (ha.mem_all (hrole ▸ hp.mover)) hmove
  · intro j hj hget
    obtain ⟨other, hother, hle', rfl⟩ := (ha.isLegal p hp j).mp hj
    rw [hrole, turn_get?_mover hp, Option.some.injEq] at hget
    have hsame : other.2 = taking.2 := by rw [← taken_fst hother, hget, taken_fst ht]
    exact ⟨_, v, ha.next p hp other hother hle', hsame ▸ hrest, Nat.le_refl v⟩
  · refine ⟨p.turn taking.1, _, (ha.isLegal p hp _).mpr ⟨taking, ht, hle, rfl⟩, ?_,
      ha.next p hp taking ht hle, hrest⟩
    rw [hrole, turn_get?_mover hp]

/-- To wait is worth the least of what the mover's moves lead to. -/
theorem Answers.moveWorth_opponent (ha : Answers n m) (hp : p.Valid n) (hrole : b.role = p.opponent)
    (hother : b.role = white ∨ b.role = black) (hleft : p.left ≠ 0)
    (hrest : ∀ taking ∈ takings, taking.2 ≤ p.left →
      ∃ x, rest ((p.take taking.2).state n) = some x ∧ v ≤ x)
    (hleast : ∃ taking ∈ takings, taking.2 ≤ p.left ∧ rest ((p.take taking.2).state n) = some v) :
    m.toGame.moveWorth? b.role rest (p.state n) .noop = some v := by
  have hmove : m.toGame.CanPlay (p.state n) b.role .noop := by
    rw [ha.canPlay_iff hp hother, hrole, Position.mem_legal_other hp.opponent_ne]
    exact ⟨Nat.one_le_iff_ne_zero.mpr hleft, rfl⟩
  obtain ⟨joints, hjoints⟩ := ha.exists_jointMovesWith hp hleft b.role .noop
  apply Game.moveWorth?_of_least hjoints (ha.mem_all hother) hmove
  · intro j hj _
    obtain ⟨taking, ht, hle, rfl⟩ := (ha.isLegal p hp j).mp hj
    obtain ⟨x, hx, hvx⟩ := hrest taking ht hle
    exact ⟨_, x, ha.next p hp taking ht hle, hx, hvx⟩
  · obtain ⟨taking, ht, hle, hv⟩ := hleast
    refine ⟨p.turn taking.1, _, (ha.isLegal p hp _).mpr ⟨taking, ht, hle, rfl⟩, ?_,
      ha.next p hp taking ht hle, hv⟩
    rw [hrole, turn_get?_opponent hp]

/-- No move of a role is worth more to it than the position, and one is worth as much. -/
theorem Answers.worth_moves (ha : Answers n m) (hp : p.Valid n) (hleft : p.left ≠ 0)
    (hrole : b.role = white ∨ b.role = black)
    (hrest : ∀ taking ∈ takings, taking.2 ≤ p.left →
      rest ((p.take taking.2).state n) = some ((p.take taking.2).worth b.role)) :
    (∀ a, m.toGame.CanPlay (p.state n) b.role a →
        ∃ x, m.toGame.moveWorth? b.role rest (p.state n) a = some x ∧ x ≤ p.worth b.role) ∧
      ∃ a, m.toGame.CanPlay (p.state n) b.role a ∧
        m.toGame.moveWorth? b.role rest (p.state n) a = some (p.worth b.role) := by
  obtain ⟨best, hbest, hle, hname⟩ := Position.exists_best hleft
  have hkeeps := hrest best hbest hle
  rw [← taken_fst hbest, ← hname, hp.worth_best hleft, hname, taken_fst hbest] at hkeeps
  rcases hp.role_cases hrole with hself | hother
  · refine ⟨fun a ha' => ?_, best.1, ?_, ha.moveWorth_mover hp hself hbest hle hkeeps⟩
    · rw [ha.canPlay_iff hp hrole, hself, Position.mem_legal_mover] at ha'
      obtain ⟨taking, ht, hle', rfl⟩ := ha'
      exact ⟨_, ha.moveWorth_mover hp hself ht hle' (hrest taking ht hle'),
        hself ▸ hp.worth_mover_take_le ht hle'⟩
    · rw [ha.canPlay_iff hp hrole, hself, Position.mem_legal_mover]
      exact ⟨best, hbest, hle, rfl⟩
  · have hwait : m.toGame.moveWorth? b.role rest (p.state n) .noop = some (p.worth b.role) := by
      refine ha.moveWorth_opponent hp hother hrole hleft (fun taking ht hle' => ?_)
        ⟨best, hbest, hle, hkeeps⟩
      exact ⟨_, hrest taking ht hle', hother ▸ hp.worth_opponent_le_take ht hle'⟩
    refine ⟨fun a ha' => ?_, .noop, ?_, hwait⟩
    · rw [ha.canPlay_iff hp hrole, hother, Position.mem_legal_other hp.opponent_ne] at ha'
      obtain ⟨-, rfl⟩ := ha'
      exact ⟨_, hwait, Nat.le_refl _⟩
    · rw [ha.canPlay_iff hp hrole, hother, Position.mem_legal_other hp.opponent_ne]
      exact ⟨Nat.one_le_iff_ne_zero.mpr hleft, rfl⟩

/-- Every position is worth 100 to its winner and nothing to the other role. The induction is on the
plies that the tree is looked at, which are more than there are objects. -/
theorem Answers.stateWorth (ha : Answers n m) (hrole : b.role = white ∨ b.role = black)
    (hp : p.Valid n) (hplies : p.left < plies) :
    m.toGame.stateWorth? b none plies level (p.state n) = some (p.worth b.role) := by
  induction plies generalizing p level with
  | zero => cases hplies
  | succ plies ih =>
      have hterminal := ha.isTerminal p hp
      by_cases hleft : p.left = 0
      · have hover : m.toGame.isTerminal (p.state n) = true := hterminal.mpr hleft
        have hgoal : m.toGame.goal (p.state n) b.role = .ok (p.goal b.role) :=
          ha.goal p hp b.role (by simpa using hrole)
        rw [Game.stateWorth?, if_pos hover, ← hp.worth_of_over hleft hrole]
        exact Game.goalOnScale?_eq_some.mpr ⟨hgoal, p.goal_le b.role⟩
      · have hon : m.toGame.isTerminal (p.state n) = false := by
          rw [← Bool.not_eq_true]
          exact mt hterminal.mp hleft
        have hrest : ∀ taking ∈ takings, taking.2 ≤ p.left →
            m.toGame.stateWorth? b none plies (level + 1) ((p.take taking.2).state n) =
              some ((p.take taking.2).worth b.role) := by
          intro taking ht hle
          have hone := (taking_bounds ht).1
          apply ih (hp.take taking.2)
          change p.left - taking.2 < plies
          omega
        obtain ⟨hall, hbest⟩ := ha.worth_moves hp hleft hrole hrest
        exact Game.stateWorth?_of_best hon (ha.moves hp hleft hrole) hall hbest

/-! ### Decisions -/

/-- What a move of the mover is worth to it. -/
def Position.moveWorth (p : Position) (a : Move) : Nat := (p.take (taken a)).worth p.mover

/-- The best move is the first of the mover's moves that are worth most. -/
theorem Position.Valid.argmax_moveWorth (hp : p.Valid n) (hleft : p.left ≠ 0) :
    (p.legal p.mover).argmax p.moveWorth = some p.best := by
  have hone : p.moveWorth take1 = if (p.left - 1) % 3 = 0 then 100 else 0 := hp.worth_mover_take 1
  have htwo : p.moveWorth take2 = if (p.left - 2) % 3 = 0 then 100 else 0 := hp.worth_mover_take 2
  rw [Position.legal, if_neg hleft, if_neg (not_not_intro rfl), Position.best]
  by_cases hlast : p.left = 1
  · rw [if_pos hlast, hlast]
    exact List.argmax_singleton
  · rw [if_neg hlast, List.argmax_cons, List.argmax_singleton]
    dsimp only
    rw [hone, htwo]
    by_cases hmod : p.left % 3 = 2
    · rw [if_neg (show ¬ (p.left - 1) % 3 = 0 by omega),
        if_pos (show (p.left - 2) % 3 = 0 by omega), if_pos hmod]
      rfl
    · rw [if_neg (show ¬ (p.left - 2) % 3 = 0 by omega), if_neg (Nat.not_lt_zero _), if_neg hmod]

/-- An exhaustive player decides for the best move on its turn. -/
theorem Answers.select_best (ha : Answers n m) (hp : p.Valid n) (hleft : p.left ≠ 0)
    {player : Player} (hgame : player.game = m.toGame)
    (hstrategy : player.strategy.IsExhaustive 2) {fuel : Nat} (hfuel : n < fuel) {instant : Int}
    {clock : Clock} (hopen : player.Undisturbed fuel p.mover (p.state n) instant clock) :
    ∃ selected, (player.select fuel p.mover (p.state n) instant clock).outcome = .done selected ∧
      selected.legalMoves.head? = some take1 ∧ selected.selection = p.best := by
  have hmoves := ha.moves hp hleft hp.mover
  have hindex := role_cases.mpr hp.mover
  rw [← ha.roleCount] at hstrategy hindex
  rw [← hgame] at hstrategy hindex hmoves
  have hworth : ∀ a ∈ p.legal p.mover, player.game.rootWorth? (player.brief p.mover) none fuel
      (p.state n) a = some (p.moveWorth a) := by
    intro a ha'
    rw [Position.mem_legal_mover] at ha'
    obtain ⟨taking, ht, hle, rfl⟩ := ha'
    rw [hgame, Position.moveWorth, taken_fst ht]
    apply ha.moveWorth_mover (b := player.brief p.mover) hp rfl ht hle
    apply ha.stateWorth (b := player.brief p.mover) hp.mover (hp.take taking.2)
    exact Nat.lt_of_le_of_lt (hp.take taking.2).le hfuel
  obtain ⟨selected, hdone, hlegal, hbest⟩ :=
    select_argmax hstrategy hindex hmoves hworth (Nat.le_refl fuel) hopen
  refine ⟨selected, hdone, ?_, ?_⟩
  · rw [hlegal, Position.legal, if_neg hleft, if_neg (not_not_intro rfl)]
    split <;> rfl
  · rw [hp.argmax_moveWorth hleft] at hbest
    exact (Option.some.inj hbest).symm

/-- Whoever is not on turn waits. -/
theorem Answers.select_wait (ha : Answers n m) (hp : p.Valid n) (hleft : p.left ≠ 0)
    {player : Player} (hgame : player.game = m.toGame) (fuel : Nat) (instant : Int) (clock : Clock)
    (hr : r = white ∨ r = black) (hne : r ≠ p.mover) :
    (player.select fuel r (p.state n) instant clock).move? = some .noop := by
  have hmoves := ha.moves hp hleft hr
  have hlegal : p.legal r = [.noop] := by rw [Position.legal, if_neg hleft, if_pos hne]
  rw [← hgame] at hmoves
  obtain ⟨us, hdone⟩ := select_of_single fuel instant clock hmoves (by rw [hlegal]; rfl)
  simp only [Decision.move?, hdone, hlegal, List.head_cons]

/-! ### Self-play -/

/-- What self-play keeps: its state is a position with the winner of the start, and every turn takes
one object at least. -/
structure OnCourse (n : Nat) (player : Player) (turns : Nat) (q : Player) (s : State) : Prop where
  resembles : q.Resembles player
  position : ∃ p : Position, p.Valid n ∧ s = p.state n ∧ turns + p.left ≤ n ∧
    p.winner = (Position.mk n white).winner

variable {player q : Player} {fuel turns : Nat} {s : State}

/-- The step: an undisturbed turn makes the best move, and leads to the next position. -/
theorem OnCourse.turn (h : OnCourse n player turns q s) (ha : Answers n m)
    (hgame : player.game = m.toGame) (hstrategy : player.strategy.IsExhaustive 2)
    (hfuel : n < fuel) (hon : m.isTerminal s = false) {instant : Int} {clock : Clock}
    (hopen : UndisturbedAll fuel s instant clock (RoleId.all q.game.roleCount) q) :
    ∃ t, (q.turn fuel s instant clock).2.1 = some (.ok t) ∧
      OnCourse n player (turns + 1) (q.turn fuel s instant clock).2.2 t := by
  obtain ⟨hq, p, hp, rfl, hturns, hwinner⟩ := h
  have hleft : p.left ≠ 0 := by
    intro hleft
    rw [(ha.isTerminal p hp).mpr hleft] at hon
    cases hon
  have hchoice : ∀ (q' : Player) r, q'.Resembles player → r ∈ RoleId.all player.game.roleCount →
      q'.Undisturbed fuel r (p.state n) instant clock →
        (q'.select fuel r (p.state n) instant clock).move? =
          some (if r = p.mover then p.best else .noop) := by
    intro q' r hq' hr hopen
    have hgame' := hq'.game.trans hgame
    rw [hgame, ha.roleCount, RoleId.mem_all] at hr
    by_cases hmover : r = p.mover
    · rw [if_pos hmover, hmover]
      rw [hmover] at hopen
      obtain ⟨selected, hdone, -, hbest⟩ :=
        ha.select_best hp hleft hgame' (hq'.strategy ▸ hstrategy) hfuel hopen
      simp only [Decision.move?, hdone, hbest]
    · rw [if_neg hmover]
      exact ha.select_wait hp hleft hgame' fuel instant clock (role_cases.mp hr) hmover
  obtain ⟨hturn, hlast⟩ := turn_choice hchoice hq hopen
  obtain ⟨taking, ht, hle, hname⟩ := Position.exists_best hleft
  have hjoint : (RoleId.all player.game.roleCount).map (fun r => if r = p.mover then p.best else .noop) =
      (p.turn taking.1).moves := by
    rw [hgame, ha.roleCount, hname]
    rfl
  have hnext : player.game.next (p.state n) (p.turn taking.1) = .ok ((p.take taking.2).state n) := by
    rw [hgame]
    exact ha.next p hp taking ht hle
  rw [hjoint, hnext] at hturn
  refine ⟨_, hturn, hlast, p.take taking.2, hp.take taking.2, rfl, ?_, ?_⟩
  · have hone := (taking_bounds ht).1
    change turns + 1 + (p.left - taking.2) ≤ n
    omega
  · rw [← taken_fst ht, ← hname, hp.winner_best hleft, hwinner]

/-- The run. -/
theorem OnCourse.of_selfPlay (ha : Answers n m) (hgame : player.game = m.toGame)
    (hstrategy : player.strategy.IsExhaustive 2) (hfuel : n < fuel)
    (h : SelfPlay fuel player turns q s) : OnCourse n player turns q s := by
  induction h with
  | start =>
      refine ⟨⟨rfl, rfl, rfl⟩, ⟨n, white⟩, ⟨Nat.le_refl n, .inl rfl⟩, ?_, Nat.le_of_eq (Nat.zero_add n),
        rfl⟩
      rw [hgame]
      exact ha.initial
  | turn _ hon hopen hturn ih =>
      rw [hgame] at hon
      obtain ⟨t, ht, hcourse⟩ := ih.turn ha hgame hstrategy hfuel hon hopen
      rw [hturn] at ht
      cases ht
      exact hcourse

/-- When self-play is over, the winner of the start has scored 100 and the other role nothing. -/
theorem OnCourse.goals (h : OnCourse n player turns q s) (ha : Answers n m)
    (hover : m.isTerminal s = true) :
    m.goal s white = .ok (if n % 3 = 0 then 0 else 100) ∧
      m.goal s black = .ok (if n % 3 = 0 then 100 else 0) := by
  obtain ⟨-, p, hp, rfl, -, hwinner⟩ := h
  have hleft := (ha.isTerminal p hp).mp hover
  have hstart : (Position.mk n white).Valid n := ⟨Nat.le_refl n, .inl rfl⟩
  have hworth : ∀ r, p.worth r = (Position.mk n white).worth r := fun r => by
    rw [Position.worth, Position.worth, hwinner]
  rw [ha.goal p hp white (by simp), ha.goal p hp black (by simp), hp.worth_of_over hleft (.inl rfl),
    hp.worth_of_over hleft (.inr rfl), hworth, hworth]
  exact ⟨congrArg Except.ok hstart.worth_mover, congrArg Except.ok hstart.worth_opponent⟩

/-- With all the time in the world self-play goes on to its end. The induction is on the objects
that may be left. -/
theorem OnCourse.exists_end (ha : Answers n m) (hgame : player.game = m.toGame)
    (hstrategy : player.strategy.IsExhaustive 2) (hfuel : n < fuel) (left : Nat)
    (h : SelfPlay fuel player turns q s) (hleft : n ≤ turns + left) :
    ∃ turns' q' s', SelfPlay fuel player turns' q' s' ∧ m.isTerminal s' = true := by
  induction left generalizing turns q s with
  | zero =>
      obtain ⟨-, p, hp, rfl, hturns, -⟩ := OnCourse.of_selfPlay ha hgame hstrategy hfuel h
      exact ⟨turns, q, _, h, (ha.isTerminal p hp).mpr (by omega)⟩
  | succ left ih =>
      cases hon : m.isTerminal s with
      | true => exact ⟨turns, q, s, h, hon⟩
      | false =>
          have hcourse := OnCourse.of_selfPlay ha hgame hstrategy hfuel h
          obtain ⟨instant, clock, hall⟩ := exists_undisturbedAll player
          have hopen := hall q fuel s (RoleId.all q.game.roleCount) hcourse.resembles
          obtain ⟨t, ht, -⟩ := hcourse.turn ha hgame hstrategy hfuel hon hopen
          have hon' : player.game.isTerminal s = false := by rw [hgame]; exact hon
          exact ih (.turn h hon' hopen ht) (by omega)

end

/-- What a player makes of a machine for Nim that starts with `n` objects. -/
structure Solves (n : Nat) (m : Machine) (fuel : Nat) (player : Player) : Prop where
  /-- In every position of a legal play that is not over, the player decides on its turn for two
  objects if two more than a multiple of three are left, and for the first move otherwise. -/
  select : ∀ length s, m.toGame.Line length s → m.isTerminal s = false →
    ∃ p : Position, p.Valid n ∧ s = p.state n ∧ 1 ≤ p.left ∧
      m.net.factName? p.left = some s!"count_{p.left}" ∧
      ∀ instant clock, player.Undisturbed fuel p.mover s instant clock →
        ∃ selected, (player.select fuel p.mover s instant clock).outcome = .done selected ∧
          selected.legalMoves.head? = some take1 ∧
          selected.selection = if p.left % 3 = 2 then take2 else take1
  /-- A player of both parts goes on as long as the game is not over. -/
  goesOn : ∀ turns q s, SelfPlay fuel player turns q s → m.isTerminal s = false →
    ∀ instant clock, UndisturbedAll fuel s instant clock (RoleId.all q.game.roleCount) q →
      ∃ t, (q.turn fuel s instant clock).2.1 = some (.ok t)
  length : ∀ turns q s, SelfPlay fuel player turns q s → turns ≤ n
  ends : ∃ turns q s, SelfPlay fuel player turns q s ∧ m.isTerminal s = true
  goals : ∀ turns q s, SelfPlay fuel player turns q s → m.isTerminal s = true →
    m.goal s white = .ok (if n % 3 = 0 then 0 else 100) ∧
      m.goal s black = .ok (if n % 3 = 0 then 100 else 0)

/-- Minimax and alpha-beta search solve Nim: whoever plays by one of them, undisturbed by a deadline,
makes the winning move wherever there is one, and playing both parts white wins exactly if the pile
does not start with a multiple of three. -/
theorem exhaustive_players_solve (n : Nat) : ∃ m, machine n = .ok m ∧
    ∀ (player : Player) (fuel : Nat), player.game = m.toGame →
      player.strategy = .minimax ∨ player.strategy = .alphaBeta → n < fuel →
        Solves n m fuel player := by
  obtain ⟨m, hm, hd⟩ := Draft.exists_describes (yields_draft n).realizes (complete_sketch n)
  have ha := answers_of_describes hd
  refine ⟨m, hm, fun player fuel hgame hname hfuel => ?_⟩
  have hstrategy : player.strategy.IsExhaustive 2 := by
    rcases hname with hname | hname <;> rw [hname]
    · exact .minimax (.inr rfl)
    · exact .alphaBeta
  have hcourse : ∀ {turns q s}, SelfPlay fuel player turns q s → OnCourse n player turns q s :=
    OnCourse.of_selfPlay ha hgame hstrategy hfuel
  constructor
  · intro length s hline hon
    obtain ⟨p, hp, rfl, -⟩ := position_of_line ha hline
    have hleft : p.left ≠ 0 := by
      intro hleft
      rw [(ha.isTerminal p hp).mpr hleft] at hon
      cases hon
    exact ⟨p, hp, rfl, Nat.one_le_iff_ne_zero.mpr hleft, ha.counts _ hp.le,
      fun instant clock hopen => ha.select_best hp hleft hgame hstrategy hfuel hopen⟩
  · intro turns q s hplay hon instant clock hopen
    obtain ⟨t, ht, -⟩ := (hcourse hplay).turn ha hgame hstrategy hfuel hon hopen
    exact ⟨t, ht⟩
  · intro turns q s hplay
    obtain ⟨-, p, -, -, hturns, -⟩ := hcourse hplay
    omega
  · exact OnCourse.exists_end ha hgame hstrategy hfuel n .start (Nat.le_add_left n 0)
  · exact fun turns q s hplay hover => (hcourse hplay).goals ha hover

/-- A minimax player that plays both parts of a pile of five takes two objects first, and white
wins. -/
theorem exhaustive_players_solve_five : ∃ m, machine 5 = .ok m ∧
    (∃ selected, (Player.select (.new m.toGame .minimax .standard .ucb .random) 6 white m.initial
        1000000 ⟨0, 0⟩).outcome = .done selected ∧ selected.selection = take2) ∧
    ∃ turns q s, SelfPlay 6 (.new m.toGame .minimax .standard .ucb .random) turns q s ∧
      m.goal s white = .ok 100 ∧ m.goal s black = .ok 0 := by
  obtain ⟨m, hm, hplayers⟩ := exhaustive_players_solve 5
  have hsolves := hplayers (.new m.toGame .minimax .standard .ucb .random) 6 rfl (.inl rfl) (by decide)
  obtain ⟨m', hm', hd⟩ := Draft.exists_describes (yields_draft 5).realizes (complete_sketch 5)
  obtain rfl : m = m' := Except.ok.inj (hm.symm.trans hm')
  have ha := answers_of_describes hd
  have hstart : (Position.mk 5 white).Valid 5 := ⟨Nat.le_refl 5, .inl rfl⟩
  have hon : m.isTerminal m.initial = false := by
    rw [ha.initial, ← Bool.not_eq_true]
    exact mt (ha.isTerminal _ hstart).mp (by decide)
  refine ⟨m, hm, ?_, ?_⟩
  · obtain ⟨p, hp, hstate, -, -, hselect⟩ := hsolves.select 0 _ .start hon
    obtain rfl := hstart.state_inj hp (ha.initial.symm.trans hstate)
    have hopen : Deadline.expired ⟨1000000, Strategy.minimax.marginUs .standard⟩ 0 = false := by
      decide +kernel
    obtain ⟨selected, hdone, -, hbest⟩ := hselect 1000000 ⟨0, 0⟩ (undisturbed_of_still rfl hopen)
    exact ⟨selected, hdone, hbest⟩
  · obtain ⟨turns, q, s, hplay, hover⟩ := hsolves.ends
    exact ⟨turns, q, s, hplay, hsolves.goals turns q s hplay hover⟩

end GeneralGame.Nim
