import GeneralGame.Proofs.Draft.Play
import GeneralGame.Proofs.Nim.Position

/-!
The net of Nim plays the subtraction game. For a pile of any size the net can be built. It answers
every question about a position as the rules of the game do, and legal play leads from one position
to the next.
-/
namespace GeneralGame.Nim

open Draft

/-- A machine answers every question about a position as the rules of the game do. -/
structure Answers (n : Nat) (m : Machine) : Prop where
  roles : m.net.roles = ["white", "black"]
  /-- The facts of a position are those of its pile and its turn. -/
  counts : ∀ k ≤ n, m.net.factName? k = some s!"count_{k}"
  controls : m.net.factName? (turnFact n white) = some "control_white" ∧
    m.net.factName? (turnFact n black) = some "control_black"
  initial : m.initial = (Position.mk n white).state n
  isTerminal : ∀ p : Position, p.Valid n → (m.isTerminal (p.state n) = true ↔ p.left = 0)
  legal : ∀ p : Position, p.Valid n → ∀ r ∈ [white, black], m.legal (p.state n) r = .ok (p.legal r)
  goal : ∀ p : Position, p.Valid n → ∀ r ∈ [white, black], m.goal (p.state n) r = .ok (p.goal r)
  /-- A legal joint move takes one object or two that are there. -/
  isLegal : ∀ p : Position, p.Valid n → ∀ j, m.toGame.IsLegal (p.state n) j ↔
    ∃ taking ∈ takings, taking.2 ≤ p.left ∧ j = p.turn taking.1
  /-- It leads to exactly the position with so many objects less and the other role's turn. -/
  next : ∀ p : Position, p.Valid n → ∀ taking ∈ takings, taking.2 ≤ p.left →
    m.next (p.state n) (p.turn taking.1) = .ok ((p.take taking.2).state n)

/-- A machine plays the subtraction game on a pile of `n` objects. -/
structure Refines (n : Nat) (m : Machine) : Prop extends Answers n m where
  /-- Legal play never leaves the positions. -/
  reachable : ∀ length s, m.toGame.Line length s → ∃ p : Position, p.Valid n ∧ s = p.state n
  /-- No play has more joint moves than there are objects, and one that is over has half as many at
  least. -/
  length : ∀ length s, m.toGame.Line length s →
    length ≤ n ∧ (m.isTerminal s = true → (n + 1) / 2 ≤ length)

section

variable {n : Nat} {p : Position} {m : Machine}

/-- What the signals of the net read in a position. -/
structure Reads (n : Nat) (p : Position) (x : Situation) : Prop where
  start : x.start = false
  count : ∀ k ≤ n, x.fact k = decide (k = p.left)
  turn : ∀ r, x.fact (turnFact n r) = decide (p.mover = r)

theorem reads_state (hp : p.Valid n) (joint : Option JointMove) :
    Reads n p (.of (p.state n) joint) := by
  have hfact : ∀ f, (Situation.of (p.state n) joint).fact f = true ↔
      f = p.left ∨ f = turnFact n p.mover :=
    fun f => List.contains_iff_mem.trans Position.mem_state
  constructor
  · rfl
  · intro k hk
    rw [Bool.eq_iff_iff, hfact, decide_eq_true_eq]
    exact or_iff_left (Nat.ne_of_lt (lt_turnFact hk p.mover))
  · intro r
    rw [Bool.eq_iff_iff, hfact, decide_eq_true_eq, turnFact_inj hp]

theorem role_of_mem_roleLegals {r : RoleId} {own other : Signal} {e : RoleId × Move × Signal}
    (h : e ∈ roleLegals n r own other) : e.1 = r := by
  simp only [roleLegals, List.mem_cons, List.not_mem_nil, or_false] at h
  rcases h with rfl | rfl | rfl
  · rfl
  · rfl
  · rfl

theorem of_mem_roleGoals {r : RoleId} {other : Signal} {e : RoleId × Nat × Signal}
    (h : e ∈ roleGoals r other) : e.1 = r ∧ e.2.1 ≤ 100 := by
  simp only [roleGoals, List.mem_cons, List.not_mem_nil, or_false] at h
  rcases h with rfl | rfl
  · exact ⟨rfl, Nat.le_refl 100⟩
  · exact ⟨rfl, Nat.zero_le 100⟩

theorem complete_sketch (n : Nat) : (sketch n).Complete := by
  have hroles : (sketch n).roles.length = 2 := rfl
  have hwhite : white.index < 2 := by decide
  have hblack : black.index < 2 := by decide
  constructor
  · rw [hroles]
    decide
  · change [(white, take1), (white, take2), (black, take1), (black, take2)].Nodup
    decide
  · change ∀ e ∈ [(white, take1), (white, take2), (black, take1), (black, take2)], e.1.index < 2
    decide
  · rw [hroles]
    intro e he
    rcases List.mem_append.mp he with he | he
    · exact role_of_mem_roleLegals he ▸ hwhite
    · exact role_of_mem_roleLegals he ▸ hblack
  · rw [hroles]
    intro e he
    rcases List.mem_append.mp he with he | he
    · obtain ⟨hrole, hvalue⟩ := of_mem_roleGoals he
      exact ⟨hrole ▸ hwhite, hvalue⟩
    · obtain ⟨hrole, hvalue⟩ := of_mem_roleGoals he
      exact ⟨hrole ▸ hblack, hvalue⟩
  · intro r hr
    rcases role_cases.mp hr with rfl | rfl
    · exact ⟨List.cons_ne_nil _ _, List.cons_ne_nil _ _⟩
    · exact ⟨List.cons_ne_nil _ _, List.cons_ne_nil _ _⟩
  · rfl

/-! ### The answers in a position -/

variable {x : Situation}

theorem Reads.twoLeft (h : Reads n p x) (hp : p.Valid n) :
    twoLeft n x = decide (2 ≤ p.left) := by
  have hle := hp.le
  have hfacts : ∀ k ∈ (List.range (n + 1)).drop 2, x.fact k = decide (k = p.left) := by
    intro k hk
    exact h.count k (Nat.le_of_lt_succ (List.mem_range.mp (List.mem_of_mem_drop hk)))
  have hdrop : (List.range (n + 1)).drop 2 = List.range' 2 (n - 1) := by
    rw [List.range_eq_range', List.drop_range']
    rfl
  rw [Bool.eq_iff_iff, Nim.twoLeft, List.any_eq_true, decide_eq_true_eq]
  constructor
  · rintro ⟨k, hk, hfact⟩
    rw [hfacts k hk, decide_eq_true_eq] at hfact
    rw [hdrop, List.mem_range'_1] at hk
    omega
  · intro htwo
    have hmem : p.left ∈ (List.range (n + 1)).drop 2 := by
      rw [hdrop, List.mem_range'_1]
      omega
    exact ⟨p.left, hmem, (hfacts _ hmem).trans (decide_eq_true rfl)⟩

/-- The moves that a role may make, where one signal tells that it is its turn and another one that
it is not. -/
theorem Reads.roleLegals (h : Reads n p x) (hp : p.Valid n) {r : RoleId} {own other : Signal}
    (hown : own x = decide (p.mover = r)) (hother : other x = decide (p.mover ≠ r)) :
    (((roleLegals n r own other).map Prod.snd).filter fun entry => entry.2 x).map Prod.fst =
      p.legal r := by
  have hzero := h.count 0 (Nat.zero_le n)
  have htwo := h.twoLeft hp
  rw [Position.legal]
  by_cases hr : p.mover = r
  · rcases hleft : p.left with _ | _ | left <;>
      simp [Nim.roleLegals, hown, hother, hzero, htwo, hr, hleft]
  · rcases hleft : p.left with _ | left <;>
      simp [Nim.roleLegals, hown, hother, hzero, hr, hleft, Ne.symm hr]

/-- The one score of a role, where a signal tells that it is not its turn. -/
theorem Reads.roleGoals (h : Reads n p x) {r : RoleId} {other : Signal}
    (hother : other x = decide (p.mover ≠ r)) :
    (((roleGoals r other).map Prod.snd).filter fun entry => entry.2 x).map Prod.fst =
      [p.goal r] := by
  have hwon : (x.fact 0 && other x) = decide (p.left = 0 ∧ r ≠ p.mover) := by
    rw [h.count 0 (Nat.zero_le n), hother, ← Bool.decide_and, decide_eq_decide]
    exact and_congr eq_comm ne_comm
  rw [Nim.roleGoals, Position.goal]
  simp only [List.map_cons, List.map_nil, List.filter_cons, List.filter_nil, hwon]
  by_cases hwins : p.left = 0 ∧ r ≠ p.mover
  · simp [hwins]
  · simp [hwins]

theorem Reads.ne_white (h : Reads n p x) (hp : p.Valid n) :
    blackTurn n x = decide (p.mover ≠ white) := by
  rw [blackTurn, h.turn, decide_eq_decide, hp.ne_white]

theorem Reads.ne_black (h : Reads n p x) (hp : p.Valid n) :
    whiteTurn n x = decide (p.mover ≠ black) := by
  rw [whiteTurn, h.turn, decide_eq_decide, hp.ne_black]

theorem legal_sketch (h : Reads n p x) (hp : p.Valid n) {r : RoleId} (hr : r = white ∨ r = black) :
    (sketch n).legal r x = p.legal r := by
  rcases hr with rfl | rfl
  · exact h.roleLegals hp (h.turn white) (h.ne_white hp)
  · exact h.roleLegals hp (h.turn black) (h.ne_black hp)

theorem goal_sketch (h : Reads n p x) (hp : p.Valid n) {r : RoleId} (hr : r = white ∨ r = black) :
    (sketch n).goal r x = .ok (p.goal r) := by
  have hscore : ((Sketch.ofRole (sketch n).goals r).filter fun entry => entry.2 x).map Prod.fst =
      [p.goal r] := by
    rcases hr with rfl | rfl
    · exact h.roleGoals (h.ne_white hp)
    · exact h.roleGoals (h.ne_black hp)
  rw [Sketch.goal, hscore]

theorem isTerminal_sketch (h : Reads n p x) : (sketch n).isTerminal x = decide (p.left = 0) := by
  change x.fact 0 = _
  rw [h.count 0 (Nat.zero_le n), decide_eq_decide]
  exact eq_comm

/-! ### The next position -/

theorem feeds_count {f : FactId} (hf : f ≤ n) : (sketch n).feeds f = some (pileFeed n f) := by
  have hwhite := Nat.ne_of_lt (lt_turnFact hf white)
  have hblack := Nat.ne_of_lt (lt_turnFact hf black)
  simp only [sketch, Sketch.feed, pileSketch, if_neg hwhite, if_neg hblack]
  exact if_pos (Nat.lt_succ_of_le hf)

theorem feeds_white (n : Nat) :
    (sketch n).feeds (turnFact n white) = some fun x => x.start || blackTurn n x := by
  simp [sketch, Sketch.feed]

theorem feeds_black (n : Nat) : (sketch n).feeds (turnFact n black) = some (whiteTurn n) := by
  simp [sketch, Sketch.feed]

theorem facts_sketch (n : Nat) : (sketch n).facts =
    (List.range (n + 1)).map (fun k => s!"count_{k}") ++ ["control_white"] ++ ["control_black"] :=
  rfl

/-- The facts of the net are the numbers of objects and the turns. -/
theorem fact_cases {f : FactId} :
    f < (sketch n).facts.length ↔ f ≤ n ∨ f = turnFact n white ∨ f = turnFact n black := by
  have hlength : (sketch n).facts.length = n + 3 := by simp [facts_sketch]
  have hcases : ∀ i : Nat, i < n + 3 ↔ i ≤ n ∨ i = n + 1 ∨ i = n + 2 := by
    intro i
    omega
  rw [hlength, turnFact_white, turnFact_black]
  exact hcases f

theorem follows_count {f : FactId} (hf : f ≤ n) :
    (sketch n).Follows x f ↔ pileFeed n f x = true := by
  rw [Sketch.Follows, feeds_count hf]
  exact and_iff_right (fact_cases.mpr (.inl hf))

theorem follows_white :
    (sketch n).Follows x (turnFact n white) ↔ (x.start || blackTurn n x) = true := by
  rw [Sketch.Follows, feeds_white]
  exact and_iff_right (fact_cases.mpr (.inr (.inl rfl)))

theorem follows_black : (sketch n).Follows x (turnFact n black) ↔ whiteTurn n x = true := by
  rw [Sketch.Follows, feeds_black]
  exact and_iff_right (fact_cases.mpr (.inr (.inr rfl)))

/-- A state whose facts follow is a position if so many objects and this turn follow. -/
theorem eq_state {q : Position} (hq : q.Valid n) {s : State}
    (hs : ∀ f, f ∈ s ↔ (sketch n).Follows x f)
    (hcount : ∀ k ≤ n, pileFeed n k x = decide (k = q.left))
    (hwhite : (x.start || blackTurn n x) = decide (q.mover = white))
    (hblack : whiteTurn n x = decide (q.mover = black)) : s = q.state n := by
  apply State.eq_of_mem_iff
  intro f
  rw [hs, Position.mem_state]
  by_cases hf : f < (sketch n).facts.length
  · rcases fact_cases.mp hf with hf | rfl | rfl
    · rw [follows_count hf, hcount f hf, decide_eq_true_eq]
      exact (or_iff_left (Nat.ne_of_lt (lt_turnFact hf _))).symm
    · rw [follows_white, hwhite, decide_eq_true_eq, turnFact_inj hq white]
    · rw [follows_black, hblack, decide_eq_true_eq, turnFact_inj hq black]
  · refine iff_of_false (fun hfollows => hf hfollows.1) (mt ?_ hf)
    rintro (rfl | rfl)
    · exact fact_cases.mpr (.inl hq.le)
    · rcases hq.mover with hmover | hmover
      · exact fact_cases.mpr (.inr (.inl (congrArg (turnFact n) hmover)))
      · exact fact_cases.mpr (.inr (.inr (congrArg (turnFact n) hmover)))

/-- The numbers of objects that follow if some are taken. -/
theorem pileFeed_taken (h : Reads n p x) (hp : p.Valid n) {t : Nat} (ht : t = 1 ∨ t = 2)
    (hle : t ≤ p.left) (hone : took take1 x = decide (t = 1)) (htwo : took take2 x = decide (t = 2))
    {k : Nat} (hk : k ≤ n) : pileFeed n k x = decide (k = p.left - t) := by
  have hleft := hp.le
  have hmore : ∀ i, (decide (k + i ≤ n) && x.fact (k + i)) = decide (k + i = p.left) := by
    intro i
    by_cases hi : k + i ≤ n
    · rw [decide_eq_true hi, Bool.true_and, h.count (k + i) hi]
    · rw [decide_eq_false hi, Bool.false_and, eq_comm, decide_eq_false_iff_not]
      omega
  have hone' : (decide (k < n) && x.fact (k + 1)) = decide (k + 1 = p.left) := hmore 1
  rw [pileFeed, h.start, hone, htwo, h.count k hk, ← Bool.and_assoc, ← Bool.and_assoc, hone', hmore 2,
    Bool.eq_iff_iff]
  rcases ht with rfl | rfl
  · simp
    omega
  · simp
    omega

theorem took_turn (hp : p.Valid n) (s : State) (m : Move) {m' : Move} (hm' : m' ≠ .noop) :
    took m' (.of s (some (p.turn m))) = decide (m = m') := by
  have hdoes : ∀ r, (Situation.of s (some (p.turn m))).does r m' =
      decide ((p.turn m).get? r = some m') := fun r => rfl
  have hwhite : white.index = 0 := rfl
  have hblack : black.index = 1 := rfl
  rw [took, hdoes, hdoes]
  rcases hp.mover with hmover | hmover
  · simp [turn_white hmover, JointMove.get?, hwhite, hblack, hm'.symm]
  · simp [turn_black hmover, JointMove.get?, hwhite, hblack, hm'.symm]

theorem taken_state (hp : p.Valid n) {taking : Move × Nat} (ht : taking ∈ takings)
    (hle : taking.2 ≤ p.left) {s : State}
    (hs : ∀ f, f ∈ s ↔ (sketch n).Follows (.of (p.state n) (some (p.turn taking.1))) f) :
    s = (p.take taking.2).state n := by
  have hreads := reads_state hp (some (p.turn taking.1))
  have hcases : taking = (take1, 1) ∨ taking = (take2, 2) := by simpa [takings] using ht
  have hcounts : ∀ k ≤ n, pileFeed n k (.of (p.state n) (some (p.turn taking.1))) =
      decide (k = p.left - taking.2) := by
    intro k hk
    have hone := took_turn hp (p.state n) taking.1 (by decide : take1 ≠ .noop)
    have htwo := took_turn hp (p.state n) taking.1 (by decide : take2 ≠ .noop)
    rcases hcases with rfl | rfl
    · exact pileFeed_taken hreads hp (.inl rfl) hle hone htwo hk
    · exact pileFeed_taken hreads hp (.inr rfl) hle hone htwo hk
  apply eq_state (hp.take taking.2) hs hcounts
  · rw [hreads.start, blackTurn, hreads.turn, Bool.false_or, decide_eq_decide]
    exact (hp.white_after taking.2).symm
  · rw [whiteTurn, hreads.turn, decide_eq_decide]
    exact (hp.black_after taking.2).symm

theorem initial_state {s : State} (hs : ∀ f, f ∈ s ↔ (sketch n).Follows .initial f) :
    s = (Position.mk n white).state n := by
  have hvalid : (Position.mk n white).Valid n := ⟨Nat.le_refl n, .inl rfl⟩
  apply eq_state hvalid hs
  · intro k _
    simp [pileFeed, Situation.initial, took]
  · rfl
  · rfl

/-! ### Legal joint moves and whole plays -/

theorem isLegal_state (hroles : m.net.roles = ["white", "black"]) (hp : p.Valid n)
    (hlegal : ∀ r ∈ [white, black], m.legal (p.state n) r = .ok (p.legal r)) (j : JointMove) :
    m.toGame.IsLegal (p.state n) j ↔
      ∃ taking ∈ takings, taking.2 ≤ p.left ∧ j = p.turn taking.1 := by
  have hcan : ∀ r ∈ [white, black], ∀ a, m.toGame.CanPlay (p.state n) r a ↔ a ∈ p.legal r := by
    intro r hr a
    have hanswer : m.toGame.legal (p.state n) r = .ok (p.legal r) := hlegal r hr
    simp only [Game.CanPlay, hanswer, Except.ok.injEq, exists_eq_left']
  have hall : RoleId.all m.toGame.roleCount = [white, black] :=
    congrArg (fun roles : List String => RoleId.all roles.length) hroles
  obtain ⟨moves⟩ := j
  rw [Game.IsLegal, hall]
  simp only [List.forall₂_cons_left_iff, List.forall₂_nil_left_iff, hcan white (by simp),
    hcan black (by simp)]
  constructor
  · rintro ⟨a, rest, ha, ⟨b, _, hb, rfl, rfl⟩, rfl⟩
    exact (legal_pair_iff hp).mp ⟨ha, hb⟩
  · rintro ⟨taking, ht, hle, hj⟩
    obtain ⟨a, b, hab⟩ : ∃ a b, moves = [a, b] := by
      rcases hp.mover with hmover | hmover
      · exact ⟨_, _, congrArg JointMove.moves (hj.trans (turn_white hmover _))⟩
      · exact ⟨_, _, congrArg JointMove.moves (hj.trans (turn_black hmover _))⟩
    rw [hab] at hj ⊢
    obtain ⟨ha, hb⟩ := (legal_pair_iff hp).mpr ⟨taking, ht, hle, hj⟩
    exact ⟨a, [b], ha, ⟨b, [], hb, rfl, rfl⟩, rfl⟩

/-- A play on the net is at a position, and every joint move took one object or two. -/
theorem position_of_line (ha : Answers n m) {length : Nat} {s : State}
    (h : m.toGame.Line length s) :
    ∃ p : Position, p.Valid n ∧ s = p.state n ∧ p.left + length ≤ n ∧ n ≤ p.left + 2 * length := by
  induction h with
  | start => exact ⟨⟨n, white⟩, ⟨Nat.le_refl n, .inl rfl⟩, ha.initial, Nat.le_refl n, Nat.le_refl n⟩
  | @step length _ t j _ _ hj hmove ih =>
      obtain ⟨p, hp, rfl, hmost, hleast⟩ := ih
      obtain ⟨taking, ht, hle, rfl⟩ := (ha.isLegal p hp j).mp hj
      have ht' : m.next (p.state n) (p.turn taking.1) = .ok t := hmove
      rw [ha.next p hp taking ht hle] at ht'
      cases ht'
      obtain ⟨hone, htwo⟩ := taking_bounds ht
      have hleft : (p.take taking.2).left = p.left - taking.2 := rfl
      refine ⟨p.take taking.2, hp.take taking.2, rfl, ?_, ?_⟩
      · omega
      · omega

section

variable (hd : (sketch n).Describes m)

include hd

theorem legal_state (hp : p.Valid n) :
    ∀ r ∈ [white, black], m.legal (p.state n) r = .ok (p.legal r) := by
  intro r hr
  have hr : r = white ∨ r = black := by simpa using hr
  rw [hd.legal _ r (role_cases.mpr hr), legal_sketch (reads_state hp none) hp hr]

theorem goal_state (hp : p.Valid n) :
    ∀ r ∈ [white, black], m.goal (p.state n) r = .ok (p.goal r) := by
  intro r hr
  have hr : r = white ∨ r = black := by simpa using hr
  rw [hd.goal _ r (role_cases.mpr hr), goal_sketch (reads_state hp none) hp hr]

theorem next_state (hp : p.Valid n) {taking : Move × Nat} (ht : taking ∈ takings)
    (hle : taking.2 ≤ p.left) :
    m.next (p.state n) (p.turn taking.1) = .ok ((p.take taking.2).state n) := by
  have hinputs : ∀ r a, (p.turn taking.1).get? r = some a → a = .noop ∨ (r, a) ∈ (sketch n).inputs := by
    intro r a ha
    obtain ⟨-, rfl⟩ := Game.placeholder_getElem? ha
    rw [r.ofIndex_index]
    split
    · rename_i hr
      have hall : ∀ e ∈ takings, ∀ q ∈ [white, black], (q, e.1) ∈ (sketch n).inputs := by
        change ∀ e ∈ takings, ∀ q ∈ [white, black],
          (q, e.1) ∈ [(white, take1), (white, take2), (black, take1), (black, take2)]
        decide
      exact .inr (hall taking ht r (by simpa [hr] using hp.mover))
    · exact .inl rfl
  obtain ⟨s, hs, hfollows⟩ := hd.next (p.state n) (p.turn taking.1) rfl hinputs
  rw [hs, taken_state hp ht hle hfollows]

end

theorem answers_of_describes (hd : (sketch n).Describes m) : Answers n m := by
  constructor
  · exact hd.roles
  · intro k hk
    rw [hd.names]
    simp [facts_sketch, List.getElem?_append, Nat.lt_succ_of_le hk]
  · rw [hd.names, hd.names]
    simp [facts_sketch]
  · exact initial_state hd.initial
  · intro p hp
    rw [hd.isTerminal, isTerminal_sketch (reads_state hp none), decide_eq_true_eq]
  · exact fun p hp => legal_state hd hp
  · exact fun p hp => goal_state hd hp
  · exact fun p hp => isLegal_state hd.roles hp (legal_state hd hp)
  · exact fun p hp taking ht hle => next_state hd hp ht hle

theorem Answers.refines (ha : Answers n m) : Refines n m := by
  refine ⟨ha, fun length s hs => ?_, fun length s hs => ?_⟩
  · obtain ⟨p, hp, hstate, -⟩ := position_of_line ha hs
    exact ⟨p, hp, hstate⟩
  · obtain ⟨p, hp, rfl, hmost, hleast⟩ := position_of_line ha hs
    rw [ha.isTerminal p hp]
    omega

end

/-- The net of Nim can be built for a pile of any size, and plays the subtraction game on it. -/
theorem machine_refines_subtraction (n : Nat) : ∃ m, machine n = .ok m ∧ Refines n m := by
  obtain ⟨m, hm, hd⟩ := Draft.exists_describes (yields_draft n).realizes (complete_sketch n)
  exact ⟨m, hm, (answers_of_describes hd).refines⟩

end GeneralGame.Nim
