import GeneralGame.Proofs.Circuit.Goals
import GeneralGame.Proofs.Search.Rounds
import GeneralGame.Search.Exhaustive.Heuristic
import Mathlib.Algebra.GroupWithZero.Nat
import Mathlib.Algebra.Order.BigOperators.Group.List
import Mathlib.Algebra.Order.Group.Nat

/-!
What a heuristic makes of a state is on the scale of goals, and its arithmetic fits the words that it
is done in, with one exception: the sum over many playouts. It is kept in 32 bits, which are enough
for 42949672 playouts that score 100, but not for one more. There the search breaks down, although
the average would be on the scale.
-/
namespace GeneralGame

open Search

variable {g : Game} {d : Deadline} {b : Brief} {fuel : Nat} {s : State} {w w' : Search.World}

namespace Heuristic

/-! ### Arithmetic in words -/

/-- A quotient in a byte, if there is one and it fits. -/
def byteQuotient (n divisor : Nat) : Except Fault Nat :=
  if divisor = 0 then .error .panic else fit UInt8.size (n / divisor)

/-- The hundredths of a feasible number, from a product in 64 bits to a byte. -/
def checkedHundredths (n feasible : Nat) : Except Fault Nat :=
  if n < feasible then do
    let product ← fit UInt64.size (n * 100)
    byteQuotient product feasible
  else .ok 100

/-- What the hundredths leave of 100, if they leave something. -/
def checkedRest (n feasible : Nat) : Except Fault Nat := do
  let share ← checkedHundredths n feasible
  if share ≤ 100 then .ok (100 - share) else .error .panic

variable {n feasible charges : Nat} {goals : List Nat}

theorem byteQuotient_of_le {divisor : Nat} (h : 0 < divisor) (hle : n / divisor ≤ 100) :
    byteQuotient n divisor = .ok (n / divisor) := by
  rw [byteQuotient, if_neg (Nat.ne_of_gt h)]
  exact fit_of_lt (Nat.lt_of_le_of_lt hle (by decide))

theorem checkedHundredths_eq (h : feasible < 2 ^ 32) :
    checkedHundredths n feasible = .ok (hundredths n feasible) := by
  rw [checkedHundredths, hundredths]
  split
  · rename_i hlt
    have hproduct : n * 100 < UInt64.size := by
      rw [UInt64.size]
      omega
    have hshare : n * 100 / feasible ≤ 100 :=
      Nat.div_le_of_le_mul (Nat.mul_le_mul_right 100 (Nat.le_of_lt hlt))
    rw [fit_of_lt hproduct]
    exact byteQuotient_of_le (Nat.zero_lt_of_lt hlt) hshare
  · rfl

theorem checkedRest_eq (h : feasible < 2 ^ 32) :
    checkedRest n feasible = .ok (100 - hundredths n feasible) := by
  rw [checkedRest, checkedHundredths_eq h]
  exact if_pos (hundredths_le n feasible)

/-- The share of the feasible moves, where nothing is feasible all of them. -/
theorem hundredths_eq (n feasible : Nat) :
    hundredths n feasible = if feasible = 0 then 100 else min 100 (100 * n / feasible) := by
  rw [hundredths, Nat.mul_comm n]
  split
  · rename_i hlt
    have hshare : 100 * n / feasible ≤ 100 :=
      Nat.div_le_of_le_mul (by rw [Nat.mul_comm feasible]; exact Nat.mul_le_mul_left 100 hlt.le)
    rw [if_neg (Nat.ne_of_gt (Nat.zero_lt_of_lt hlt)), Nat.min_eq_right hshare]
  · rename_i hle
    split
    · rfl
    · rename_i hpos
      have hshare : 100 ≤ 100 * n / feasible :=
        (Nat.le_div_iff_mul_le (Nat.pos_of_ne_zero hpos)).mpr
          (Nat.mul_le_mul_left 100 (Nat.not_lt.mp hle))
      exact (Nat.min_eq_left hshare).symm

/-! ### Playouts -/

/-- The goals of `n` playouts. -/
def chargeGoals (b : Brief) (fuel : Nat) (s : State) : Nat → Search (List Nat)
  | 0 => return []
  | n + 1 => do
    let goal ← b.depthCharge fuel s
    return goal :: (← chargeGoals b fuel s n)

/-- A run that adds the goals of `n` playouts to a sum, against one that only collects them: either it
does the same and no sum leaves its word, or the first of the playouts are enough for one that does.
-/
inductive Adds (g : Game) (d : Deadline) (b : Brief) (fuel : Nat) (s : State) (w : Search.World)
    (n sum : Nat) : Outcome Nat × Search.World → Prop
  | fits (hsum : ∀ goals w', g.search d (chargeGoals b fuel s n) w = (.done goals, w') →
      sum + goals.sum < 2 ^ 32) :
      Adds g d b fuel s w n sum
        (g.search d (chargeGoals b fuel s n >>= fun goals => pure (sum + goals.sum)) w)
  | overflows {k : Nat} {goals : List Nat} {w' : Search.World} (hk : k ≤ n)
      (hgoals : g.search d (chargeGoals b fuel s k) w = (.done goals, w'))
      (hsum : 2 ^ 32 ≤ sum + goals.sum)
      (hall : ∀ all v, g.search d (chargeGoals b fuel s n) w = (.done all, v) →
        2 ^ 32 ≤ sum + all.sum) :
      Adds g d b fuel s w n sum (.fault .panic, w')

theorem search_chargeGoals_succ {goal : Nat} {v : Search.World}
    (hcharge : g.search d (b.depthCharge fuel s) w = (.done goal, v)) {goals : List Nat} :
    g.search d (chargeGoals b fuel s (n + 1)) w = (.done goals, w') ↔
      ∃ rest, g.search d (chargeGoals b fuel s n) v = (.done rest, w') ∧ goals = goal :: rest := by
  have hrun : g.search d (chargeGoals b fuel s (n + 1)) w =
      g.search d (chargeGoals b fuel s n >>= fun rest => pure (goal :: rest)) v :=
    Program.run_bind_of_done hcharge _
  rw [hrun]
  constructor
  · intro h
    obtain ⟨rest, u, hrest, h⟩ := Program.run_bind_eq_done.mp h
    cases h
    exact ⟨rest, hrest, rfl⟩
  · rintro ⟨rest, hrest, rfl⟩
    exact Program.run_bind_of_done hrest _

theorem Adds.cons {goal sum : Nat} {v : Search.World} {result : Outcome Nat × Search.World}
    (hcharge : g.search d (b.depthCharge fuel s) w = (.done goal, v))
    (h : Adds g d b fuel s v n (sum + goal) result) : Adds g d b fuel s w (n + 1) sum result := by
  cases h with
  | fits hsum =>
      have hrun :
          g.search d (chargeGoals b fuel s n >>= fun goals => pure (sum + goal + goals.sum)) v =
          g.search d (chargeGoals b fuel s (n + 1) >>= fun goals => pure (sum + goals.sum)) w := by
        rw [chargeGoals, bind_assoc]
        refine .trans ?_ (Program.run_bind_of_done hcharge _).symm
        simp only [bind_assoc, pure_bind, List.sum_cons, Nat.add_assoc]
        rfl
      rw [hrun]
      refine .fits fun goals w' hgoals => ?_
      obtain ⟨rest, hrest, rfl⟩ := (search_chargeGoals_succ hcharge).mp hgoals
      rw [List.sum_cons, ← Nat.add_assoc]
      exact hsum rest w' hrest
  | overflows hk hgoals hsum hall =>
      refine .overflows (Nat.succ_le_succ hk)
        ((search_chargeGoals_succ hcharge).mpr ⟨_, hgoals, rfl⟩) ?_ fun all u h => ?_
      · rw [List.sum_cons, ← Nat.add_assoc]
        exact hsum
      · obtain ⟨rest, hrest, rfl⟩ := (search_chargeGoals_succ hcharge).mp h
        rw [List.sum_cons, ← Nat.add_assoc]
        exact hall rest u hrest

/-- The induction is on the playouts, over every sum that fits. -/
theorem adds_sumOfCharges {sum : Nat} (hsum : sum < 2 ^ 32) (n : Nat) (w : Search.World) :
    Adds g d b fuel s w n sum (g.search d (sumOfCharges b fuel s n sum) w) := by
  induction n generalizing sum w with
  | zero => exact .fits fun _ _ h => by cases h; exact hsum
  | succ n ih =>
      by_cases hdone : ∃ goal v, g.search d (b.depthCharge fuel s) w = (.done goal, v)
      · obtain ⟨goal, v, hcharge⟩ := hdone
        have hadd : g.search d (sumOfCharges b fuel s (n + 1) sum) w =
            g.search d (.ofExcept (fit UInt32.size (sum + goal)) >>= sumOfCharges b fuel s n) v :=
          Program.run_bind_of_done hcharge _
        rw [hadd]
        by_cases hfits : sum + goal < UInt32.size
        · rw [fit_of_lt hfits]
          exact (ih hfits v).cons hcharge
        · have hle : 2 ^ 32 ≤ sum + goal := Nat.not_lt.mp hfits
          rw [fit_of_le (Nat.not_lt.mp hfits)]
          refine .overflows (Nat.le_add_left 1 n)
            ((search_chargeGoals_succ hcharge).mpr ⟨[], rfl, rfl⟩) (by simpa using hle) ?_
          intro all u hall
          obtain ⟨rest, -, rfl⟩ := (search_chargeGoals_succ hcharge).mp hall
          rw [List.sum_cons]
          omega
      · -- The playout stops the search, so that it makes no difference what would follow.
        have hsame : g.search d (sumOfCharges b fuel s (n + 1) sum) w =
            g.search d (chargeGoals b fuel s (n + 1) >>= fun goals => pure (sum + goals.sum)) w := by
          rw [chargeGoals, bind_assoc, sumOfCharges]
          exact Program.run_bind_congr rfl fun goal v hcharge => absurd ⟨goal, v, hcharge⟩ hdone
        rw [hsame]
        refine .fits fun goals w' hgoals => absurd ?_ hdone
        obtain ⟨goal, v, hcharge, -⟩ := Program.run_bind_eq_done.mp hgoals
        exact ⟨goal, v, hcharge⟩

end Heuristic

/-- A playout comes to its end where the game is over, and reports the role's goal there. -/
def PlayoutPolicy.Reports (policy : PlayoutPolicy) (g : Game) (role : RoleId) : Prop :=
  ∀ roleCount fuel turn s d w ended w',
    g.search d (ofPlay (policy roleCount role fuel turn s)) w = (.done ended, w') →
      ∃ t, g.isTerminal t = true ∧ g.goal t role = .ok ended.goal

theorem Play.rollout_reports {roleCount depth : Nat} {role : RoleId} {ended : Play.Rollout}
    (h : g.search d (ofPlay (Play.rollout roleCount role fuel depth s)) w = (.done ended, w')) :
    ∃ t, g.isTerminal t = true ∧ g.goal t role = .ok ended.goal := by
  induction fuel generalizing depth s w with
  | zero => cases h
  | succ fuel ih =>
      rw [Play.rollout, ofPlay_bind] at h
      obtain ⟨terminal, w₁, hquery, h⟩ := Program.run_bind_eq_done.mp h
      obtain ⟨hterminal, rfl⟩ := search_query_eq_done hquery
      cases terminal with
      | true =>
          rw [if_pos rfl, ofPlay_bind] at h
          obtain ⟨goal, w₂, hgoal, h⟩ := Program.run_bind_eq_done.mp h
          cases h
          exact ⟨s, Except.ok.inj hterminal, Game.answer_goal.mp (search_query_eq_done hgoal).1⟩
      | false =>
          rw [if_neg Bool.false_ne_true, ofPlay_bind] at h
          obtain ⟨expired, w₂, hpoll, h⟩ := Program.run_bind_eq_done.mp h
          cases expired with
          | true => cases h
          | false =>
              rw [if_neg Bool.false_ne_true, ofPlay_bind] at h
              obtain ⟨t, w₃, -, h⟩ := Program.run_bind_eq_done.mp h
              exact ih h

/-- Random playouts do. -/
theorem PlayoutPolicy.reports_random (g : Game) (role : RoleId) :
    PlayoutPolicy.random.Reports g role :=
  fun _ _ _ _ _ _ _ _ h => Play.rollout_reports h

theorem Brief.depthCharge_reports (hpolicy : b.playout.Reports g b.role) {goal : Nat}
    (h : g.search d (b.depthCharge fuel s) w = (.done goal, w')) :
    ∃ t, g.isTerminal t = true ∧ g.goal t b.role = .ok goal := by
  obtain ⟨turn, w₁, hturn, h⟩ := Program.run_bind_eq_done.mp h
  obtain ⟨result, w₂, hattempt, h⟩ := Program.run_bind_eq_done.mp h
  cases result with
  | none => cases h
  | some ended =>
      cases h
      exact hpolicy _ _ _ _ _ _ _ _ (Program.run_attempt_eq_some.mp hattempt)

namespace Heuristic

variable {charges n : Nat} {goals : List Nat}

/-- Each of the playouts that are counted has reported a goal. -/
theorem chargeGoals_done (hpolicy : b.playout.Reports g b.role)
    (h : g.search d (chargeGoals b fuel s n) w = (.done goals, w')) :
    goals.length = n ∧ w.stats.Gained w'.stats 0 n 0 false ∧
      ∀ goal ∈ goals, ∃ t, g.isTerminal t = true ∧ g.goal t b.role = .ok goal := by
  induction n generalizing w goals with
  | zero =>
      cases h
      exact ⟨rfl, .refl _, nofun⟩
  | succ n ih =>
      obtain ⟨goal, w₁, hcharge, h⟩ := Program.run_bind_eq_done.mp h
      obtain ⟨rest, w₂, hrest, h⟩ := Program.run_bind_eq_done.mp h
      cases h
      obtain ⟨hlength, hgained, hreports⟩ := ih hrest
      refine ⟨congrArg (· + 1) hlength, ?_, ?_⟩
      · rw [Nat.add_comm]
        exact (Brief.depthCharge_done hcharge).trans hgained
      · exact List.forall_mem_cons.mpr ⟨Brief.depthCharge_reports hpolicy hcharge, hreports⟩

/-- The value is the average over the playouts, unless the first of them are enough for a sum that
leaves its word. -/
theorem value_monteCarlo_cases (charges : Nat) :
    (g.search d ((monteCarlo charges).value b fuel s) w =
        g.search d (chargeGoals b fuel s (max 1 charges) >>= fun goals =>
          pure (goals.sum / max 1 charges)) w ∧
      ∀ goals w', g.search d (chargeGoals b fuel s (max 1 charges)) w = (.done goals, w') →
        goals.sum < 2 ^ 32) ∨
    ∃ k ≤ max 1 charges, ∃ goals w',
      g.search d (chargeGoals b fuel s k) w = (.done goals, w') ∧ 2 ^ 32 ≤ goals.sum ∧
        g.search d ((monteCarlo charges).value b fuel s) w = (.fault .panic, w') ∧
        ∀ all v, g.search d (chargeGoals b fuel s (max 1 charges)) w = (.done all, v) →
          2 ^ 32 ≤ all.sum := by
  have hadds : Adds g d b fuel s w (max 1 charges) 0
      (g.search d (sumOfCharges b fuel s (max 1 charges) 0) w) := adds_sumOfCharges (by decide) _ w
  generalize hrun : g.search d (sumOfCharges b fuel s (max 1 charges) 0) w = result at hadds
  cases hadds with
  | fits hsum =>
      simp only [Nat.zero_add] at hsum hrun
      refine .inl ⟨?_, hsum⟩
      refine (Program.run_bind_congr hrun fun _ _ _ => rfl).trans ?_
      rw [bind_assoc]
      rfl
  | @overflows k goals w' hk hgoals hsum hall =>
      simp only [Nat.zero_add] at hsum hall
      exact .inr ⟨k, hk, goals, w', hgoals, hsum, Program.run_bind_of_fault hrun _, hall⟩

theorem value_of_chargeGoals (hn : max 1 charges = n)
    (hgoals : g.search d (chargeGoals b fuel s n) w = (.done goals, w')) :
    if goals.sum < 2 ^ 32 then
      g.search d ((monteCarlo charges).value b fuel s) w = (.done (goals.sum / n), w')
    else (g.search d ((monteCarlo charges).value b fuel s) w).1 = .fault .panic := by
  subst hn
  rcases value_monteCarlo_cases charges with ⟨hrun, hsum⟩ | ⟨_, -, _, _, -, -, hrun, hsum⟩
  · rw [if_pos (hsum goals w' hgoals), hrun]
    exact Program.run_bind_of_done hgoals _
  · rw [if_neg (Nat.not_lt.mpr (hsum goals w' hgoals)), hrun]

theorem chargeGoals_of_value {v : Nat}
    (h : g.search d ((monteCarlo charges).value b fuel s) w = (.done v, w')) :
    ∃ goals, g.search d (chargeGoals b fuel s (max 1 charges)) w = (.done goals, w') ∧
      goals.sum < 2 ^ 32 ∧ v = goals.sum / max 1 charges := by
  rcases value_monteCarlo_cases charges with ⟨hrun, hsum⟩ | ⟨_, -, _, _, -, -, hrun, -⟩
  · rw [hrun] at h
    obtain ⟨goals, u, hgoals, h⟩ := Program.run_bind_eq_done.mp h
    cases h
    exact ⟨goals, hgoals, hsum goals _ hgoals, rfl⟩
  · rw [hrun] at h
    cases h

/-- What an estimate is, and that its steps fit the words that they are done in. -/
inductive Estimates (g : Game) (d : Deadline) (b : Brief) (fuel : Nat) (s : State)
    (w w' : Search.World) : Heuristic → Nat → Prop
  | goalProximity {v : Nat} (hgoal : g.goal s b.role = .ok v) :
      Estimates g d b fuel s w w' goalProximity v
  | mobility {feasible v : Nat} {ms : List Move} (hms : g.legal s b.role = .ok ms)
      (hvalue : v = if feasible = 0 then 100 else min 100 (100 * ms.length / feasible))
      (hchecked : checkedHundredths ms.length feasible = .ok v) :
      Estimates g d b fuel s w w' (mobility feasible) v
  | focus {feasible v : Nat} {ms : List Move} (hms : g.legal s b.role = .ok ms)
      (hvalue : v = 100 - if feasible = 0 then 100 else min 100 (100 * ms.length / feasible))
      (hchecked : checkedRest ms.length feasible = .ok v) :
      Estimates g d b fuel s w w' (focus feasible) v
  | monteCarlo {charges v : Nat} {goals : List Nat}
      (hgoals : g.search d (chargeGoals b fuel s (max 1 charges)) w = (.done goals, w'))
      (hreports : ∀ goal ∈ goals, ∃ t, g.isTerminal t = true ∧ g.goal t b.role = .ok goal)
      (hlength : goals.length = max 1 charges)
      (hcharges : w'.stats.charges = w.stats.charges + max 1 charges)
      (hsum : goals.sum < 2 ^ 32) (hvalue : v = goals.sum / max 1 charges)
      (hchecked : byteQuotient goals.sum (max 1 charges) = .ok v) :
      Estimates g d b fuel s w w' (monteCarlo charges) v

/-- The number that a heuristic is given. -/
def parameter : Heuristic → Nat
  | goalProximity => 0
  | mobility feasible => feasible
  | focus feasible => feasible
  | monteCarlo charges => charges

/-- How an estimate can break down: in a playout, or when the goals of many playouts are added up. -/
inductive Breaks (g : Game) (d : Deadline) (b : Brief) (fuel : Nat) (s : State)
    (w w' : Search.World) : Heuristic → Prop
  | playout {charges : Nat}
      (hgoals : g.search d (chargeGoals b fuel s (max 1 charges)) w = (.fault .panic, w')) :
      Breaks g d b fuel s w w' (monteCarlo charges)
  | sum {charges n : Nat} {goals : List Nat} (hn : n ≤ charges) (hmany : 42949672 < n)
      (hgoals : g.search d (chargeGoals b fuel s n) w = (.done goals, w'))
      (hsum : 2 ^ 32 ≤ goals.sum) : Breaks g d b fuel s w w' (monteCarlo charges)

theorem sum_le_of_chargeGoals (hscale : ∀ t v, g.goal t b.role = .ok v → v ≤ 100)
    (hpolicy : b.playout.Reports g b.role)
    (hgoals : g.search d (chargeGoals b fuel s n) w = (.done goals, w')) : goals.sum ≤ n * 100 := by
  obtain ⟨hlength, -, hreports⟩ := chargeGoals_done hpolicy hgoals
  rw [← hlength]
  refine List.sum_le_card_nsmul goals 100 fun goal hgoal => ?_
  obtain ⟨t, -, ht⟩ := hreports goal hgoal
  exact hscale t goal ht

theorem breaks_of_value (hscale : ∀ t v, g.goal t b.role = .ok v → v ≤ 100)
    (hpolicy : b.playout.Reports g b.role) (h : Heuristic)
    (hrun : g.search d (h.value b fuel s) w = (.fault .panic, w')) : h.Breaks g d b fuel s w w' := by
  cases h with
  | monteCarlo charges =>
      rcases value_monteCarlo_cases charges with
        ⟨hsame, -⟩ | ⟨n, hn, goals, v, hgoals, hsum, hsame, -⟩
      · rw [hsame] at hrun
        rcases Program.run_bind_eq_fault.mp hrun with hgoals | ⟨_, _, -, hdone⟩
        · exact .playout hgoals
        · cases hdone
      · rw [hsame] at hrun
        cases hrun
        have hle := sum_le_of_chargeGoals hscale hpolicy hgoals
        exact .sum (by omega) (by omega) hgoals hsum
  | goalProximity =>
      obtain ⟨_, -, hpanic⟩ := mapError_eq_error.mp (search_query_eq_fault hrun)
      cases hpanic
  | _ =>
      rcases Program.run_bind_eq_fault.mp hrun with hquery | ⟨_, _, -, hdone⟩
      · obtain ⟨_, -, hpanic⟩ := mapError_eq_error.mp (search_query_eq_fault hquery)
        cases hpanic
      · cases hdone

/-- Estimates are on the scale of goals, and they are what they are meant to be. No step of the
arithmetic leaves its width but the sum over playouts: if it comes to 2 ^ 32 or more the search breaks
down, and otherwise it comes to the average. That takes more than 42949672 playouts, and but for the
playouts themselves nothing else breaks down. -/
theorem value_estimates (hscale : ∀ t v, g.goal t b.role = .ok v → v ≤ 100)
    (hpolicy : b.playout.Reports g b.role) (h : Heuristic) (hwidth : h.parameter < 2 ^ 32) :
    (∀ v w', g.search d (h.value b fuel s) w = (.done v, w') →
      v ≤ 100 ∧ h.Estimates g d b fuel s w w' v) ∧
    (∀ charges goals w', h = monteCarlo charges →
      g.search d (chargeGoals b fuel s (max 1 charges)) w = (.done goals, w') →
      if goals.sum < 2 ^ 32 then
        g.search d (h.value b fuel s) w = (.done (goals.sum / max 1 charges), w')
      else (g.search d (h.value b fuel s) w).1 = .fault .panic) ∧
    ∀ w', g.search d (h.value b fuel s) w = (.fault .panic, w') → h.Breaks g d b fuel s w w' := by
  refine ⟨fun v w' hrun => ?_, ?_, fun w' => breaks_of_value hscale hpolicy h⟩
  · cases h with
    | goalProximity =>
        have hgoal := Game.answer_goal.mp (search_query_eq_done hrun).1
        exact ⟨hscale s v hgoal, .goalProximity hgoal⟩
    | mobility feasible =>
        obtain ⟨ms, w₁, hquery, h⟩ := Program.run_bind_eq_done.mp hrun
        cases h
        have hms := Game.answer_legal.mp (search_query_eq_done hquery).1
        exact ⟨hundredths_le _ _, .mobility hms (hundredths_eq _ _) (checkedHundredths_eq hwidth)⟩
    | focus feasible =>
        obtain ⟨ms, w₁, hquery, h⟩ := Program.run_bind_eq_done.mp hrun
        cases h
        have hms := Game.answer_legal.mp (search_query_eq_done hquery).1
        refine ⟨Nat.sub_le _ _, .focus hms ?_ (checkedRest_eq hwidth)⟩
        rw [hundredths_eq]
    | monteCarlo charges =>
        obtain ⟨goals, hgoals, hsum, rfl⟩ := chargeGoals_of_value hrun
        obtain ⟨hlength, hgained, hreports⟩ := chargeGoals_done hpolicy hgoals
        have hpos : 0 < max 1 charges := by omega
        have haverage : goals.sum / max 1 charges ≤ 100 :=
          Nat.div_le_of_le_mul (sum_le_of_chargeGoals hscale hpolicy hgoals)
        exact ⟨haverage, .monteCarlo hgoals hreports hlength hgained.charges hsum rfl
          (byteQuotient_of_le hpos haverage)⟩
  · rintro charges goals w' rfl hgoals
    exact value_of_chargeGoals rfl hgoals

open TwoRounds in
theorem value_estimates_twoRounds :
    let w := Search.World.new ⟨0, 0⟩ (.ofSeed 42)
    ∃ v w', game.search ⟨1000, 50⟩ ((monteCarlo 2).value brief 5 game.initial) w = (.done v, w') ∧
      v ≤ 100 ∧ Estimates game ⟨1000, 50⟩ brief 5 game.initial w w' (monteCarlo 2) v := by
  intro w
  have hscale : ∀ t v, game.goal t brief.role = .ok v → v ≤ 100 := by
    rintro t _ ⟨⟩
    split <;> omega
  have hdone : (game.search ⟨1000, 50⟩ ((monteCarlo 2).value brief 5 game.initial) w).1.isDone =
      true := by
    decide +kernel
  cases hrun : game.search ⟨1000, 50⟩ ((monteCarlo 2).value brief 5 game.initial) w with
  | mk outcome w' =>
      rw [hrun] at hdone
      cases outcome with
      | done v =>
          exact ⟨v, w', rfl, (value_estimates hscale
            (PlayoutPolicy.reports_random game brief.role) (monteCarlo 2) (by decide)).1 v w' hrun⟩
      | _ => cases hdone

/-- Playouts that are won without a move. -/
def wonPlayout : PlayoutPolicy := fun _ _ _ _ _ => return ⟨100, 0⟩

theorem chargeGoals_won (h : b.playout = wonPlayout) (n : Nat) (w : Search.World) :
    ∃ w', g.search d (chargeGoals b fuel s n) w = (.done (List.replicate n 100), w') := by
  induction n generalizing w with
  | zero => exact ⟨w, rfl⟩
  | succ n ih =>
      have hcharge : ∃ v, g.search d (b.depthCharge fuel s) w = (.done 100, v) := by
        rw [Brief.depthCharge, h]
        exact ⟨_, rfl⟩
      obtain ⟨v, hcharge⟩ := hcharge
      obtain ⟨w', hrest⟩ := ih v
      exact ⟨w', Program.run_bind_eq_done.mpr ⟨100, v, hcharge,
        Program.run_bind_eq_done.mpr ⟨List.replicate n 100, w', hrest, rfl⟩⟩⟩

theorem value_won (h : b.playout = wonPlayout) (hmany : 42949672 < charges) (w : Search.World) :
    (g.search d ((monteCarlo charges).value b fuel s) w).1 = .fault .panic := by
  obtain ⟨w', hgoals⟩ := chargeGoals_won (g := g) (d := d) (s := s) h charges w
  have hvalue := value_of_chargeGoals (show max 1 charges = charges by omega) hgoals
  rwa [List.sum_replicate_nat, if_neg (by omega)] at hvalue

/-- After 42949673 playouts that were all won the average is 100, but the estimate breaks down. -/
theorem monteCarlo_panics_nim :
    ∃ m goals w', Nim.machine 2 = .ok m ∧ (∀ t v, m.goal t Nim.white = .ok v → v ≤ 100) ∧
      wonPlayout.Reports m.toGame Nim.white ∧
      m.toGame.search ⟨1000000, 0⟩
        (chargeGoals ⟨2, Nim.white, .standard, .ucb, wonPlayout⟩ 0 m.initial 42949673)
        (.new ⟨0, 0⟩ (.ofSeed 42)) = (.done goals, w') ∧
      goals.length = 42949673 ∧ goals.sum / 42949673 = 100 ∧
      (m.toGame.search ⟨1000000, 0⟩
        ((monteCarlo 42949673).value ⟨2, Nim.white, .standard, .ucb, wonPlayout⟩ 0 m.initial)
        (.new ⟨0, 0⟩ (.ofSeed 42))).1 = .fault .panic := by
  have hwon : ∃ m, Nim.machine 2 = .ok m ∧
      m.isTerminal (.ofFacts [0, 4]) = true ∧ m.goal (.ofFacts [0, 4]) Nim.white = .ok 100 := by
    apply exists_of_any_toOption
    decide +kernel
  obtain ⟨m, hm, hterminal, hgoal⟩ := hwon
  obtain ⟨net, -, hnet⟩ := exists_of_bind_eq_ok hm
  have hrun : ∃ w', m.toGame.search ⟨1000000, 0⟩
      (chargeGoals ⟨2, Nim.white, .standard, .ucb, wonPlayout⟩ 0 m.initial 42949673)
      (.new ⟨0, 0⟩ (.ofSeed 42)) = (.done (List.replicate 42949673 100), w') :=
    chargeGoals_won rfl 42949673 _
  obtain ⟨w', hgoals⟩ := hrun
  have hsum : (List.replicate 42949673 100).sum = 42949673 * 100 := List.sum_replicate_nat
  refine ⟨m, _, w', hm, fun t v => Machine.goal_le hnet, ?_, hgoals, List.length_replicate, ?_, ?_⟩
  · rintro _ _ _ _ _ _ ended _ ⟨⟩
    exact ⟨.ofFacts [0, 4], hterminal, hgoal⟩
  · rw [hsum]
  · exact value_won rfl (by decide) _

end Heuristic

end GeneralGame
