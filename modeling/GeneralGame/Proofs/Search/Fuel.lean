import GeneralGame.Proofs.Search.Playout
import GeneralGame.Search.Strategy

/-!
Fuel. Every recursion of a search that the game does not bound looks at the clock in each round:
playouts, values of states, descents and iterations. So a search that is given `n` units of fuel runs
out of them only after it has looked at the clock `n` times.
-/
namespace GeneralGame

open Search

variable {α β : Type} {g : Game} {d : Deadline} {b : Brief} {n fuel : Nat} {s : State}

namespace Search

/-- The search runs out of fuel only after `n` polls, whatever is answered. -/
def Lasts : Search α → (n : Nat) → Prop
  | .pure _, _ => True
  | .cut, _ => True
  | .fault f, n => f = .outOfFuel → n = 0
  | .ask q next, n => ∀ a, Lasts (next a) (if q.isPoll then n - 1 else n)

/-- The request is not a random draw that refuses words without an end. -/
def drawReturns : SearchRequest × World → Bool
  | (.play (.draw width n pos), w) => (w.play.rng.draw width n pos).isSome
  | _ => true

/-- The random draws of a run each come to an end. -/
def DrawsReturn (history : List (SearchRequest × World)) : Prop :=
  ∀ e ∈ history, drawReturns e = true

instance (history : List (SearchRequest × World)) : Decidable (DrawsReturn history) :=
  inferInstanceAs (Decidable (∀ e ∈ history, drawReturns e = true))

/-! ### Rules -/

theorem Lasts.mono {p : Search α} {m : Nat} (h : Lasts p n) (hle : m ≤ n) : Lasts p m := by
  induction p generalizing m n with
  | pure a => trivial
  | cut => trivial
  | fault f =>
      intro hf
      have hn := h hf
      omega
  | ask q next ih =>
      intro a
      apply ih a (h a)
      split <;> omega

theorem lasts_bind {p : Search α} {f : α → Search β} (hp : Lasts p n) (hf : ∀ a, Lasts (f a) n) :
    Lasts (p >>= f) n := by
  induction p generalizing n with
  | pure a => exact hf a
  | cut => trivial
  | fault e => exact hp
  | ask q next ih =>
      intro a
      apply ih a (hp a)
      intro a
      apply (hf a).mono
      split <;> omega

theorem lasts_attempt {p : Search α} (hp : Lasts p n) : Lasts p.attempt n := by
  induction p generalizing n with
  | pure a => trivial
  | cut => trivial
  | fault e => exact hp
  | ask q next ih => exact fun a => ih a (hp a)

theorem lasts_request (q : SearchRequest) : Lasts (request q) n := fun _ => trivial

theorem lasts_mapM {xs : List β} {f : β → Search α} (hf : ∀ x, Lasts (f x) n) :
    Lasts (xs.mapM f) n := by
  induction xs with
  | nil =>
      rw [List.mapM_nil]
      trivial
  | cons x xs ih =>
      rw [List.mapM_cons]
      apply lasts_bind (hf x)
      intro a
      apply lasts_bind ih
      intro rest
      trivial

/-- A look at the clock is good for one more round. -/
theorem lasts_poll_bind {f : Bool → Search α} (hf : ∀ expired, Lasts (f expired) n) :
    Lasts (poll >>= f) (n + 1) := hf

theorem lasts_checkpoint_bind {f : Unit → Search α} (hf : Lasts (f ()) n) :
    Lasts (checkpoint >>= f) (n + 1) := by
  rw [checkpoint, bind_assoc]
  apply lasts_poll_bind
  intro expired
  cases expired with
  | true => exact fun _ => trivial
  | false => exact hf

theorem lasts_checkpoint : Lasts checkpoint n := by
  intro expired
  cases expired with
  | true => exact fun _ => trivial
  | false => trivial

theorem lasts_next (s : State) (j : JointMove) : Lasts (Search.next s j) n :=
  lasts_bind (lasts_request _) fun _ => lasts_request _

/-! ### Playouts -/

theorem lasts_randomMove (s : State) (r : RoleId) : Lasts (ofPlay (Play.randomMove s r)) n :=
  fun _ _ => trivial

theorem lasts_randomJointMove (roleCount : Nat) (s : State) :
    Lasts (ofPlay (Play.randomJointMove roleCount s)) n := by
  rw [Play.randomJointMove, ofPlay_bind, ofPlay_mapM]
  apply lasts_bind (lasts_mapM fun r => lasts_randomMove s r)
  intro ms
  trivial

theorem lasts_randomJointMoveWith (roleCount : Nat) (s : State) (role : RoleId) (m : Move) :
    Lasts (ofPlay (Play.randomJointMoveWith roleCount s role m)) n := by
  rw [Play.randomJointMoveWith, ofPlay_bind, ofPlay_mapM]
  apply lasts_bind
  · apply lasts_mapM
    intro r
    split
    · trivial
    · exact lasts_randomMove s r
  · intro ms
    trivial

theorem lasts_randomNext (roleCount : Nat) (s : State) :
    Lasts (ofPlay (Play.randomNext roleCount s)) n := by
  rw [Play.randomNext, ofPlay_bind]
  apply lasts_bind (lasts_randomJointMove roleCount s)
  intro j
  exact lasts_request _

theorem lasts_rollout (roleCount : Nat) (r : RoleId) (fuel depth : Nat) (s : State) :
    Lasts (ofPlay (Play.rollout roleCount r fuel depth s)) fuel := by
  induction fuel generalizing depth s with
  | zero => exact fun _ => rfl
  | succ fuel ih =>
      rw [Play.rollout, ofPlay_bind]
      apply lasts_bind (lasts_request _)
      intro terminal
      cases terminal with
      | true =>
          rw [if_pos rfl]
          exact fun _ => trivial
      | false =>
          rw [if_neg Bool.false_ne_true, ofPlay_bind]
          apply lasts_poll_bind
          intro expired
          cases expired with
          | true => trivial
          | false =>
              rw [if_neg Bool.false_ne_true, ofPlay_bind]
              exact lasts_bind (lasts_randomNext roleCount s) fun t => ih (depth + 1) t

theorem lasts_depthCharge (hplayout : b.playout = .random) (fuel : Nat) (s : State) :
    Lasts (b.depthCharge fuel s) fuel := by
  rw [Brief.depthCharge, hplayout]
  apply lasts_bind (lasts_request _)
  intro turn
  apply lasts_bind (lasts_attempt (lasts_rollout b.roleCount b.role fuel 0 s))
  intro ended
  cases ended with
  | none => exact fun _ => trivial
  | some ended => exact fun _ _ => trivial

theorem lasts_fit (size count : Nat) : Lasts (.ofExcept (fit size count)) n := by
  rcases Program.ofExcept_fit size count with hfit | hfit
  · exact hfit ▸ trivial
  · exact hfit ▸ nofun

/-- Playouts one after the other need no more fuel than the longest of them. -/
theorem lasts_charges (hplayout : b.playout = .random) {total : Nat → α → Search α}
    (hzero : ∀ sum, total 0 sum = pure sum) (add : α → Nat → Search α)
    (hadd : ∀ sum goal, Lasts (add sum goal) fuel)
    (hsucc : ∀ n sum, total (n + 1) sum =
      b.depthCharge fuel s >>= fun goal => add sum goal >>= total n) (count : Nat) (sum : α) :
    Lasts (total count sum) fuel := by
  induction count generalizing sum with
  | zero =>
      rw [hzero]
      trivial
  | succ count ih =>
      rw [hsucc]
      exact lasts_bind (lasts_depthCharge hplayout fuel s) fun goal => lasts_bind (hadd sum goal) ih

end Search

/-! ### Exhaustive searches -/

theorem Heuristic.lasts_value (hplayout : b.playout = .random) (fuel : Nat) (s : State)
    (heuristic : Heuristic) : Lasts (heuristic.value b fuel s) fuel := by
  cases heuristic with
  | monteCarlo charges =>
      apply lasts_bind
      · exact lasts_charges hplayout (fun _ => rfl) _ (fun _ _ => lasts_fit UInt32.size _)
          (fun _ _ => rfl) _ 0
      · intro sum
        trivial
  | _ => exact fun _ => trivial

namespace AlphaBeta

theorem lasts_least {score : State → Nat → Search Nat} (hscore : ∀ t high, Lasts (score t high) n)
    (low : Nat) (joints : List JointMove) (high : Nat) :
    Lasts (least b score s low joints high) n := by
  induction joints generalizing high with
  | nil => trivial
  | cons j joints ih =>
      rw [least]
      apply lasts_bind (lasts_next s j)
      intro t
      apply lasts_bind (hscore t high)
      intro value
      dsimp only
      split
      · exact fun _ => trivial
      · exact ih _

theorem lasts_greatest {score : Move → Nat → Search Nat} (hscore : ∀ m low, Lasts (score m low) n)
    (high : Nat) (ms : List Move) (low : Nat) : Lasts (greatest score high ms low) n := by
  induction ms generalizing low with
  | nil => trivial
  | cons m ms ih =>
      rw [greatest]
      apply lasts_bind (hscore m low)
      intro value
      dsimp only
      split
      · exact fun _ => trivial
      · exact ih _

theorem lasts_moveScore {score : State → Nat → Nat → Search Nat}
    (hscore : ∀ t low high, Lasts (score t low high) n) (s : State) (m : Move) (low high : Nat) :
    Lasts (moveScore b score s m low high) n := by
  apply lasts_bind lasts_checkpoint
  intro _
  apply lasts_bind (lasts_request _)
  intro joints
  exact lasts_least (fun t high => hscore t low high) low joints high

theorem lasts_stateScore (hplayout : b.playout = .random) (cutoff : Option Heuristic)
    (fuel level : Nat) (s : State) (low high : Nat) :
    Lasts (stateScore b cutoff fuel level s low high) fuel := by
  induction fuel generalizing level s low high with
  | zero => exact fun _ => rfl
  | succ fuel ih =>
      rw [stateScore]
      apply lasts_checkpoint_bind
      apply lasts_bind (lasts_request _)
      intro _
      apply lasts_bind (lasts_request _)
      intro terminal
      cases terminal with
      | true => exact lasts_request _
      | false =>
          rw [if_neg Bool.false_ne_true]
          cases cutoffAt b cutoff level with
          | some heuristic => exact heuristic.lasts_value hplayout fuel s
          | none =>
              apply lasts_bind (lasts_request _)
              intro ms
              exact lasts_greatest
                (fun m low => lasts_moveScore (fun t => ih (level + 1) t) s m low high) high _ low

end AlphaBeta

namespace Minimax

theorem lasts_replies (s : State) (m : Move) : Lasts (replies b s m) n := by
  apply lasts_bind
  · apply lasts_mapM
    intro r
    exact fun _ => trivial
  · intro joints
    trivial

theorem lasts_least {score : State → Search Nat} (hscore : ∀ t, Lasts (score t) n)
    (joints : List JointMove) (worst : Nat) : Lasts (least b score s joints worst) n := by
  induction joints generalizing worst with
  | nil => trivial
  | cons j joints ih =>
      rw [least]
      apply lasts_bind (lasts_next s j)
      intro t
      apply lasts_bind (hscore t)
      intro value
      dsimp only
      split
      · trivial
      · exact ih _

theorem lasts_greatest {score : Move → Search Nat} (hscore : ∀ m, Lasts (score m) n)
    (ms : List Move) (best : Nat) : Lasts (greatest score ms best) n := by
  induction ms generalizing best with
  | nil => trivial
  | cons m ms ih =>
      rw [greatest]
      apply lasts_bind (hscore m)
      intro value
      dsimp only
      split
      · trivial
      · exact ih _

theorem lasts_moveScore {score : State → Search Nat} (hscore : ∀ t, Lasts (score t) n) (s : State)
    (m : Move) : Lasts (moveScore b score s m) n := by
  apply lasts_bind lasts_checkpoint
  intro _
  apply lasts_bind (lasts_replies s m)
  intro joints
  exact lasts_least hscore joints topGoal

theorem lasts_stateScore (fuel depth : Nat) (s : State) :
    Lasts (stateScore b fuel depth s) fuel := by
  induction fuel generalizing depth s with
  | zero => exact fun _ => rfl
  | succ fuel ih =>
      rw [stateScore]
      apply lasts_checkpoint_bind
      apply lasts_bind (lasts_request _)
      intro _
      apply lasts_bind (lasts_request _)
      intro terminal
      cases terminal with
      | true => exact lasts_request _
      | false =>
          rw [if_neg Bool.false_ne_true]
          apply lasts_bind (lasts_request _)
          intro ms
          exact lasts_greatest (fun m => lasts_moveScore (fun t => ih (depth + 1) t) s m) _ 0

end Minimax

theorem lasts_chooseFrom {score : Move → Nat → Search Nat}
    (hscore : ∀ m floor, Lasts (score m floor) n) (ms : List Move) (best : Incumbent Nat) :
    Lasts (chooseFrom score ms best) n := by
  induction ms generalizing best with
  | nil => trivial
  | cons m ms ih =>
      rw [chooseFrom]
      apply lasts_bind (lasts_attempt (hscore m best.score))
      intro answer
      cases answer with
      | none => trivial
      | some value =>
          dsimp only
          split
          · trivial
          · rw [expired, bind_assoc]
            apply lasts_bind (lasts_request _)
            intro expired
            cases expired with
            | true => exact fun _ => trivial
            | false => exact ih _

/-! ### Searches that sample -/

namespace MonteCarlo

theorem lasts_sample (hplayout : b.playout = .random) (m : Move) :
    Lasts (sample b fuel s m) fuel := by
  apply lasts_bind lasts_checkpoint
  intro _
  apply lasts_bind (lasts_randomJointMoveWith b.roleCount s b.role m)
  intro joint
  apply lasts_bind (lasts_next s joint)
  intro t
  exact lasts_depthCharge hplayout fuel t

theorem lasts_round (hplayout : b.playout = .random) (tallies : List Tally) :
    Lasts (round b fuel s tallies) fuel := by
  induction tallies with
  | nil => trivial
  | cons t tallies ih =>
      rw [round]
      apply lasts_bind (lasts_attempt (lasts_sample hplayout t.move))
      intro answer
      cases answer with
      | none => trivial
      | some goal =>
          apply lasts_bind ih
          intro rest
          trivial

theorem lasts_rounds (hplayout : b.playout = .random) (count : Nat) (tallies : List Tally) :
    Lasts (rounds b fuel s count tallies) fuel := by
  induction count generalizing tallies with
  | zero => trivial
  | succ count ih =>
      rw [rounds]
      apply lasts_bind (lasts_round hplayout tallies)
      rintro ⟨ts, whole⟩
      cases whole with
      | true => exact lasts_bind (lasts_request _) fun _ => ih ts
      | false => trivial

end MonteCarlo

namespace TreeSearch

theorem lasts_follow (s : State) : Lasts (follow b s) n := by
  apply lasts_bind (lasts_request _)
  intro table
  cases (table.get? s).filter Node.isVisited with
  | none => trivial
  | some node =>
      dsimp only
      split
      · trivial
      · exact fun _ => trivial

theorem lasts_descend (fuel : Nat) (s : State) (above : List State) :
    Lasts (descend b fuel s above) fuel := by
  induction fuel generalizing s above with
  | zero => exact fun _ => rfl
  | succ fuel ih =>
      rw [descend]
      apply lasts_checkpoint_bind
      apply lasts_bind (lasts_request _)
      intro terminal
      cases terminal with
      | true => exact fun _ => trivial
      | false =>
          rw [if_neg Bool.false_ne_true]
          apply lasts_bind (lasts_follow s)
          intro next
          cases next with
          | none => trivial
          | some next =>
              dsimp only
              split
              · trivial
              · exact ih next (s :: above)

theorem lasts_expand (s : State) : Lasts (expand s) n := by
  apply lasts_bind (lasts_request _)
  intro table
  split
  · trivial
  · apply lasts_bind (lasts_request _)
    intro joints
    apply lasts_bind
    · apply lasts_mapM
      intro j
      exact lasts_bind (lasts_next s j) fun _ => fun _ => trivial
    · exact fun children => lasts_request _

theorem lasts_iterate (hplayout : b.playout = .random) (root : State) :
    Lasts (iterate b fuel root) fuel := by
  apply lasts_bind (lasts_descend fuel root [])
  intro leaf
  cases leaf.goal with
  | some goal => exact lasts_request _
  | none =>
      apply lasts_bind (lasts_request _)
      intro _
      apply lasts_bind (lasts_expand leaf.state)
      intro _
      apply lasts_bind (lasts_charges hplayout (fun _ => rfl)
        (fun sum goal => pure (sum + goal.toFloat)) (fun _ _ => trivial) (fun _ _ => rfl) _ 0)
      intro sum
      exact lasts_request _

theorem lasts_iterations (hplayout : b.playout = .random) (root : State) (h : n ≤ fuel) :
    Lasts (iterations b fuel root n) n := by
  induction n with
  | zero => exact fun _ => rfl
  | succ n ih =>
      rw [iterations]
      apply lasts_checkpoint_bind
      apply lasts_bind ((lasts_iterate hplayout root).mono (by omega))
      intro _
      apply lasts_bind (lasts_request _)
      intro _
      exact ih (by omega)

end TreeSearch

/-! ### Strategies -/

/-- With random playouts, no strategy runs out of `fuel` units of fuel before it has looked at the
clock as many times. -/
theorem Strategy.lasts_search (strategy : Strategy) (hplayout : b.playout = .random)
    {moves : List Move} (h : moves ≠ []) : Lasts (strategy.search b fuel s moves h) fuel := by
  cases strategy with
  | legal => trivial
  | random => exact fun _ => trivial
  | minimax =>
      exact lasts_chooseFrom
        (fun m _ => Minimax.lasts_moveScore (fun t => Minimax.lasts_stateScore fuel 1 t) s m) _ _
  | alphaBeta =>
      exact lasts_chooseFrom (fun m floor => AlphaBeta.lasts_moveScore
        (AlphaBeta.lasts_stateScore hplayout none fuel 1) s m floor topGoal) _ _
  | heuristic cutoff =>
      exact lasts_chooseFrom (fun m floor => AlphaBeta.lasts_moveScore
        (AlphaBeta.lasts_stateScore hplayout (some cutoff) fuel 1) s m floor topGoal) _ _
  | monteCarlo =>
      apply lasts_bind (MonteCarlo.lasts_rounds hplayout _ _)
      intro ts
      trivial
  | uct =>
      apply lasts_bind (lasts_request _)
      intro _
      apply lasts_bind
      · apply lasts_bind
          (lasts_attempt (TreeSearch.lasts_iterations hplayout s (Nat.le_refl fuel)))
        intro answer
        trivial
      · intro _
        exact fun _ => trivial

end GeneralGame
