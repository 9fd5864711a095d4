import GeneralGame.Proofs.Search.Playout
import GeneralGame.Search.Strategy

/-!
One walk through all searches. A property of searches is closed if requests have it and if sequences
and attempts keep it. What a search does beyond that is up to the policies, so once a closed property
holds of playouts and of the choice of a child, it holds of the search of every strategy. For the
value of a state in an exhaustive search less will do, since it is cut off at checkpoints and in
playouts only.
-/
namespace GeneralGame

open Search

variable {α β : Type} {b : Brief}

/-- The request counts turns, which only a policy learns of. -/
def SearchRequest.isTurn : SearchRequest → Bool
  | .selectionTurn | .playoutTurn => true
  | _ => false

/-- The property holds of everything that the value of a state is made of, the policies apart. What
is cut off there, or notes that it was interrupted, is a checkpoint or a playout. -/
structure Search.Composes (P : ∀ α : Type, Search α → Prop) : Prop where
  done {α : Type} (a : α) : P α (.pure a)
  outOfFuel {α : Type} : P α .outOfFuel
  request {q : SearchRequest} : q.isTurn = false → q ≠ .note .interrupted → P q.Answer (request q)
  checkpoint : P Unit checkpoint
  bind {α β : Type} {p : Search α} {f : α → Search β} :
    P α p → (∀ a, P β (f a)) → P β (p >>= f)

/-- The property holds of everything that searches are made of, the policies apart. -/
structure Search.Closed (P : ∀ α : Type, Search α → Prop) : Prop where
  done {α : Type} (a : α) : P α (.pure a)
  cut {α : Type} : P α .cut
  outOfFuel {α : Type} : P α .outOfFuel
  request {q : SearchRequest} : q.isTurn = false → P q.Answer (request q)
  bind {α β : Type} {p : Search α} {f : α → Search β} :
    P α p → (∀ a, P β (f a)) → P β (p >>= f)
  attempt {α : Type} {p : Search α} : P α p → P (Option α) p.attempt

/-- The property holds of what the policies of a brief do in a search. -/
structure Brief.Complies (b : Brief) (P : ∀ α : Type, Search α → Prop) : Prop where
  follow (s : State) : P (Option State) (TreeSearch.follow b s)
  depthCharge (fuel : Nat) (s : State) : P Nat (b.depthCharge fuel s)

namespace Search.Composes

variable {P : ∀ α : Type, Search α → Prop} (composes : Composes P)

include composes

theorem mapM {xs : List β} {f : β → Search α} (hf : ∀ x, P α (f x)) :
    P (List α) (xs.mapM f) := by
  induction xs with
  | nil =>
      rw [List.mapM_nil]
      exact composes.done []
  | cons x xs ih =>
      rw [List.mapM_cons]
      exact composes.bind (hf x) fun a => composes.bind ih fun _ => composes.done _

theorem query (q : Query) : P q.Answer (Search.query q) :=
  composes.request (q := .play (.query q)) rfl nofun

theorem note {n : Note} (hn : n ≠ .interrupted) : P Unit (Search.note n) :=
  composes.request (q := .note n) rfl fun h => hn (SearchRequest.note.inj h)

theorem next (s : State) (j : JointMove) : P State (Search.next s j) :=
  composes.bind (composes.note nofun) fun _ => composes.query (.next s j)

theorem minimaxLeast {score : State → Search Nat} (hscore : ∀ t, P Nat (score t)) (s : State)
    (joints : List JointMove) (worst : Nat) : P Nat (Minimax.least b score s joints worst) := by
  induction joints generalizing worst with
  | nil => exact composes.done worst
  | cons j joints ih =>
      rw [Minimax.least]
      refine composes.bind (composes.next s j) fun t => composes.bind (hscore t) fun value => ?_
      dsimp only
      split
      · exact composes.done 0
      · exact ih _

theorem minimaxGreatest {score : Move → Search Nat} (hscore : ∀ m, P Nat (score m))
    (ms : List Move) (best : Nat) : P Nat (Minimax.greatest score ms best) := by
  induction ms generalizing best with
  | nil => exact composes.done best
  | cons m ms ih =>
      rw [Minimax.greatest]
      refine composes.bind (hscore m) fun value => ?_
      dsimp only
      split
      · exact composes.done topGoal
      · exact ih _

theorem replies (s : State) (m : Move) : P (List JointMove) (Minimax.replies b s m) :=
  composes.bind
    (composes.mapM fun r => composes.bind (composes.query (.moves s r)) fun _ => composes.done _)
    fun _ => composes.done _

theorem minimaxMoveScore {score : State → Search Nat} (hscore : ∀ t, P Nat (score t)) (s : State)
    (m : Move) : P Nat (Minimax.moveScore b score s m) :=
  composes.bind composes.checkpoint fun _ =>
    composes.bind (composes.replies s m) fun joints => composes.minimaxLeast hscore s joints topGoal

theorem minimaxStateScore (fuel depth : Nat) (s : State) :
    P Nat (Minimax.stateScore b fuel depth s) := by
  induction fuel generalizing depth s with
  | zero => exact composes.outOfFuel
  | succ fuel ih =>
      rw [Minimax.stateScore]
      refine composes.bind composes.checkpoint fun _ => composes.bind (composes.note nofun) fun _ =>
        composes.bind (composes.query (.isTerminal s)) fun terminal => ?_
      cases terminal with
      | true => exact composes.query (.goal s b.role)
      | false =>
          rw [if_neg Bool.false_ne_true]
          exact composes.bind (composes.query (.moves s b.role)) fun ms =>
            composes.minimaxGreatest (fun m => composes.minimaxMoveScore (ih (depth + 1)) s m)
              ms.val 0

theorem alphaBetaLeast {score : State → Nat → Search Nat} (hscore : ∀ t high, P Nat (score t high))
    (s : State) (low : Nat) (joints : List JointMove) (high : Nat) :
    P Nat (AlphaBeta.least b score s low joints high) := by
  induction joints generalizing high with
  | nil => exact composes.done high
  | cons j joints ih =>
      rw [AlphaBeta.least]
      refine composes.bind (composes.next s j) fun t => composes.bind (hscore t high) fun value => ?_
      dsimp only
      split
      · exact composes.bind (composes.note nofun) fun _ => composes.done low
      · exact ih _

theorem alphaBetaGreatest {score : Move → Nat → Search Nat}
    (hscore : ∀ m low, P Nat (score m low)) (high : Nat) (ms : List Move) (low : Nat) :
    P Nat (AlphaBeta.greatest score high ms low) := by
  induction ms generalizing low with
  | nil => exact composes.done low
  | cons m ms ih =>
      rw [AlphaBeta.greatest]
      refine composes.bind (hscore m low) fun value => ?_
      dsimp only
      split
      · exact composes.bind (composes.note nofun) fun _ => composes.done high
      · exact ih _

theorem alphaBetaMoveScore {score : State → Nat → Nat → Search Nat}
    (hscore : ∀ t low high, P Nat (score t low high)) (s : State) (m : Move) (low high : Nat) :
    P Nat (AlphaBeta.moveScore b score s m low high) :=
  composes.bind composes.checkpoint fun _ =>
    composes.bind (composes.query (.jointMovesWith s b.role m)) fun joints =>
      composes.alphaBetaLeast (fun t high => hscore t low high) s low joints high

theorem fit (hpanic : P Nat (.fault .panic)) (size n : Nat) :
    P Nat (.ofExcept (GeneralGame.fit size n)) := by
  rcases Program.ofExcept_fit size n with hfit | hfit
  · exact hfit ▸ composes.done n
  · exact hfit ▸ hpanic

/-- Playouts one after the other. -/
theorem charges (hcharge : ∀ fuel s, P Nat (b.depthCharge fuel s)) {fuel : Nat} {s : State}
    {total : Nat → α → Search α} (hzero : ∀ sum, total 0 sum = pure sum)
    (add : α → Nat → Search α) (hadd : ∀ sum goal, P α (add sum goal))
    (hsucc : ∀ n sum, total (n + 1) sum =
      b.depthCharge fuel s >>= fun goal => add sum goal >>= total n) (n : Nat) (sum : α) :
    P α (total n sum) := by
  induction n generalizing sum with
  | zero =>
      rw [hzero]
      exact composes.done sum
  | succ n ih =>
      rw [hsucc]
      exact composes.bind (hcharge fuel s) fun goal => composes.bind (hadd sum goal) ih

theorem heuristicValue (hcharge : ∀ fuel s, P Nat (b.depthCharge fuel s)) (fuel : Nat) (s : State)
    (heuristic : Heuristic)
    (hpanic : ∀ charges, heuristic = .monteCarlo charges → P Nat (.fault .panic)) :
    P Nat (heuristic.value b fuel s) := by
  cases heuristic with
  | goalProximity => exact composes.query (.goal s b.role)
  | monteCarlo charges =>
      refine composes.bind ?_ fun _ => composes.done _
      have hfit := composes.fit (hpanic charges rfl) UInt32.size
      exact composes.charges hcharge (fun _ => rfl) _ (fun _ _ => hfit _) (fun _ _ => rfl) _ 0
  | _ => exact composes.bind (composes.query (.legal s b.role)) fun _ => composes.done _

theorem alphaBetaStateScore (hcharge : ∀ fuel s, P Nat (b.depthCharge fuel s))
    (cutoff : Option Heuristic)
    (hpanic : ∀ charges, cutoff = some (.monteCarlo charges) → P Nat (.fault .panic))
    (fuel level : Nat) (s : State) (low high : Nat) :
    P Nat (AlphaBeta.stateScore b cutoff fuel level s low high) := by
  induction fuel generalizing level s low high with
  | zero => exact composes.outOfFuel
  | succ fuel ih =>
      rw [AlphaBeta.stateScore]
      refine composes.bind composes.checkpoint fun _ => composes.bind (composes.note nofun) fun _ =>
        composes.bind (composes.query (.isTerminal s)) fun terminal => ?_
      cases terminal with
      | true => exact composes.query (.goal s b.role)
      | false =>
          rw [if_neg Bool.false_ne_true]
          cases hcutoff : AlphaBeta.cutoffAt b cutoff level with
          | some heuristic =>
              refine composes.heuristicValue hcharge fuel s heuristic fun charges hcharges => ?_
              subst hcharges
              exact hpanic charges (AlphaBeta.eq_of_cutoffAt hcutoff)
          | none =>
              exact composes.bind (composes.query (.moves s b.role)) fun ms =>
                composes.alphaBetaGreatest
                  (fun m low => composes.alphaBetaMoveScore (ih (level + 1)) s m low high) high
                  ms.val low

end Search.Composes

namespace Search.Closed

variable {P : ∀ α : Type, Search α → Prop} (closed : Closed P)

include closed

theorem note (n : Note) : P Unit (Search.note n) := closed.request (q := .note n) rfl

theorem cutOff : P α cutOff := closed.bind (closed.note _) fun _ => closed.cut

theorem poll_bind {f : Bool → Search α} (hf : ∀ expired, P α (f expired)) :
    P α (poll >>= f) := closed.bind (closed.request (q := .play .poll) rfl) hf

theorem checkpoint : P Unit checkpoint := by
  apply closed.poll_bind
  intro expired
  cases expired with
  | true => exact closed.cutOff
  | false => exact closed.done ()

theorem expired : P Bool expired := by
  apply closed.poll_bind
  intro expired
  cases expired with
  | true => exact closed.bind (closed.note _) fun _ => closed.done true
  | false => exact closed.done false

theorem composes : Composes P where
  done := closed.done
  outOfFuel := closed.outOfFuel
  request hturn _ := closed.request hturn
  checkpoint := closed.checkpoint
  bind := closed.bind

theorem mapM {xs : List β} {f : β → Search α} (hf : ∀ x, P α (f x)) : P (List α) (xs.mapM f) :=
  closed.composes.mapM hf

theorem query (q : Query) : P q.Answer (Search.query q) := closed.composes.query q

theorem next (s : State) (j : JointMove) : P State (Search.next s j) := closed.composes.next s j

/-! ### Play -/

theorem draw (width : Rng.Width) (n : Nat) (pos : 0 < n) :
    P (Fin n) (ofPlay (Play.draw width n pos)) :=
  closed.request (q := .play (.draw width n pos)) rfl

theorem randomMove (s : State) (r : RoleId) : P Move (ofPlay (Play.randomMove s r)) := by
  rw [Play.randomMove, ofPlay_bind]
  apply closed.bind (closed.query (.moves s r))
  intro ms
  rw [ofPlay_bind]
  exact closed.bind (closed.draw ..) fun _ => closed.done _

theorem randomJointMove (roleCount : Nat) (s : State) :
    P JointMove (ofPlay (Play.randomJointMove roleCount s)) := by
  rw [Play.randomJointMove, ofPlay_bind, ofPlay_mapM]
  exact closed.bind (closed.mapM fun r => closed.randomMove s r) fun _ => closed.done _

theorem randomJointMoveWith (roleCount : Nat) (s : State) (role : RoleId) (m : Move) :
    P JointMove (ofPlay (Play.randomJointMoveWith roleCount s role m)) := by
  rw [Play.randomJointMoveWith, ofPlay_bind, ofPlay_mapM]
  refine closed.bind (closed.mapM fun r => ?_) fun _ => closed.done _
  split
  · exact closed.done m
  · exact closed.randomMove s r

theorem randomNext (roleCount : Nat) (s : State) :
    P State (ofPlay (Play.randomNext roleCount s)) := by
  rw [Play.randomNext, ofPlay_bind]
  exact closed.bind (closed.randomJointMove roleCount s) fun j => closed.query (.next s j)

theorem rollout (roleCount : Nat) (r : RoleId) (fuel depth : Nat) (s : State) :
    P Play.Rollout (ofPlay (Play.rollout roleCount r fuel depth s)) := by
  induction fuel generalizing depth s with
  | zero => exact closed.outOfFuel
  | succ fuel ih =>
      rw [Play.rollout, ofPlay_bind]
      apply closed.bind (closed.query (.isTerminal s))
      intro terminal
      cases terminal with
      | true =>
          rw [if_pos rfl, ofPlay_bind]
          exact closed.bind (closed.query (.goal s r)) fun _ => closed.done _
      | false =>
          rw [if_neg Bool.false_ne_true, ofPlay_bind]
          apply closed.poll_bind
          intro expired
          cases expired with
          | true => exact closed.cut
          | false =>
              rw [if_neg Bool.false_ne_true, ofPlay_bind]
              exact closed.bind (closed.randomNext roleCount s) fun t => ih (depth + 1) t

/-! ### Exhaustive searches -/

theorem chooseFrom {score : Move → Nat → Search Nat}
    (hscore : ∀ m floor, P Nat (score m floor)) (ms : List Move) (best : Incumbent Nat) :
    P Move (chooseFrom score ms best) := by
  induction ms generalizing best with
  | nil => exact closed.done best.move
  | cons m ms ih =>
      rw [GeneralGame.chooseFrom]
      apply closed.bind (closed.attempt (hscore m best.score))
      intro answer
      cases answer with
      | none => exact closed.done best.move
      | some value =>
          dsimp only
          split
          · exact closed.done m
          · apply closed.bind closed.expired
            intro expired
            cases expired with
            | true => exact closed.done _
            | false => exact ih _

/-! ### Searches that sample -/

theorem sample (hb : b.Complies P) (fuel : Nat) (s : State) (m : Move) :
    P Nat (MonteCarlo.sample b fuel s m) :=
  closed.bind closed.checkpoint fun _ =>
    closed.bind (closed.randomJointMoveWith b.roleCount s b.role m) fun joint =>
      closed.bind (closed.next s joint) fun t => hb.depthCharge fuel t

theorem round (hb : b.Complies P) (fuel : Nat) (s : State) (tallies : List MonteCarlo.Tally) :
    P (List MonteCarlo.Tally × Bool) (MonteCarlo.round b fuel s tallies) := by
  induction tallies with
  | nil => exact closed.done _
  | cons t tallies ih =>
      rw [MonteCarlo.round]
      apply closed.bind (closed.attempt (closed.sample hb fuel s t.move))
      intro answer
      cases answer with
      | none => exact closed.done _
      | some goal => exact closed.bind ih fun _ => closed.done _

theorem rounds (hb : b.Complies P) (fuel : Nat) (s : State) (n : Nat)
    (tallies : List MonteCarlo.Tally) :
    P (List MonteCarlo.Tally) (MonteCarlo.rounds b fuel s n tallies) := by
  induction n generalizing tallies with
  | zero => exact closed.done tallies
  | succ n ih =>
      rw [MonteCarlo.rounds]
      apply closed.bind (closed.round hb fuel s tallies)
      rintro ⟨ts, whole⟩
      cases whole with
      | true => exact closed.bind (closed.note _) fun _ => ih ts
      | false => exact closed.done ts

theorem descend (hb : b.Complies P) (fuel : Nat) (s : State) (above : List State) :
    P TreeSearch.Leaf (TreeSearch.descend b fuel s above) := by
  induction fuel generalizing s above with
  | zero => exact closed.outOfFuel
  | succ fuel ih =>
      rw [TreeSearch.descend]
      refine closed.bind closed.checkpoint fun _ =>
        closed.bind (closed.query (.isTerminal s)) fun terminal => ?_
      cases terminal with
      | true => exact closed.bind (closed.query (.goal s b.role)) fun _ => closed.done _
      | false =>
          rw [if_neg Bool.false_ne_true]
          apply closed.bind (hb.follow s)
          intro next
          cases next with
          | none => exact closed.done _
          | some next =>
              dsimp only
              split
              · exact closed.done _
              · exact ih next (s :: above)

theorem expand (s : State) : P Unit (TreeSearch.expand s) := by
  apply closed.bind (closed.request (q := .table) rfl)
  intro table
  split
  · exact closed.done ()
  · apply closed.bind (closed.query (.jointMoves s))
    intro joints
    apply closed.bind
    · exact closed.mapM fun j => closed.bind (closed.next s j) fun t =>
        closed.bind (closed.request (q := .register t) rfl) fun _ => closed.done _
    · exact fun children => closed.request (q := .setChildren s children) rfl

theorem iterate (hb : b.Complies P) (fuel : Nat) (root : State) :
    P Unit (TreeSearch.iterate b fuel root) := by
  apply closed.bind (closed.descend hb fuel root [])
  intro leaf
  cases leaf.goal with
  | some goal => exact closed.request (q := .backup ..) rfl
  | none =>
      refine closed.bind (closed.note _) fun _ => closed.bind (closed.expand leaf.state) fun _ =>
        closed.bind ?_ fun _ => closed.request (q := .backup ..) rfl
      exact closed.composes.charges hb.depthCharge (fun _ => rfl)
        (fun sum goal => pure (sum + goal.toFloat)) (fun _ _ => closed.done _) (fun _ _ => rfl) _ 0

theorem iterations (hb : b.Complies P) (fuel : Nat) (root : State) (n : Nat) :
    P Unit (TreeSearch.iterations b fuel root n) := by
  induction n with
  | zero => exact closed.outOfFuel
  | succ n ih =>
      exact closed.bind closed.checkpoint fun _ => closed.bind (closed.iterate hb fuel root)
        fun _ => closed.bind (closed.note _) fun _ => ih

/-! ### Strategies -/

/-- A closed property that the policies comply with holds of every search, if it allows a Monte Carlo
heuristic to break down. -/
theorem search (hb : b.Complies P) (strategy : Strategy)
    (hpanic : ∀ charges, strategy = .heuristic (.monteCarlo charges) → P Nat (.fault .panic))
    (fuel : Nat) (s : State) {moves : List Move} (h : moves ≠ []) :
    P Move (strategy.search b fuel s moves h) := by
  cases strategy with
  | legal => exact closed.done _
  | random => exact closed.bind (closed.draw ..) fun _ => closed.done _
  | minimax =>
      exact closed.chooseFrom (fun m _ => closed.composes.minimaxMoveScore
        (closed.composes.minimaxStateScore fuel 1) s m) moves _
  | alphaBeta =>
      exact closed.chooseFrom (fun m floor => closed.composes.alphaBetaMoveScore
        (closed.composes.alphaBetaStateScore hb.depthCharge none nofun fuel 1) s m floor topGoal)
        moves _
  | heuristic cutoff =>
      have hcutoff (charges : Nat) (h : some cutoff = some (.monteCarlo charges)) :
          P Nat (.fault .panic) := hpanic charges (congrArg Strategy.heuristic (Option.some.inj h))
      exact closed.chooseFrom (fun m floor => closed.composes.alphaBetaMoveScore
        (closed.composes.alphaBetaStateScore hb.depthCharge (some cutoff) hcutoff fuel 1) s m floor
        topGoal) moves _
  | monteCarlo => exact closed.bind (closed.rounds hb fuel s _ _) fun _ => closed.done _
  | uct =>
      refine closed.bind (closed.request (q := .plant s) rfl) fun _ => closed.bind ?_ fun _ =>
        closed.bind (closed.request (q := .table) rfl) fun _ => closed.done _
      exact closed.bind (closed.attempt (closed.iterations hb fuel s fuel)) fun _ => closed.done ()

end Search.Closed

end GeneralGame
