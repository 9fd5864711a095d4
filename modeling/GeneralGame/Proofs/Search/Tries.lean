import GeneralGame.Proofs.Game.Honored
import GeneralGame.Proofs.Play.RandomPlay
import GeneralGame.Proofs.Search.Playout
import GeneralGame.Search.Strategy

/-!
Searches that try no joint move but of known moves. A search asks for the joint moves that it tries,
puts them together, or draws them, and a game that honors known moves refuses none of them, whichever
search it is asked by. So a search fails only for what the game declines with.
-/
namespace GeneralGame

open Search

variable {α β : Type} {g : Game} {b : Brief} {s : State} {role : RoleId}
  {knows : RoleId → Move → Prop} {declines : GameError → Prop} {j : JointMove} {m : Move}

/-! ### What searches do -/

/-- What a request can be told: of the game what the game says, and for the rest some answer. -/
def SearchRequest.Told (g : Game) : (q : SearchRequest) → Except Fault q.Answer → Prop
  | .play q, reply => q.Told g reply
  | _, reply => reply.isOk

/-- A joint move that is tried is a known one. -/
def Game.TriesKnown (g : Game) (knows : RoleId → Move → Prop) : SearchRequest → Prop
  | .play (.query (.next _ j)) => g.Known knows j
  | _ => True

theorem Game.TriesKnown.known {q : SearchRequest} {t : State} (h : g.TriesKnown knows q)
    (ht : q.transition? = some (t, j)) : g.Known knows j := by
  match q, h, ht with
  | .play (.query (.next _ _)), h, rfl => exact h

/-- The answer is as `post` says, or the game declines. -/
def Game.Ends (declines : GameError → Prop) (post : α → Prop) : Outcome α → Prop
  | .done a => post a
  | .cut => True
  | .fault f => ∀ e, f = .error e → declines e

namespace Game

/-- The search tries only known joint moves, answers as `post` says, and fails only if the game
declines. -/
abbrev Tries (g : Game) (knows : RoleId → Move → Prop) (declines : GameError → Prop) (p : Search α)
    (post : α → Prop) : Prop :=
  p.Meets (SearchRequest.Told g) (g.TriesKnown knows) (Ends declines post)

variable {P : α → Prop} {Q : β → Prop}

theorem tries_imp {R : α → Prop} {p : Search α} (hp : g.Tries knows declines p P)
    (himp : ∀ a, P a → R a) : g.Tries knows declines p R := by
  refine Program.meets_imp hp (fun _ hq => hq) ?_
  rintro (_ | _ | _) ho
  · exact himp _ ho
  · trivial
  · exact ho

theorem tries_bind {p : Search α} {f : α → Search β} (hp : g.Tries knows declines p P)
    (hf : ∀ a, P a → g.Tries knows declines (f a) Q) : g.Tries knows declines (p >>= f) Q :=
  Program.meets_bind hp (fun _ => trivial) (fun _ he => he) hf

theorem tries_attempt {p : Search α} (hp : g.Tries knows declines p P) :
    g.Tries knows declines p.attempt fun o => ∀ a, o = some a → P a := by
  refine Program.meets_attempt hp ?_ (fun _ => nofun) fun _ he => he
  rintro a ha _ ⟨⟩
  exact ha

theorem tries_mapM {xs : List β} {f : β → Search α} (hf : ∀ x ∈ xs, g.Tries knows declines (f x) P) :
    g.Tries knows declines (xs.mapM f) fun as => ∀ a ∈ as, P a := by
  induction xs with
  | nil => exact List.forall_mem_nil P
  | cons x xs ih =>
      obtain ⟨hx, hxs⟩ := List.forall_mem_cons.mp hf
      rw [List.mapM_cons]
      refine tries_bind hx fun a ha => tries_bind (ih hxs) fun as has => ?_
      exact List.forall_mem_cons.mpr ⟨ha, has⟩

/-- A request that always has an answer and tries no joint move. -/
theorem tries_request {q : SearchRequest} (hq : g.TriesKnown knows q)
    (hanswered : ∀ f, ¬ q.Told g (.error f)) : g.Tries knows declines (request q) fun _ => True :=
  ⟨hq, fun f hf => absurd hf (hanswered f), fun _ _ => trivial⟩

theorem tries_note (n : Note) : g.Tries knows declines (note n) fun _ => True :=
  tries_request trivial nofun

theorem tries_checkpoint : g.Tries knows declines checkpoint fun _ => True := by
  refine ⟨trivial, nofun, fun expired _ => ?_⟩
  cases expired with
  | true => exact ⟨trivial, nofun, fun _ _ => trivial⟩
  | false => trivial

theorem tries_expired : g.Tries knows declines expired fun _ => True := by
  refine ⟨trivial, nofun, fun expired _ => ?_⟩
  cases expired with
  | true => exact ⟨trivial, nofun, fun _ _ => trivial⟩
  | false => trivial

/-- Play as a part of a search. -/
theorem meets_ofPlay {allowed : SearchRequest → Prop} {post : Outcome α → Prop} {p : Play α}
    (hp : p.Meets (PlayRequest.Told g) (fun q => allowed (.play q)) post) :
    (ofPlay p).Meets (SearchRequest.Told g) allowed post := by
  induction p with
  | pure a => exact hp
  | cut => exact hp
  | fault f => exact hp
  | ask q next ih =>
      obtain ⟨hq, herror, hok⟩ := hp
      exact ⟨hq, herror, fun a ha => ih a (hok a ha)⟩

theorem tries_query {q : Query} (hq : g.TriesKnown knows (.play (.query q)))
    (herror : ∀ e, g.answer q = .error (.error e) → declines e) :
    g.Tries knows declines (query q) (g.answer q = .ok ·) := by
  have hplay : (Play.query q).Meets (PlayRequest.Told g)
      (fun q => g.TriesKnown knows (.play q)) (Ends declines (g.answer q = .ok ·)) := by
    refine Play.meets_query hq ?_ fun _ ha => ha
    rintro _ he e rfl
    exact herror e he
  exact meets_ofPlay hplay

theorem tries_fit (size n : Nat) :
    g.Tries knows declines (.ofExcept (fit size n)) fun _ => True := by
  rcases Program.ofExcept_fit size n with hfit | hfit
  · exact hfit ▸ trivial
  · exact hfit ▸ nofun

end Game

/-! ### The walk through all searches -/

namespace Game.Honors

variable {fuel : Nat} {moves : List Move}

section

variable (honors : g.Honors role knows declines)

include honors

theorem tries_moves {r : RoleId} (hr : r ∈ RoleId.all g.roleCount) (s : State) :
    g.Tries knows declines (query (.moves s r)) fun ms => ∀ m ∈ ms.val, knows r m := by
  refine tries_imp (tries_query (q := .moves s r) trivial fun e he => ?_) fun ms hms m hm => ?_
  · obtain ⟨_, herror, ⟨⟩⟩ := mapError_eq_error.mp he
    exact honors.declines_of_moves hr herror
  · exact honors.legal ((mem_moves_iff (answer_moves.mp hms)).mp hm)

theorem tries_next (hj : g.Known knows j) (s : State) :
    g.Tries knows declines (Search.next s j) fun _ => True := by
  refine tries_bind (tries_note .node) fun _ _ => ?_
  obtain ⟨t, ht⟩ := honors.next s hj
  refine tries_imp (tries_query (q := .next s j) hj fun e he => ?_) fun _ _ => trivial
  obtain ⟨_, herror, -⟩ := mapError_eq_error.mp he
  rw [herror] at ht
  cases ht

end

variable (honors : g.Honors b.role knows declines) (hcount : b.roleCount = g.roleCount)

include honors

theorem tries_goal (s : State) : g.Tries knows declines (b.goal s) fun _ => True :=
  tries_imp (tries_query (q := .goal s b.role) trivial fun e he => by
    obtain ⟨_, herror, ⟨⟩⟩ := mapError_eq_error.mp he
    exact honors.goal herror) fun _ _ => trivial

include hcount

/-! ### Playouts -/

/-- A random playout draws from legal moves in every state that it meets. -/
theorem tries_rollout (fuel : Nat) (s : State) :
    g.Tries knows declines (ofPlay (Play.rollout b.roleCount b.role fuel 0 s)) fun _ => True := by
  rw [hcount]
  have hrollout := Play.meets_rollout b.role fuel (g := g) (s := s) .start
  refine meets_ofPlay (Program.meets_imp hrollout ?_ ?_)
  · intro q hq
    match q, hq with
    | .query (.next _ _), ⟨_, _, _, hlegal⟩ => exact hlegal.imp fun _ _ => honors.legal
    | .query (.isTerminal _), _ | .query (.goal ..), _ | .query (.moves ..), _ | .poll, _
    | .draw .., _ => trivial
  · rintro (_ | _ | f) ho
    · trivial
    · trivial
    · intro e he
      rcases ho.2 e he with hfails | ⟨_, _, -, -, hgoal⟩
      · cases hfails with
        | listing _ _ herror => exact honors.declines_of_jointMoves herror
        | @move _ t _ _ _ _ hj herror =>
            obtain ⟨u, hu⟩ := honors.next t (hj.imp fun _ _ => honors.legal)
            rw [herror] at hu
            cases hu
      · exact honors.goal hgoal

theorem tries_depthCharge (hplayout : b.playout = .random) (fuel : Nat) (s : State) :
    g.Tries knows declines (b.depthCharge fuel s) fun _ => True := by
  refine tries_bind (tries_request (q := .playoutTurn) trivial nofun) fun turn _ => ?_
  rw [hplayout]
  refine tries_bind (tries_attempt (honors.tries_rollout hcount fuel s)) fun ended _ => ?_
  cases ended with
  | none => exact tries_bind (tries_note .interrupted) fun _ _ => trivial
  | some ended =>
      exact tries_bind (tries_note .charge) fun _ _ =>
        tries_bind (tries_note (.depth ended.depth)) fun _ _ => trivial

/-- Playouts one after the other. -/
theorem tries_charges (hplayout : b.playout = .random) {total : Nat → α → Search α}
    (hzero : ∀ sum, total 0 sum = pure sum) (add : α → Nat → Search α)
    (hadd : ∀ sum goal, g.Tries knows declines (add sum goal) fun _ => True)
    (hsucc : ∀ n sum, total (n + 1) sum =
      b.depthCharge fuel s >>= fun goal => add sum goal >>= total n) (n : Nat) (sum : α) :
    g.Tries knows declines (total n sum) fun _ => True := by
  induction n generalizing sum with
  | zero =>
      rw [hzero]
      trivial
  | succ n ih =>
      rw [hsucc]
      exact tries_bind (honors.tries_depthCharge hcount hplayout fuel s) fun goal _ =>
        tries_bind (hadd sum goal) fun sum _ => ih sum

/-! ### Exhaustive searches -/

theorem tries_replies (hm : knows b.role m) (s : State) :
    g.Tries knows declines (Minimax.replies b s m) fun joints => ∀ j ∈ joints, g.Known knows j := by
  have hplaceholder : g.Known knows (b.placeholder m) := by
    rw [Brief.placeholder, hcount]
    exact honors.known_placeholder hm
  refine tries_bind (tries_mapM (P := fun joints => ∀ j ∈ joints, g.Known knows j)
    fun r hr => ?_) fun joints hjoints => ?_
  · have hrole : r ∈ RoleId.all g.roleCount := hcount ▸ List.mem_of_mem_filter hr
    refine tries_bind (honors.tries_moves hrole s) fun ms hms j hj => ?_
    obtain ⟨x, hx, rfl⟩ := List.mem_map.mp hj
    exact known_set hplaceholder (hms x hx)
  · show ∀ j ∈ _, g.Known knows j
    split
    · exact List.forall_mem_singleton.mpr hplaceholder
    · intro j hj
      obtain ⟨js, hjs, hj⟩ := List.mem_flatten.mp hj
      exact hjoints js hjs j hj

omit hcount in
theorem tries_minimaxLeast {score : State → Search Nat}
    (hscore : ∀ t, g.Tries knows declines (score t) fun _ => True) (s : State)
    {joints : List JointMove} (hjoints : ∀ j ∈ joints, g.Known knows j) (worst : Nat) :
    g.Tries knows declines (Minimax.least b score s joints worst) fun _ => True := by
  induction joints generalizing worst with
  | nil => trivial
  | cons j joints ih =>
      obtain ⟨hj, hjoints⟩ := List.forall_mem_cons.mp hjoints
      refine tries_bind (honors.tries_next hj s) fun t _ => tries_bind (hscore t) fun value _ => ?_
      dsimp only
      split
      · trivial
      · exact ih hjoints _

omit honors hcount in
theorem tries_minimaxGreatest {score : Move → Search Nat}
    (hscore : ∀ m, knows role m → g.Tries knows declines (score m) fun _ => True)
    {ms : List Move} (hms : ∀ m ∈ ms, knows role m) (best : Nat) :
    g.Tries knows declines (Minimax.greatest score ms best) fun _ => True := by
  induction ms generalizing best with
  | nil => trivial
  | cons m ms ih =>
      obtain ⟨hm, hms⟩ := List.forall_mem_cons.mp hms
      refine tries_bind (hscore m hm) fun value _ => ?_
      dsimp only
      split
      · trivial
      · exact ih hms _

theorem tries_minimaxMoveScore {score : State → Search Nat}
    (hscore : ∀ t, g.Tries knows declines (score t) fun _ => True) (s : State)
    (hm : knows b.role m) :
    g.Tries knows declines (Minimax.moveScore b score s m) fun _ => True :=
  tries_bind tries_checkpoint fun _ _ =>
    tries_bind (honors.tries_replies hcount hm s) fun _ hjoints =>
      honors.tries_minimaxLeast hscore s hjoints topGoal

theorem tries_minimaxStateScore (fuel depth : Nat) (s : State) :
    g.Tries knows declines (Minimax.stateScore b fuel depth s) fun _ => True := by
  induction fuel generalizing depth s with
  | zero => exact nofun
  | succ fuel ih =>
      refine tries_bind tries_checkpoint fun _ _ => tries_bind (tries_note _) fun _ _ =>
        tries_bind (tries_query (q := .isTerminal s) trivial nofun) fun terminal _ => ?_
      cases terminal with
      | true => exact honors.tries_goal s
      | false =>
          exact tries_bind (honors.tries_moves honors.role_mem s) fun ms hms =>
            tries_minimaxGreatest
              (fun m hm => honors.tries_minimaxMoveScore hcount (ih (depth + 1)) s hm) hms 0

omit hcount in
theorem tries_alphaBetaLeast {score : State → Nat → Search Nat}
    (hscore : ∀ t high, g.Tries knows declines (score t high) fun _ => True) (s : State) (low : Nat)
    {joints : List JointMove} (hjoints : ∀ j ∈ joints, g.Known knows j) (high : Nat) :
    g.Tries knows declines (AlphaBeta.least b score s low joints high) fun _ => True := by
  induction joints generalizing high with
  | nil => trivial
  | cons j joints ih =>
      obtain ⟨hj, hjoints⟩ := List.forall_mem_cons.mp hjoints
      refine tries_bind (honors.tries_next hj s) fun t _ =>
        tries_bind (hscore t high) fun value _ => ?_
      dsimp only
      split
      · exact tries_bind (tries_note .pruned) fun _ _ => trivial
      · exact ih hjoints _

omit honors hcount in
theorem tries_alphaBetaGreatest {score : Move → Nat → Search Nat}
    (hscore : ∀ m low, knows role m → g.Tries knows declines (score m low) fun _ => True)
    (high : Nat) {ms : List Move} (hms : ∀ m ∈ ms, knows role m) (low : Nat) :
    g.Tries knows declines (AlphaBeta.greatest score high ms low) fun _ => True := by
  induction ms generalizing low with
  | nil => trivial
  | cons m ms ih =>
      obtain ⟨hm, hms⟩ := List.forall_mem_cons.mp hms
      refine tries_bind (hscore m low hm) fun value _ => ?_
      dsimp only
      split
      · exact tries_bind (tries_note .pruned) fun _ _ => trivial
      · exact ih hms _

omit hcount in
theorem tries_alphaBetaMoveScore {score : State → Nat → Nat → Search Nat}
    (hscore : ∀ t low high, g.Tries knows declines (score t low high) fun _ => True) (s : State)
    (hm : knows b.role m) (low high : Nat) :
    g.Tries knows declines (AlphaBeta.moveScore b score s m low high) fun _ => True := by
  have hquery : g.Tries knows declines (query (.jointMovesWith s b.role m))
      (g.jointMovesWith s b.role m = .ok ·) :=
    tries_query (q := .jointMovesWith s b.role m) trivial fun _ => honors.declines_of_jointMovesWith
  refine tries_bind tries_checkpoint fun _ _ => tries_bind hquery fun joints hjoints => ?_
  exact honors.tries_alphaBetaLeast (fun t high => hscore t low high) s low
    (fun j hj => honors.known_of_jointMovesWith hm hjoints hj) high

theorem tries_heuristicValue (hplayout : b.playout = .random) (fuel : Nat) (s : State)
    (heuristic : Heuristic) :
    g.Tries knows declines (heuristic.value b fuel s) fun _ => True := by
  have hlegal : g.Tries knows declines (query (.legal s b.role)) fun _ => True :=
    tries_imp (tries_query (q := .legal s b.role) trivial fun e he => by
      obtain ⟨_, herror, ⟨⟩⟩ := mapError_eq_error.mp he
      exact honors.unlisted honors.role_mem herror) fun _ _ => trivial
  cases heuristic with
  | goalProximity => exact honors.tries_goal s
  | mobility feasible => exact tries_bind hlegal fun _ _ => trivial
  | focus feasible => exact tries_bind hlegal fun _ _ => trivial
  | monteCarlo charges =>
      have hsum (n : Nat) : g.Tries knows declines
          (Heuristic.sumOfCharges b fuel s n 0) fun _ => True :=
        honors.tries_charges hcount hplayout (fun _ => rfl) _ (fun _ _ => tries_fit UInt32.size _)
          (fun _ _ => rfl) n 0
      exact tries_bind (hsum _) fun _ _ => trivial

theorem tries_alphaBetaStateScore (hplayout : b.playout = .random) (cutoff : Option Heuristic)
    (fuel level : Nat) (s : State) (low high : Nat) :
    g.Tries knows declines (AlphaBeta.stateScore b cutoff fuel level s low high)
      fun _ => True := by
  induction fuel generalizing level s low high with
  | zero => exact nofun
  | succ fuel ih =>
      refine tries_bind tries_checkpoint fun _ _ => tries_bind (tries_note _) fun _ _ =>
        tries_bind (tries_query (q := .isTerminal s) trivial nofun) fun terminal _ => ?_
      cases terminal with
      | true => exact honors.tries_goal s
      | false =>
          rw [if_neg Bool.false_ne_true]
          cases AlphaBeta.cutoffAt b cutoff level with
          | some heuristic => exact honors.tries_heuristicValue hcount hplayout fuel s heuristic
          | none =>
              exact tries_bind (honors.tries_moves honors.role_mem s) fun ms hms =>
                tries_alphaBetaGreatest
                  (fun m low hm => honors.tries_alphaBetaMoveScore (ih (level + 1)) s hm low high)
                  high hms low

omit honors hcount in
theorem tries_chooseFrom {score : Move → Nat → Search Nat}
    (hscore : ∀ m floor, knows role m → g.Tries knows declines (score m floor) fun _ => True)
    {ms : List Move} (hms : ∀ m ∈ ms, knows role m) (best : Incumbent Nat) :
    g.Tries knows declines (chooseFrom score ms best) fun _ => True := by
  induction ms generalizing best with
  | nil => trivial
  | cons m ms ih =>
      obtain ⟨hm, hms⟩ := List.forall_mem_cons.mp hms
      refine tries_bind (tries_attempt (hscore m best.score hm)) fun answer _ => ?_
      cases answer with
      | none => trivial
      | some value =>
          dsimp only
          split
          · trivial
          · refine tries_bind tries_expired fun expired _ => ?_
            cases expired with
            | true => trivial
            | false => exact ih hms _

/-! ### Searches that sample -/

theorem tries_sample (hplayout : b.playout = .random) (fuel : Nat) (s : State)
    (hm : knows b.role m) :
    g.Tries knows declines (MonteCarlo.sample b fuel s m) fun _ => True := by
  have hjoint : g.Tries knows declines
      (ofPlay (Play.randomJointMoveWith b.roleCount s b.role m)) (g.Known knows) := by
    rw [hcount]
    refine meets_ofPlay (Program.meets_imp
      (Play.meets_randomJointMoveWith (fun _ => trivial) (fun _ _ _ => trivial) b.role m)
      (fun _ hq => hq) ?_)
    rintro (j | _ | f) ho
    · exact honors.known_of_pinned hm (Play.pinned_of_drawn ho)
    · trivial
    · cases ho with
      | refused herror =>
          rintro _ ⟨⟩
          exact honors.declines_of_jointMovesWith herror
  exact tries_bind tries_checkpoint fun _ _ => tries_bind hjoint fun j hj =>
    tries_bind (honors.tries_next hj s) fun t _ => honors.tries_depthCharge hcount hplayout fuel t

theorem tries_round (hplayout : b.playout = .random) (fuel : Nat) (s : State)
    {tallies : List MonteCarlo.Tally} (htallies : ∀ t ∈ tallies, knows b.role t.move) :
    g.Tries knows declines (MonteCarlo.round b fuel s tallies)
      fun r => ∀ t ∈ r.1, knows b.role t.move := by
  induction tallies with
  | nil => exact List.forall_mem_nil _
  | cons t tallies ih =>
      obtain ⟨ht, hrest⟩ := List.forall_mem_cons.mp htallies
      refine tries_bind (tries_attempt (honors.tries_sample hcount hplayout fuel s ht))
        fun answer _ => ?_
      cases answer with
      | none => exact htallies
      | some goal =>
          refine tries_bind (ih hrest) fun r hr => ?_
          exact List.forall_mem_cons.mpr ⟨ht, hr⟩

theorem tries_rounds (hplayout : b.playout = .random) (fuel : Nat) (s : State) (n : Nat)
    {tallies : List MonteCarlo.Tally} (htallies : ∀ t ∈ tallies, knows b.role t.move) :
    g.Tries knows declines (MonteCarlo.rounds b fuel s n tallies) fun _ => True := by
  induction n generalizing tallies with
  | zero => trivial
  | succ n ih =>
      refine tries_bind (honors.tries_round hcount hplayout fuel s htallies) ?_
      rintro ⟨ts, whole⟩ hts
      cases whole with
      | true => exact tries_bind (tries_note .iteration) fun _ _ => ih hts
      | false => trivial

omit honors hcount in
theorem tries_follow (s : State) :
    g.Tries knows declines (TreeSearch.follow b s) fun _ => True := by
  refine tries_bind (tries_request (q := .table) trivial nofun) fun table _ => ?_
  split
  · trivial
  · dsimp only
    split
    · trivial
    · exact tries_bind (tries_request (q := .selectionTurn) trivial nofun) fun _ _ => trivial

omit hcount in
theorem tries_descend (fuel : Nat) (s : State) (above : List State) :
    g.Tries knows declines (TreeSearch.descend b fuel s above) fun _ => True := by
  induction fuel generalizing s above with
  | zero => exact nofun
  | succ fuel ih =>
      refine tries_bind tries_checkpoint fun _ _ =>
        tries_bind (tries_query (q := .isTerminal s) trivial nofun) fun terminal _ => ?_
      cases terminal with
      | true => exact tries_bind (honors.tries_goal s) fun _ _ => trivial
      | false =>
          refine tries_bind (tries_follow s) fun next _ => ?_
          cases next with
          | none => trivial
          | some next =>
              dsimp only
              split
              · trivial
              · exact ih next (s :: above)

omit hcount in
theorem tries_expand (s : State) :
    g.Tries knows declines (TreeSearch.expand s) fun _ => True := by
  refine tries_bind (tries_request (q := .table) trivial nofun) fun table _ => ?_
  split
  · trivial
  · have hquery : g.Tries knows declines (query (.jointMoves s)) (g.jointMoves s = .ok ·) :=
      tries_query (q := .jointMoves s) trivial fun _ => honors.declines_of_jointMoves
    refine tries_bind hquery fun joints hjoints => ?_
    refine tries_bind (P := fun _ => True) ?_ fun children _ =>
      tries_request (q := .setChildren s children) trivial nofun
    refine tries_imp (tries_mapM (P := fun _ => True) fun j hj => ?_) fun _ _ => trivial
    exact tries_bind (honors.tries_next (honors.known_of_jointMoves hjoints hj) s) fun t _ =>
      tries_bind (tries_request (q := .register t) trivial nofun) fun _ _ => trivial

theorem tries_iterate (hplayout : b.playout = .random) (fuel : Nat) (root : State) :
    g.Tries knows declines (TreeSearch.iterate b fuel root) fun _ => True := by
  refine tries_bind (honors.tries_descend fuel root []) fun leaf _ => ?_
  cases leaf.goal with
  | some goal => exact tries_request trivial nofun
  | none =>
      have hsum (n : Nat) : g.Tries knows declines
          (TreeSearch.sumOfCharges b fuel leaf.state n 0) fun _ => True :=
        honors.tries_charges hcount hplayout (fun _ => rfl)
          (fun sum goal => pure (sum + goal.toFloat)) (fun _ _ => trivial) (fun _ _ => rfl) n 0
      exact tries_bind (tries_note _) fun _ _ => tries_bind (honors.tries_expand leaf.state)
        fun _ _ => tries_bind (hsum _) fun _ _ => tries_request trivial nofun

theorem tries_iterations (hplayout : b.playout = .random) (fuel : Nat) (root : State) (n : Nat) :
    g.Tries knows declines (TreeSearch.iterations b fuel root n) fun _ => True := by
  induction n with
  | zero => exact nofun
  | succ n ih =>
      exact tries_bind tries_checkpoint fun _ _ =>
        tries_bind (honors.tries_iterate hcount hplayout fuel root) fun _ _ =>
          tries_bind (tries_note .iteration) fun _ _ => ih

/-- The search of every strategy tries known joint moves only. -/
theorem tries_search (hplayout : b.playout = .random) (strategy : Strategy) (fuel : Nat) (s : State)
    (h : moves ≠ []) (hmoves : ∀ m ∈ moves, knows b.role m) :
    g.Tries knows declines (strategy.search b fuel s moves h) fun _ => True := by
  cases strategy with
  | legal => trivial
  | random => exact ⟨trivial, nofun, fun _ _ => trivial⟩
  | minimax =>
      exact tries_chooseFrom (fun m _ hm => honors.tries_minimaxMoveScore hcount
        (honors.tries_minimaxStateScore hcount fuel 1) s hm) hmoves _
  | alphaBeta =>
      exact tries_chooseFrom (fun m floor hm => honors.tries_alphaBetaMoveScore
        (honors.tries_alphaBetaStateScore hcount hplayout none fuel 1) s hm floor topGoal) hmoves _
  | heuristic cutoff =>
      exact tries_chooseFrom (fun m floor hm => honors.tries_alphaBetaMoveScore
        (honors.tries_alphaBetaStateScore hcount hplayout (some cutoff) fuel 1) s hm floor topGoal)
        hmoves _
  | monteCarlo =>
      refine tries_bind (honors.tries_rounds hcount hplayout fuel s _ ?_) fun _ _ => trivial
      intro t ht
      obtain ⟨m, hm, rfl⟩ := List.mem_map.mp ht
      exact hmoves m hm
  | uct =>
      refine tries_bind (tries_request (q := .plant s) trivial nofun) fun _ _ =>
        tries_bind (P := fun _ => True) ?_ fun _ _ =>
          tries_bind (tries_request (q := .table) trivial nofun) fun _ _ => trivial
      exact tries_bind (tries_attempt (honors.tries_iterations hcount hplayout fuel s fuel))
        fun _ _ => trivial

end Game.Honors

/-! ### Runs -/

theorem Game.run_of_tries {P : α → Prop} {p : Search α} (hp : g.Tries knows declines p P)
    (d : Deadline) (w : Search.World) :
    (∀ e ∈ p.history (Search.answer g d) w, g.TriesKnown knows e.1) ∧
      ∀ e, (g.search d p w).1 = .fault (.error e) → declines e := by
  have htold : ∀ q w a, (Search.answer g d q w).1 = .ok a → q.Told g (.ok a) := by
    intro q w a h
    cases q with
    | play q => exact Play.told_of_answer h
    | _ => rfl
  obtain ⟨htries, houtcome⟩ := Program.run_of_meets htold hp w
  refine ⟨htries, fun e he => ?_⟩
  change (p.run (Search.answer g d) w).1 = .fault (.error e) at he
  rcases houtcome with hends | ⟨⟨q, v⟩, -, f, hreply, hf, hrun⟩
  · rw [he] at hends
    exact hends e rfl
  · rw [hrun] at he
    cases he
    cases q with
    | play q => cases (Play.draw_of_not_told hreply hf).1
    | _ => cases hreply

end GeneralGame
