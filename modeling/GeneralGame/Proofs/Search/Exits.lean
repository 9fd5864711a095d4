import GeneralGame.Proofs.Search.Replies

/-!
The exits of minimax. It stops looking at a move as soon as a reply is worth nothing, and at a state,
or at the root, as soon as a move is worth the highest goal. None of these exits matters: a search
with any of them closed values every move the same and chooses the same move, which is the first of
the greatest worth against single replies.
-/
namespace GeneralGame

open Search

variable {g : Game} {b : Brief} {s : State} {m : Move}

namespace Minimax

/-- Which of the three exits are open. -/
structure Exits where
  root : Bool
  greatest : Bool
  least : Bool

def leastWith (exit : Bool) (score : State → Search Nat) (s : State) :
    List JointMove → Nat → Search Nat
  | [], worst => return worst
  | j :: js, worst => do
    let value ← score (← next s j)
    let worst := min worst value
    if exit ∧ worst = 0 then return 0
    leastWith exit score s js worst

def greatestWith (exit : Bool) (score : Move → Search Nat) : List Move → Nat → Search Nat
  | [], best => return best
  | m :: ms, best => do
    let value ← score m
    let best := max best value
    if exit ∧ best = topGoal then return topGoal
    greatestWith exit score ms best

def moveScoreWith (exits : Exits) (b : Brief) (score : State → Search Nat) (s : State) (m : Move) :
    Search Nat := do
  checkpoint
  let joints ← replies b s m
  leastWith exits.least score s joints topGoal

def stateScoreWith (exits : Exits) (b : Brief) : (fuel depth : Nat) → State → Search Nat
  | 0, _, _ => .outOfFuel
  | fuel + 1, depth, s => do
    checkpoint
    note (.depth depth)
    if ← query (.isTerminal s) then b.goal s
    else
      let ms ← query (.moves s b.role)
      greatestWith exits.greatest (moveScoreWith exits b (stateScoreWith exits b fuel (depth + 1)) s)
        ms.val 0

/-- Minimax with some of its exits closed. -/
def searchWith (exits : Exits) (b : Brief) (fuel : Nat) (s : State) (moves : List Move)
    (h : moves ≠ []) : Search Move :=
  chooseFromWith exits.root (fun m _ => moveScoreWith exits b (stateScoreWith exits b fuel 1) s m)
    moves ⟨moves.head h, 0⟩

/-! ### All exits open -/

theorem leastWith_true (score : State → Search Nat) (s : State) (joints : List JointMove)
    (worst : Nat) : leastWith true score s joints worst = least b score s joints worst := by
  induction joints generalizing worst with
  | nil => rfl
  | cons j joints ih => simp only [leastWith, least, ih, true_and]

theorem greatestWith_true (score : Move → Search Nat) (ms : List Move) (best : Nat) :
    greatestWith true score ms best = greatest score ms best := by
  induction ms generalizing best with
  | nil => rfl
  | cons m ms ih => simp only [greatestWith, greatest, ih, true_and]

theorem moveScoreWith_open {root greatest : Bool} (score : State → Search Nat) (s : State)
    (m : Move) : moveScoreWith ⟨root, greatest, true⟩ b score s m = moveScore b score s m := by
  simp only [moveScoreWith, moveScore, leastWith_true (b := b)]

theorem stateScoreWith_open {root : Bool} (fuel depth : Nat) (s : State) :
    stateScoreWith ⟨root, true, true⟩ b fuel depth s = stateScore b fuel depth s := by
  induction fuel generalizing depth s with
  | zero => rfl
  | succ fuel ih =>
      have hstate : stateScoreWith ⟨root, true, true⟩ b fuel (depth + 1) =
          stateScore b fuel (depth + 1) := funext (ih (depth + 1))
      have hmove : moveScoreWith ⟨root, true, true⟩ b (stateScore b fuel (depth + 1)) s =
          moveScore b (stateScore b fuel (depth + 1)) s := funext (moveScoreWith_open _ s)
      simp only [stateScoreWith, stateScore, hstate, hmove, greatestWith_true]

theorem rootScoreWith_open {root : Bool} (fuel : Nat) (s : State) (m : Move) :
    moveScoreWith ⟨root, true, true⟩ b (stateScoreWith ⟨root, true, true⟩ b fuel 1) s m =
      moveScore b (stateScore b fuel 1) s m := by
  have hstate : stateScoreWith ⟨root, true, true⟩ b fuel 1 = stateScore b fuel 1 :=
    funext (stateScoreWith_open fuel 1)
  rw [hstate, moveScoreWith_open]

/-- Minimax is the search with all its exits open. -/
theorem searchWith_open (b : Brief) (fuel : Nat) (s : State) (moves : List Move) (h : moves ≠ []) :
    searchWith ⟨true, true, true⟩ b fuel s moves h = search b fuel s moves h := by
  simp only [searchWith, search, chooseMove, rootScoreWith_open, chooseFromWith_true]

/-! ### Values -/

theorem returns_mapM {α β : Type} {f : α → Search β} {value : α → Option β}
    (hf : ∀ x y, value x = some y → g.Returns (f x) (· = y)) {xs : List α} {ys : List β}
    (h : xs.mapM value = some ys) : g.Returns (xs.mapM f) (· = ys) := by
  induction xs generalizing ys with
  | nil =>
      cases h
      rw [List.mapM_nil]
      exact Game.returns_pure rfl
  | cons x xs ih =>
      obtain ⟨y, rest, hy, hrest, rfl⟩ := mapM_cons_eq_some.mp h
      rw [List.mapM_cons]
      refine Game.returns_bind (hf x y hy) ?_
      rintro y rfl
      refine Game.returns_bind (ih hrest) ?_
      rintro rest rfl
      exact Game.returns_pure rfl

theorem returns_repliesOf {r : RoleId} {joints : List JointMove}
    (h : (do
      let ms ← (g.moves s r).toOption
      return ms.val.map ((b.placeholder m).set r) : Option (List JointMove)) = some joints) :
    g.Returns (do
      let ms ← query (.moves s r)
      return ms.val.map ((b.placeholder m).set r)) (· = joints) := by
  obtain ⟨ms, hms, hjoints⟩ := Option.bind_eq_some_iff.mp h
  refine Game.returns_bind (Game.returns_query (Game.answer_moves.mpr (toOption_eq_some.mp hms))) ?_
  rintro _ rfl
  exact Game.returns_pure (Option.some.inj hjoints)

theorem replies_returns {joints : List JointMove} (hjoints : g.replies? b s m = some joints) :
    g.Returns (replies b s m) (· = joints) := by
  obtain ⟨lists, hlists, hjoints⟩ := Option.bind_eq_some_iff.mp hjoints
  refine Game.returns_bind (returns_mapM (fun r _ => returns_repliesOf) hlists) ?_
  rintro _ rfl
  exact Game.returns_pure (Option.some.inj hjoints)

/-- Over the joint moves the score sinks onto their least merit. -/
theorem leastWith_returns {exit : Bool} {score : State → Search Nat} {rest : State → Option Nat}
    (hscore : ∀ t v, rest t = some v → g.Returns (score t) fun x => min topGoal x = min topGoal v)
    {joints : List JointMove} {values : List Nat}
    (hvalues : (joints.mapM fun j => (g.next s j).toOption.bind rest) = some values) {worst : Nat}
    (hworst : worst ≤ topGoal) :
    g.Returns (leastWith exit score s joints worst) (· = values.foldl min worst) := by
  induction joints generalizing values worst with
  | nil =>
      cases hvalues
      exact Game.returns_pure rfl
  | cons j joints ih =>
      obtain ⟨v, others, hv, hothers, rfl⟩ := mapM_cons_eq_some.mp hvalues
      obtain ⟨t, ht, hv⟩ := Option.bind_eq_some_iff.mp hv
      rw [leastWith, List.foldl_cons]
      refine Game.returns_bind (Game.returns_next (toOption_eq_some.mp ht)) ?_
      rintro _ rfl
      refine Game.returns_bind (hscore _ v hv) fun x hx => ?_
      have hmin : min worst x = min worst v := by omega
      simp only [hmin]
      split
      · rename_i hzero
        have hfold := foldl_min_le others (min worst v)
        exact Game.returns_pure (by omega)
      · exact ih hothers (by omega)

/-- Over the moves the score rises onto their greatest merit, as far as the scale goes. -/
theorem greatestWith_returns (exit : Bool) {score : Move → Search Nat} {merit : Move → Option Nat}
    (hscore : ∀ m v, merit m = some v → g.Returns (score m) (· = min topGoal v)) {ms : List Move}
    {values : List Nat} (hvalues : ms.mapM merit = some values) (best : Nat) :
    g.Returns (greatestWith exit score ms (min topGoal best))
      (· = min topGoal (values.foldl max best)) := by
  induction ms generalizing values best with
  | nil =>
      cases hvalues
      exact Game.returns_pure rfl
  | cons m ms ih =>
      obtain ⟨v, others, hv, hothers, rfl⟩ := mapM_cons_eq_some.mp hvalues
      rw [greatestWith, List.foldl_cons]
      refine Game.returns_bind (hscore m v hv) ?_
      rintro _ rfl
      have hmax : max (min topGoal best) (min topGoal v) = min topGoal (max best v) := by omega
      simp only [hmax]
      split
      · have hfold := le_foldl_max others (max best v)
        exact Game.returns_pure (by omega)
      · exact ih hothers (max best v)

theorem moveScoreWith_returns {exits : Exits} {score : State → Search Nat}
    {rest : State → Option Nat} {v : Nat}
    (hscore : ∀ t v, rest t = some v → g.Returns (score t) fun x => min topGoal x = min topGoal v)
    (hv : g.moveReplyWorth? b rest s m = some v) :
    g.Returns (moveScoreWith exits b score s m) (· = min topGoal v) := by
  obtain ⟨joints, hjoints, values, hvalues, hmin⟩ := Game.moveReplyWorth?_eq_some.mp hv
  refine Game.returns_bind Game.returns_checkpoint fun _ _ => ?_
  refine Game.returns_bind (replies_returns hjoints) ?_
  rintro _ rfl
  refine Game.returns_imp (leastWith_returns hscore hvalues (Nat.le_refl topGoal)) ?_
  rintro _ rfl
  exact foldl_min_eq_min hmin

/-- A state is valued with its merit, as far as the scale goes. The induction is on the plies that
the tree below it has at most. -/
theorem stateScoreWith_returns {exits : Exits} {plies fuel depth v : Nat} (hfuel : plies ≤ fuel)
    (hv : g.stateReplyMerit? b plies s = some v) :
    g.Returns (stateScoreWith exits b fuel depth s) fun x => min topGoal x = min topGoal v := by
  induction plies generalizing fuel depth s v with
  | zero => cases hv
  | succ plies ih =>
      obtain ⟨fuel, rfl⟩ : ∃ n, fuel = n + 1 := ⟨fuel - 1, by omega⟩
      rw [stateScoreWith]
      refine Game.returns_bind Game.returns_checkpoint fun _ _ => ?_
      refine Game.returns_bind (Game.returns_note _) fun _ _ => ?_
      refine Game.returns_bind (Game.returns_query (q := .isTerminal s) rfl) ?_
      rintro _ rfl
      cases hterminal : g.isTerminal s with
      | true =>
          rw [Game.stateReplyMerit?, if_pos hterminal] at hv
          have hgoal := Game.answer_goal.mpr (toOption_eq_some.mp hv)
          rw [if_pos rfl]
          exact Game.returns_imp (Game.returns_query hgoal) fun x hx => by rw [hx]
      | false =>
          obtain ⟨ms, hms, values, hvalues, hmax⟩ := (Game.stateReplyMerit?_on hterminal).mp hv
          rw [if_neg Bool.false_ne_true]
          refine Game.returns_bind (Game.returns_query (Game.answer_moves.mpr hms)) ?_
          rintro _ rfl
          have hmoves : ∀ m w, g.moveReplyWorth? b (g.stateReplyMerit? b plies) s m = some w →
              g.Returns (moveScoreWith exits b (stateScoreWith exits b fuel (depth + 1)) s m)
                (· = min topGoal w) :=
            fun m w hw => moveScoreWith_returns (fun t u hu => ih (by omega) hu) hw
          have hgreatest := greatestWith_returns exits.greatest hmoves hvalues 0
          refine Game.returns_imp hgreatest fun x hx => ?_
          rw [hx, foldl_max_eq_max hmax]
          omega

/-- A move is valued with its merit, as far as the scale goes. -/
theorem rootScoreWith_returns {exits : Exits} {plies fuel v : Nat} (hfuel : plies ≤ fuel)
    (hv : g.moveReplyWorth? b (g.stateReplyMerit? b plies) s m = some v) :
    g.Returns (moveScoreWith exits b (stateScoreWith exits b fuel 1) s m) (· = min topGoal v) :=
  moveScoreWith_returns (fun _ _ ht => stateScoreWith_returns hfuel ht) hv

theorem searchWith_returns {exits : Exits} {plies fuel : Nat} {moves : List Move} (h : moves ≠ [])
    {merit : Move → Nat}
    (hmerit : ∀ m ∈ moves, g.moveReplyWorth? b (g.stateReplyMerit? b plies) s m = some (merit m))
    (hle : ∀ m ∈ moves, merit m ≤ topGoal) (hfuel : plies ≤ fuel) :
    g.Returns (searchWith exits b fuel s moves h) fun m => moves.argmax merit = some m := by
  have hstart : exits.root = true → 0 < topGoal := fun _ => by decide
  refine Game.returns_imp (chooseFromWith_returns (fun m hm floor _ => ?_) hle hstart) ?_
  · refine Game.returns_imp (rootScoreWith_returns hfuel (hmerit m hm)) fun x hx => ?_
    rw [hx, Nat.min_eq_right (hle m hm)]
  · rintro _ rfl
    exact argmax_eq_some_chosen h

/-- With all the time in the world, minimax chooses the first move of the greatest worth against
single replies. -/
theorem search_returns {plies fuel : Nat} {moves : List Move} (h : moves ≠ [])
    {worth : Move → Nat}
    (hworth : ∀ m ∈ moves,
      g.moveReplyWorth? b (g.stateReplyWorth? b plies) s m = some (worth m))
    (hfuel : plies ≤ fuel) :
    g.Returns (search b fuel s moves h) fun m => moves.argmax worth = some m := by
  rw [← searchWith_open]
  refine searchWith_returns h (fun m hm => ?_) (fun m hm => ?_) hfuel
  · exact Game.moveReplyWorth?_of_imp (fun t v => Game.stateReplyMerit?_of_stateReplyWorth)
      (hworth m hm)
  · exact Game.moveReplyWorth?_le (fun t v => Game.stateReplyWorth?_le) (hworth m hm)

end Minimax

/-- For any number of roles, minimax chooses the first of the moves whose worth against single replies
is greatest, where the tree of replies below each move ends and all goals are on the scale. It does
so under every deadline that it does not find expired, once it has fuel for the height of the tree.
With any of its exits closed it would choose the same move. -/
theorem minimax_chooses_argmax {plies fuel : Nat} {moves : List Move} (h : moves ≠ [])
    (hgoals : ∀ t v, g.goal t b.role = .ok v → v ≤ topGoal)
    (hends : ∀ m ∈ moves, g.MoveRepliesEnd b (g.RepliesEnd b plies) s m) (hfuel : plies ≤ fuel)
    {d : Deadline} {w : Search.World}
    (hopen : g.Undisturbed d (Minimax.search b fuel s moves h) w) :
    ∃ m w' worth, g.search d (Minimax.search b fuel s moves h) w = (.done m, w') ∧
      (∀ c ∈ moves, g.moveReplyWorth? b (g.stateReplyMerit? b plies) s c = some (worth c)) ∧
      moves.argmax worth = some m ∧
      ∀ exits, g.Returns (Minimax.searchWith exits b fuel s moves h) (· = m) := by
  have hexists : ∀ c ∈ moves, ∃ v, g.moveReplyWorth? b (g.stateReplyMerit? b plies) s c = some v :=
    fun c hc => Game.exists_moveReplyMerit (fun t => Game.exists_stateReplyMerit) (hends c hc)
  let worth : Move → Nat := fun c =>
    (g.moveReplyWorth? b (g.stateReplyMerit? b plies) s c).getD 0
  have hworth : ∀ c ∈ moves,
      g.moveReplyWorth? b (g.stateReplyMerit? b plies) s c = some (worth c) := by
    intro c hc
    obtain ⟨v, hv⟩ := hexists c hc
    simp only [worth, hv, Option.getD_some]
  have hle : ∀ c ∈ moves, worth c ≤ topGoal := fun c hc =>
    Game.moveReplyWorth?_le (fun t v => Game.stateReplyMerit?_le hgoals) (hworth c hc)
  have hreturns : ∀ exits, g.Returns (Minimax.searchWith exits b fuel s moves h)
      fun m => moves.argmax worth = some m :=
    fun exits => Minimax.searchWith_returns h hworth hle hfuel
  have hopened := hreturns ⟨true, true, true⟩
  rw [Minimax.searchWith_open] at hopened
  obtain ⟨m, w', hrun, hm⟩ := Game.done_of_returns hopened hopen
  refine ⟨m, w', worth, hrun, hworth, hm, fun exits => ?_⟩
  exact Game.returns_imp (hreturns exits) fun c hc => Option.some.inj (hc.symm.trans hm)

/-! ### A council of three -/

namespace Council

def yes : Move := ⟨"yes"⟩

def no : Move := ⟨"no"⟩

/-- The only fact of a state counts the votes in tens and the motions carried in ones. -/
def tally (s : State) : Nat := s.facts.headD 0

def votesYes (j : JointMove) (i : Nat) : Bool := j.get? (.ofIndex i) = some yes

/-- A motion is carried by the chair, or by both others; who waits has not voted for it. -/
def carried (j : JointMove) : Bool := votesYes j 0 || votesYes j 1 && votesYes j 2

/-- Three roles vote on two motions, each of which is worth half of all points. -/
def game : Game where
  roles := ["chair", "clerk", "guest"]
  initial := .ofFacts [0]
  isTerminal s := decide (20 ≤ tally s)
  goal s _ := .ok (min 100 (50 * (tally s % 10)))
  legal _ _ := .ok [no, yes]
  next s j := .ok (.ofFacts [tally s + 10 + (carried j).toNat])

/-- The chair searches. -/
def brief : Brief := ⟨3, .ofIndex 0, .standard, .ucb, .random⟩

theorem tally_ofFacts (n : Nat) : tally (.ofFacts [n]) = n := rfl

theorem moveRepliesEnd {s : State} {m : Move} {rest : State → Prop}
    (h : ∀ t, tally s + 10 ≤ tally t → rest t) : game.MoveRepliesEnd brief rest s m := by
  refine ⟨_, rfl, fun j _ => ⟨_, rfl, h _ ?_⟩⟩
  rw [tally_ofFacts]
  exact Nat.le_add_right _ _

/-- Every vote brings the end nearer. -/
theorem repliesEnd {plies : Nat} {s : State} (h : 20 ≤ tally s + 10 * plies) :
    game.RepliesEnd brief (plies + 1) s := by
  induction plies generalizing s with
  | zero =>
      have hterminal : game.isTerminal s = true := decide_eq_true h
      rw [Game.RepliesEnd, if_pos hterminal]
      exact ⟨_, rfl⟩
  | succ plies ih =>
      rw [Game.RepliesEnd]
      split
      · exact ⟨_, rfl⟩
      · refine ⟨⟨[no, yes], List.cons_ne_nil no [yes]⟩, rfl, fun m _ => ?_⟩
        exact moveRepliesEnd fun t ht => ih (by omega)

example : [no, yes].map (game.moveReplyWorth? brief (game.stateReplyMerit? brief 2) game.initial) =
    [some 50, some 100] := by
  decide

end Council

open Council in
/-- The chair can carry both motions alone, and says so. -/
theorem minimax_chooses_argmax_council :
    ∃ w', game.search ⟨1000, 50⟩ (Minimax.search brief 2 game.initial [no, yes] (by decide))
      (.new ⟨0, 0⟩ (.ofSeed 42)) = (.done yes, w') := by
  have hgoals : ∀ t v, game.goal t brief.role = .ok v → v ≤ topGoal := by
    rintro t _ ⟨⟩
    exact Nat.min_le_left _ _
  have hends : ∀ m ∈ [no, yes],
      game.MoveRepliesEnd brief (game.RepliesEnd brief 2) game.initial m :=
    fun m _ => moveRepliesEnd fun t ht => repliesEnd (by omega)
  obtain ⟨m, w', worth, hrun, hworth, hm, -⟩ := minimax_chooses_argmax (by decide) hgoals hends
    (Nat.le_refl 2)
    (Game.undisturbed_of_still (d := ⟨1000, 50⟩) (w := .new ⟨0, 0⟩ (.ofSeed 42)) rfl rfl)
  have hno : some 50 = some (worth no) := hworth no (by decide)
  have hyes : some 100 = some (worth yes) := hworth yes (by decide)
  have hlt : worth no < worth yes := by
    rw [← Option.some.inj hno, ← Option.some.inj hyes]
    decide
  have hbest : [no, yes].argmax worth = some yes := by
    simp [List.argmax_cons, hlt]
  cases hm.symm.trans hbest
  exact ⟨w', hrun⟩

end GeneralGame
