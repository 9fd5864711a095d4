import GeneralGame.Proofs.Play.Settles
import GeneralGame.Proofs.Search.Closed
import GeneralGame.Proofs.Search.Sampling

/-!
How searches end. Whatever it is told about the time, a search as a whole is never cut off: it comes
to one of the moves or it fails. It fails with what went wrong last, which is a request that was
refused or a playout that has failed. With random playouts there are two things to make it panic:
joint moves that are too many to be listed, and the sum of a Monte Carlo heuristic.
-/
namespace GeneralGame

open Program Search

variable {α β : Type} {b : Brief} {fuel : Nat} {s : State} {moves : List Move}

/-! ### Answers -/

theorem Search.settles_expired : expired.Settles fun _ => True := by
  intro expired
  cases expired with
  | true => exact fun _ => trivial
  | false => trivial

theorem settles_chooseFrom {score : Move → Nat → Search Nat} {ms : List Move}
    {best : Incumbent Nat} (hms : ∀ m ∈ ms, m ∈ moves) (hbest : best.move ∈ moves) :
    (chooseFrom score ms best).Settles (· ∈ moves) := by
  induction ms generalizing best with
  | nil => exact hbest
  | cons m ms ih =>
      obtain ⟨hm, hms⟩ := List.forall_mem_cons.mp hms
      rw [chooseFrom]
      apply settles_bind (settles_attempt _)
      intro answer _
      cases answer with
      | none => exact hbest
      | some value =>
          have hoffer : (best.offer m value).move ∈ moves :=
            Incumbent.move_offer_mem hbest hm value
          dsimp only
          split
          · exact hm
          · apply settles_bind settles_expired
            intro expired _
            cases expired with
            | true => exact hoffer
            | false => exact ih hms hoffer

theorem settles_chooseMove {score : Move → Nat → Search Nat} (h : moves ≠ []) :
    (chooseMove score moves h).Settles (· ∈ moves) :=
  settles_chooseFrom (fun _ hm => hm) (List.head_mem h)

namespace MonteCarlo

theorem settles_round (tallies : List Tally) :
    (round b fuel s tallies).Settles fun r => tried r.1 = tried tallies := by
  induction tallies with
  | nil => rfl
  | cons t tallies ih =>
      rw [round]
      apply settles_bind (settles_attempt _)
      intro answer _
      cases answer with
      | none => rfl
      | some goal => exact settles_bind ih fun r hr => congrArg (t.move :: ·) hr

theorem settles_rounds (n : Nat) (tallies : List Tally) :
    (rounds b fuel s n tallies).Settles fun ts => tried ts = tried tallies := by
  induction n generalizing tallies with
  | zero => rfl
  | succ n ih =>
      rw [rounds]
      apply settles_bind (settles_round tallies)
      rintro ⟨ts, whole⟩ hts
      cases whole with
      | true => exact fun _ => hts ▸ ih ts
      | false => exact hts

end MonteCarlo

theorem Strategy.settles_search (strategy : Strategy) (h : moves ≠ []) :
    (strategy.search b fuel s moves h).Settles (· ∈ moves) := by
  cases strategy with
  | legal => exact List.head_mem h
  | random => exact fun i => List.get_mem moves i
  | minimax => exact settles_chooseMove h
  | alphaBeta => exact settles_chooseMove h
  | heuristic cutoff => exact settles_chooseMove h
  | monteCarlo =>
      apply settles_bind (MonteCarlo.settles_rounds _ _)
      intro ts hts
      exact MonteCarlo.best_mem (List.head_mem h) (hts.trans (MonteCarlo.tried_unsampled moves))
  | uct =>
      intro _
      have hdone (p : Search Unit) : (discard p.attempt).Settles fun _ => True :=
        settles_bind (settles_attempt p) fun _ _ => trivial
      apply settles_bind (hdone _)
      intro _ _ table
      exact TreeSearch.best_mem (List.head_mem h)

/-! ### Faults -/

namespace Search

variable {World : Type} {answer : Handler SearchRequest SearchRequest.Answer World}

/-- What the search of a strategy fails with after it has asked all this: it has run out of fuel, the
sum of a Monte Carlo heuristic has left its word, the last request was refused, or the playout that
was started last has failed. -/
inductive Blames (b : Brief) (strategy : Strategy)
    (answer : Handler SearchRequest SearchRequest.Answer World)
    (asked : List (SearchRequest × World)) : Fault → Prop
  | fuel : Blames b strategy answer asked .outOfFuel
  | overflow (charges : Nat) :
      strategy = .heuristic (.monteCarlo charges) → Blames b strategy answer asked .panic
  | request (before : List (SearchRequest × World)) {q : SearchRequest} {w : World} {f : Fault} :
      asked = before ++ [(q, w)] → (answer q w).1 = .error f → Blames b strategy answer asked f
  | playout (before : List (SearchRequest × World)) {w v : World} {fuel turn : Nat} {s : State}
      {f : Fault} :
      answer .playoutTurn w = (.ok turn, v) →
      asked = before ++ (.playoutTurn, w) ::
        (ofPlay (b.playout b.roleCount b.role fuel turn s)).history answer v →
      ((ofPlay (b.playout b.roleCount b.role fuel turn s)).run answer v).1 = .fault f →
      Blames b strategy answer asked f

variable {strategy : Strategy}

theorem Blames.after {asked : List (SearchRequest × World)} {f : Fault}
    (h : Blames b strategy answer asked f) (before : List (SearchRequest × World)) :
    Blames b strategy answer (before ++ asked) f := by
  cases h with
  | fuel => exact .fuel
  | overflow charges hstrategy => exact .overflow charges hstrategy
  | request _ hasked hrefused =>
      rw [hasked, ← List.append_assoc]
      exact .request _ rfl hrefused
  | playout _ hturn hasked hfailed =>
      rw [hasked, ← List.append_assoc]
      exact .playout _ hturn rfl hfailed

/-- Whoever answers, the search fails only with what is to blame for it. -/
def Accountable (b : Brief) (strategy : Strategy) (p : Search α) : Prop :=
  ∀ {World : Type} (answer : Handler SearchRequest SearchRequest.Answer World) (w : World)
    (f : Fault), (p.run answer w).1 = .fault f → Blames b strategy answer (p.history answer w) f

theorem accountable_request (q : SearchRequest) : Accountable b strategy (request q) := by
  intro World answer w f hrun
  have hanswer := run_request_eq_fault.mp (Prod.ext hrun rfl)
  have hhistory : (request q).history answer w = [(q, w)] := by
    rw [request, history, hanswer]
  exact .request [] hhistory (congrArg Prod.fst hanswer)

theorem accountable_bind {p : Search α} {f : α → Search β} (hp : Accountable b strategy p)
    (hf : ∀ a, Accountable b strategy (f a)) : Accountable b strategy (p >>= f) := by
  intro World answer w e hfault
  rw [run_bind] at hfault
  rw [history_bind]
  cases hrun : p.run answer w with
  | mk outcome v =>
      rw [hrun] at hfault
      cases outcome with
      | done a => exact (hf a answer v e hfault).after _
      | cut => cases hfault
      | fault e' =>
          cases hfault
          simpa using hp answer w e (congrArg Prod.fst hrun)

theorem accountable_attempt {p : Search α} (hp : Accountable b strategy p) :
    Accountable b strategy p.attempt := by
  intro World answer w e hfault
  rw [run_attempt] at hfault
  rw [history_attempt]
  cases hrun : p.run answer w with
  | mk outcome v =>
      rw [hrun] at hfault
      cases outcome with
      | done a => cases hfault
      | cut => cases hfault
      | fault e' =>
          cases hfault
          exact hp answer w e (congrArg Prod.fst hrun)

theorem accountable_panic (strategy : Strategy) (charges : Nat)
    (hstrategy : strategy = .heuristic (.monteCarlo charges)) :
    Accountable b strategy (.fault .panic : Search Nat) := by
  intro World answer w f hrun
  cases hrun
  exact .overflow charges hstrategy

theorem closed_accountable : Closed fun _ p => Accountable b strategy p where
  done _ := by
    intro World answer w f hrun
    cases hrun
  cut := by
    intro α World answer w f hrun
    cases hrun
  outOfFuel := by
    intro α World answer w f hrun
    cases hrun
    exact .fuel
  request _ := accountable_request _
  bind := accountable_bind
  attempt := accountable_attempt

theorem accountable_follow (s : State) : Accountable b strategy (TreeSearch.follow b s) := by
  apply accountable_bind (accountable_request .table)
  intro table
  cases (table.get? s).filter Node.isVisited with
  | none => exact closed_accountable.done none
  | some node =>
      dsimp only
      split
      · exact closed_accountable.done none
      · exact accountable_bind (accountable_request .selectionTurn)
          fun _ => closed_accountable.done _

/-- A playout of any policy is to blame for its own failure. -/
theorem accountable_playout {rest : Option Play.Rollout → Search α}
    (hrest : ∀ ended, Accountable b strategy (rest ended)) (fuel : Nat) (s : State) :
    Accountable b strategy (.ask .playoutTurn fun turn =>
      (ofPlay (b.playout b.roleCount b.role fuel turn s)).attempt >>= rest) := by
  intro World answer w e hfault
  rw [run] at hfault
  rw [history]
  cases hturn : answer .playoutTurn w with
  | mk reply v =>
      rw [hturn] at hfault
      cases reply with
      | error e' =>
          cases hfault
          exact .request [] rfl (congrArg Prod.fst hturn)
      | ok turn =>
          dsimp only at hfault ⊢
          rw [run_bind, run_attempt] at hfault
          rw [history_bind, run_attempt, history_attempt, ← List.cons_append]
          cases hrun : (ofPlay (b.playout b.roleCount b.role fuel turn s)).run answer v with
          | mk outcome u =>
              rw [hrun] at hfault
              cases outcome with
              | done ended => exact (hrest (some ended) answer u e hfault).after _
              | cut => exact (hrest none answer u e hfault).after _
              | fault e' =>
                  cases hfault
                  exact .playout [] hturn (List.append_nil _) (congrArg Prod.fst hrun)

theorem accountable_depthCharge (fuel : Nat) (s : State) :
    Accountable b strategy (b.depthCharge fuel s) := by
  rw [Brief.depthCharge]
  apply accountable_playout
  intro ended
  cases ended with
  | none => exact closed_accountable.cutOff
  | some ended =>
      exact closed_accountable.bind (closed_accountable.note _) fun _ =>
        closed_accountable.bind (closed_accountable.note _) fun _ => closed_accountable.done _

theorem complies_accountable : b.Complies fun _ p => Accountable b strategy p :=
  ⟨accountable_follow, accountable_depthCharge⟩

end Search

/-- Whatever the policies do and whoever answers, also about the time, a search comes to one of the
moves or fails with what is to blame for it. -/
theorem Strategy.search_ends (strategy : Strategy) (b : Brief) (fuel : Nat) (s : State)
    (h : moves ≠ []) {World : Type} (answer : Handler SearchRequest SearchRequest.Answer World)
    (w : World) :
    (∃ m ∈ moves, ((strategy.search b fuel s moves h).run answer w).1 = .done m) ∨
      ∃ f, ((strategy.search b fuel s moves h).run answer w).1 = .fault f ∧
        Blames b strategy answer ((strategy.search b fuel s moves h).history answer w) f := by
  rcases run_of_settles (strategy.settles_search h) answer w with hdone | ⟨f, hfault⟩
  · exact .inl hdone
  · exact .inr ⟨f, hfault,
      closed_accountable.search complies_accountable strategy (accountable_panic strategy)
        fuel s h answer w f hfault⟩

/-! ### Panics -/

section

variable {g : Game} {d : Deadline} {f : Fault}

/-- The joint moves of some state are too many to be listed. -/
def Game.Overflows (g : Game) : Prop :=
  ∃ s, g.jointMoves s = .error .panic ∨ ∃ r m, g.jointMovesWith s r m = .error .panic

theorem Game.overflows_of_answer {q : Query} (h : g.answer q = .error .panic) : g.Overflows := by
  cases q with
  | jointMoves s => exact ⟨s, .inl h⟩
  | jointMovesWith s r m => exact ⟨s, .inr ⟨r, m, h⟩⟩
  | isTerminal s => cases h
  | _ => obtain ⟨_, -, ⟨⟩⟩ := mapError_eq_error.mp h

/-- A request is refused by the game, or it is a draw that never comes to an end. -/
theorem Search.answer_eq_fault {q : SearchRequest} {w : Search.World}
    (h : (Search.answer g d q w).1 = .error f) :
    (∃ query, q = .play (.query query) ∧ g.answer query = .error f) ∨ f = .outOfFuel := by
  cases q with
  | play q =>
      cases q with
      | poll => cases h
      | query query => exact .inl ⟨query, rfl, h⟩
      | draw width n pos =>
          simp only [Search.answer, Play.answer] at h
          split at h
          · cases h
          · exact .inr (Except.error.inj h).symm
  | _ => cases h

/-- The search panics only where joint moves are too many to be listed. -/
def Search.PanicsInLists (g : Game) (d : Deadline) (p : Search α) : Prop :=
  ∀ w w', g.search d p w = (.fault .panic, w') → g.Overflows

theorem Search.closed_panicsInLists : Closed fun _ p => PanicsInLists g d p where
  done _ := nofun
  cut := nofun
  outOfFuel := nofun
  request {q} _ := by
    intro w w' hpanic
    have hrefused := congrArg Prod.fst (run_request_eq_fault.mp hpanic)
    rcases answer_eq_fault hrefused with ⟨_, -, hquery⟩ | hstuck
    · exact Game.overflows_of_answer hquery
    · cases hstuck
  bind hp hf := by
    intro w w' hpanic
    rcases run_bind_eq_fault.mp hpanic with hpanic | ⟨a, v, -, hpanic⟩
    · exact hp w w' hpanic
    · exact hf a v w' hpanic
  attempt hp := fun w w' hpanic => hp w w' (run_attempt_eq_fault.mp hpanic)

/-- With random playouts a search panics for joint moves that are too many to be listed, or else for
the sum of a Monte Carlo heuristic. -/
theorem Strategy.search_panics (hplayout : b.playout = .random) (strategy : Strategy)
    (h : moves ≠ []) {w w' : Search.World}
    (hrun : g.search d (strategy.search b fuel s moves h) w = (.fault .panic, w')) :
    g.Overflows ∨ ∃ charges, strategy = .heuristic (.monteCarlo charges) := by
  rcases strategy.search_ends b fuel s h (Search.answer g d) w with ⟨_, -, hdone⟩ | ⟨_, hf, hblames⟩
  · cases hdone.symm.trans (congrArg Prod.fst hrun)
  · cases hf.symm.trans (congrArg Prod.fst hrun)
    cases hblames with
    | overflow charges hstrategy => exact .inr ⟨charges, hstrategy⟩
    | request _ _ hrefused =>
        rcases answer_eq_fault hrefused with ⟨_, -, hquery⟩ | hstuck
        · exact .inl (Game.overflows_of_answer hquery)
        · cases hstuck
    | @playout _ _ v fuel _ s _ _ _ hfailed =>
        rw [hplayout] at hfailed
        have hrollout := closed_panicsInLists (g := g) (d := d).rollout b.roleCount b.role fuel 0 s
        exact .inl (hrollout v _ (Prod.ext hfailed rfl))

end

end GeneralGame
