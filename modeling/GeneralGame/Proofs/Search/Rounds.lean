import GeneralGame.Proofs.Search.Heeds
import GeneralGame.Proofs.Search.Sampling
import GeneralGame.Proofs.Search.Worth

/-!
Rounds of playouts. A Monte Carlo search gives every move one playout in a round, in order, so when
it stops, in the middle of a round or between two, the moves differ by one playout at most and the
notes say how many there were. The search was interrupted exactly if it did not come to its last
round.
-/
namespace GeneralGame

open Search

variable {α : Type} {g : Game} {d : Deadline} {b : Brief} {fuel : Nat} {s : State} {m : Move}
  {w w' : Search.World}

namespace Stats

/-- What was added to the notes, the depths apart. -/
structure Gained (old new : Stats) (nodes charges iterations : Nat) (cut : Bool) : Prop where
  nodes : new.nodes = old.nodes + nodes
  charges : new.charges = old.charges + charges
  iterations : new.iterations = old.iterations + iterations
  interrupted : new.interrupted = (old.interrupted || cut)

variable {old mid new : Stats} {nodes nodes' charges charges' iterations iterations' : Nat}
  {cut cut' : Bool}

theorem Gained.refl (old : Stats) : Gained old old 0 0 0 false :=
  ⟨rfl, rfl, rfl, (Bool.or_false _).symm⟩

theorem Gained.trans (h : Gained old mid nodes charges iterations cut)
    (h' : Gained mid new nodes' charges' iterations' cut') :
    Gained old new (nodes + nodes') (charges + charges') (iterations + iterations')
      (cut || cut') where
  nodes := by rw [h'.nodes, h.nodes, Nat.add_assoc]
  charges := by rw [h'.charges, h.charges, Nat.add_assoc]
  iterations := by rw [h'.iterations, h.iterations, Nat.add_assoc]
  interrupted := by rw [h'.interrupted, h.interrupted, Bool.or_assoc]

theorem gained_take (s : Stats) (n : Note) :
    s.Gained (s.take n) (if n = .node then 1 else 0) (if n = .charge then 1 else 0)
      (if n = .iteration then 1 else 0) (n = .interrupted) := by
  cases n <;> constructor <;> simp [take, observeDepth]

theorem Gained.of_zero (h : zero.Gained new nodes charges iterations cut) :
    new.nodes = nodes ∧ new.charges = charges ∧ new.iterations = iterations ∧
      new.interrupted = cut := by
  simpa [zero] using And.intro h.nodes (And.intro h.charges (And.intro h.iterations h.interrupted))

/-- What was counted of playouts: a node for each, and another one at most where the deadline has
cut off the next. -/
inductive Playouts (old new : Stats) (charges iterations : Nat) : (whole : Bool) → Prop
  | whole (h : old.Gained new charges charges iterations false) :
      Playouts old new charges iterations true
  | cut {nodes : Nat} (hnodes : nodes = charges ∨ nodes = charges + 1)
      (h : old.Gained new nodes charges iterations true) : Playouts old new charges iterations false

theorem Gained.playouts {whole : Bool} (h : old.Gained mid charges charges iterations false)
    (h' : mid.Playouts new charges' iterations' whole) :
    old.Playouts new (charges + charges') (iterations + iterations') whole := by
  cases h' with
  | whole h' => exact .whole (h.trans h')
  | cut hnodes h' => exact .cut (by omega) (h.trans h')

end Stats

/-! ### One playout -/

theorem Search.stats_ofPlay {p : Play α} {o : Outcome α} (h : g.search d (ofPlay p) w = (o, w')) :
    w'.stats = w.stats := by
  have hplay : (ofPlay p).AsksOnly fun q => ∃ r, q = .play r := asksOnly_ofPlay (fun r => ⟨r, rfl⟩) p
  refine view_search (fun w => w.stats) ?_ hplay h
  rintro q w ⟨r, rfl⟩
  rfl

theorem Search.stats_checkpoint (h : g.search d checkpoint w = (.done (), w')) :
    w'.stats = w.stats := by
  rw [Game.search_checkpoint] at h
  split at h
  · cases h
  · cases h
    rfl

theorem Search.stats_checkpoint_cut (h : g.search d checkpoint w = (.cut, w')) :
    w'.stats = w.stats.take .interrupted := by
  rw [Game.search_checkpoint] at h
  split at h
  · cases h
    rfl
  · cases h

theorem Brief.depthCharge_done {goal : Nat}
    (h : g.search d (b.depthCharge fuel s) w = (.done goal, w')) :
    w.stats.Gained w'.stats 0 1 0 false := by
  obtain ⟨turn, w₁, hturn, h⟩ := Program.run_bind_eq_done.mp h
  obtain ⟨result, w₂, hattempt, h⟩ := Program.run_bind_eq_done.mp h
  cases result with
  | none => cases h
  | some ended =>
      have hstats : w₂.stats = w.stats := by
        rw [Search.stats_ofPlay (Program.run_attempt_eq_some.mp hattempt)]
        cases hturn
        rfl
      cases h
      exact hstats ▸ (Stats.gained_take w₂.stats .charge).trans
        (Stats.gained_take _ (.depth ended.depth))

theorem Brief.depthCharge_cut (h : g.search d (b.depthCharge fuel s) w = (.cut, w')) :
    w.stats.Gained w'.stats 0 0 0 true := by
  rcases Program.run_bind_eq_cut.mp h with hturn | ⟨turn, w₁, hturn, h⟩
  · cases hturn
  rcases Program.run_bind_eq_cut.mp h with hattempt | ⟨result, w₂, hattempt, h⟩
  · rw [Program.run_attempt] at hattempt
    split at hattempt <;> cases hattempt
  cases result with
  | some ended => cases h
  | none =>
      have hstats : w₂.stats = w.stats := by
        rw [Search.stats_ofPlay (Program.run_attempt_eq_none.mp hattempt)]
        cases hturn
        rfl
      cases h
      exact hstats ▸ Stats.gained_take w₂.stats .interrupted

theorem Game.ne_cut_of_unpolled {post : α → List Transition → Prop} {p : Search α}
    (hp : g.Unpolled (fun _ => True) p [] post) : g.search d p w ≠ (.cut, w') := by
  rcases punctual_cases hp w with ⟨-, hcut⟩ | ⟨_, _, _, -, hnever⟩
  · exact hcut w'
  · exact hnever.elim

theorem Search.stats_next {j : JointMove} {t : State} (h : g.search d (next s j) w = (.done t, w')) :
    w'.stats = w.stats.take .node := by
  obtain ⟨-, rfl⟩ := search_query_eq_done (w := { w with stats := w.stats.take .node }) h
  rfl

namespace MonteCarlo

theorem sample_done {goal : Nat} (h : g.search d (sample b fuel s m) w = (.done goal, w')) :
    w.stats.Gained w'.stats 1 1 0 false := by
  obtain ⟨_, w₁, hpoll, h⟩ := Program.run_bind_eq_done.mp h
  obtain ⟨joint, w₂, hjoint, h⟩ := Program.run_bind_eq_done.mp h
  obtain ⟨t, w₃, hnext, h⟩ := Program.run_bind_eq_done.mp h
  have hnode : w₃.stats = w.stats.take .node := by
    rw [stats_next hnext, stats_ofPlay hjoint, stats_checkpoint hpoll]
  exact (Stats.gained_take w.stats .node).trans (hnode ▸ Brief.depthCharge_done h)

/-- A playout that was cut off has computed its first state, or it has not come so far. -/
theorem sample_cut (h : g.search d (sample b fuel s m) w = (.cut, w')) :
    w.stats.Playouts w'.stats 0 0 false := by
  rcases Program.run_bind_eq_cut.mp h with hpoll | ⟨_, w₁, hpoll, h⟩
  · apply Stats.Playouts.cut (.inl rfl)
    rw [stats_checkpoint_cut hpoll]
    exact Stats.gained_take w.stats .interrupted
  -- Neither the joint move nor the transition looks at the clock.
  rcases Program.run_bind_eq_cut.mp h with hjoint | ⟨joint, w₂, hjoint, h⟩
  · exact absurd hjoint (Game.ne_cut_of_unpolled (Game.unpolled_randomJointMoveWith _ s _ m))
  rcases Program.run_bind_eq_cut.mp h with hnext | ⟨t, w₃, hnext, h⟩
  · exact absurd hnext (Game.ne_cut_of_unpolled (Game.unpolled_next trivial))
  have hnode : w₃.stats = w.stats.take .node := by
    rw [stats_next hnext, stats_ofPlay hjoint, stats_checkpoint hpoll]
  apply Stats.Playouts.cut (.inr rfl)
  exact (Stats.gained_take w.stats .node).trans (hnode ▸ Brief.depthCharge_cut h)

/-! ### Rounds -/

variable {tallies tallies' : List Tally}

/-- The first `r` moves have had one playout more than the others, which have had `k`. -/
structure InTurn (k r : Nat) (tallies : List Tally) : Prop where
  ahead : ∀ t ∈ tallies.take r, t.samples = k + 1
  behind : ∀ t ∈ tallies.drop r, t.samples = k

theorem InTurn.start {k : Nat} (h : ∀ t ∈ tallies, t.samples = k) : InTurn k 0 tallies :=
  ⟨nofun, h⟩

theorem InTurn.cons {k r : Nat} {t : Tally} (ht : t.samples = k + 1) (h : InTurn k r tallies) :
    InTurn k (r + 1) (t :: tallies) where
  ahead := List.forall_mem_cons.mpr ⟨ht, h.ahead⟩
  behind := h.behind

theorem InTurn.all {k : Nat} (h : InTurn k tallies.length tallies) :
    ∀ t ∈ tallies, t.samples = k + 1 := by
  have hahead := h.ahead
  rwa [List.take_length] at hahead

/-- A round gives the first `r` moves a playout each: all of them, or those before a cut. -/
theorem round_done {k : Nat} {whole : Bool} (hk : ∀ t ∈ tallies, t.samples = k)
    (h : g.search d (round b fuel s tallies) w = (.done (tallies', whole), w')) :
    ∃ r, tried tallies' = tried tallies ∧ InTurn k r tallies' ∧
      w.stats.Playouts w'.stats r 0 whole ∧
      if whole then r = tallies.length else r < tallies.length := by
  induction tallies generalizing tallies' w with
  | nil =>
      cases h
      exact ⟨0, rfl, .start hk, .whole (.refl _), rfl⟩
  | cons t tallies ih =>
      obtain ⟨ht, hrest⟩ := List.forall_mem_cons.mp hk
      obtain ⟨result, w₁, hsample, h⟩ := Program.run_bind_eq_done.mp h
      cases result with
      | none =>
          cases h
          have hcut := sample_cut (Program.run_attempt_eq_none.mp hsample)
          exact ⟨0, rfl, .start hk, hcut, Nat.zero_lt_succ _⟩
      | some goal =>
          obtain ⟨⟨rest, whole'⟩, w₂, hround, h⟩ := Program.run_bind_eq_done.mp h
          cases h
          have hfirst := sample_done (Program.run_attempt_eq_some.mp hsample)
          obtain ⟨r, htried, hturn, hplayouts, hlength⟩ := ih hrest hround
          have hadd : (t.add goal).samples = k + 1 := congrArg (· + 1) ht
          refine ⟨r + 1, congrArg (t.move :: ·) htried, hturn.cons hadd, ?_, ?_⟩
          · rw [Nat.add_comm]
            exact hfirst.playouts hplayouts
          · cases whole <;> simpa using hlength

theorem unsampled {moves : List Move} :
    ∀ t ∈ moves.map fun m => (⟨m, 0, 0⟩ : Tally), t.samples = 0 := by
  intro t ht
  obtain ⟨m, -, rfl⟩ := List.mem_map.mp ht
  rfl

/-- After `i` whole rounds the first `r` moves have had another playout; so it is after the last
round, or where the deadline has cut one off. -/
theorem rounds_done {n k : Nat} (hk : ∀ t ∈ tallies, t.samples = k)
    (h : g.search d (rounds b fuel s n tallies) w = (.done tallies', w')) :
    ∃ i r whole, tried tallies' = tried tallies ∧ InTurn (k + i) r tallies' ∧
      w.stats.Playouts w'.stats (i * tallies.length + r) i whole ∧
      if whole then i = n ∧ r = 0 else i < n ∧ r < tallies.length := by
  induction n generalizing tallies w k with
  | zero =>
      cases h
      exact ⟨0, 0, true, rfl, .start hk, .whole (by simpa using Stats.Gained.refl _), rfl, rfl⟩
  | succ n ih =>
      obtain ⟨⟨mid, whole⟩, w₁, hround, h⟩ := Program.run_bind_eq_done.mp h
      obtain ⟨r, htried, hturn, hplayouts, hlength⟩ := round_done hk hround
      cases whole with
      | false =>
          cases h
          exact ⟨0, r, false, htried, hturn, by simpa using hplayouts, Nat.zero_lt_succ n, hlength⟩
      | true =>
          -- A whole round leaves all moves even, with one playout more than before.
          have hlength : r = tallies.length := hlength
          have hmid : mid.length = tallies.length := by
            simpa [tried] using congrArg List.length htried
          subst hlength
          rw [← hmid] at hturn
          obtain ⟨i, r, whole, htried', hturn', hplayouts', hends⟩ := ih hturn.all h
          rw [hmid] at hplayouts' hends
          cases hplayouts with
          | whole hgained =>
              have hnoted := hgained.trans (Stats.gained_take w₁.stats .iteration)
              have hcharges : tallies.length + (i * tallies.length + r) =
                  (i + 1) * tallies.length + r := by
                rw [Nat.succ_mul]
                omega
              refine ⟨i + 1, r, whole, htried'.trans htried, ?_, ?_, ?_⟩
              · exact Nat.add_right_comm k 1 i ▸ hturn'
              · rw [← hcharges, Nat.add_comm i 1]
                exact hnoted.playouts hplayouts'
              · cases whole <;> simpa using hends

theorem tried_rounds {n : Nat} {moves : List Move}
    (h : g.search d (rounds b fuel s n (moves.map fun m => ⟨m, 0, 0⟩)) w = (.done tallies, w')) :
    tried tallies = moves := by
  obtain ⟨-, -, -, htried, -⟩ := rounds_done unsampled h
  exact htried.trans (tried_unsampled moves)

/-- Rounds are fair, and all playouts are accounted for. A search that starts with no notes gives each
move a playout in every round, so when it is done, the first `r` moves have had one playout more than
there were iterations, and the others as many; each playout has counted one node, and one that was cut
off may have counted another. The search was interrupted exactly if there were fewer iterations than
the most that it may do; otherwise all rounds are whole. -/
theorem rounds_are_fair {moves : List Move} (h : moves ≠ []) (hfresh : w.stats = .zero)
    (hrun : g.search d (search b fuel s moves h) w = (.done m, w')) :
    ∃ tallies r,
      g.search d (rounds b fuel s b.config.depthCharges (moves.map fun m => ⟨m, 0, 0⟩)) w =
        (.done tallies, w') ∧
      m = best (moves.head h) tallies ∧ tallies.map (·.move) = moves ∧ r < moves.length ∧
      (∀ t ∈ tallies.take r, t.samples = w'.stats.iterations + 1) ∧
      (∀ t ∈ tallies.drop r, t.samples = w'.stats.iterations) ∧
      w'.stats.charges = w'.stats.iterations * moves.length + r ∧
      (w'.stats.nodes = w'.stats.charges ∨ w'.stats.nodes = w'.stats.charges + 1) ∧
      (w'.stats.interrupted = true ↔ w'.stats.iterations < b.config.depthCharges) ∧
      (w'.stats.interrupted = false →
        w'.stats.iterations = b.config.depthCharges ∧ r = 0 ∧
          w'.stats.nodes = w'.stats.charges ∧
          w'.stats.charges = w'.stats.iterations * moves.length) := by
  obtain ⟨tallies, v, hrounds, hbest⟩ := Program.run_bind_eq_done.mp hrun
  cases hbest
  obtain ⟨i, r, whole, htried, hturn, hplayouts, hends⟩ := rounds_done unsampled hrounds
  rw [tried_unsampled] at htried
  rw [List.length_map] at hplayouts hends
  rw [Nat.zero_add] at hturn
  rw [hfresh] at hplayouts
  have hmoves : 0 < moves.length := List.length_pos_iff.mpr h
  cases hplayouts with
  | whole hgained =>
      obtain ⟨rfl, rfl⟩ : i = b.config.depthCharges ∧ r = 0 := hends
      obtain ⟨hnodes, hcharges, hiterations, hcut⟩ := hgained.of_zero
      rw [hnodes, hcharges, hiterations, hcut]
      refine ⟨tallies, 0, hrounds, rfl, htried, hmoves, hturn.ahead, hturn.behind, rfl, .inl rfl, ?_,
        fun _ => ⟨rfl, rfl, rfl, rfl⟩⟩
      simp
  | cut hnodes' hgained =>
      obtain ⟨hi, hr⟩ : i < b.config.depthCharges ∧ r < moves.length := hends
      obtain ⟨hnodes, hcharges, hiterations, hcut⟩ := hgained.of_zero
      rw [hnodes, hcharges, hiterations, hcut]
      exact ⟨tallies, r, hrounds, rfl, htried, hr, hturn.ahead, hturn.behind, rfl, hnodes',
        iff_of_true rfl hi, nofun⟩

open TwoRounds in
/-- The second round is cut off in the playout of its second move, after the first state of it. -/
theorem rounds_are_fair_twoRounds :
    let w := Search.World.new ⟨1, 1⟩ (.ofSeed 42)
    ∃ m w' first second,
      game.search ⟨8, 0⟩ (search brief 5 game.initial [left, right] (by decide)) w = (.done m, w') ∧
      w'.stats.charges = 3 ∧ w'.stats.nodes = 4 ∧ w'.stats.interrupted = true ∧
      game.search ⟨8, 0⟩ (rounds brief 5 game.initial 1000 [⟨left, 0, 0⟩, ⟨right, 0, 0⟩]) w =
        (.done [first, second], w') ∧ first.samples = 2 ∧ second.samples = 1 := by
  intro w
  have hdone : (game.search ⟨8, 0⟩ (search brief 5 game.initial [left, right] (by decide))
      w).1.isDone = true := by decide +kernel
  have hstats : (game.search ⟨8, 0⟩ (search brief 5 game.initial [left, right] (by decide))
      w).2.stats = ⟨4, 3, 1, 1, 0, 0, true⟩ := by decide +kernel
  cases hrun : game.search ⟨8, 0⟩ (search brief 5 game.initial [left, right] (by decide)) w with
  | mk outcome w' =>
      rw [hrun] at hdone hstats
      have hstats : w'.stats = ⟨4, 3, 1, 1, 0, 0, true⟩ := hstats
      cases outcome with
      | done m =>
          obtain ⟨tallies, r, hrounds, -, htried, -, hahead, hbehind, hcharges, -, -, -⟩ :=
            rounds_are_fair (by decide) rfl hrun
          rw [hstats] at hahead hbehind hcharges
          obtain rfl : r = 1 := (Nat.add_left_cancel hcharges).symm
          have hlength : tallies.length = 2 := by simpa using congrArg List.length htried
          obtain ⟨first, second, rfl⟩ := List.length_eq_two.mp hlength
          refine ⟨m, w', first, second, rfl, ?_, ?_, ?_, hrounds, hahead first (by simp),
            hbehind second (by simp)⟩
          all_goals rw [hstats]
      | _ => cases hdone

end MonteCarlo

end GeneralGame
