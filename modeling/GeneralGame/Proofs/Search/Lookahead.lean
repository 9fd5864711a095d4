import GeneralGame.Proofs.Search.Merit
import GeneralGame.Proofs.Search.Playout
import GeneralGame.Search.Exhaustive.AlphaBeta
import GeneralGame.Search.Exhaustive.Minimax

/-!
The exhaustive searches keep to the deadline. Every value of a move and of a state starts with a
look at the clock, so no more than one transition is computed between two of them; a heuristic that
plays the game out may leave one more transition behind it.
-/
namespace GeneralGame

open Search

variable {g : Game} {b : Brief} {c : Nat} {since : List Transition}

/-- Each score starts with a look at the clock, and leaves at most `c` transitions behind. -/
def Game.Timed (g : Game) (c : Nat) (p : Search Nat) : Prop :=
  ∀ since, g.PunctualPart (AtMost (c + 1)) p since fun _ => AtMost c

namespace Heuristic

/-- How many transitions it may leave behind without a look at the clock. -/
def lag : Heuristic → Nat
  | monteCarlo _ => 1
  | _ => 0

theorem part_value {heuristic : Heuristic}
    (hplayout : heuristic.isStatic = true ∨ b.playout = .random) (fuel : Nat) (s : State) :
    g.PunctualPart (AtMost (heuristic.lag + 1)) (heuristic.value b fuel s) []
      fun _ => AtMost heuristic.lag := by
  cases heuristic with
  | monteCarlo charges =>
      have hplayout : b.playout = .random := hplayout.resolve_left Bool.false_ne_true
      have hcharges : g.PunctualPart (AtMost 2) (sumOfCharges b fuel s (max 1 charges) 0) []
          fun _ ts => AtMost 1 ts ∨ ts = [] :=
        Game.part_charges (fun _ => AtMost.mono (Nat.le_succ 1)) hplayout (fun _ => rfl) _
          (fun _ _ _ => Game.part_fit UInt32.size _) (fun _ _ => rfl) _ 0
      apply Game.part_bind hcharges
      rintro sum ts (hshort | rfl)
      · exact hshort
      · exact Nat.zero_le 1
  | goalProximity =>
      apply Game.punctual_of_unpolled (Game.unpolled_goal b s)
      rintro goal _ rfl
      exact Nat.le_refl 0
  | _ feasible =>
      apply Game.unpolled_bind (Game.unpolled_query rfl)
      rintro ms _ ⟨-, rfl⟩
      exact Nat.le_refl 0

end Heuristic

namespace AlphaBeta

theorem part_least {score : State → Nat → Search Nat} (hscore : ∀ t high, g.Timed c (score t high))
    (s : State) (low : Nat) (joints : List JointMove) (high : Nat) (hsince : AtMost c since) :
    g.PunctualPart (AtMost (c + 1)) (least b score s low joints high) since
      fun _ => AtMost c := by
  induction joints generalizing high since with
  | nil => exact hsince
  | cons j joints ih =>
      rw [least]
      apply Game.unpolled_bind (Game.unpolled_next (hsince.concat _))
      rintro t ts -
      apply Game.part_bind (hscore t high ts)
      intro value ts hts
      by_cases hclosed : min high value ≤ low
      · simp only [hclosed, if_true]
        apply Game.unpolled_bind (Game.unpolled_request rfl rfl)
        rintro _ _ ⟨-, rfl⟩
        exact hts
      · simp only [hclosed, if_false]
        exact ih _ hts

theorem part_greatest {score : Move → Nat → Search Nat} (hscore : ∀ m low, g.Timed c (score m low))
    (high : Nat) (ms : List Move) (low : Nat) (hsince : AtMost c since) :
    g.PunctualPart (AtMost (c + 1)) (greatest score high ms low) since fun _ => AtMost c := by
  induction ms generalizing low since with
  | nil => exact hsince
  | cons m ms ih =>
      rw [greatest]
      apply Game.part_bind (hscore m low since)
      intro value ts hts
      by_cases hclosed : high ≤ max low value
      · simp only [hclosed, if_true]
        apply Game.unpolled_bind (Game.unpolled_request rfl rfl)
        rintro _ _ ⟨-, rfl⟩
        exact hts
      · simp only [hclosed, if_false]
        exact ih _ hts

theorem timed_moveScore {score : State → Nat → Nat → Search Nat}
    (hscore : ∀ t low high, g.Timed c (score t low high)) (s : State) (m : Move) (low high : Nat) :
    g.Timed c (moveScore b score s m low high) := by
  intro since
  apply Game.part_bind Game.part_checkpoint
  rintro _ _ rfl
  apply Game.unpolled_bind (Game.unpolled_query rfl)
  rintro joints _ ⟨-, rfl⟩
  exact part_least (fun t high => hscore t low high) s low joints high (Nat.zero_le c)

/-- What the values of states may leave behind. -/
def lag (cutoff : Option Heuristic) : Nat := cutoff.elim 0 Heuristic.lag

theorem timed_stateScore (cutoff : Option Heuristic)
    (hplayout : ∀ h ∈ cutoff, h.isStatic = true ∨ b.playout = .random) (fuel ply : Nat) (s : State)
    (low high : Nat) :
    g.Timed (lag cutoff) (stateScore b cutoff fuel ply s low high) := by
  induction fuel generalizing ply s low high with
  | zero => exact fun _ => trivial
  | succ fuel ih =>
      intro since
      rw [stateScore]
      apply Game.part_bind Game.part_checkpoint
      rintro _ _ rfl
      apply Game.unpolled_bind (Game.unpolled_request rfl rfl)
      rintro _ _ ⟨-, rfl⟩
      apply Game.unpolled_bind (Game.unpolled_query rfl)
      rintro terminal _ ⟨-, rfl⟩
      cases terminal with
      | true =>
          rw [if_pos rfl]
          apply Game.punctual_of_unpolled (Game.unpolled_goal b s)
          rintro goal _ rfl
          exact Nat.zero_le _
      | false =>
          rw [if_neg Bool.false_ne_true]
          cases hat : cutoffAt b cutoff ply with
          | some heuristic =>
              have hcutoff : cutoff = some heuristic := eq_of_cutoffAt hat
              rw [hcutoff]
              exact Heuristic.part_value (hplayout heuristic hcutoff) fuel s
          | none =>
              apply Game.unpolled_bind (Game.unpolled_query rfl)
              rintro ms _ ⟨-, rfl⟩
              exact part_greatest
                (fun m low => timed_moveScore (fun t => ih (ply + 1) t) s m low high) high _ low
                (Nat.zero_le _)

end AlphaBeta

namespace Minimax

theorem unpolled_replies {fits : List Transition → Prop} (s : State) (m : Move) :
    g.Unpolled fits (replies b s m) since fun _ ts => ts = since := by
  apply Game.unpolled_bind (Game.unpolled_mapM (I := fun _ ts => ts = since) _ rfl)
  · rintro joints _ rfl
    rfl
  · rintro r _ _ rfl
    apply Game.unpolled_bind (Game.unpolled_query rfl)
    rintro ms _ ⟨-, rfl⟩
    rfl

theorem part_least {score : State → Search Nat} (hscore : ∀ t, g.Timed c (score t))
    (s : State) (joints : List JointMove) (worst : Nat) (hsince : AtMost c since) :
    g.PunctualPart (AtMost (c + 1)) (least b score s joints worst) since fun _ => AtMost c := by
  induction joints generalizing worst since with
  | nil => exact hsince
  | cons j joints ih =>
      rw [least]
      apply Game.unpolled_bind (Game.unpolled_next (hsince.concat _))
      rintro t ts -
      apply Game.part_bind (hscore t ts)
      intro value ts hts
      by_cases hzero : min worst value = 0
      · simp only [hzero, if_true]
        exact hts
      · simp only [hzero, if_false]
        exact ih _ hts

theorem part_greatest {score : Move → Search Nat} (hscore : ∀ m, g.Timed c (score m))
    (ms : List Move) (best : Nat) (hsince : AtMost c since) :
    g.PunctualPart (AtMost (c + 1)) (greatest score ms best) since fun _ => AtMost c := by
  induction ms generalizing best since with
  | nil => exact hsince
  | cons m ms ih =>
      rw [greatest]
      apply Game.part_bind (hscore m since)
      intro value ts hts
      by_cases htop : max best value = topGoal
      · simp only [htop, if_true]
        exact hts
      · simp only [htop, if_false]
        exact ih _ hts

theorem timed_moveScore {score : State → Search Nat} (hscore : ∀ t, g.Timed c (score t)) (s : State)
    (m : Move) : g.Timed c (moveScore b score s m) := by
  intro since
  apply Game.part_bind Game.part_checkpoint
  rintro _ _ rfl
  apply Game.unpolled_bind (unpolled_replies s m)
  rintro joints _ rfl
  exact part_least hscore s joints topGoal (Nat.zero_le c)

theorem timed_stateScore (fuel depth : Nat) (s : State) : g.Timed c (stateScore b fuel depth s) := by
  induction fuel generalizing depth s with
  | zero => exact fun _ => trivial
  | succ fuel ih =>
      intro since
      rw [stateScore]
      apply Game.part_bind Game.part_checkpoint
      rintro _ _ rfl
      apply Game.unpolled_bind (Game.unpolled_request rfl rfl)
      rintro _ _ ⟨-, rfl⟩
      apply Game.unpolled_bind (Game.unpolled_query rfl)
      rintro terminal _ ⟨-, rfl⟩
      cases terminal with
      | true =>
          rw [if_pos rfl]
          apply Game.punctual_of_unpolled (Game.unpolled_goal b s)
          rintro goal _ rfl
          exact Nat.zero_le c
      | false =>
          rw [if_neg Bool.false_ne_true]
          apply Game.unpolled_bind (Game.unpolled_query rfl)
          rintro ms _ ⟨-, rfl⟩
          exact part_greatest (fun m => timed_moveScore (fun t => ih (depth + 1) t) s m) _ 0
            (Nat.zero_le c)

end Minimax

theorem Incumbent.move_offer_mem {Score : Type} [LT Score] [DecidableLT Score] {moves : List Move}
    {i : Incumbent Score} {m : Move} (hi : i.move ∈ moves) (hm : m ∈ moves) (score : Score) :
    (i.offer m score).move ∈ moves := by
  unfold offer
  split
  · exact hm
  · exact hi

/-- When the deadline has expired, the best move so far is the answer. -/
theorem punctual_chooseFrom {score : Move → Nat → Search Nat}
    (hscore : ∀ m floor, g.Timed c (score m floor)) {moves ms : List Move} (hms : ms ⊆ moves)
    {best : Incumbent Nat} (hbest : best.move ∈ moves) :
    g.Punctual (AtMost (c + 1)) (Halts (· ∈ moves)) (chooseFrom score ms best) since
      fun _ _ => True := by
  induction ms generalizing best since with
  | nil => trivial
  | cons m ms ih =>
      obtain ⟨hm, hms⟩ := List.cons_subset.mp hms
      rw [chooseFrom]
      apply Game.punctual_bind (Game.punctual_attempt (hscore m best.score since))
      · rintro _ ⟨p, hp, rfl⟩
        exact halts_attempt_bind hp hbest
      · rintro _ ts ⟨value, rfl, -⟩
        by_cases htop : value = topGoal
        · simp only [htop, if_true]
          trivial
        · simp only [htop, if_false]
          have hoffer := Incumbent.move_offer_mem hbest hm value
          apply Game.punctual_bind Game.punctual_expired
          · rintro _ rfl
            exact ⟨pure _, rfl, hoffer⟩
          · rintro _ _ ⟨rfl, rfl⟩
            exact ih hms hoffer

end GeneralGame
