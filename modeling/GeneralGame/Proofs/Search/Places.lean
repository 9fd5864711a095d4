import GeneralGame.Proofs.Circuit.Tables
import GeneralGame.Proofs.Play.Places
import GeneralGame.Proofs.Search.Ending

/-!
Searches with look-ups by place. A search takes moves, tallies and children out of lists and puts
replies into joint moves by their places. The versions here have no answer at all where there is no
such place. They are the searches themselves: no look-up ever misses.
-/
namespace GeneralGame

open Search

variable {α β : Type} {b : Brief} {fuel : Nat} {s : State} {moves : List Move}

namespace Search

/-- Play that may miss an entry, as a part of a search. -/
def ofPlayAt (p : OptionT Play α) : OptionT Search α := OptionT.mk (ofPlay p.run)

theorem ofPlayAt_liftM (p : Play α) : ofPlayAt (liftM p : OptionT Play α) = liftM (ofPlay p) := by
  apply OptionT.ext
  exact ofPlay_bind p fun a => pure (some a)

theorem ofPlay_map (f : α → β) (p : Play α) : ofPlay (f <$> p) = f <$> ofPlay p :=
  ofPlay_bind p fun a => pure (f a)

end Search

/-! ### Exhaustive searches -/

def chooseFromAt (score : Move → (floor : Nat) → OptionT Search Nat) :
    List Move → Incumbent Nat → OptionT Search Move
  | [], best => return best.move
  | m :: ms, best => do
    match ← attemptAt (score m best.score) with
    | none => return best.move
    | some value =>
      if value = topGoal then return m
      let best := best.offer m value
      if ← expired then return best.move
      chooseFromAt score ms best

def chooseMoveAt (score : Move → (floor : Nat) → OptionT Search Nat) (moves : List Move) :
    OptionT Search Move := do
  let first ← entry moves[0]?
  chooseFromAt score moves ⟨first, 0⟩

theorem chooseFromAt_eq (score : Move → Nat → Search Nat) (ms : List Move) (best : Incumbent Nat) :
    chooseFromAt (fun m floor => liftM (score m floor)) ms best =
      liftM (chooseFrom score ms best) := by
  induction ms generalizing best with
  | nil => rfl
  | cons m ms ih =>
      rw [chooseFromAt, chooseFrom, attemptAt_liftM, liftM_bind]
      congr
      funext answer
      cases answer with
      | none => rfl
      | some value =>
          dsimp only
          split
          · rfl
          · rw [liftM_bind]
            congr
            funext expired
            cases expired with
            | true => rfl
            | false => exact ih _

theorem getElem?_zero_of_ne_nil (h : moves ≠ []) : moves[0]? = some (moves.head h) := by
  rw [← List.head?_eq_getElem?, List.head?_eq_some_head h]

theorem chooseMoveAt_eq (score : Move → Nat → Search Nat) (h : moves ≠ []) :
    chooseMoveAt (fun m floor => liftM (score m floor)) moves =
      liftM (chooseMove score moves h) := by
  simp [chooseMoveAt, chooseMove, getElem?_zero_of_ne_nil h, chooseFromAt_eq]

/-- The joint move with the entry of `r` replaced, if it has one. -/
def JointMove.set? (j : JointMove) (r : RoleId) (m : Move) : Option JointMove :=
  if r.index < j.size then some (j.set r m) else none

namespace Minimax

def repliesAt (b : Brief) (s : State) (m : Move) : OptionT Search (List JointMove) := do
  let opponents := (RoleId.all b.roleCount).filter (· ≠ b.role)
  let joints ← opponents.mapM fun r => do
    let ms ← query (.moves s r)
    ms.val.mapM fun reply => entry ((b.placeholder m).set? r reply)
  return if joints.flatten.isEmpty then [b.placeholder m] else joints.flatten

def leastAt (b : Brief) (score : State → OptionT Search Nat) (s : State) :
    List JointMove → Nat → OptionT Search Nat
  | [], worst => return worst
  | j :: js, worst => do
    let value ← score (← next s j)
    let worst := min worst value
    if worst = 0 then return 0
    leastAt b score s js worst

def greatestAt (score : Move → OptionT Search Nat) : List Move → Nat → OptionT Search Nat
  | [], best => return best
  | m :: ms, best => do
    let value ← score m
    let best := max best value
    if best = topGoal then return topGoal
    greatestAt score ms best

def moveScoreAt (b : Brief) (score : State → OptionT Search Nat) (s : State) (m : Move) :
    OptionT Search Nat := do
  checkpoint
  let joints ← repliesAt b s m
  leastAt b score s joints topGoal

def stateScoreAt (b : Brief) : (fuel depth : Nat) → State → OptionT Search Nat
  | 0, _, _ => liftM (.outOfFuel : Search Nat)
  | fuel + 1, depth, s => do
    checkpoint
    note (.depth depth)
    if ← query (.isTerminal s) then b.goal s
    else
      let ms ← query (.moves s b.role)
      greatestAt (moveScoreAt b (stateScoreAt b fuel (depth + 1)) s) ms.val 0

theorem repliesAt_eq (b : Brief) (s : State) (m : Move) :
    repliesAt b s m = liftM (replies b s m) := by
  have hset : ∀ r ∈ (RoleId.all b.roleCount).filter (· ≠ b.role), ∀ reply,
      (b.placeholder m).set? r reply = some ((b.placeholder m).set r reply) := by
    intro r hr reply
    have hlt := RoleId.mem_all.mp (List.mem_filter.mp hr).1
    simp [JointMove.set?, JointMove.size, Brief.placeholder, JointMove.placeholder,
      RoleId.length_all, hlt]
  have hjoints : ∀ r ∈ (RoleId.all b.roleCount).filter (· ≠ b.role),
      (do
        let ms ← liftM (query (.moves s r))
        ms.val.mapM fun reply => entry ((b.placeholder m).set? r reply)) =
      (liftM (do
        let ms ← query (.moves s r)
        return ms.val.map ((b.placeholder m).set r)) : OptionT Search (List JointMove)) := by
    intro r hr
    simp [hset r hr]
  rw [repliesAt, replies, liftM_bind, liftM_mapM, mapM_congr_of_mem hjoints]
  simp

theorem leastAt_eq (score : State → Search Nat) (s : State) (joints : List JointMove)
    (worst : Nat) :
    leastAt b (fun t => liftM (score t)) s joints worst = liftM (least b score s joints worst) := by
  induction joints generalizing worst with
  | nil => rfl
  | cons j joints ih => simp [leastAt, least, ih, apply_ite liftM]

theorem greatestAt_eq (score : Move → Search Nat) (ms : List Move) (best : Nat) :
    greatestAt (fun m => liftM (score m)) ms best = liftM (greatest score ms best) := by
  induction ms generalizing best with
  | nil => rfl
  | cons m ms ih => simp [greatestAt, greatest, ih, apply_ite liftM]

theorem moveScoreAt_eq (score : State → Search Nat) (s : State) (m : Move) :
    moveScoreAt b (fun t => liftM (score t)) s m = liftM (moveScore b score s m) := by
  simp [moveScoreAt, moveScore, repliesAt_eq, leastAt_eq]

theorem stateScoreAt_eq (fuel depth : Nat) (s : State) :
    stateScoreAt b fuel depth s = liftM (stateScore b fuel depth s) := by
  induction fuel generalizing depth s with
  | zero => rfl
  | succ fuel ih =>
      have hscore : stateScoreAt b fuel (depth + 1) =
          fun t => liftM (stateScore b fuel (depth + 1) t) := funext (ih (depth + 1))
      have hmove : moveScoreAt b (stateScoreAt b fuel (depth + 1)) s =
          fun m => liftM (moveScore b (stateScore b fuel (depth + 1)) s m) := by
        rw [hscore]
        exact funext (moveScoreAt_eq _ s)
      simp [stateScoreAt, stateScore, hmove, greatestAt_eq, apply_ite liftM]

end Minimax

def AlphaBeta.searchAt (b : Brief) (cutoff : Option Heuristic) (fuel : Nat) (s : State)
    (moves : List Move) : OptionT Search Move :=
  chooseMoveAt (fun m floor => liftM (moveScore b (stateScore b cutoff fuel 1) s m floor topGoal))
    moves

def Minimax.searchAt (b : Brief) (fuel : Nat) (s : State) (moves : List Move) :
    OptionT Search Move :=
  chooseMoveAt (fun m _ => moveScoreAt b (stateScoreAt b fuel 1) s m) moves

/-! ### Searches that sample -/

namespace MonteCarlo

def sampleAt (b : Brief) (fuel : Nat) (s : State) (m : Move) : OptionT Search Nat := do
  checkpoint
  let joint ← ofPlayAt (Play.randomJointMoveWithAt b.roleCount s b.role m)
  b.depthCharge fuel (← next s joint)

/-- A playout for each move from place `i` on, which its tally takes down. -/
def roundAt (b : Brief) (fuel : Nat) (s : State) :
    (i : Nat) → List Move → List Tally → OptionT Search (List Tally × Bool)
  | _, [], ts => return (ts, true)
  | i, m :: ms, ts => do
    match ← attemptAt (sampleAt b fuel s m) with
    | none => return (ts, false)
    | some goal =>
      let t ← entry ts[i]?
      roundAt b fuel s (i + 1) ms (ts.set i (t.add goal))

def roundsAt (b : Brief) (fuel : Nat) (s : State) (moves : List Move) :
    Nat → List Tally → OptionT Search (List Tally)
  | 0, ts => return ts
  | n + 1, ts => do
    let (ts, whole) ← roundAt b fuel s 0 moves ts
    if whole then
      note .iteration
      roundsAt b fuel s moves n ts
    else return ts

def bestAt (moves : List Move) (ts : List Tally) : Option Move := do
  let first ← moves[0]?
  let best ← moves.zipIdx.foldlM (fun (best : Incumbent Float) (m, i) => do
    let t ← ts[i]?
    return if 0 < t.samples then best.offer m (t.total.toFloat / t.samples.toFloat) else best)
    ⟨first, minusInfinity⟩
  return best.move

def searchAt (b : Brief) (fuel : Nat) (s : State) (moves : List Move) : OptionT Search Move := do
  let ts ← roundsAt b fuel s moves b.config.depthCharges (moves.map fun m => ⟨m, 0, 0⟩)
  entry (bestAt moves ts)

theorem sampleAt_eq (m : Move) : sampleAt b fuel s m = liftM (sample b fuel s m) := by
  simp [sampleAt, sample, Play.randomJointMoveWithAt_eq, ofPlayAt_liftM]

/-- In the middle of a round, the tallies before place `i` are done. -/
theorem roundAt_eq (done rest : List Tally) :
    roundAt b fuel s done.length (tried rest) (done ++ rest) =
      liftM ((fun r => (done ++ r.1, r.2)) <$> round b fuel s rest) := by
  induction rest generalizing done with
  | nil => simp [tried, roundAt, round]
  | cons t rest ih =>
      have hrest := fun goal => ih (done ++ [t.add goal])
      simp only [List.length_append, List.length_singleton, List.append_assoc,
        List.singleton_append] at hrest
      simp only [tried, List.map_cons, roundAt, round, sampleAt_eq, attemptAt_liftM, map_bind,
        liftM_bind]
      congr
      funext answer
      cases answer with
      | none => simp
      | some goal =>
          have hentry : (done ++ t :: rest)[done.length]? = some t := by simp
          have hset : (done ++ t :: rest).set done.length (t.add goal) =
              done ++ t.add goal :: rest := by simp
          simp only [hentry, entry_some, pure_bind, hset]
          exact (hrest goal).trans (by simp)

theorem roundsAt_eq (fuel : Nat) (s : State) (n : Nat) (tallies : List Tally) :
    roundsAt b fuel s (tried tallies) n tallies = liftM (rounds b fuel s n tallies) := by
  induction n generalizing tallies with
  | zero => rfl
  | succ n ih =>
      have hround : roundAt b fuel s 0 (tried tallies) tallies =
          liftM (round b fuel s tallies) := by simpa using roundAt_eq [] tallies
      rw [roundsAt, rounds, liftM_bind, hround]
      apply liftM_bind_congr (settles_round tallies)
      rintro ⟨ts, whole⟩ hts
      have hts' : tried ts = tried tallies := hts
      rw [← hts']
      cases whole <;> simp [ih]

theorem foldlM_zipIdx_tried {γ : Type} (f : γ → Move → Tally → γ) (done rest : List Tally) (c : γ) :
    ((tried rest).zipIdx done.length).foldlM (fun c (m, i) => do
      let t ← (done ++ rest)[i]?
      return f c m t) c = some (rest.foldl (fun c t => f c t.move t) c) := by
  induction rest generalizing done c with
  | nil => rfl
  | cons t rest ih =>
      have hrest := ih (done ++ [t]) (f c t.move t)
      simp only [List.length_append, List.length_singleton, List.append_assoc,
        List.singleton_append] at hrest
      have htried : tried (t :: rest) = t.move :: tried rest := rfl
      rw [htried, List.zipIdx_cons, List.foldlM_cons, List.foldl_cons]
      simpa using hrest

theorem bestAt_eq {ts : List Tally} (h : moves ≠ []) (hts : tried ts = moves) :
    bestAt moves ts = some (best (moves.head h) ts) := by
  have hfold := foldlM_zipIdx_tried (fun (i : Incumbent Float) m t =>
    if 0 < t.samples then i.offer m (t.total.toFloat / t.samples.toFloat) else i) [] ts
    ⟨moves.head h, minusInfinity⟩
  rw [hts, List.length_nil, List.nil_append] at hfold
  rw [bestAt, getElem?_zero_of_ne_nil h, Option.bind_eq_bind, Option.bind_some]
  exact congrArg (·.bind fun best => some best.move) hfold

theorem searchAt_eq (h : moves ≠ []) :
    searchAt b fuel s moves = liftM (search b fuel s moves h) := by
  have hrounds : roundsAt b fuel s moves b.config.depthCharges (moves.map fun m => ⟨m, 0, 0⟩) =
      liftM (rounds b fuel s b.config.depthCharges (moves.map fun m => ⟨m, 0, 0⟩)) := by
    have htallies := roundsAt_eq (b := b) fuel s b.config.depthCharges
      (moves.map fun m => (⟨m, 0, 0⟩ : Tally))
    rwa [tried_unsampled] at htallies
  rw [searchAt, search, hrounds, liftM_bind]
  apply liftM_bind_congr (settles_rounds _ _)
  intro ts hts
  rw [bestAt_eq h (hts.trans (tried_unsampled moves))]
  simp

end MonteCarlo

namespace TreeSearch

def followAt (b : Brief) (s : State) : OptionT Search (Option State) := do
  let table ← table
  match (table.get? s).filter Node.isVisited with
  | none => return none
  | some node =>
    let children := node.children.getD []
    let entries := children.map fun c => table.get? c.state
    if h : entries = [] then return none
    else
      let turn ← selectionTurn
      let i := b.selection turn b.config node entries h
      let child ← entry children[i.val]?
      return some child.state

def descendAt (b : Brief) : (fuel : Nat) → (s : State) → (above : List State) →
    OptionT Search Leaf
  | 0, _, _ => liftM (.outOfFuel : Search Leaf)
  | fuel + 1, s, above => do
    checkpoint
    if ← query (.isTerminal s) then return ⟨s, above, some (← b.goal s)⟩
    match ← followAt b s with
    | none => return ⟨s, above, none⟩
    | some next =>
      if next ∈ s :: above then return ⟨s, above, none⟩
      descendAt b fuel next (s :: above)

def iterateAt (b : Brief) (fuel : Nat) (root : State) : OptionT Search Unit := do
  let leaf ← descendAt b fuel root []
  match leaf.goal with
  | some goal => backup leaf.path 1 goal.toFloat
  | none =>
    note (.depth leaf.above.length)
    expand leaf.state
    let charges := max 1 b.config.chargesPerExpansion
    let sum ← sumOfCharges b fuel leaf.state charges 0
    backup leaf.path charges sum

def iterationsAt (b : Brief) (fuel : Nat) (root : State) : Nat → OptionT Search Unit
  | 0 => liftM (.outOfFuel : Search Unit)
  | n + 1 => do
    checkpoint
    iterateAt b fuel root
    note .iteration
    iterationsAt b fuel root n

def searchAt (b : Brief) (fuel : Nat) (s : State) (moves : List Move) : OptionT Search Move := do
  plant s
  discard (attemptAt (iterationsAt b fuel s fuel))
  let table ← table
  let first ← entry moves[0]?
  return best table b.role s first moves

theorem followAt_eq (s : State) : followAt b s = liftM (follow b s) := by
  rw [followAt, follow, liftM_bind]
  congr
  funext table
  cases (table.get? s).filter Node.isVisited with
  | none => rfl
  | some node =>
      dsimp only
      split
      · rfl
      · rw [liftM_bind]
        congr
        funext turn
        have hlt : (b.selection turn b.config node _ ‹_›).val < (node.children.getD []).length :=
          Nat.lt_of_lt_of_eq (b.selection turn b.config node _ ‹_›).isLt (List.length_map _)
        simp [List.getElem?_eq_getElem hlt]

theorem descendAt_eq (fuel : Nat) (s : State) (above : List State) :
    descendAt b fuel s above = liftM (descend b fuel s above) := by
  induction fuel generalizing s above with
  | zero => rfl
  | succ fuel ih =>
      simp only [descendAt, descend, liftM_bind]
      congr
      funext _
      congr
      funext terminal
      cases terminal with
      | true => simp
      | false =>
          simp only [Bool.false_eq_true, if_false, followAt_eq, liftM_bind]
          congr
          funext next
          cases next <;> simp [ih, apply_ite liftM]

theorem iterateAt_eq (fuel : Nat) (root : State) :
    iterateAt b fuel root = liftM (iterate b fuel root) := by
  rw [iterateAt, iterate, liftM_bind, descendAt_eq]
  congr
  funext leaf
  cases leaf.goal <;> simp

theorem iterationsAt_eq (fuel : Nat) (root : State) (n : Nat) :
    iterationsAt b fuel root n = liftM (iterations b fuel root n) := by
  induction n with
  | zero => rfl
  | succ n ih => simp [iterationsAt, iterations, iterateAt_eq, ih]

theorem searchAt_eq (h : moves ≠ []) :
    searchAt b fuel s moves = liftM (search b fuel s moves h) := by
  simp [searchAt, search, iterationsAt_eq, attemptAt_liftM, getElem?_zero_of_ne_nil h, discard,
    LawfulFunctor.map_const]

end TreeSearch

/-! ### Strategies -/

namespace Strategy

/-- A move drawn at random, or the first one where there is nothing to draw from. -/
def drawMoveAt (moves : List Move) : OptionT Search Move :=
  if moves.isEmpty then entry moves[0]?
  else do
    let i ← ofPlayAt (Play.drawAt (.forList moves.length) moves.length)
    entry moves[i]?

def searchAt (strategy : Strategy) (b : Brief) (fuel : Nat) (s : State) (moves : List Move) :
    OptionT Search Move :=
  match strategy with
  | legal => entry moves[0]?
  | random => drawMoveAt moves
  | minimax => Minimax.searchAt b fuel s moves
  | alphaBeta => AlphaBeta.searchAt b none fuel s moves
  | heuristic cutoff => AlphaBeta.searchAt b (some cutoff) fuel s moves
  | monteCarlo => MonteCarlo.searchAt b fuel s moves
  | uct => TreeSearch.searchAt b fuel s moves

theorem drawMoveAt_eq (h : moves ≠ []) : drawMoveAt moves = liftM (drawMove moves h) := by
  have hempty : moves.isEmpty = false := by simpa using h
  rw [drawMoveAt, hempty, Play.drawAt_eq (List.length_pos_iff.mpr h), ofPlayAt_liftM, drawMove]
  simp [ofPlay_map]

/-- No search misses an entry. -/
theorem searchAt_eq (strategy : Strategy) (b : Brief) (fuel : Nat) (s : State) (h : moves ≠ []) :
    strategy.searchAt b fuel s moves = liftM (strategy.search b fuel s moves h) := by
  cases strategy with
  | legal => simp [searchAt, search, getElem?_zero_of_ne_nil h]
  | random => exact drawMoveAt_eq h
  | minimax =>
      have hstate : Minimax.stateScoreAt b fuel 1 = fun t => liftM (Minimax.stateScore b fuel 1 t) :=
        funext (Minimax.stateScoreAt_eq fuel 1)
      rw [searchAt, Minimax.searchAt, hstate]
      simp only [Minimax.moveScoreAt_eq]
      exact chooseMoveAt_eq _ h
  | alphaBeta => exact chooseMoveAt_eq _ h
  | heuristic cutoff => exact chooseMoveAt_eq _ h
  | monteCarlo => exact MonteCarlo.searchAt_eq h
  | uct => exact TreeSearch.searchAt_eq h

end Strategy

end GeneralGame
