import GeneralGame.Random.Rng
import Mathlib.Data.Nat.ModEq

/-!
Forks. However the draws and forks of many generators are mixed, each generator gives what it would
give if it were alone and never forked: a draw reads the generator's own stream and nothing else, and
a fork reads nothing. So the seed of a fork is settled by the seed of its parent and by how many
forks came before, and the first 2^64 - 1 forks and their parent all have different seeds.
-/
namespace GeneralGame.Rng

/-! ### Draws -/

/-- What can be drawn from a generator. -/
inductive Draw where
  | inRange (low high : Nat) (h : low < high)
  /-- A place in a list of that size. -/
  | ofList (size : Nat)

/-- What comes of a draw. -/
inductive Drawn where
  | number (x : Nat)
  /-- There is nothing to choose from in an empty list. -/
  | nothing
  /-- The draw gives up, since too many words are refused. -/
  | endless
deriving DecidableEq

/-- A draw, and the generator after it. -/
def Draw.ask : Draw → Rng → Drawn × Rng
  | inRange low high h, g =>
    match g.inRange low high h with
    | some (x, g) => (.number x, g)
    | none => (.endless, g)
  | ofList size, g =>
    if h : 0 < size then
      match g.draw (.forList size) size h with
      | some (i, g) => (.number i, g)
      | none => (.endless, g)
    else (.nothing, g)

/-- Draws one after the other. -/
def Draw.askAll : List Draw → Rng → List Drawn × Rng
  | [], g => ([], g)
  | d :: ds, g =>
    let (x, g) := d.ask g
    let (xs, g) := askAll ds g
    (x :: xs, g)

/-- The word at a place of a seed's stream. -/
def wordAt (seed : UInt64) (n : Nat) : UInt32 :=
  (KeyStream.block (KeyStream.keyOfSeed seed) (n / 16)).get ⟨n % 16, Nat.mod_lt n (by decide)⟩

theorem nextWord_after (seed forks : UInt64) (drawn : Nat) :
    (after seed forks drawn).nextWord = (wordAt seed drawn, .after seed forks (drawn + 1)) := by
  unfold nextWord
  dsimp only
  split
  · rfl
  · exact Prod.ext rfl (Rng.ext rfl rfl rfl)

theorem nextBits_after (w : Width) (seed : UInt64) (drawn : Nat) :
    ∃ v n, ∀ forks, (after seed forks drawn).nextBits w = (v, .after seed forks n) := by
  cases w with
  | narrow => exact ⟨(wordAt seed drawn).toBitVec, drawn + 1, fun forks => by
      rw [nextBits, nextWord_after]⟩
  | wide => exact ⟨(wordAt seed (drawn + 1)).toBitVec ++ (wordAt seed drawn).toBitVec, drawn + 2,
      fun forks => by simp only [nextBits, nextWord_after]⟩

/-- A draw depends on the stream and on the place in it, and moves on to a later place. How often the
generator was forked makes no difference to it. -/
theorem drawWithin_after (w : Width) (n : Nat) (pos : 0 < n) (fuel : Nat) (seed : UInt64)
    (drawn : Nat) :
    ∃ result : Option (Fin n × Nat), ∀ forks, drawWithin w n pos fuel (after seed forks drawn) =
      result.map fun r => (r.1, .after seed forks r.2) := by
  induction fuel generalizing drawn with
  | zero => exact ⟨none, fun _ => rfl⟩
  | succ fuel ih =>
      obtain ⟨v, next, hbits⟩ := nextBits_after w seed drawn
      cases hplace : Uniform.place? w.bits n pos v with
      | some i => exact ⟨some (i, next), fun forks => by simp only [drawWithin, hbits, hplace]; rfl⟩
      | none =>
          obtain ⟨result, hresult⟩ := ih next
          exact ⟨result, fun forks => by simp only [drawWithin, hbits, hplace, hresult]⟩

theorem draw_after (w : Width) (n : Nat) (pos : 0 < n) (seed : UInt64) (drawn : Nat) :
    ∃ result : Option (Fin n × Nat), ∀ forks, (after seed forks drawn).draw w n pos =
      result.map fun r => (r.1, .after seed forks r.2) :=
  drawWithin_after w n pos patience seed drawn

theorem ask_after (d : Draw) (seed : UInt64) (drawn : Nat) :
    ∃ x n, ∀ forks, d.ask (after seed forks drawn) = (x, .after seed forks n) := by
  cases d with
  | inRange low high h =>
      obtain ⟨result, hdraw⟩ := draw_after .wide (high - low) (Nat.sub_pos_of_lt h) seed drawn
      have hask (forks : UInt64) : (after seed forks drawn).inRange low high h = _ :=
        congrArg (Option.map _) (hdraw forks)
      cases result with
      | none => exact ⟨.endless, drawn, fun forks => by simp only [Draw.ask, hask]; rfl⟩
      | some r => exact ⟨.number (low + r.1), r.2, fun forks => by simp only [Draw.ask, hask]; rfl⟩
  | ofList size =>
      by_cases h : 0 < size
      · obtain ⟨result, hdraw⟩ := draw_after (.forList size) size h seed drawn
        cases result with
        | none => exact ⟨.endless, drawn, fun forks => by simp only [Draw.ask, h, hdraw]; rfl⟩
        | some r => exact ⟨.number r.1, r.2, fun forks => by simp only [Draw.ask, h, hdraw]; rfl⟩
      · exact ⟨.nothing, drawn, fun forks => by rw [Draw.ask, dif_neg h]⟩

/-! ### Forks -/

/-- The seed of the `n`-th fork of a seed, with numbers modulo 2^64. -/
def childSeed (seed : UInt64) (n : Nat) : UInt64 := .ofNat (seed.toNat + n * 0x9E3779B97F4A7C15)

theorem toNat_childSeed (seed : UInt64) (n : Nat) :
    (childSeed seed n).toNat = (seed.toNat + n * 0x9E3779B97F4A7C15) % 2 ^ 64 :=
  UInt64.toNat_ofNat'

theorem childSeed_zero (seed : UInt64) : childSeed seed 0 = seed := by
  rw [← UInt64.toNat_inj, toNat_childSeed, Nat.zero_mul, Nat.add_zero]
  exact Nat.mod_eq_of_lt seed.toNat_lt

theorem fork_after (seed : UInt64) (n drawn : Nat) :
    (after seed (.ofNat n) drawn).fork =
      (ofSeed (childSeed seed (n + 1)), .after seed (.ofNat (n + 1)) drawn) := by
  have hforks : UInt64.ofNat n + 1 = .ofNat (n + 1) := by
    rw [UInt64.ofNat_add]
    rfl
  have hseed : seed + .ofNat (n + 1) * forkStep = childSeed seed (n + 1) := by
    rw [← UInt64.toNat_inj, toNat_childSeed]
    simp [forkStep, UInt64.toNat_add, UInt64.toNat_mul]
  exact Prod.ext (congrArg ofSeed ((congrArg (seed + · * forkStep) hforks).trans hseed))
    (Rng.ext rfl hforks rfl)

/-- The distance between neighbouring forks is odd, so no two of the first 2^64 - 1 forks meet, and
none meets the parent. -/
theorem childSeed_inj {seed : UInt64} {n m : Nat} (hn : n < 2 ^ 64) (hm : m < 2 ^ 64)
    (h : childSeed seed n = childSeed seed m) : n = m := by
  rw [← UInt64.toNat_inj, toNat_childSeed, toNat_childSeed] at h
  have hsteps : n * 0x9E3779B97F4A7C15 ≡ m * 0x9E3779B97F4A7C15 [MOD 2 ^ 64] :=
    Nat.ModEq.add_left_cancel' seed.toNat h
  have hodd : Nat.gcd (2 ^ 64) 0x9E3779B97F4A7C15 = 1 := by decide +kernel
  exact (hsteps.cancel_right_of_coprime hodd).eq_of_lt_of_lt hn hm

/-! ### A generator and its acts -/

inductive Act where
  | draw (d : Draw)
  | fork

/-- What comes of an act. -/
inductive Reply where
  | drawn (x : Drawn)
  | forked (child : Rng)
  /-- There is no generator of that number. -/
  | missing

def Act.draw? : Act → Option Draw
  | draw d => some d
  | fork => none

def Act.isFork : Act → Bool
  | draw _ => false
  | fork => true

def Reply.drawn? : Reply → Option Drawn
  | drawn x => some x
  | _ => none

def Reply.child? : Reply → Option Rng
  | forked child => some child
  | _ => none

def Act.perform : Act → Rng → Reply × Rng
  | draw d, g =>
    let (x, g) := d.ask g
    (.drawn x, g)
  | fork, g =>
    let (child, g) := g.fork
    (.forked child, g)

/-- Performs the acts of one generator. -/
def performAll : List Act → Rng → List Reply × Rng
  | [], g => ([], g)
  | act :: acts, g =>
    let (reply, g) := act.perform g
    let (replies, g) := performAll acts g
    (reply :: replies, g)

/-- A generator that was forked `k` times gives the same as one that never was, and its forks are
those from number `k + 1` on. The induction goes from one place in the stream to the next. -/
theorem performAll_after (acts : List Act) (seed : UInt64) (k drawn : Nat) :
    let replies := (performAll acts (after seed (.ofNat k) drawn)).1
    replies.filterMap Reply.drawn? =
        (Draw.askAll (acts.filterMap Act.draw?) (after seed 0 drawn)).1 ∧
      replies.filterMap Reply.child? =
        (List.range (acts.countP Act.isFork)).map fun n => ofSeed (childSeed seed (k + n + 1)) := by
  induction acts generalizing k drawn with
  | nil => exact ⟨rfl, rfl⟩
  | cons act acts ih =>
      cases act with
      | draw d =>
          obtain ⟨x, next, hask⟩ := ask_after d seed drawn
          obtain ⟨hdrawn, hchildren⟩ := ih k next
          simp only [performAll, Act.perform, hask, List.filterMap_cons, Act.draw?, Reply.drawn?,
            Reply.child?, Draw.askAll]
          exact ⟨congrArg (x :: ·) hdrawn, hchildren⟩
      | fork =>
          obtain ⟨hdrawn, hchildren⟩ := ih (k + 1) drawn
          have hcount : (Act.fork :: acts).countP Act.isFork = acts.countP Act.isFork + 1 :=
            List.countP_cons_of_pos rfl
          simp only [performAll, Act.perform, fork_after, List.filterMap_cons, Act.draw?,
            Reply.drawn?, Reply.child?]
          refine ⟨hdrawn, ?_⟩
          rw [hchildren, hcount, List.range_succ_eq_map, List.map_cons, List.map_map]
          refine congrArg (_ :: ·) (List.map_congr_left fun n _ => ?_)
          rw [Function.comp_apply, Nat.add_right_comm k 1 n, Nat.add_assoc k n 1]

/-! ### Many generators -/

/-- What belongs to number `i`. -/
def share {α : Type} (i : Nat) (xs : List (Nat × α)) : List α :=
  xs.filterMap fun x => if x.1 = i then some x.2 else none

theorem share_cons_self {α : Type} (i : Nat) (x : α) (xs : List (Nat × α)) :
    share i ((i, x) :: xs) = x :: share i xs := List.filterMap_cons_some (if_pos rfl)

theorem share_cons_of_ne {α : Type} {i j : Nat} (h : j ≠ i) (x : α) (xs : List (Nat × α)) :
    share i ((j, x) :: xs) = share i xs := List.filterMap_cons_none (if_neg h)

/-- Performs acts of any generators. They are numbered as they come to be, so a fork gets the next
free number. -/
def performMixed : List (Nat × Act) → List Rng → List (Nat × Reply) × List Rng
  | [], gs => ([], gs)
  | (i, act) :: acts, gs =>
    match gs[i]? with
    | none =>
      let (replies, gs) := performMixed acts gs
      ((i, .missing) :: replies, gs)
    | some g =>
      let (reply, g) := act.perform g
      let (replies, gs) := performMixed acts (gs.set i g ++ reply.child?.toList)
      ((i, reply) :: replies, gs)

/-- However the acts of many generators are mixed, each generator performs its own as if it were
alone. -/
theorem share_performMixed {gs : List Rng} {i : Nat} {g : Rng} (hg : gs[i]? = some g)
    (acts : List (Nat × Act)) :
    share i (performMixed acts gs).1 = (performAll (share i acts) g).1 := by
  induction acts generalizing gs g with
  | nil => rfl
  | cons e acts ih =>
      obtain ⟨j, act⟩ := e
      by_cases hj : j = i
      · subst hj
        have hlt : j < gs.length := (List.getElem?_eq_some_iff.mp hg).1
        have hnext : (gs.set j (act.perform g).2 ++ (act.perform g).1.child?.toList)[j]? =
            some (act.perform g).2 := by
          rw [List.getElem?_append_left (by rwa [List.length_set]), List.getElem?_set_self hlt]
        simp only [performMixed, hg, share_cons_self, performAll]
        exact congrArg (_ :: ·) (ih hnext)
      · rw [share_cons_of_ne hj]
        cases hother : gs[j]? with
        | none =>
            simp only [performMixed, hother, share_cons_of_ne hj]
            exact ih hg
        | some other =>
            have hstays (other : Rng) (children : List Rng) :
                (gs.set j other ++ children)[i]? = some g := by
              have hlt : i < gs.length := (List.getElem?_eq_some_iff.mp hg).1
              rw [List.getElem?_append_left (by rwa [List.length_set]), List.getElem?_set_ne hj, hg]
            simp only [performMixed, hother, share_cons_of_ne hj]
            exact ih (hstays _ _)

/-- Among any generators, a fresh one gives the draws of an unforked copy, and its `n`-th fork is the
fresh generator of the seed that lies `n` steps further, whatever is drawn from it and whatever the
others do. The seeds of the first 2^64 - 1 forks are different from each other and from its own. -/
theorem forks_reproducible_and_distinct {gs : List Rng} {i : Nat} {seed : UInt64}
    (hi : gs[i]? = some (ofSeed seed)) (acts : List (Nat × Act)) :
    let replies := share i (performMixed acts gs).1
    replies.filterMap Reply.drawn? =
        (Draw.askAll ((share i acts).filterMap Act.draw?) (ofSeed seed)).1 ∧
      replies.filterMap Reply.child? =
        (List.range ((share i acts).countP Act.isFork)).map
          (fun n => ofSeed (childSeed seed (n + 1))) ∧
      ∀ n m, 1 ≤ n → n < m → m < 2 ^ 64 →
        childSeed seed n ≠ childSeed seed m ∧ childSeed seed n ≠ seed ∧ childSeed seed m ≠ seed := by
  obtain ⟨hdrawn, hchildren⟩ := performAll_after (share i acts) seed 0 0
  rw [share_performMixed hi]
  refine ⟨hdrawn, ?_, fun n m hn hnm hm => ⟨fun h => ?_, fun h => ?_, fun h => ?_⟩⟩
  · exact hchildren.trans (by simp only [Nat.zero_add])
  · have := childSeed_inj (by omega) hm h
    omega
  · have := childSeed_inj (by omega) (by decide) (h.trans (childSeed_zero seed).symm)
    omega
  · have := childSeed_inj hm (by decide) (h.trans (childSeed_zero seed).symm)
    omega

/-- The parent draws between its forks, and both children draw as well; one of them is forked in its
turn. -/
theorem forks_reproducible_and_distinct_three :
    let roll : Act := .draw (.inRange 0 1000 (by decide))
    let acts := [(0, roll), (0, .fork), (1, roll), (0, roll), (0, .fork), (2, roll), (1, .fork),
      (3, roll), (0, .draw (.ofList 0)), (0, roll)]
    let replies := share 0 (performMixed acts [ofSeed 3]).1
    replies.filterMap Reply.drawn? = [.number 622, .number 81, .nothing, .number 322] ∧
      (replies.filterMap Reply.child?).map seed = [11400714819323198488, 4354685564936845357] ∧
      childSeed 3 1 ≠ childSeed 3 2 := by
  intro roll acts
  have hfirst : [ofSeed 3][0]? = some (ofSeed 3) := rfl
  obtain ⟨hdrawn, hchildren, hdistinct⟩ := forks_reproducible_and_distinct hfirst acts
  refine ⟨hdrawn.trans ?_, ?_, (hdistinct 1 2 (by decide) (by decide) (by decide)).1⟩
  · decide +kernel
  · rw [hchildren]
    decide +kernel

end GeneralGame.Rng
