import GeneralGame.Play.Random
import GeneralGame.Proofs.Play.Settles

/-!
Play with look-ups by place. Random play takes moves out of lists by places that it draws. The
versions here have no answer at all where there is no such place, or nothing to draw from. They are
the definitions themselves: no look-up ever misses.
-/
namespace GeneralGame

variable {α β : Type}

section

variable {Request : Type} {Answer : Request → Type}

/-- The entry at a place, which may be missing. -/
def entry (found : Option α) : OptionT (Program Request Answer) α := OptionT.mk (.pure found)

@[simp] theorem entry_some (a : α) :
    (entry (some a) : OptionT (Program Request Answer) α) = pure a := rfl

/-- An attempt at what may miss an entry. -/
def attemptAt (p : OptionT (Program Request Answer) α) :
    OptionT (Program Request Answer) (Option α) := OptionT.mk do
  match ← p.run.attempt with
  | none => return some none
  | some found => return found.map some

theorem Program.attempt_map (p : Program Request Answer α) (f : α → β) :
    (f <$> p).attempt = Option.map f <$> p.attempt := by
  induction p with
  | pure a => rfl
  | cut => rfl
  | fault e => rfl
  | ask q next ih => exact congrArg (Program.ask q) (funext ih)

theorem run_liftM (p : Program Request Answer α) :
    (liftM p : OptionT (Program Request Answer) α).run = some <$> p := by
  simp [liftM, monadLift, MonadLift.monadLift]

theorem attemptAt_liftM (p : Program Request Answer α) :
    attemptAt (liftM p : OptionT (Program Request Answer) α) = liftM p.attempt := by
  apply OptionT.ext
  rw [attemptAt, run_liftM, Program.attempt_map]
  rw [run_liftM, OptionT.run_mk, bind_map_left, ← bind_pure_comp]
  congr
  funext a
  cases a <;> rfl

theorem mapM_congr_of_mem {m : Type → Type} [Monad m] [LawfulMonad m] {f h : β → m α} {xs : List β}
    (hf : ∀ x ∈ xs, f x = h x) : xs.mapM f = xs.mapM h := by
  induction xs with
  | nil => rfl
  | cons x xs ih =>
      obtain ⟨hx, hxs⟩ := List.forall_mem_cons.mp hf
      simp [hx, ih hxs]

theorem liftM_mapM (xs : List β) (f : β → Program Request Answer α) :
    (liftM (xs.mapM f) : OptionT (Program Request Answer) (List α)) =
      xs.mapM fun x => liftM (f x) := by
  induction xs with
  | nil => simp
  | cons x xs ih => simp [ih]

/-- What follows a program only matters for the answers that it can come to. -/
theorem liftM_bind_congr {p : Program Request Answer α} {P : α → Prop} (hp : p.Settles P)
    {f h : α → OptionT (Program Request Answer) β} (hf : ∀ a, P a → f a = h a) :
    liftM p >>= f = liftM p >>= h := by
  apply OptionT.ext
  change (OptionT.lift p >>= f).run = (OptionT.lift p >>= h).run
  rw [OptionT.run_bind_lift, OptionT.run_bind_lift]
  exact Program.bind_congr_of_settles hp fun a ha => congrArg OptionT.run (hf a ha)

end

/-! ### Play -/

namespace Play

def drawAt (w : Rng.Width) (n : Nat) : OptionT Play Nat :=
  if h : 0 < n then do
    let i ← draw w n h
    return i.val
  else failure

def randomMoveAt (s : State) (r : RoleId) : OptionT Play Move := do
  let ms ← query (.moves s r)
  let i ← drawAt .wide ms.val.length
  entry ms.val[i]?

def randomJointMoveAt (roleCount : Nat) (s : State) : OptionT Play JointMove := do
  return ⟨← (RoleId.all roleCount).mapM (randomMoveAt s)⟩

def randomJointMoveWithAt (roleCount : Nat) (s : State) (role : RoleId) (m : Move) :
    OptionT Play JointMove := do
  return ⟨← (RoleId.all roleCount).mapM fun r =>
    if r = role then return m else randomMoveAt s r⟩

def randomNextAt (roleCount : Nat) (s : State) : OptionT Play State := do
  query (.next s (← randomJointMoveAt roleCount s))

def rolloutAt (roleCount : Nat) (r : RoleId) :
    (fuel depth : Nat) → State → OptionT Play Rollout
  | 0, _, _ => liftM (.outOfFuel : Play Rollout)
  | fuel + 1, depth, s => do
    if ← query (.isTerminal s) then return ⟨← query (.goal s r), depth⟩
    else if ← poll then liftM (.cut : Play Rollout)
    else rolloutAt roleCount r fuel (depth + 1) (← randomNextAt roleCount s)

theorem drawAt_eq {w : Rng.Width} {n : Nat} (h : 0 < n) :
    drawAt w n = liftM ((·.val) <$> draw w n h) := by
  simp [drawAt, h]

theorem randomMoveAt_eq (s : State) (r : RoleId) :
    randomMoveAt s r = liftM (randomMove s r) := by
  rw [randomMoveAt, randomMove, liftM_bind]
  congr
  funext ms
  rw [drawAt_eq (List.length_pos_iff.mpr ms.property)]
  simp

theorem randomJointMoveAt_eq (roleCount : Nat) (s : State) :
    randomJointMoveAt roleCount s = liftM (randomJointMove roleCount s) := by
  have hmove : randomMoveAt s = fun r => liftM (randomMove s r) := funext (randomMoveAt_eq s)
  simp [randomJointMoveAt, randomJointMove, liftM_mapM, hmove]

theorem randomJointMoveWithAt_eq (roleCount : Nat) (s : State) (role : RoleId) (m : Move) :
    randomJointMoveWithAt roleCount s role m =
      liftM (randomJointMoveWith roleCount s role m) := by
  simp [randomJointMoveWithAt, randomJointMoveWith, liftM_mapM, randomMoveAt_eq, apply_ite liftM]

theorem randomNextAt_eq (roleCount : Nat) (s : State) :
    randomNextAt roleCount s = liftM (randomNext roleCount s) := by
  simp [randomNextAt, randomNext, randomJointMoveAt_eq]

/-- A random playout never draws from nothing, and finds what it draws. -/
theorem rolloutAt_eq (roleCount : Nat) (r : RoleId) (fuel depth : Nat) (s : State) :
    rolloutAt roleCount r fuel depth s = liftM (rollout roleCount r fuel depth s) := by
  induction fuel generalizing depth s with
  | zero => rfl
  | succ fuel ih =>
      rw [rolloutAt, rollout, liftM_bind]
      congr
      funext terminal
      cases terminal with
      | true => simp
      | false =>
          simp only [Bool.false_eq_true, if_false, liftM_bind, randomNextAt_eq]
          congr
          funext expired
          cases expired <;> simp [ih]

end Play

end GeneralGame
