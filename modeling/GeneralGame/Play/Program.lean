import GeneralGame.Fault

/-!
Programs that ask. A program asks one request after another and goes on with the answers, so
everything that it reads or changes shows in its requests. `Program.run` answers them from a world
that a handler describes.
-/
namespace GeneralGame

inductive Program (Request : Type) (Answer : Request → Type) (α : Type) where
  | pure (a : α)
  /-- The deadline has cut the program off. -/
  | cut
  | fault (f : Fault)
  | ask (q : Request) (next : Answer q → Program Request Answer α)

namespace Program

variable {Request : Type} {Answer : Request → Type} {α β γ : Type}

@[specialize]
def bind : Program Request Answer α → (α → Program Request Answer β) → Program Request Answer β
  | pure a, f => f a
  | cut, _ => cut
  | fault e, _ => fault e
  | ask q next, f => ask q fun a => (next a).bind f

theorem bind_pure_right (p : Program Request Answer α) : p.bind pure = p := by
  induction p with
  | pure a => rfl
  | cut => rfl
  | fault e => rfl
  | ask q next ih => simp only [bind, ih]

theorem bind_bind (p : Program Request Answer α) (f : α → Program Request Answer β)
    (g : β → Program Request Answer γ) : (p.bind f).bind g = p.bind fun a => (f a).bind g := by
  induction p with
  | pure a => rfl
  | cut => rfl
  | fault e => rfl
  | ask q next ih => simp only [bind, ih]

instance : Monad (Program Request Answer) where
  pure := pure
  bind := bind

instance : LawfulMonad (Program Request Answer) :=
  .mk' _ bind_pure_right (fun _ _ => rfl) bind_bind

def outOfFuel : Program Request Answer α := fault .outOfFuel

/-- The program that is done already, or at fault. -/
def ofExcept : Except Fault α → Program Request Answer α
  | .ok a => pure a
  | .error f => fault f

theorem ofExcept_fit (size n : Nat) :
    (ofExcept (fit size n) : Program Request Answer Nat) = .pure n ∨
      (ofExcept (fit size n) : Program Request Answer Nat) = .fault .panic := by
  unfold fit
  split
  · exact .inl rfl
  · exact .inr rfl

/-- The program, or nothing where the deadline cuts it off. -/
@[specialize]
def attempt : Program Request Answer α → Program Request Answer (Option α)
  | pure a => pure (some a)
  | cut => pure none
  | fault e => fault e
  | ask q next => ask q fun a => (next a).attempt

end Program

/-- What came of a program. -/
inductive Outcome (α : Type) where
  | done (a : α)
  | cut
  | fault (f : Fault)

/-- Answers requests, and tells how the world is afterwards. -/
abbrev Handler (Request : Type) (Answer : Request → Type) (World : Type) :=
  (q : Request) → World → Except Fault (Answer q) × World

@[specialize]
def Program.run {Request : Type} {Answer : Request → Type} {World α : Type}
    (answer : Handler Request Answer World) :
    Program Request Answer α → World → Outcome α × World
  | .pure a, w => (.done a, w)
  | .cut, w => (.cut, w)
  | .fault e, w => (.fault e, w)
  | .ask q next, w =>
    match answer q w with
    | (.ok a, w) => (next a).run answer w
    | (.error e, w) => (.fault e, w)

end GeneralGame
