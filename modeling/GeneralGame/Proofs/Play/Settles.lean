import GeneralGame.Proofs.Play.Run

/-!
Programs that nothing cuts off, and what their answers can be. Unlike a statement about runs this
is one about all that a program may be told.
-/
namespace GeneralGame.Program

variable {Request World : Type} {Answer : Request → Type} {α β : Type}

/-- Nothing cuts the program off, and its answer is as `post` says, whatever it is told. -/
def Settles (post : α → Prop) : Program Request Answer α → Prop
  | .pure a => post a
  | .cut => False
  | .fault _ => True
  | .ask _ next => ∀ a, (next a).Settles post

variable {P : α → Prop} {Q : β → Prop} {p : Program Request Answer α}
  {f h : α → Program Request Answer β}

theorem settles_bind (hp : p.Settles P) (hf : ∀ a, P a → (f a).Settles Q) :
    (p >>= f).Settles Q := by
  induction p with
  | pure a => exact hf a hp
  | cut => exact hp.elim
  | fault e => trivial
  | ask q next ih => exact fun a => ih a (hp a)

/-- An attempt is done even where the program is cut off. -/
theorem settles_attempt (p : Program Request Answer α) : p.attempt.Settles fun _ => True := by
  induction p with
  | pure a => trivial
  | cut => trivial
  | fault e => trivial
  | ask q next ih => exact ih

/-- What follows a program only matters for the answers that it can come to. -/
theorem bind_congr_of_settles (hp : p.Settles P) (hf : ∀ a, P a → f a = h a) :
    p >>= f = p >>= h := by
  induction p with
  | pure a => exact hf a hp
  | cut => rfl
  | fault e => rfl
  | ask q next ih => exact congrArg (ask q) (funext fun a => ih a (hp a))

theorem run_of_settles (hp : p.Settles P) (answer : Handler Request Answer World) (w : World) :
    (∃ a, P a ∧ (p.run answer w).1 = .done a) ∨ ∃ e, (p.run answer w).1 = .fault e := by
  induction p generalizing w with
  | pure a => exact .inl ⟨a, hp, rfl⟩
  | cut => exact hp.elim
  | fault e => exact .inr ⟨e, rfl⟩
  | ask q next ih =>
      rw [run]
      cases answer q w with
      | mk reply v =>
          cases reply with
          | error e => exact .inr ⟨e, rfl⟩
          | ok a => exact ih a (hp a) v

end GeneralGame.Program
