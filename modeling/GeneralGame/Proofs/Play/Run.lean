import GeneralGame.Play.Program

/-!
How programs run. A run of two programs in sequence is the run of the first and then, if that is
done, of the second from the world that it left; `attempt` turns being cut off into an answer.
The history of a run lists what it asked, each request with the world it was asked in, so that
statements about what a program does on its way need no ghost state.
-/
namespace GeneralGame.Program

variable {Request : Type} {Answer : Request → Type} {World α β : Type}
variable (answer : Handler Request Answer World)

theorem run_bind (p : Program Request Answer α) (f : α → Program Request Answer β) (w : World) :
    (p >>= f).run answer w =
      match p.run answer w with
      | (.done a, w) => (f a).run answer w
      | (.cut, w) => (.cut, w)
      | (.fault e, w) => (.fault e, w) := by
  induction p generalizing w with
  | pure a => rfl
  | cut => rfl
  | fault e => rfl
  | ask q next ih =>
      change (ask q fun a => next a >>= f).run answer w = _
      simp only [run]
      cases answer q w with
      | mk reply w' =>
          cases reply with
          | ok a => exact ih a w'
          | error e => rfl

variable {answer}

theorem run_bind_of_done {p : Program Request Answer α} {w w' : World} {a : α}
    (h : p.run answer w = (.done a, w')) (f : α → Program Request Answer β) :
    (p >>= f).run answer w = (f a).run answer w' := by
  rw [run_bind, h]

theorem run_bind_of_fault {p : Program Request Answer α} {w w' : World} {e : Fault}
    (h : p.run answer w = (.fault e, w')) (f : α → Program Request Answer β) :
    (p >>= f).run answer w = (.fault e, w') := by
  rw [run_bind, h]

theorem run_bind_eq_done {p : Program Request Answer α} {f : α → Program Request Answer β}
    {w w' : World} {b : β} :
    (p >>= f).run answer w = (.done b, w') ↔
      ∃ a v, p.run answer w = (.done a, v) ∧ (f a).run answer v = (.done b, w') := by
  rw [run_bind]
  rcases p.run answer w with ⟨_ | _ | _, v⟩ <;> simp [and_assoc]

theorem run_bind_eq_cut {p : Program Request Answer α} {f : α → Program Request Answer β}
    {w w' : World} :
    (p >>= f).run answer w = (.cut, w') ↔
      p.run answer w = (.cut, w') ∨
        ∃ a v, p.run answer w = (.done a, v) ∧ (f a).run answer v = (.cut, w') := by
  rw [run_bind]
  rcases p.run answer w with ⟨_ | _ | _, v⟩ <;> simp [and_assoc]

theorem run_bind_eq_fault {p : Program Request Answer α} {f : α → Program Request Answer β}
    {w w' : World} {e : Fault} :
    (p >>= f).run answer w = (.fault e, w') ↔
      p.run answer w = (.fault e, w') ∨
        ∃ a v, p.run answer w = (.done a, v) ∧ (f a).run answer v = (.fault e, w') := by
  rw [run_bind]
  rcases p.run answer w with ⟨_ | _ | _, v⟩ <;> simp [and_assoc]

theorem run_request_eq_fault {q : Request} {w w' : World} {e : Fault} :
    (ask q pure : Program Request Answer (Answer q)).run answer w = (.fault e, w') ↔
      answer q w = (.error e, w') := by
  rw [run]
  rcases answer q w with ⟨_ | _, v⟩ <;> simp [run]

variable (answer)

theorem run_attempt (p : Program Request Answer α) (w : World) :
    p.attempt.run answer w =
      match p.run answer w with
      | (.done a, w) => (.done (some a), w)
      | (.cut, w) => (.done none, w)
      | (.fault e, w) => (.fault e, w) := by
  induction p generalizing w with
  | pure a => rfl
  | cut => rfl
  | fault e => rfl
  | ask q next ih =>
      simp only [attempt, run]
      cases answer q w with
      | mk reply w' =>
          cases reply with
          | ok a => exact ih a w'
          | error e => rfl

variable {answer}

theorem run_attempt_of_done {p : Program Request Answer α} {w v : World} {a : α}
    (h : p.run answer w = (.done a, v)) : p.attempt.run answer w = (.done (some a), v) := by
  rw [run_attempt, h]

theorem run_attempt_of_cut {p : Program Request Answer α} {w v : World}
    (h : p.run answer w = (.cut, v)) : p.attempt.run answer w = (.done none, v) := by
  rw [run_attempt, h]

theorem run_attempt_of_fault {p : Program Request Answer α} {w v : World} {e : Fault}
    (h : p.run answer w = (.fault e, v)) : p.attempt.run answer w = (.fault e, v) := by
  rw [run_attempt, h]

theorem run_attempt_eq_some {p : Program Request Answer α} {w v : World} {a : α} :
    p.attempt.run answer w = (.done (some a), v) ↔ p.run answer w = (.done a, v) := by
  rw [run_attempt]
  rcases p.run answer w with ⟨_ | _ | _, v⟩ <;> simp

theorem run_attempt_eq_fault {p : Program Request Answer α} {w v : World} {e : Fault} :
    p.attempt.run answer w = (.fault e, v) ↔ p.run answer w = (.fault e, v) := by
  rw [run_attempt]
  rcases p.run answer w with ⟨_ | _ | _, v⟩ <;> simp

theorem run_attempt_eq_none {p : Program Request Answer α} {w v : World} :
    p.attempt.run answer w = (.done none, v) ↔ p.run answer w = (.cut, v) := by
  rw [run_attempt]
  rcases p.run answer w with ⟨_ | _ | _, v⟩ <;> simp

variable (answer)

/-- The requests that a run asks, in order, each with the world it is asked in. -/
def history : Program Request Answer α → World → List (Request × World)
  | .pure _, _ => []
  | .cut, _ => []
  | .fault _, _ => []
  | .ask q next, w =>
    (q, w) :: match answer q w with
      | (.ok a, w) => (next a).history w
      | (.error _, _) => []

theorem history_bind (p : Program Request Answer α) (f : α → Program Request Answer β)
    (w : World) :
    (p >>= f).history answer w =
      p.history answer w ++
        match p.run answer w with
        | (.done a, w) => (f a).history answer w
        | _ => [] := by
  induction p generalizing w with
  | pure a => rfl
  | cut => rfl
  | fault e => rfl
  | ask q next ih =>
      change (ask q fun a => next a >>= f).history answer w = _
      simp only [history, run]
      cases answer q w with
      | mk reply w' =>
          cases reply with
          | ok a => simp only [ih a w', List.cons_append]
          | error e => rfl

theorem history_attempt (p : Program Request Answer α) (w : World) :
    p.attempt.history answer w = p.history answer w := by
  induction p generalizing w with
  | pure a => rfl
  | cut => rfl
  | fault e => rfl
  | ask q next ih =>
      simp only [attempt, history]
      cases answer q w with
      | mk reply w' =>
          cases reply with
          | ok a => simp only [ih a w']
          | error e => rfl

end GeneralGame.Program
