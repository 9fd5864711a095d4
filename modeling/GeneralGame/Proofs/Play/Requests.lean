import GeneralGame.Proofs.Play.Run

/-!
What a program asks. If every request that a program can ask leaves some view of the world as it is,
then so does the whole run, however it ends.
-/
namespace GeneralGame

/-- Whether a program came to its end. -/
def Outcome.isDone {α : Type} : Outcome α → Bool
  | .done _ => true
  | _ => false

namespace Program

variable {Request : Type} {Answer : Request → Type} {World View α β : Type}

/-- Every request of the program is allowed, whatever was answered before. -/
def AsksOnly (allowed : Request → Prop) : Program Request Answer α → Prop
  | .pure _ => True
  | .cut => True
  | .fault _ => True
  | .ask q next => allowed q ∧ ∀ a, (next a).AsksOnly allowed

variable {allowed : Request → Prop}

theorem asksOnly_imp {permitted : Request → Prop} {p : Program Request Answer α}
    (hp : p.AsksOnly allowed) (himp : ∀ q, allowed q → permitted q) : p.AsksOnly permitted := by
  induction p with
  | pure a => trivial
  | cut => trivial
  | fault e => trivial
  | ask q next ih => exact ⟨himp q hp.1, fun a => ih a (hp.2 a)⟩

theorem asksOnly_bind {p : Program Request Answer α} {f : α → Program Request Answer β}
    (hp : p.AsksOnly allowed) (hf : ∀ a, (f a).AsksOnly allowed) :
    (p >>= f).AsksOnly allowed := by
  induction p with
  | pure a => exact hf a
  | cut => trivial
  | fault e => trivial
  | ask q next ih => exact ⟨hp.1, fun a => ih a (hp.2 a)⟩

theorem asksOnly_attempt {p : Program Request Answer α} (hp : p.AsksOnly allowed) :
    p.attempt.AsksOnly allowed := by
  induction p with
  | pure a => trivial
  | cut => trivial
  | fault e => trivial
  | ask q next ih => exact ⟨hp.1, fun a => ih a (hp.2 a)⟩

theorem asksOnly_mapM {xs : List β} {f : β → Program Request Answer α}
    (hf : ∀ x, (f x).AsksOnly allowed) : (xs.mapM f).AsksOnly allowed := by
  induction xs with
  | nil =>
      rw [List.mapM_nil]
      trivial
  | cons x xs ih =>
      rw [List.mapM_cons]
      apply asksOnly_bind (hf x)
      intro a
      apply asksOnly_bind ih
      intro rest
      trivial

/-- What no allowed request changes, no run changes. -/
theorem view_run {answer : Handler Request Answer World} {view : World → View}
    (hview : ∀ q w, allowed q → view (answer q w).2 = view w) {p : Program Request Answer α}
    (hp : p.AsksOnly allowed) (w : World) : view (p.run answer w).2 = view w := by
  induction p generalizing w with
  | pure a => rfl
  | cut => rfl
  | fault e => rfl
  | ask q next ih =>
      have hfirst := hview q w hp.1
      simp only [run]
      cases hanswer : answer q w with
      | mk reply v =>
          rw [hanswer] at hfirst
          cases reply with
          | error e => exact hfirst
          | ok a => exact (ih a (hp.2 a) v).trans hfirst

theorem forall_history_of_asksOnly {answer : Handler Request Answer World}
    {p : Program Request Answer α} (hp : p.AsksOnly allowed) {w : World} :
    ∀ e ∈ p.history answer w, allowed e.1 := by
  induction p generalizing w with
  | pure a => exact List.forall_mem_nil _
  | cut => exact List.forall_mem_nil _
  | fault e => exact List.forall_mem_nil _
  | ask q next ih =>
      rw [history]
      refine List.forall_mem_cons.mpr ⟨hp.1, ?_⟩
      split
      · exact ih _ (hp.2 _)
      · exact List.forall_mem_nil _

theorem forall_history_request {answer : Handler Request Answer World}
    {P : Request × World → Prop} {q : Request} {w : World} (h : P (q, w)) :
    ∀ e ∈ (ask q pure).history answer w, P e := by
  rw [history]
  refine List.forall_mem_cons.mpr ⟨h, ?_⟩
  split <;> exact List.forall_mem_nil _

/-- What holds of all that two programs ask in their runs holds of what they ask in sequence. -/
theorem forall_history_bind {answer : Handler Request Answer World} {P : Request × World → Prop}
    {p : Program Request Answer α} {f : α → Program Request Answer β} {w : World}
    (hp : ∀ e ∈ p.history answer w, P e)
    (hf : ∀ a v, p.run answer w = (.done a, v) → ∀ e ∈ (f a).history answer v, P e) :
    ∀ e ∈ (p >>= f).history answer w, P e := by
  rw [history_bind]
  refine List.forall_mem_append.mpr ⟨hp, ?_⟩
  split
  · rename_i a v hrun
    exact hf a v hrun
  · exact List.forall_mem_nil _

/-- A sequence ends with its first part, or goes on after it. -/
theorem run_bind_cases {answer : Handler Request Answer World} {p : Program Request Answer α}
    {f : α → Program Request Answer β} {w w' : World} {o : Outcome β}
    (h : (p >>= f).run answer w = (o, w')) :
    (∃ o', p.run answer w = (o', w') ∧ o'.isDone = false ∧ o.isDone = false) ∨
      ∃ a v, p.run answer w = (.done a, v) ∧ (f a).run answer v = (o, w') := by
  cases hrun : p.run answer w with
  | mk outcome v =>
      rw [run_bind, hrun] at h
      cases outcome with
      | done a => exact .inr ⟨a, v, rfl, h⟩
      | cut =>
          cases h
          exact .inl ⟨.cut, rfl, rfl, rfl⟩
      | fault e =>
          cases h
          exact .inl ⟨.fault e, rfl, rfl, rfl⟩

/-- Sequences run alike if their first parts do, and what follows after each answer. -/
theorem run_bind_congr {answer : Handler Request Answer World} {p q : Program Request Answer α}
    {f h : α → Program Request Answer β} {w : World} (hp : p.run answer w = q.run answer w)
    (hf : ∀ a v, p.run answer w = (.done a, v) → (f a).run answer v = (h a).run answer v) :
    (p >>= f).run answer w = (q >>= h).run answer w := by
  rw [run_bind, run_bind, ← hp]
  cases hrun : p.run answer w with
  | mk outcome v =>
      cases outcome with
      | done a => exact hf a v hrun
      | cut => rfl
      | fault e => rfl

/-- Attempting a program and dropping its answer changes the world as the program does. -/
theorem run_of_discard_attempt {answer : Handler Request Answer World}
    {p : Program Request Answer α} {w w' : World} {o : Outcome Unit}
    (h : (discard p.attempt).run answer w = (o, w')) : ∃ o', p.run answer w = (o', w') := by
  change (p.attempt >>= fun _ => Pure.pure ()).run answer w = (o, w') at h
  rw [run_bind, run_attempt] at h
  cases hrun : p.run answer w with
  | mk outcome v =>
      rw [hrun] at h
      cases outcome <;> (cases h; exact ⟨_, rfl⟩)

end Program

end GeneralGame
