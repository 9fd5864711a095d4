import GeneralGame.Proofs.Search.Closed

/-!
Turns. How often a child was selected or a playout was started is for the policies alone. Where they
do not look at it, a search runs alike in all worlds that differ in these counts only.
-/
namespace GeneralGame

open Search

variable {α β : Type} {g : Game} {d : Deadline} {b : Brief} {w v : Search.World}

namespace Search

/-- The worlds differ at most in the turns that were counted. -/
structure World.Alike (w v : World) : Prop where
  play : w.play = v.play
  stats : w.stats = v.stats
  table : w.table = v.table

theorem World.Alike.symm (h : w.Alike v) : v.Alike w := ⟨h.play.symm, h.stats.symm, h.table.symm⟩

theorem World.Alike.trans {u : World} (h : w.Alike v) (h' : v.Alike u) : w.Alike u :=
  ⟨h.play.trans h'.play, h.stats.trans h'.stats, h.table.trans h'.table⟩

/-- The search goes on in the same way whatever turn it is. -/
def TurnFree : Search α → Prop
  | .pure _ => True
  | .cut => True
  | .fault _ => True
  | .ask q next => (q.isTurn = true → ∀ a a', next a = next a') ∧ ∀ a, TurnFree (next a)

theorem turnFree_bind {p : Search α} {f : α → Search β} (hp : TurnFree p)
    (hf : ∀ a, TurnFree (f a)) : TurnFree (p >>= f) := by
  induction p with
  | pure a => exact hf a
  | cut => trivial
  | fault e => trivial
  | ask q next ih =>
      refine ⟨fun hq a a' => ?_, fun a => ih a (hp.2 a)⟩
      exact congrArg (· >>= f) (hp.1 hq a a')

theorem turnFree_attempt {p : Search α} (hp : TurnFree p) : TurnFree p.attempt := by
  induction p with
  | pure a => trivial
  | cut => trivial
  | fault e => trivial
  | ask q next ih =>
      exact ⟨fun hq a a' => congrArg Program.attempt (hp.1 hq a a'), fun a => ih a (hp.2 a)⟩

theorem closed_turnFree : Closed fun _ p => TurnFree p where
  done _ := trivial
  cut := trivial
  outOfFuel := trivial
  request hq := ⟨fun h => absurd (hq.symm.trans h) Bool.false_ne_true, fun _ => trivial⟩
  bind := turnFree_bind
  attempt := turnFree_attempt

/-- A request that only counts a turn answers, and changes nothing else. -/
theorem answer_of_isTurn {q : SearchRequest} (hq : q.isTurn = true) (w : World) :
    ∃ a v, Search.answer g d q w = (.ok a, v) ∧ v.Alike w := by
  cases q with
  | selectionTurn => exact ⟨_, _, rfl, rfl, rfl, rfl⟩
  | playoutTurn => exact ⟨_, _, rfl, rfl, rfl, rfl⟩
  | _ => cases hq

theorem answer_alike {q : SearchRequest} (hq : q.isTurn = false) (h : w.Alike v) :
    (Search.answer g d q w).1 = (Search.answer g d q v).1 ∧
      (Search.answer g d q w).2.Alike (Search.answer g d q v).2 := by
  obtain ⟨play, stats, table, selections, playouts⟩ := w
  obtain ⟨rfl, rfl, rfl⟩ := h
  cases q with
  | selectionTurn => cases hq
  | playoutTurn => cases hq
  | _ => exact ⟨rfl, rfl, rfl, rfl⟩

/-- A search that no turn makes a difference to comes to the same in worlds that are alike. -/
theorem run_alike {p : Search α} (hp : TurnFree p) (h : w.Alike v) :
    (g.search d p w).1 = (g.search d p v).1 ∧
      (g.search d p w).2.Alike (g.search d p v).2 := by
  induction p generalizing w v with
  | pure a => exact ⟨rfl, h⟩
  | cut => exact ⟨rfl, h⟩
  | fault e => exact ⟨rfl, h⟩
  | ask q next ih =>
      simp only [Game.search, Program.run]
      cases hq : q.isTurn with
      | true =>
          obtain ⟨a, w', hw, hww'⟩ := answer_of_isTurn (g := g) (d := d) hq w
          obtain ⟨a', v', hv, hvv'⟩ := answer_of_isTurn (g := g) (d := d) hq v
          rw [hw, hv]
          dsimp only
          rw [hp.1 hq a a']
          exact ih a' (hp.2 a') ((hww'.trans h).trans hvv'.symm)
      | false =>
          obtain ⟨hreply, hworld⟩ := answer_alike (g := g) (d := d) hq h
          cases hw : Search.answer g d q w with
          | mk reply w' =>
              cases hv : Search.answer g d q v with
              | mk reply' v' =>
                  rw [hw, hv] at hreply hworld
                  cases hreply
                  cases reply with
                  | error f => exact ⟨rfl, hworld⟩
                  | ok a => exact ih a (hp.2 a) hworld

end Search

/-- Upper confidence bounds and random playouts are the same at every turn. -/
theorem Brief.complies_turnFree (hselection : b.selection = .ucb) (hplayout : b.playout = .random) :
    b.Complies fun _ p => TurnFree p := by
  obtain ⟨roleCount, role, config, selection, playout⟩ := b
  obtain rfl : selection = .ucb := hselection
  obtain rfl : playout = .random := hplayout
  constructor
  · intro s
    apply turnFree_bind (closed_turnFree.request (q := .table) rfl)
    intro table
    cases (table.get? s).filter Node.isVisited with
    | none => trivial
    | some node =>
        dsimp only
        split
        · trivial
        · exact ⟨fun _ _ _ => rfl, fun _ => trivial⟩
  · intro fuel s
    refine ⟨fun _ _ _ => rfl, fun turn => ?_⟩
    apply turnFree_bind (turnFree_attempt (closed_turnFree.rollout roleCount role fuel 0 s))
    intro ended
    cases ended with
    | none => exact closed_turnFree.cutOff
    | some ended =>
        exact turnFree_bind (closed_turnFree.note _) fun _ =>
          turnFree_bind (closed_turnFree.note _) fun _ => trivial

end GeneralGame
