import GeneralGame.Proofs.Circuit.Faults
import GeneralGame.Proofs.Circuit.Lookups
import GeneralGame.Proofs.Circuit.Persistence

/-!
Hostile nets, states and moves. Reading bytes, building a machine and asking it anything has an
outcome with look-ups by place as well, and the errors that come of it are few: those of the check,
a cycle, a role that does not exist, goals that are not exactly one, and a joint move of the wrong
size or with a move that nobody can make.
-/
namespace GeneralGame

open Lookups

theorem foldlM_eq_some {α β : Type} {f : β → α → Option β} {g : β → α → β} {xs : List α}
    (h : ∀ b, ∀ x ∈ xs, f b x = some (g b x)) (b : β) : xs.foldlM f b = some (xs.foldl g b) := by
  induction xs generalizing b with
  | nil => rfl
  | cons x xs ih =>
      rw [List.foldlM_cons, h b x List.mem_cons_self, List.foldl_cons]
      exact ih (fun b y hy => h b y (List.mem_cons_of_mem x hy)) _

theorem filterM_eq_some {α : Type} {p : α → Option Bool} {q : α → Bool} {xs : List α}
    (h : ∀ x ∈ xs, p x = some (q x)) : xs.filterM p = some (xs.filter q) := by
  have haux : ∀ kept, List.filterAuxM p xs kept = some ((xs.filter q).reverse ++ kept) := by
    induction xs with
    | nil => exact fun _ => rfl
    | cons x xs ih =>
        intro kept
        obtain ⟨hx, hxs⟩ := List.forall_mem_cons.mp h
        rw [List.filterAuxM, hx, List.filter_cons]
        cases q x with
        | true => simpa using ih hxs (x :: kept)
        | false => simpa using ih hxs kept
  rw [List.filterM, haux, List.append_nil]
  simp

namespace Net

variable {net : Net} {id : ComponentId}

def propagateAt (net : Net) (order : List ComponentId) (values : Assignment) : Option Assignment :=
  order.foldlM (fun values id => do
    let c ← net.component? id
    return values.set id (c.output values.get)) values

def readNextAt (net : Net) (values : Assignment) : Option State := do
  let held ← (List.range net.bases.size).filterM fun f => do
    let c ← net.component? (← net.bases[f]?)
    return c.inputs.head?.any values.get
  return .ofFacts held

def initialStateAt (net : Net) (order : List ComponentId) : Option State := do
  net.readNextAt (← net.propagateAt order (net.noValues.set net.init true))

/-- The net that the bytes start with, checked with look-ups by place. -/
def ofBytesAt (bytes : Bytes) : Lookups Net :=
  match Codec.net.read bytes with
  | none => throw .malformedBytes
  | some (net, _) => do
    net.checkAt
    return net

theorem exists_component (h : id < net.size) : ∃ c, net.component? id = some c :=
  ⟨_, Array.getElem?_eq_getElem h⟩

theorem propagateAt_eq {order : List ComponentId} (h : ∀ id ∈ order, id < net.size)
    (values : Assignment) : net.propagateAt order values = some (net.propagate order values) := by
  apply foldlM_eq_some
  intro values id hid
  obtain ⟨c, hc⟩ := exists_component (h id hid)
  rw [hc]
  rfl

theorem readNextAt_eq (h : net.WellFormed) (values : Assignment) :
    net.readNextAt values = some (net.readNext values) := by
  have hheld : ∀ f ∈ List.range net.bases.size,
      (do
        let c ← net.component? (← net.bases[f]?)
        return c.inputs.head?.any values.get) =
      some (((net.bases[f]?.bind net.component?).bind (·.inputs.head?)).any values.get) := by
    intro f hf
    rw [List.mem_range] at hf
    have hbase : net.bases[f]? = some net.bases[f] := Array.getElem?_eq_getElem hf
    obtain ⟨c, hc⟩ := exists_component (h.base_lt hbase)
    simp only [hbase, hc, Option.bind_eq_bind, Option.bind_some]
    rfl
  rw [readNextAt, filterM_eq_some hheld]
  rfl

theorem lt_size_of_isOrder {order : List ComponentId} (h : net.isOrder order = true) :
    ∀ id ∈ order, id < net.size := by
  intro id hid
  obtain ⟨-, hfollows⟩ := isOrder_iff.mp h
  obtain ⟨hlt, -⟩ := unmarked_of_follows hfollows id hid
  rwa [size_independent] at hlt

theorem initialStateAt_eq (h : net.WellFormed) {order : List ComponentId}
    (horder : net.isOrder order = true) :
    net.initialStateAt order = some (net.initialState order) := by
  rw [initialStateAt, propagateAt_eq (lt_size_of_isOrder horder)]
  exact readNextAt_eq h _

theorem inRange_ofBytesAt (bytes : Bytes) : InRange (ofBytesAt bytes) (ofBytes bytes) := by
  rw [ofBytesAt, ofBytes]
  cases Codec.net.read bytes with
  | none => exact inRange_throw _
  | some found => exact inRange_bind (inRange_checkAt found.1) fun _ _ => inRange_pure _

end Net

namespace Machine

variable {net : Net} {m : Machine}

/-! ### The machine with look-ups by place -/

def ofNetAt (net : Net) : Lookups Machine := do
  net.checkAt
  let order ← net.orderAt
  let initial ← entry (net.initialStateAt order)
  return { net, order, initial }

def evaluateStateAt (m : Machine) (s : State) : Option Assignment :=
  m.net.propagateAt m.order (m.net.markState s m.net.noValues)

def evaluateAt (m : Machine) (s : State) : Option JointMove → Lookups Assignment
  | none => entry (m.evaluateStateAt s)
  | some j => do
    let values ← outcome (m.net.markJointMove j (m.net.markState s m.net.noValues))
    entry (m.net.propagateAt m.order values)

def isTerminalAt (m : Machine) (s : State) : Option Bool := do
  return (← m.evaluateStateAt s).get m.net.terminal

def goalAt (m : Machine) (s : State) (r : RoleId) : Lookups Nat := do
  outcome (m.checkRole r)
  let values ← entry (m.evaluateStateAt s)
  match (m.net.goalsOf r).filter fun goal => values.get goal.2 with
  | [(value, _)] => return value
  | held => throw (.goalDefinition r held.length)

def legalAt (m : Machine) (s : State) (r : RoleId) : Lookups (List Move) := do
  outcome (m.checkRole r)
  let values ← entry (m.evaluateStateAt s)
  return ((m.net.legalsOf r).filter fun legal => values.get legal.2).map Prod.fst

def nextAt (m : Machine) (s : State) (j : JointMove) : Lookups State := do
  let values ← m.evaluateAt s (some j)
  entry (m.net.readNextAt values)

theorem inRange_ofNetAt (net : Net) : InRange (ofNetAt net) (ofNet net) := by
  refine inRange_bind (Net.inRange_checkAt net) fun _ hcheck => ?_
  have hreferences := (Net.wellFormed_iff.mp hcheck).references
  refine inRange_bind (Net.inRange_orderAt hreferences) fun order horder => ?_
  have hinitial := Net.initialStateAt_eq hcheck (Net.isOrder_of_order horder)
  exact inRange_entry hinitial (inRange_pure _)

/-- Every question about any state has an outcome with look-ups by place. -/
structure InRange (m : Machine) : Prop where
  isTerminal : ∀ s, m.isTerminalAt s = some (m.isTerminal s)
  goal : ∀ s r, (m.goalAt s r).InRange (m.goal s r)
  legal : ∀ s r, (m.legalAt s r).InRange (m.legal s r)
  next : ∀ s j, (m.nextAt s j).InRange (m.next s j)
  evaluate : ∀ s joint, (m.evaluateAt s joint).InRange (m.evaluate s joint)

theorem inRange_of_ofNet (h : ofNet net = .ok m) : m.InRange := by
  obtain ⟨rfl, hnet, horder, -⟩ := ofNet_eq_ok h
  have hpropagate := Net.propagateAt_eq (Net.lt_size_of_isOrder horder)
  have hstate : ∀ s, m.evaluateStateAt s = some (m.evaluateState s) := fun s => hpropagate _
  have hevaluate : ∀ s joint, (m.evaluateAt s joint).InRange (m.evaluate s joint) := by
    intro s joint
    cases joint with
    | none =>
        rw [evaluateAt, hstate]
        rfl
    | some j =>
        refine inRange_bind (inRange_outcome _) fun values _ => ?_
        rw [hpropagate]
        rfl
  constructor
  · intro s
    rw [isTerminalAt, hstate]
    rfl
  · intro s r
    refine inRange_bind (inRange_outcome _) fun _ _ => inRange_entry (hstate s) ?_
    dsimp only
    generalize (m.net.goalsOf r).filter (fun goal => (m.evaluateState s).get goal.2) = held
    match held with
    | [] => exact inRange_throw _
    | [_] => exact inRange_pure _
    | _ :: _ :: _ => exact inRange_throw _
  · intro s r
    exact inRange_bind (inRange_outcome _) fun _ _ => inRange_entry (hstate s) (inRange_pure _)
  · intro s j
    refine inRange_bind (hevaluate s (some j)) fun values _ => ?_
    rw [Net.readNextAt_eq hnet]
    rfl
  · exact hevaluate

end Machine

/-- No bytes bring the engine down. They are read with every look-up in range, to a net or to an
error; every net that is accepted gives a machine or has a cycle; and the machine answers every
question about any state, role and joint move, again with every look-up in range. -/
theorem lookups_in_range :
    (∀ bytes, (Net.ofBytesAt bytes).InRange (Net.ofBytes bytes) ∧
      FailsWith (fun e => e = .malformedBytes ∨ e.isConfiguration = true) (Net.ofBytes bytes)) ∧
    ∀ net : Net, net.IsAccepted →
      (Machine.ofNetAt net).InRange (Machine.ofNet net) ∧
      FailsWith (fun e => ∃ unordered first, e = .cyclicDependency unordered first)
        (Machine.ofNet net) ∧
      ∀ m, Machine.ofNet net = .ok m → m.InRange ∧ m.Fails := by
  refine ⟨fun bytes => ⟨Net.inRange_ofBytesAt bytes, Net.ofBytes_faulty bytes⟩, fun net h => ?_⟩
  refine ⟨Machine.inRange_ofNetAt net, Machine.ofNet_cyclic h.wellFormed, fun m hm => ?_⟩
  obtain ⟨rfl, hnet, -⟩ := Machine.ofNet_eq_ok hm
  exact ⟨Machine.inRange_of_ofNet hm, Machine.fails_of_wellFormed hnet⟩

theorem lookups_in_range_toss : ∃ net m, Net.toss.toNet = .ok net ∧ Machine.ofNet net = .ok m ∧
    m.InRange ∧ m.Fails := by
  obtain ⟨-, hnets⟩ := lookups_in_range
  obtain ⟨-, -, hmachine⟩ := hnets _ (.drafted _ Net.toss_toNet)
  exact ⟨_, _, Net.toss_toNet, rfl, hmachine _ rfl⟩

end GeneralGame
