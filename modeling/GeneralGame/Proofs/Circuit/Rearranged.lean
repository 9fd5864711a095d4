import GeneralGame.Proofs.Circuit.Accepted
import Mathlib.Data.List.Forall2

/-!
The order in which a role's moves are listed with their components. A net that lists them in another
order passes the same check, is evaluated in the same order and answers every question alike.
-/
namespace GeneralGame

namespace Net

variable {net : Net} {tables : RoleTable MoveTable} {id : ComponentId} {s : State}

/-- The tables of the net, each with its entries in an order of its own. -/
def Relisted (net : Net) (tables : RoleTable MoveTable) : Prop :=
  List.Forall₂ (fun t u => t.entries.Perm u.entries) tables.toList net.inputs.toList

/-- The net with other tables for its moves. -/
def relist (net : Net) (tables : RoleTable MoveTable) : Net := { net with inputs := tables }

theorem Relisted.size (h : net.Relisted tables) : tables.size = net.inputs.size := h.length_eq

/-- What does not depend on the order of a table's entries is the same of both tables of a role. -/
theorem Relisted.map_get? (h : net.Relisted tables) {β : Type} {f : MoveTable → β}
    (hf : ∀ t u : MoveTable, t.entries.Perm u.entries → f t = f u) (r : RoleId) :
    (tables.get? r).map f = (net.inputs.get? r).map f := by
  have hmap : tables.toList.map f = net.inputs.toList.map f := by
    rw [← List.forall₂_eq_eq_eq, List.forall₂_map_left_iff, List.forall₂_map_right_iff]
    exact List.Forall₂.imp hf h
  have hget := congrArg (·[r.index]?) hmap
  simpa [RoleTable.toList, RoleTable.get?] using hget

theorem input?_relist (h : net.Relisted tables) (r : RoleId) (m : Move) :
    (net.relist tables).input? r m = net.input? r m := by
  have hget := h.map_get? (f := MoveTable.get?)
    (fun t u hperm => funext (MoveTable.get?_of_perm hperm)) r
  have hbind := congrArg (Option.bind · (· m)) hget
  rw [Option.bind_map, Option.bind_map] at hbind
  exact hbind

theorem mem_ids_of_perm {t u : MoveTable} (h : t.entries.Perm u.entries) :
    (id ∈ t.ids) = (id ∈ u.ids) := propext (h.map Prod.snd).mem_iff

theorem perm_independentIds (h : net.Relisted tables) :
    (net.relist tables).independentIds.Perm net.independentIds := by
  have hall : List.Forall₂ (fun t u => t.entries.Perm u.entries) tables.toList net.inputs.toList := h
  refine List.Perm.append_left _ ?_
  change (tables.toList.flatMap MoveTable.ids).Perm _
  generalize tables.toList = ts, net.inputs.toList = us at hall
  induction hall with
  | nil => exact .nil
  | cons hperm _ ih =>
      rw [List.flatMap_cons, List.flatMap_cons]
      exact (hperm.map Prod.snd).append ih

theorem isIndependent_relist (h : net.Relisted tables) :
    (net.relist tables).IsIndependent id ↔ net.IsIndependent id :=
  (perm_independentIds h).mem_iff

theorem independent_relist (h : net.Relisted tables) :
    (net.relist tables).independent = net.independent := by
  apply Assignment.ext_get
  · rw [size_independent, size_independent]
    rfl
  · intro id hid
    rw [size_independent] at hid
    have hlt : id < net.size := hid
    rw [Bool.eq_iff_iff, get_independent hid, isIndependent_relist h, get_independent hlt]

theorem mem_references_relist (h : net.Relisted tables) :
    id ∈ (net.relist tables).references ↔ id ∈ net.references := by
  have hids : ∀ r, id ∈ (tables.get? r).elim [] MoveTable.ids ↔
      id ∈ (net.inputs.get? r).elim [] MoveTable.ids := by
    intro r
    have hget := h.map_get? (f := fun t => id ∈ t.ids) (fun t u => mem_ids_of_perm) r
    cases htable : tables.get? r <;> cases hinput : net.inputs.get? r <;> simp_all
  simp only [references, List.mem_append, List.mem_flatMap, List.mem_cons]
  simp only [relist, hids]
  rfl

theorem admits_relist (h : net.Relisted tables) {c : Component} (hc : net.Admits id c) :
    (net.relist tables).Admits id c where
  feed := hc.feed
  base := hc.base
  other hbase := by
    rw [independent_relist h]
    exact hc.other hbase

theorem wellFormed_relist (h : net.Relisted tables) (hnet : net.WellFormed) :
    (net.relist tables).WellFormed := by
  have hcircuit := wellFormed_iff.mp hnet
  rw [wellFormed_iff]
  constructor
  · exact hcircuit.roles
  · exact h.size.trans hcircuit.inputs
  · exact hcircuit.legals
  · exact hcircuit.goals
  · exact fun id hid => hcircuit.references id ((mem_references_relist h).mp hid)
  · exact fun id c hc => admits_relist h (hcircuit.components id c hc)
  · exact fun r hr => ⟨(hcircuit.provides r hr).goals, (hcircuit.provides r hr).values,
      (hcircuit.provides r hr).legals⟩

theorem settle_relist (fuel : Nat) (o : Schedule) :
    Schedule.settle (net.relist tables) fuel o = Schedule.settle net fuel o := by
  have hpass : ∀ o : Schedule, o.pass (net.relist tables) = o.pass net := fun _ => rfl
  induction fuel generalizing o with
  | zero => rfl
  | succ fuel ih =>
      simp only [Schedule.settle, hpass, ih]

theorem order_relist (h : net.Relisted tables) : (net.relist tables).order = net.order := by
  have hmask : (net.relist tables).independentMask = net.independentMask :=
    congrArg Assignment.values (independent_relist h)
  have hstart : Schedule.start (net.relist tables) = Schedule.start net := by
    simp only [Schedule.start, hmask]
    rfl
  rw [order, hstart, settle_relist]
  rfl

theorem markJointMove_relist (h : net.Relisted tables) (j : JointMove) (values : Assignment) :
    (net.relist tables).markJointMove j values = net.markJointMove j values := by
  have hmove : (net.relist tables).markMove = net.markMove := by
    funext values entry
    simp only [markMove, input?_relist h]
  rw [markJointMove, hmove]
  rfl

end Net

namespace Machine

variable {net : Net} {tables : RoleTable MoveTable} {m : Machine}

/-- The machine of the net with other tables for its moves. -/
def relist (m : Machine) (tables : RoleTable MoveTable) : Machine :=
  { m with net := m.net.relist tables }

theorem ofNet_relist (h : net.Relisted tables) (hnet : net.WellFormed) :
    ofNet (net.relist tables) = (ofNet net).map (·.relist tables) := by
  have hcheck : (net.relist tables).check = .ok () := Net.wellFormed_relist h hnet
  rw [ofNet, ofNet, hcheck, show net.check = .ok () from hnet, Net.order_relist h]
  cases net.order <;> rfl

theorem evaluate_relist (h : m.net.Relisted tables) (s : State) (joint : Option JointMove) :
    (m.relist tables).evaluate s joint = m.evaluate s joint := by
  cases joint with
  | none => rfl
  | some j =>
      have hmark := Net.markJointMove_relist h j (m.net.markState s m.net.noValues)
      change ((m.net.relist tables).markJointMove j (m.net.markState s m.net.noValues) >>= _) = _
      rw [hmark]
      rfl

theorem toGame_relist (h : m.net.Relisted tables) : (m.relist tables).toGame = m.toGame := by
  have hnext : (m.relist tables).next = m.next := by
    funext s j
    rw [next, evaluate_relist h]
    rfl
  rw [toGame, hnext]
  rfl

end Machine

end GeneralGame
