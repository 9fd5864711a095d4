import GeneralGame.Proofs.Circuit.Evaluation
import GeneralGame.Proofs.Draft.Assembly

/-!
What the machine of a draft plays. If a draft realizes a sketch, its machine answers every question
as the functions of the sketch do, in the situation of the state and the joint move.
-/
namespace GeneralGame

namespace Situation

/-- Nothing but the initial marker is set. -/
def initial : Situation := ⟨true, fun _ => false, fun _ _ => false⟩

/-- The facts of a state hold, and the moves of a joint move are made. -/
def of (s : State) (joint : Option JointMove) : Situation :=
  ⟨false, fun f => s.contains f, fun r m => joint.any fun j => j.get? r = some m⟩

end Situation

namespace Sketch

def isTerminal (k : Sketch) (x : Situation) : Bool := k.terminal.any fun f => f x

def legal (k : Sketch) (r : RoleId) (x : Situation) : List Move :=
  ((ofRole k.legals r).filter fun entry => entry.2 x).map Prod.fst

def goal (k : Sketch) (r : RoleId) (x : Situation) : Except GameError Nat :=
  match ((ofRole k.goals r).filter fun entry => entry.2 x).map Prod.fst with
  | [value] => .ok value
  | held => .error (.goalDefinition r held.length)

/-- The fact follows from the situation. -/
def Follows (k : Sketch) (x : Situation) (f : FactId) : Prop :=
  f < k.facts.length ∧ (k.feeds f).any (fun g => g x) = true

/-- The machine answers as the sketch tells. -/
structure Describes (k : Sketch) (m : Machine) : Prop where
  roles : m.net.roles = k.roles
  names : ∀ f, m.net.factName? f = k.facts[f]?
  initial : ∀ f, f ∈ m.initial ↔ k.Follows .initial f
  isTerminal : ∀ s, m.isTerminal s = k.isTerminal (.of s none)
  legal : ∀ s (r : RoleId), r.index < k.roles.length → m.legal s r = .ok (k.legal r (.of s none))
  goal : ∀ s (r : RoleId), r.index < k.roles.length → m.goal s r = k.goal r (.of s none)
  next : ∀ s (j : JointMove), j.size = k.roles.length →
    (∀ r m, j.get? r = some m → m = .noop ∨ (r, m) ∈ k.inputs) →
      ∃ t, m.next s j = .ok t ∧ ∀ f, f ∈ t ↔ k.Follows (.of s (some j)) f

end Sketch

namespace Draft

variable {d : Draft} {k : Sketch} {t : ComponentId} {v : Assignment} {x : Situation} {m : Machine}

/-! ### Reading the answers -/

theorem map_filter_eq {α : Type} {es : List (α × ComponentId)} {ss : List (α × Signal)}
    (h : List.Forall₂ (fun e s => e.1 = s.1 ∧ d.Computes e.2 s.2) es ss)
    (hv : d.Solves x v.get) :
    (es.filter fun e => v.get e.2).map Prod.fst = (ss.filter fun s => s.2 x).map Prod.fst := by
  induction h with
  | nil => rfl
  | @cons e s _ _ hhead _ ih =>
      rw [List.filter_cons, List.filter_cons, hhead.2.value x v.get hv]
      split
      · rw [List.map_cons, List.map_cons, hhead.1, ih]
      · exact ih

theorem mem_readNext_assemble (hk : d.Realizes k) (hv : d.Solves x v.get) {f : FactId} :
    f ∈ (d.assemble t).readNext v ↔ k.Follows x f := by
  rw [Net.mem_readNext, Sketch.Follows, ← hk.size]
  refine and_congr_right fun hlt => ?_
  have hid : d.bases[f]? = some d.bases[f] := Array.getElem?_eq_getElem hlt
  obtain ⟨c, hcomponent, -, -⟩ := hk.facts f _ hid
  have hbase : ((d.assemble t).bases[f]?.bind (d.assemble t).component?) = some c := by
    change d.bases[f]?.bind d.component? = some c
    rw [hid, Option.bind_some, hcomponent]
  rw [hbase, Option.bind_some]
  rcases ((hk.facts f _ hid).inputs hcomponent).2 with ⟨hnone, hinputs⟩ | ⟨i, g, hg, hinputs, hi⟩
  · rw [hnone, hinputs]
    rfl
  · rw [hg, hinputs]
    change v.get i = true ↔ g x = true
    rw [hi.value x v.get hv]

theorem factName?_assemble (hk : d.Realizes k) (f : FactId) : (d.assemble t).factName? f = k.facts[f]? := by
  rw [Net.factName?]
  change d.bases[f]?.bind (d.assemble t).nameOf? = _
  cases hid : d.bases[f]? with
  | none =>
      have hle := Array.getElem?_eq_none_iff.mp hid
      rw [hk.size] at hle
      exact (List.getElem?_eq_none hle).symm
  | some id =>
      obtain ⟨c, hcomponent, hname, -⟩ := hk.facts f id hid
      have hc' : (d.assemble t).component? id = some c := hcomponent
      rw [Option.bind_some, Net.nameOf?, hc', Option.bind_some, hname]

/-! ### Solving the net -/

section

variable (hk : d.Realizes k) (hc : k.Complete)

include hk hc

/-- What a state and a joint move make true is what holds in their situation. -/
theorem given_assemble (s : State) (joint : Option JointMove) :
    let given := (d.assemble t).given s joint
    ¬ given init ∧
      (∀ (n : FactId) id, d.bases[n]? = some id → (given id ↔ (Situation.of s joint).fact n = true)) ∧
      ∀ r m id, (r, m, id) ∈ d.inputs → (given id ↔ (Situation.of s joint).does r m = true) := by
  obtain ⟨⟨hinitBase, hinitInput⟩, hbases, hinputs, hdisjoint⟩ := parts_of_distinct hk.tidy.distinct
  have hbase : ∀ (n : FactId) id, (d.assemble t).bases[n]? = some id → id ∈ d.bases.toList :=
    fun n id hid => Array.mem_toList_iff.mpr (Array.mem_of_getElem? hid)
  have hinput : ∀ r m id, (d.assemble t).input? r m = some id → (r, m, id) ∈ d.inputs :=
    fun r m id hid => (input?_assemble hk hc).mp hid
  have hids : ∀ r m id, (r, m, id) ∈ d.inputs → id ∈ d.inputs.toList.map (·.2.2) :=
    fun r m id hid => List.mem_map_of_mem (Array.mem_toList_iff.mpr hid)
  refine ⟨?_, fun n id hid => ?_, fun r m id hid => ?_⟩
  · rintro (⟨n, -, hid⟩ | ⟨j, -, r, m, -, hid⟩)
    · exact hinitBase (hbase n _ hid)
    · exact hinitInput (hids r m _ (hinput r m _ hid))
  · have hfact : (Situation.of s joint).fact n = true ↔ n ∈ s := List.contains_iff_mem
    rw [hfact]
    constructor
    · rintro (⟨n', hn', hid'⟩ | ⟨j, -, r, m, -, hid'⟩)
      · exact hk.tidy.base_inj hid' hid ▸ hn'
      · exact absurd rfl (hdisjoint id (hbase n id hid) id (hids r m id (hinput r m id hid')))
    · exact fun hn => .inl ⟨n, hn, hid⟩
  · have hdoes : (Situation.of s joint).does r m = true ↔ ∃ j ∈ joint, j.get? r = some m := by
      cases joint with
      | none => exact iff_of_false Bool.false_ne_true nofun
      | some j => simp [Situation.of]
    rw [hdoes]
    constructor
    · rintro (⟨n, -, hid'⟩ | ⟨j, hj, r', m', hm', hid'⟩)
      · exact absurd rfl (hdisjoint id (hbase n id hid') id (hids r m id hid))
      · have heq := List.inj_on_of_nodup_map hinputs (Array.mem_toList_iff.mpr (hinput r' m' id hid'))
          (Array.mem_toList_iff.mpr hid) rfl
        cases heq
        exact ⟨j, hj, hm'⟩
    · rintro ⟨j, hj, hm⟩
      exact .inr ⟨j, hj, r, m, hm, (input?_assemble hk hc).mpr hid⟩

/-- A solution of the net, with the situation's values set from outside, solves the draft. -/
theorem solves_of_assemble {given : ComponentId → Prop} (h : (d.assemble t).Solves given v)
    (hstart : given init ↔ x.start = true)
    (hfact : ∀ (n : FactId) id, d.bases[n]? = some id → (given id ↔ x.fact n = true))
    (hdoes : ∀ r m id, (r, m, id) ∈ d.inputs → (given id ↔ x.does r m = true)) :
    d.Solves x v.get := by
  have houtside : ∀ id, d.IsOutside id → ∀ b, (given id ↔ b = true) → v.get id = b := by
    intro id hid b hb
    rw [Bool.eq_iff_iff, ← hb]
    exact h.independent id ((isIndependent_assemble hk hc).mpr hid)
  constructor
  · exact houtside init List.mem_cons_self _ hstart
  · exact fun n id hid => houtside id (isOutside_base hid) _ (hfact n id hid)
  · exact fun r m id hid => houtside id (isOutside_input hid) _ (hdoes r m id hid)
  · intro id c hcomponent hinner
    exact h.dependent id c hcomponent fun hid => hinner ((isIndependent_assemble hk hc).mp hid)

theorem exists_markMoves {entries : List (RoleId × Move)}
    (h : ∀ e ∈ entries, e.2 = .noop ∨ (e.1, e.2) ∈ k.inputs) (a : Assignment) :
    ∃ v, entries.foldlM (d.assemble t).markMove a = .ok v := by
  induction entries generalizing a with
  | nil => exact ⟨a, rfl⟩
  | cons e entries ih =>
      have hfirst : ∃ a', (d.assemble t).markMove a e = .ok a' := by
        rw [Net.markMove]
        split
        · exact ⟨_, rfl⟩
        · rename_i hnone
          rcases h e List.mem_cons_self with hnoop | hinput
          · have hwaits : e.2.isNoop = true := decide_eq_true hnoop
            rw [if_pos hwaits]
            exact ⟨a, rfl⟩
          · rw [← hk.inputs] at hinput
            obtain ⟨⟨r, m, id⟩, hmem, heq⟩ := List.mem_map.mp hinput
            cases heq
            rw [(input?_assemble hk hc).mpr (Array.mem_toList_iff.mp hmem)] at hnone
            cases hnone
      obtain ⟨a', ha'⟩ := hfirst
      rw [List.foldlM_cons, ha']
      exact ih (fun e' he' => h e' (List.mem_cons_of_mem e he')) a'

/-- An evaluation solves the draft in the situation of its state and joint move. -/
theorem solves_of_evaluate (hm : Machine.ofNet (d.assemble t) = .ok m) {s : State}
    {joint : Option JointMove} (h : m.evaluate s joint = .ok v) : d.Solves (.of s joint) v.get := by
  obtain ⟨hnet, hwellFormed, horder, -⟩ := Machine.ofNet_eq_ok hm
  rw [← hnet] at hwellFormed horder
  have hsolves := (Machine.solves_of_evaluate hwellFormed horder h v).mpr rfl
  rw [hnet] at hsolves
  obtain ⟨hinit, hfact, hdoes⟩ := given_assemble hk hc (t := t) s joint
  exact solves_of_assemble hk hc hsolves (iff_of_false hinit Bool.false_ne_true) hfact hdoes

theorem mem_initial (hm : Machine.ofNet (d.assemble t) = .ok m) (f : FactId) :
    f ∈ m.initial ↔ k.Follows .initial f := by
  obtain ⟨hnet, hwellFormed, horder, hinitial⟩ := Machine.ofNet_eq_ok hm
  rw [hinitial, Net.initialState]
  have hsize : ((d.assemble t).noValues.set (d.assemble t).init true).values.size =
      (d.assemble t).size := by
    rw [Assignment.size_set, Net.size_noValues]
  have hsolves := (Net.solves_iff horder hsize (Net.get_markInit hwellFormed)).mpr rfl
  apply mem_readNext_assemble hk
  obtain ⟨⟨hinitBase, hinitInput⟩, -⟩ := parts_of_distinct hk.tidy.distinct
  refine solves_of_assemble hk hc hsolves (iff_of_true rfl rfl) (fun n id hid => ?_)
    fun r m id hid => ?_
  · refine iff_of_false (fun hinit => hinitBase ?_) Bool.false_ne_true
    exact Array.mem_toList_iff.mpr (Array.mem_of_getElem? (hinit ▸ hid))
  · refine iff_of_false (fun hinit => hinitInput ?_) Bool.false_ne_true
    exact List.mem_map.mpr ⟨_, Array.mem_toList_iff.mpr hid, hinit⟩

theorem solves_evaluateState (hm : Machine.ofNet (d.assemble t) = .ok m) (s : State) :
    d.Solves (.of s none) (m.evaluateState s).get := by
  have h : m.evaluate s none = .ok (m.evaluateState s) := rfl
  exact solves_of_evaluate hk hc hm h

omit hc in
theorem checkRole_of_ofNet (hm : Machine.ofNet (d.assemble t) = .ok m) {r : RoleId}
    (hr : r.index < k.roles.length) : m.checkRole r = .ok () := by
  have hroles : m.net.roleCount = k.roles.length := by
    rw [(Machine.ofNet_eq_ok hm).1]
    exact congrArg List.length hk.roles
  exact if_pos (hroles ▸ hr)

theorem legal_of_ofNet (hm : Machine.ofNet (d.assemble t) = .ok m) (s : State) {r : RoleId}
    (hr : r.index < k.roles.length) : m.legal s r = .ok (k.legal r (.of s none)) := by
  have hlegals : m.net.legalsOf r = Draft.ofRole d.legals r := by
    rw [(Machine.ofNet_eq_ok hm).1]
    exact legalsOf_assemble (roleCount_le hk hc) (hk.roles ▸ hr)
  rw [Machine.legal, checkRole_of_ofNet hk hm hr, hlegals, Sketch.legal,
    ← map_filter_eq (hk.legals.ofRole r) (solves_evaluateState hk hc hm s)]
  rfl

theorem goal_of_ofNet (hm : Machine.ofNet (d.assemble t) = .ok m) (s : State) {r : RoleId}
    (hr : r.index < k.roles.length) : m.goal s r = k.goal r (.of s none) := by
  have hgoals : m.net.goalsOf r = Draft.ofRole d.goals r := by
    rw [(Machine.ofNet_eq_ok hm).1]
    exact goalsOf_assemble (roleCount_le hk hc) (hk.roles ▸ hr)
  have hheld := map_filter_eq (hk.goals.ofRole r) (solves_evaluateState hk hc hm s)
  rw [Machine.goal, checkRole_of_ofNet hk hm hr, hgoals, Sketch.goal, ← hheld]
  dsimp only [bind, Except.bind]
  generalize ((Draft.ofRole d.goals r).filter fun e => (m.evaluateState s).get e.2) = held
  rcases held with _ | ⟨_, _ | ⟨_, rest⟩⟩
  · rfl
  · rfl
  · have hlength : (rest.map Prod.fst).length = rest.length := List.length_map _
    exact congrArg (fun n => Except.error (GameError.goalDefinition r (n + 2))) hlength.symm

theorem next_of_ofNet (hm : Machine.ofNet (d.assemble t) = .ok m) (s : State) {j : JointMove}
    (hsize : j.size = k.roles.length)
    (hmoves : ∀ r m, j.get? r = some m → m = .noop ∨ (r, m) ∈ k.inputs) :
    ∃ u, m.next s j = .ok u ∧ ∀ f, f ∈ u ↔ k.Follows (.of s (some j)) f := by
  obtain ⟨hnet, -⟩ := Machine.ofNet_eq_ok hm
  have hroles : j.size = (d.assemble t).roleCount := hsize.trans (congrArg List.length hk.roles).symm
  have hentries : ∀ e ∈ j.entries, e.2 = .noop ∨ (e.1, e.2) ∈ k.inputs := by
    intro e he
    have hle : j.size ≤ 256 := by
      have hcount := hc.roles.2
      unfold maxRoles at hcount
      omega
    exact hmoves e.1 e.2 ((JointMove.mem_entries hle).mp he)
  obtain ⟨u, hu⟩ := exists_markMoves hk hc hentries ((d.assemble t).markState s (d.assemble t).noValues)
  have hmark : (d.assemble t).markJointMove j ((d.assemble t).markState s (d.assemble t).noValues) =
      .ok u := by
    rw [Net.markJointMove, if_pos hroles, hu]
  have hvalues : m.evaluate s (some j) = .ok ((d.assemble t).propagate m.order u) := by
    rw [Machine.evaluate, hnet, hmark]
    rfl
  refine ⟨(d.assemble t).readNext ((d.assemble t).propagate m.order u), ?_, fun f =>
    mem_readNext_assemble hk (solves_of_evaluate hk hc hm hvalues)⟩
  rw [Machine.next, hvalues, hnet]
  rfl

theorem describes_of_ofNet (hm : Machine.ofNet (d.assemble t) = .ok m) {f : Signal}
    (hf : k.terminal = some f) (hcomputes : d.Computes t f) : k.Describes m := by
  obtain ⟨hnet, -⟩ := Machine.ofNet_eq_ok hm
  constructor
  · rw [hnet]
    exact hk.roles
  · rw [hnet]
    exact factName?_assemble hk
  · exact mem_initial hk hc hm
  · intro s
    rw [Machine.isTerminal, hnet, Sketch.isTerminal, hf]
    exact hcomputes.value _ _ (solves_evaluateState hk hc hm s)
  · exact fun s r => legal_of_ofNet hk hc hm s
  · exact fun s r => goal_of_ofNet hk hc hm s
  · exact fun s j => next_of_ofNet hk hc hm s

/-- The machine of a draft that realizes a complete sketch can be built, and answers as the sketch
tells. -/
theorem exists_describes :
    ∃ m, (do Machine.ofNet (← d.toNet)) = .ok m ∧ k.Describes m := by
  obtain ⟨t, f, ht, hf, hcomputes⟩ := exists_terminal hk hc
  obtain ⟨ids, hids⟩ := Net.exists_order (isRanked_assemble hk hc (t := t))
  have hcheck : (d.assemble t).check = .ok () :=
    Net.wellFormed_iff.mpr (isCircuit_assemble hk hc hcomputes.lt)
  have hm : Machine.ofNet (d.assemble t) =
      .ok ⟨d.assemble t, ids, (d.assemble t).initialState ids⟩ := by
    rw [Machine.ofNet, hcheck, hids]
    rfl
  refine ⟨_, ?_, describes_of_ofNet hk hc hm hf hcomputes⟩
  rw [toNet_eq_ok hk hc ht hcomputes.lt]
  exact hm

end

end Draft

end GeneralGame
