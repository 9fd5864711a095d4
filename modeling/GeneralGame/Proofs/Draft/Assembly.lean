import GeneralGame.Proofs.Circuit.Accepted
import GeneralGame.Proofs.Circuit.Ranked
import GeneralGame.Proofs.Draft.Extend
import GeneralGame.Proofs.Game.Legal
import Mathlib.Data.List.Nodup

/-!
The net of a draft. A draft that realizes a sketch with all that a game needs passes the check, and
its components can be ordered.
-/
namespace GeneralGame

namespace Sketch

/-- The declarations of one role. -/
def ofRole {α : Type} (declared : List (RoleId × α)) (r : RoleId) : List α :=
  declared.filterMap fun (r', a) => if r' = r then some a else none

theorem ofRole_cons {α : Type} (r' : RoleId) (a : α) (declared : List (RoleId × α)) (r : RoleId) :
    ofRole ((r', a) :: declared) r =
      if r' = r then a :: ofRole declared r else ofRole declared r := by
  rw [ofRole, List.filterMap_cons]
  by_cases hr : r' = r
  · simp [hr, ofRole]
  · simp [hr, ofRole]

theorem mem_ofRole {α : Type} {declared : List (RoleId × α)} {r : RoleId} {a : α} :
    a ∈ ofRole declared r ↔ (r, a) ∈ declared := by
  rw [ofRole, List.mem_filterMap]
  constructor
  · rintro ⟨⟨r', a'⟩, hmem, hif⟩
    obtain ⟨rfl, h⟩ := Option.ite_none_right_eq_some.mp hif
    cases h
    exact hmem
  · exact fun hmem => ⟨(r, a), hmem, if_pos rfl⟩

/-- The sketch has all that a game needs, and every proposition belongs to a role of the game. -/
structure Complete (k : Sketch) : Prop where
  roles : 1 ≤ k.roles.length ∧ k.roles.length ≤ maxRoles
  distinct : k.inputs.Nodup
  inputs : ∀ e ∈ k.inputs, e.1.index < k.roles.length
  legals : ∀ e ∈ k.legals, e.1.index < k.roles.length
  goals : ∀ e ∈ k.goals, e.1.index < k.roles.length ∧ e.2.1 ≤ 100
  provides : ∀ r : RoleId, r.index < k.roles.length → ofRole k.legals r ≠ [] ∧ ofRole k.goals r ≠ []
  terminal : k.terminal.isSome = true

end Sketch

namespace Draft

variable {d : Draft} {k : Sketch} {id i t : ComponentId} {c : Component} {r : RoleId} {m : Move}

/-- The declarations of one role compute the signals that the sketch has for it. -/
theorem Declares.ofRole {α : Type} {declared : Array (RoleId × α × ComponentId)}
    {signals : List (RoleId × α × Signal)} (h : d.Declares declared.toList signals) (r : RoleId) :
    List.Forall₂ (fun e s => e.1 = s.1 ∧ d.Computes e.2 s.2) (Draft.ofRole declared r)
      (Sketch.ofRole signals r) := by
  change List.Forall₂ _ (Sketch.ofRole declared.toList r) _
  generalize declared.toList = es at h
  induction h with
  | nil => exact .nil
  | @cons e s _ _ hhead _ ih =>
      obtain ⟨role, a, id⟩ := e
      obtain ⟨hrole, hdata⟩ := hhead
      rw [Sketch.ofRole_cons, ← s.eta, Sketch.ofRole_cons, ← hrole]
      split
      · exact .cons hdata ih
      · exact ih

/-- The base proposition of a fact has no input, or a transition that carries what feeds it. -/
theorem IsFact.inputs {name : Option String} {feed : Option Signal} (h : d.IsFact id name feed)
    (hc : d.component? id = some c) : c.name = name ∧ ((feed = none ∧ c.inputs = []) ∨
      ∃ i f, feed = some f ∧ c.inputs = [i] ∧ d.Carries i f) := by
  obtain ⟨c', hc', hname, hfeed⟩ := h
  obtain rfl : c' = c := Option.some.inj (hc'.symm.trans hc)
  refine ⟨hname, ?_⟩
  cases feed with
  | none => exact .inl ⟨rfl, List.forall₂_nil_right_iff.mp hfeed⟩
  | some f =>
      obtain ⟨i, rest, hcarries, hrest, hinputs⟩ := List.forall₂_cons_right_iff.mp hfeed
      rw [List.forall₂_nil_right_iff.mp hrest] at hinputs
      exact .inr ⟨i, f, rfl, hinputs, hcarries⟩

theorem Declares.lt {α : Type} {declared : Array (RoleId × α × ComponentId)}
    {signals : List (RoleId × α × Signal)} (h : d.Declares declared.toList signals)
    (hid : id ∈ (Draft.ofRole declared r).map Prod.snd) : id < d.size := by
  obtain ⟨e, he, rfl⟩ := List.mem_map.mp hid
  obtain ⟨s, -, -, hcomputes⟩ := exists_of_mem_forall₂ (h.ofRole r) he
  exact hcomputes.lt

/-! ### The tables of the net -/

theorem legalsOf_assemble (hcount : d.roles.length ≤ maxRoles) (hr : r.index < d.roles.length) :
    (d.assemble t).legalsOf r = Draft.ofRole d.legals r := by
  rw [Net.legalsOf, assemble, RoleTable.get?_ofRoles hcount, if_pos hr]
  rfl

theorem goalsOf_assemble (hcount : d.roles.length ≤ maxRoles) (hr : r.index < d.roles.length) :
    (d.assemble t).goalsOf r = Draft.ofRole d.goals r := by
  rw [Net.goalsOf, assemble, RoleTable.get?_ofRoles hcount, if_pos hr]
  rfl

section

variable (hk : d.Realizes k) (hc : k.Complete)

include hk hc

theorem roleCount_le : d.roles.length ≤ maxRoles := hk.roles ▸ hc.roles.2

/-- Every input proposition is in charge of its move. -/
theorem entries_inputs (r : RoleId) :
    (MoveTable.ofList (Draft.ofRole d.inputs r)).entries = Draft.ofRole d.inputs r := by
  apply MoveTable.entries_ofList
  have hmoves : (Draft.ofRole d.inputs r).map Prod.fst = Sketch.ofRole k.inputs r := by
    rw [← hk.inputs, Draft.ofRole, Sketch.ofRole, List.map_filterMap, List.filterMap_map]
    congr 1
    funext ⟨r', m, id⟩
    simp only [Function.comp]
    split <;> rfl
  rw [hmoves]
  refine hc.distinct.filterMap fun e e' m hm hm' => ?_
  obtain ⟨h, hm⟩ := Option.ite_none_right_eq_some.mp hm
  obtain ⟨h', hm'⟩ := Option.ite_none_right_eq_some.mp hm'
  exact Prod.ext (h.trans h'.symm) ((Option.some.inj hm).trans (Option.some.inj hm').symm)

theorem role_lt_of_input (hid : (r, m, id) ∈ d.inputs) : r.index < d.roles.length := by
  rw [hk.roles]
  apply hc.inputs (r, m)
  rw [← hk.inputs]
  exact List.mem_map_of_mem (Array.mem_toList_iff.mpr hid)

theorem input?_assemble : (d.assemble t).input? r m = some id ↔ (r, m, id) ∈ d.inputs := by
  have hget := RoleTable.get?_ofRoles (roleCount_le hk hc)
    (fun r => MoveTable.ofList (Draft.ofRole d.inputs r)) r
  change ((RoleTable.ofRoles _ _).get? r).bind _ = some id ↔ _
  rw [hget]
  split
  · rw [Option.bind_some, MoveTable.get?_eq_some_iff, entries_inputs hk hc, ← Array.mem_toList_iff]
    exact Sketch.mem_ofRole
  · rename_i hr
    exact iff_of_false nofun fun hid => hr (role_lt_of_input hk hc hid)

theorem isIndependent_assemble : (d.assemble t).IsIndependent id ↔ d.IsOutside id := by
  have hcount := roleCount_le hk hc
  unfold maxRoles at hcount
  have hinputs : id ∈ (d.assemble t).inputs.toList.flatMap MoveTable.ids ↔
      id ∈ d.inputs.toList.map (·.2.2) := by
    change id ∈ ((RoleId.all d.roles.length).map fun r =>
      MoveTable.ofList (Draft.ofRole d.inputs r)).flatMap MoveTable.ids ↔ _
    rw [List.flatMap_map, List.mem_flatMap, List.mem_map]
    constructor
    · rintro ⟨r, -, hid⟩
      rw [MoveTable.ids, entries_inputs hk hc] at hid
      obtain ⟨⟨m, id⟩, hmem, rfl⟩ := List.mem_map.mp hid
      exact ⟨(r, m, id), Sketch.mem_ofRole.mp hmem, rfl⟩
    · rintro ⟨⟨r, m, id⟩, hmem, rfl⟩
      have hr := role_lt_of_input hk hc (Array.mem_toList_iff.mp hmem)
      refine ⟨r, RoleId.mem_all.mpr (by omega), ?_⟩
      rw [MoveTable.ids, entries_inputs hk hc]
      exact List.mem_map_of_mem (Sketch.mem_ofRole.mpr hmem)
  rw [Net.IsIndependent, Net.independentIds, List.mem_append, hinputs, ← List.mem_append]
  rfl

/-! ### The check -/

theorem exists_terminal : ∃ t f, d.terminal = some t ∧ k.terminal = some f ∧ d.Computes t f := by
  obtain ⟨f, hf⟩ := Option.isSome_iff_exists.mp hc.terminal
  have hterminal := hk.terminal
  rw [hf] at hterminal
  obtain ⟨t, _, hcomputes, -, ht⟩ := List.forall₂_cons_right_iff.mp hterminal
  exact ⟨t, f, Option.mem_toList.mp (ht ▸ List.mem_cons_self), hf, hcomputes⟩

omit hc in
/-- A fact that is set from outside is a base proposition of a known fact, or has no input. -/
theorem outside_cases (hcomponent : d.component? id = some c) (houtside : d.IsOutside id) :
    c.kind = .proposition ∧ (id ∉ d.bases → c.inputs = []) ∧
      (id ∈ d.bases → c.inputs = [] ∨ ∃ i f, c.inputs = [i] ∧ d.Carries i f) := by
  obtain ⟨c', hc', hkind, hinputs⟩ := hk.tidy.outside id houtside
  obtain rfl : c' = c := Option.some.inj (hc'.symm.trans hcomponent)
  refine ⟨hkind, hinputs, fun hbase => ?_⟩
  obtain ⟨n, hn⟩ := Array.mem_iff_getElem?.mp hbase
  rcases ((hk.facts n id hn).inputs hcomponent).2 with ⟨-, hnone⟩ | ⟨i, f, -, hone, hcarries⟩
  · exact .inl hnone
  · exact .inr ⟨i, f, hone, hcarries⟩

omit hc in
theorem input_lt (hcomponent : d.component? id = some c) (hi : i ∈ c.inputs) : i < d.size := by
  by_cases houtside : d.IsOutside id
  · obtain ⟨-, hother, hbase⟩ := outside_cases hk hcomponent houtside
    by_cases hid : id ∈ d.bases
    · rcases hbase hid with hnone | ⟨i', f, hone, hcarries⟩
      · rw [hnone] at hi
        cases hi
      · rw [hone, List.mem_singleton] at hi
        exact hi ▸ hcarries.lt
    · rw [hother hid] at hi
      cases hi
  · exact ((hk.tidy.inner id c hcomponent houtside).sources i hi).lt hk.tidy

theorem admits_assemble (hcomponent : d.component? id = some c) : (d.assemble t).Admits id c := by
  have hlt : id < (d.assemble t).size := lt_of_component? hcomponent
  by_cases houtside : d.IsOutside id
  · obtain ⟨hkind, hother, hbase⟩ := outside_cases hk hcomponent houtside
    have hindependent : (d.assemble t).independent.get id = true :=
      (Net.get_independent hlt).mpr ((isIndependent_assemble hk hc).mpr houtside)
    constructor
    · intro hid i source hi hsource
      rcases hbase hid with hnone | ⟨i', f, hone, hcarries⟩
      · rw [hnone] at hi
        cases hi
      · rw [hone] at hi
        obtain rfl := Option.some.inj hi
        obtain ⟨source', hsource', hkind'⟩ := hcarries.transition
        obtain rfl : source' = source := Option.some.inj (hsource'.symm.trans hsource)
        exact hkind'
    · intro hid
      rcases hbase hid with hnone | ⟨i', f, hone, -⟩
      · rw [hnone]
        exact Nat.zero_le 1
      · rw [hone]
        exact Nat.le_refl 1
    · intro hid
      rw [hindependent, hkind, hother hid]
      rfl
  · have hdependent : (d.assemble t).independent.get id = false := by
      rw [← Bool.not_eq_true, Net.get_independent hlt, isIndependent_assemble hk hc]
      exact houtside
    have hbase : id ∉ d.bases := by
      intro hid
      obtain ⟨n, hn⟩ := Array.mem_iff_getElem?.mp hid
      exact houtside (isOutside_base hn)
    refine ⟨fun hid => absurd hid hbase, fun hid => absurd hid hbase, fun _ => ?_⟩
    rw [hdependent]
    exact (hk.tidy.inner id c hcomponent houtside).count

theorem reference_lt (ht : t < d.size) (hid : id ∈ (d.assemble t).references) : id < d.size := by
  have hcount := roleCount_le hk hc
  have hindex : ∀ r ∈ RoleId.all (d.assemble t).roleCount, r.index < d.roles.length := by
    intro r hr
    unfold maxRoles at hcount
    have hlt := RoleId.mem_all.mp hr
    exact Nat.lt_of_lt_of_le hlt (Nat.mod_le _ _)
  simp only [Net.references, List.mem_append, List.mem_cons, List.mem_flatMap] at hid
  rcases hid with ((rfl | rfl | hbase) | ⟨r, hr, (hinput | hlegal) | hgoal⟩) | ⟨c, hcomponent, hi⟩
  · exact hk.tidy.outside_lt isOutside_init
  · exact ht
  · obtain ⟨n, hn⟩ := Array.mem_iff_getElem?.mp (Array.mem_toList_iff.mp hbase)
    exact hk.tidy.outside_lt (isOutside_base hn)
  · change id ∈ ((RoleTable.ofRoles _ _).get? r).elim [] MoveTable.ids at hinput
    rw [RoleTable.get?_ofRoles hcount, if_pos (hindex r hr), Option.elim_some, MoveTable.ids,
      entries_inputs hk hc] at hinput
    obtain ⟨⟨m, id⟩, hmem, rfl⟩ := List.mem_map.mp hinput
    exact hk.tidy.outside_lt (isOutside_input (Array.mem_toList_iff.mp (Sketch.mem_ofRole.mp hmem)))
  · rw [legalsOf_assemble hcount (hindex r hr)] at hlegal
    exact hk.legals.lt hlegal
  · rw [goalsOf_assemble hcount (hindex r hr)] at hgoal
    exact hk.goals.lt hgoal
  · obtain ⟨id', hc'⟩ := Array.mem_iff_getElem?.mp (Array.mem_toList_iff.mp hcomponent)
    exact input_lt hk hc' hi

theorem isCircuit_assemble (ht : t < d.size) : (d.assemble t).IsCircuit := by
  have hcount := roleCount_le hk hc
  have hroles : (d.assemble t).roleCount = k.roles.length := congrArg List.length hk.roles
  constructor
  · rw [hroles]
    exact hc.roles
  · exact RoleTable.size_ofRoles hcount _
  · exact RoleTable.size_ofRoles hcount _
  · exact RoleTable.size_ofRoles hcount _
  · exact fun id => reference_lt hk hc ht
  · exact fun id c => admits_assemble hk hc
  · intro r hr
    have hlegals := hk.legals.ofRole r
    have hgoals := hk.goals.ofRole r
    obtain ⟨hsomeLegal, hsomeGoal⟩ := hc.provides r (hroles ▸ hr)
    constructor
    · rw [goalsOf_assemble hcount hr]
      intro hnone
      rw [hnone] at hgoals
      exact hsomeGoal (List.forall₂_nil_left_iff.mp hgoals)
    · rw [goalsOf_assemble hcount hr]
      intro goal hgoal
      obtain ⟨s, hs, hvalue, -⟩ := exists_of_mem_forall₂ hgoals hgoal
      rw [hvalue]
      exact (hc.goals _ (Sketch.mem_ofRole.mp hs)).2
    · rw [legalsOf_assemble hcount hr]
      intro hnone
      rw [hnone] at hlegals
      exact hsomeLegal (List.forall₂_nil_left_iff.mp hlegals)

/-- Gates rank by their places, and the propositions that read them above all gates. -/
def rank (d : Draft) (id : ComponentId) : Nat :=
  match d.component? id with
  | some c => if c.kind = .proposition then d.size else id
  | none => id

theorem isRanked_assemble : (d.assemble t).IsRanked d.rank := by
  intro id c hcomponent hdependent i hi
  have hinner : ¬ d.IsOutside id := fun houtside =>
    hdependent ((isIndependent_assemble hk hc).mpr houtside)
  have hfits := hk.tidy.inner id c hcomponent hinner
  refine ⟨input_lt hk hcomponent hi, ?_⟩
  rcases hfits.sources i hi with houtside | ⟨c', hc', hgate⟩
  · exact .inl ((isIndependent_assemble hk hc).mpr houtside)
  · right
    have hlt := input_lt hk hcomponent hi
    have hranki : d.rank i = i := by simp only [rank, hc', if_neg hgate]
    rw [hranki]
    change d.component? id = some c at hcomponent
    simp only [rank, hcomponent]
    split
    · exact hlt
    · rename_i hkind
      exact hfits.earlier hkind i hi

theorem toNet_eq_ok (ht : d.terminal = some t) (hlt : t < d.size) :
    d.toNet = .ok (d.assemble t) := by
  have hcheck := Net.wellFormed_iff.mpr (isCircuit_assemble hk hc hlt)
  refine toNet_eq_ok_iff.mpr ⟨?_, hk.tidy.connected, t, ht, ?_, ?_, ?_, hcheck, rfl⟩
  · rw [hk.roles]
    exact hc.roles
  · exact fun e he => role_lt_of_input hk hc (Array.mem_toList_iff.mp he)
  · intro e he
    obtain ⟨s, hs, hrole, -⟩ := exists_of_mem_forall₂ hk.legals he
    rw [hrole, hk.roles]
    exact hc.legals s hs
  · intro e he
    obtain ⟨s, hs, hrole, -⟩ := exists_of_mem_forall₂ hk.goals he
    rw [hrole, hk.roles]
    exact (hc.goals s hs).1

end

end Draft

end GeneralGame
