import GeneralGame.Proofs.Circuit.Check
import GeneralGame.Proofs.Circuit.Order

/-!
Evaluation solves the circuit. An assignment solves a net for given values if the components that
are set from outside have these values and each of the others has the value that it computes from
its inputs. There is exactly one solution, and one pass along any order of evaluation finds it.
-/
namespace GeneralGame

theorem Component.output_congr {c : Component} {f g : ComponentId → Bool}
    (h : ∀ i ∈ c.inputs, f i = g i) : c.output f = c.output g := by
  have hhead : c.inputs.head?.any f = c.inputs.head?.any g := by
    cases hinputs : c.inputs with
    | nil => rfl
    | cons i rest => exact h i (by rw [hinputs]; exact List.mem_cons_self)
  unfold output
  cases c.kind with
  | and =>
      change c.inputs.all f = c.inputs.all g
      rw [Bool.eq_iff_iff, List.all_eq_true, List.all_eq_true]
      exact forall₂_congr fun i hi => by rw [h i hi]
  | or =>
      change c.inputs.any f = c.inputs.any g
      rw [Bool.eq_iff_iff, List.any_eq_true, List.any_eq_true]
      exact exists_congr fun i => and_congr_right fun hi => by rw [h i hi]
  | not => exact congrArg Bool.not hhead
  | proposition => exact hhead
  | transition => exact hhead
  | constant v => rfl

namespace Net

variable {net : Net} {a u v : Assignment} {ids : List ComponentId}

/-- An assignment that gives the independent components the given values, and every other component
what it computes from its inputs. -/
structure Solves (net : Net) (given : ComponentId → Prop) (v : Assignment) : Prop where
  size : v.values.size = net.size
  independent : ∀ id, net.IsIndependent id → (v.get id = true ↔ given id)
  dependent : ∀ id c, net.component? id = some c → ¬ net.IsIndependent id →
    v.get id = c.output v.get

theorem propagate_cons {id : ComponentId} {c : Component} (h : net.component? id = some c) :
    net.propagate (id :: ids) u = net.propagate ids (u.set id (c.output u.get)) := by
  simp only [propagate, List.foldl_cons, h]

theorem size_propagate (net : Net) (ids : List ComponentId) (u : Assignment) :
    (net.propagate ids u).values.size = u.values.size := by
  induction ids generalizing u with
  | nil => rfl
  | cons id ids ih =>
      cases hc : net.component? id with
      | some c => rw [propagate_cons hc, ih, Assignment.size_set]
      | none =>
          simp only [propagate, List.foldl_cons, hc]
          exact ih u

theorem get_propagate_of_not_mem {i : ComponentId} (h : i ∉ ids) :
    (net.propagate ids u).get i = u.get i := by
  induction ids generalizing u with
  | nil => rfl
  | cons id ids ih =>
      rw [List.mem_cons, not_or] at h
      cases hc : net.component? id with
      | some c => rw [propagate_cons hc, ih h.2, Assignment.get_set_of_ne (Ne.symm h.1)]
      | none =>
          simp only [propagate, List.foldl_cons, hc]
          exact ih h.2

/-- What is computed once stays: a component comes after its inputs, and none of these comes
again. -/
theorem propagate_computes (hsize : a.values.size = u.values.size)
    (hfollows : net.follows a.values ids = true) {id : ComponentId} (hid : id ∈ ids)
    {c : Component} (hc : net.component? id = some c) :
    (net.propagate ids u).get id = c.output (net.propagate ids u).get := by
  induction ids generalizing a u with
  | nil => cases hid
  | cons first ids ih =>
      obtain ⟨hnew, ⟨c', hc', hinputs⟩, hrest⟩ := follows_cons.mp hfollows
      rw [propagate_cons hc']
      rcases List.mem_cons.mp hid with rfl | hid
      · rw [hc] at hc'
        cases hc'
        have hlast := not_mem_of_follows hrest hnew.1
        have hlt : id < u.values.size := hsize ▸ hnew.1
        rw [get_propagate_of_not_mem hlast, Assignment.get_set_self hlt]
        apply Component.output_congr
        intro i hi
        -- An input was marked before, so neither this component nor a later one overwrites it.
        have hmarked := hinputs i hi
        have hne : id ≠ i := by
          rintro rfl
          rw [hnew.2] at hmarked
          cases hmarked
        have hearlier : i ∉ ids := by
          intro hmem
          have hunmarked := (unmarked_of_follows hrest i hmem).2
          rw [Assignment.get_set_of_ne hne, hmarked] at hunmarked
          cases hunmarked
        rw [get_propagate_of_not_mem hearlier, Assignment.get_set_of_ne hne]
      · apply ih _ hrest hid
        rw [Assignment.size_set, Assignment.size_set]
        exact hsize

/-- Whatever has the same values at the start and computes every component of the list agrees with
the pass, by induction along the order. -/
theorem propagate_unique (hsize : a.values.size = u.values.size)
    (hfollows : net.follows a.values ids = true) (hstart : ∀ i, a.get i = true → v.get i = u.get i)
    (hcomputes : ∀ id ∈ ids, ∀ c, net.component? id = some c → v.get id = c.output v.get)
    {i : ComponentId} (hi : a.get i = true ∨ i ∈ ids) :
    v.get i = (net.propagate ids u).get i := by
  induction ids generalizing a u with
  | nil =>
      rcases hi with hi | hi
      · exact hstart i hi
      · cases hi
  | cons first ids ih =>
      obtain ⟨hnew, ⟨c, hc, hinputs⟩, hrest⟩ := follows_cons.mp hfollows
      rw [propagate_cons hc]
      have hlt : first < u.values.size := hsize ▸ hnew.1
      apply ih _ hrest
      · intro k hk
        by_cases hfirst : first = k
        · subst hfirst
          rw [Assignment.get_set_self hlt, hcomputes first List.mem_cons_self c hc]
          apply Component.output_congr
          intro input hinput
          exact hstart input (hinputs input hinput)
        · rw [Assignment.get_set_of_ne hfirst] at hk ⊢
          exact hstart k hk
      · exact fun id hid => hcomputes id (List.mem_cons_of_mem first hid)
      · rcases hi with hi | hi
        · left
          rw [Assignment.get_set]
          split
          · rfl
          · exact hi
        · rcases List.mem_cons.mp hi with rfl | hi
          · exact .inl (Assignment.get_set_self hnew.1)
          · exact .inr hi
      · rw [Assignment.size_set, Assignment.size_set]
        exact hsize

/-- The pass along an order finds the solution for the values that it starts with, and there is no
other one. -/
theorem solves_iff {given : ComponentId → Prop} (horder : net.isOrder ids = true)
    (hsize : u.values.size = net.size) (hgiven : ∀ id, u.get id = true ↔ given id) :
    net.Solves given v ↔ v = net.propagate ids u := by
  have hfollows := (isOrder_iff.mp horder).2
  have hmask : net.independent.values.size = u.values.size := net.size_independent.trans hsize.symm
  have hresult : (net.propagate ids u).values.size = net.size := by
    rw [size_propagate, hsize]
  constructor
  · intro h
    apply Assignment.ext_get (h.size.trans hresult.symm)
    intro i hi
    rw [h.size] at hi
    apply propagate_unique hmask hfollows
    · intro k hk
      have hlt := Assignment.lt_size_of_get hk
      rw [size_independent] at hlt
      rw [Bool.eq_iff_iff, h.independent k ((get_independent hlt).mp hk), hgiven]
    · intro id hid c hc
      exact h.dependent id c hc (not_isIndependent_of_mem hfollows hid)
    · cases hmarked : net.independent.get i with
      | true => exact .inl rfl
      | false => exact .inr (mem_of_isOrder horder hi hmarked)
  · rintro rfl
    constructor
    · exact hresult
    · intro id hid
      have hkept : id ∉ ids := fun hmem => not_isIndependent_of_mem hfollows hmem hid
      rw [get_propagate_of_not_mem hkept, hgiven]
    · intro id c hc hdependent
      have hlt : id < net.size := (Array.getElem?_eq_some_iff.mp hc).1
      have hunmarked : net.independent.get id = false := by
        rw [← Bool.not_eq_true, get_independent hlt]
        exact hdependent
      exact propagate_computes hmask hfollows (mem_of_isOrder horder hlt hunmarked) hc

/-- The order of evaluation does not matter. -/
theorem propagate_eq_of_isOrder {ids' : List ComponentId} (h : net.isOrder ids = true)
    (h' : net.isOrder ids' = true) (hsize : u.values.size = net.size) :
    net.propagate ids u = net.propagate ids' u := by
  have hsolves : net.Solves (fun id => u.get id = true) (net.propagate ids u) :=
    (solves_iff h hsize fun _ => Iff.rfl).mpr rfl
  exact (solves_iff h' hsize fun _ => Iff.rfl).mp hsolves

end Net

end GeneralGame
