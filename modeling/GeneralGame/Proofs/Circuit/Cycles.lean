import GeneralGame.Proofs.Circuit.Arrangement
import Mathlib.Data.Fintype.Pigeonhole
import Mathlib.Data.Set.Card
import Mathlib.Logic.Relation

/-!
Why an ordering fails. A dependent component waits in vain exactly if it reads, directly or through
others, some component that depends on itself. So a net has an order of evaluation exactly if there
is no cycle, and the error counts the components that a cycle holds up and names the first of them.
-/
namespace GeneralGame

open Relation

/-- In a finite list in which everything leads on to something of the list, one comes to a cycle. -/
theorem exists_cycle_of_leads {α : Type} {r : α → α → Prop} {xs : List α}
    (hleads : ∀ x ∈ xs, ∃ y ∈ xs, r x y) {x : α} (hx : x ∈ xs) :
    ∃ y, ReflTransGen r x y ∧ TransGen r y y := by
  choose! next hmem hstep using hleads
  have hwalk : ∀ n, next^[n] x ∈ xs ∧ ReflTransGen r x (next^[n] x) := by
    intro n
    induction n with
    | zero => exact ⟨hx, .refl⟩
    | succ n ih =>
        rw [Function.iterate_succ_apply']
        exact ⟨hmem _ ih.1, ih.2.tail (hstep _ ih.1)⟩
  have honward : ∀ m n, TransGen r (next^[m] x) (next^[m + n + 1] x) := by
    intro m n
    induction n with
    | zero =>
        rw [Nat.add_zero, Function.iterate_succ_apply']
        exact .single (hstep _ (hwalk m).1)
    | succ n ih =>
        rw [Function.iterate_succ_apply']
        exact ih.tail (hstep _ (hwalk (m + n + 1)).1)
  -- Some two steps of the walk are at the same place, as there are only so many places.
  have hfinite : Finite { y // y ∈ xs } := xs.finite_toSet
  obtain ⟨m, n, hne, heq⟩ := Finite.exists_ne_map_eq_of_infinite
    fun n => (⟨next^[n] x, (hwalk n).1⟩ : { y // y ∈ xs })
  have hsame : next^[m] x = next^[n] x := congrArg Subtype.val heq
  rcases Nat.lt_or_gt_of_ne hne with hlt | hlt
  · obtain ⟨k, rfl⟩ := Nat.exists_eq_add_of_lt hlt
    exact ⟨_, (hwalk m).2, hsame ▸ honward m k⟩
  · obtain ⟨k, rfl⟩ := Nat.exists_eq_add_of_lt hlt
    exact ⟨_, (hwalk n).2, hsame ▸ honward n k⟩

namespace Net

variable {net : Net} {id i : ComponentId} {ids : List ComponentId}

/-- One dependent component is an input of another. -/
def Reads (net : Net) (id i : ComponentId) : Prop :=
  id ∈ net.dependentIds ∧ i ∈ net.dependentIds ∧ ∃ c, net.component? id = some c ∧ i ∈ c.inputs

/-- Following the inputs of a component one comes to a cycle of dependent components. -/
def ReachesCycle (net : Net) (id : ComponentId) : Prop :=
  ∃ i, ReflTransGen net.Reads id i ∧ TransGen net.Reads i i

theorem ReachesCycle.mem_dependentIds (h : net.ReachesCycle id) : id ∈ net.dependentIds := by
  obtain ⟨i, hreaches, hcycle⟩ := h
  obtain ⟨j, hreads, -⟩ := TransGen.head'_iff.mp (TransGen.trans_right hreaches hcycle)
  exact hreads.1

/-! ### What was ordered reaches no cycle -/

/-- A list in which every component stands behind those that it reads. -/
def Descends (net : Net) (ids : List ComponentId) : Prop :=
  ∀ id ∈ ids, ∀ i, net.Reads id i → i ∈ ids ∧ ids.idxOf i < ids.idxOf id

theorem descends_of_follows (h : net.follows net.independent.values ids = true) :
    net.Descends ids := by
  obtain ⟨hnodup, -, hready⟩ := follows_iff.mp h
  rintro id hid i ⟨-, hdependent, c, hc, hi⟩
  have hlt := List.idxOf_lt_length_of_mem hid
  obtain ⟨c', hc', hinputs⟩ := hready _ id (List.getElem?_idxOf hid)
  cases hc.symm.trans hc'
  have hmarked := hinputs i hi
  obtain ⟨-, hunmarked⟩ := mem_dependentIds.mp hdependent
  rw [Assignment.get_setAll, hunmarked, or_iff_right Bool.false_ne_true] at hmarked
  have hmem := List.mem_of_mem_take hmarked.1
  exact ⟨hmem, (List.mem_take_iff_idxOf_lt hmem).mp hmarked.1⟩

theorem Descends.transGen (h : net.Descends ids) (hid : id ∈ ids) (hreads : TransGen net.Reads id i) :
    i ∈ ids ∧ ids.idxOf i < ids.idxOf id := by
  induction hreads with
  | single hread => exact h id hid _ hread
  | tail _ hread ih =>
      obtain ⟨hmem, hlt⟩ := h _ ih.1 _ hread
      exact ⟨hmem, hlt.trans ih.2⟩

theorem Descends.not_reachesCycle (h : net.Descends ids) (hid : id ∈ ids) :
    ¬ net.ReachesCycle id := by
  rintro ⟨i, hreaches, hcycle⟩
  have hi : i ∈ ids := by
    rcases reflTransGen_iff_eq_or_transGen.mp hreaches with rfl | hreads
    · exact hid
    · exact (h.transGen hid hreads).1
  exact Nat.lt_irrefl _ (h.transGen hi hcycle).2

/-! ### What waits in vain reaches one -/

namespace Schedule

variable {o : Schedule} {left : List ComponentId}

/-- Whatever waits when the passes are stuck reads something else that waits. -/
theorem Valid.exists_reads (h : Valid net [] o) (hreferences : ∀ id ∈ net.references, id < net.size)
    (hstuck : IsStuck net o) (hid : id ∈ o.waiting.toList) :
    ∃ i ∈ o.waiting.toList, net.Reads id i := by
  have hdependent := h.mem_dependentIds_of_waiting hid
  have hlt := (mem_dependentIds.mp hdependent).1
  have hc : net.component? id = some net.components[id] := Array.getElem?_eq_getElem hlt
  have hunready := hstuck id hid
  rw [inputsReady, hc, Option.any_some, List.all_eq_false] at hunready
  obtain ⟨i, hi, hwaits⟩ := hunready
  rw [h.ready_iff, not_or, Bool.not_eq_true] at hwaits
  have hi' : i ∈ net.dependentIds :=
    mem_dependentIds.mpr ⟨hreferences i (mem_references_of_input hc hi), hwaits.1⟩
  exact ⟨i, (h.mem_ordered_or_waiting hi').resolve_left hwaits.2, hdependent, hi', _, hc, hi⟩

theorem Valid.mem_waiting_iff (h : Valid net [] o)
    (hreferences : ∀ id ∈ net.references, id < net.size) (hstuck : IsStuck net o) :
    id ∈ o.waiting.toList ↔ net.ReachesCycle id := by
  constructor
  · exact fun hid => exists_cycle_of_leads (fun _ => h.exists_reads hreferences hstuck) hid
  · intro hcycle
    have hordered : id ∉ o.ordered.toList := fun hmem =>
      (descends_of_follows h.follows).not_reachesCycle hmem hcycle
    exact (h.mem_ordered_or_waiting hcycle.mem_dependentIds).resolve_left hordered

/-! ### The components that wait stay in ascending order -/

theorem sublist_foldl_visit (net : Net) (left : List ComponentId) (o : Schedule) :
    (left.foldl (visit net) o).waiting.toList.Sublist (o.waiting.toList ++ left) := by
  induction left generalizing o with
  | nil => simp
  | cons id left ih =>
      rw [List.foldl_cons]
      refine (ih (visit net o id)).trans ?_
      rw [visit]
      split
      · simp
      · simp

theorem sublist_settle (net : Net) (fuel : Nat) (o : Schedule) :
    (settle net fuel o).waiting.toList.Sublist o.waiting.toList := by
  induction fuel generalizing o with
  | zero => exact .refl _
  | succ fuel ih =>
      rw [settle]
      split
      · refine (ih (o.pass net)).trans ?_
        rw [pass, ← Array.foldl_toList]
        simpa using sublist_foldl_visit net o.waiting.toList { o with waiting := #[] }
      · exact .refl _

end Schedule

/-- Where the passes end: what waits then is, in ascending order, what reaches a cycle. -/
theorem settled (h : ∀ id ∈ net.references, id < net.size) :
    let o := (Schedule.start net).settle net net.size
    (∀ id, id ∈ o.waiting.toList ↔ net.ReachesCycle id) ∧
      o.waiting.toList.Pairwise (· < ·) := by
  have hvalid := Schedule.valid_settle net.size (Schedule.valid_start net)
  have hstuck := Schedule.isStuck_settle net net.size (Schedule.size_waiting_start_le net)
  refine ⟨fun id => hvalid.mem_waiting_iff h hstuck, ?_⟩
  have hsublist := Schedule.sublist_settle net net.size (Schedule.start net)
  rw [Schedule.waiting_start] at hsublist
  exact (List.pairwise_lt_range.filter _).sublist hsublist

theorem ncard_reachesCycle {waiting : Array ComponentId}
    (hmem : ∀ id, id ∈ waiting.toList ↔ net.ReachesCycle id) (hnodup : waiting.toList.Nodup) :
    {id | net.ReachesCycle id}.ncard = waiting.size := by
  have hset : {id | net.ReachesCycle id} = (waiting.toList.toFinset : Set ComponentId) := by
    ext id
    simp [← hmem]
  rw [hset, Set.ncard_coe_finset, List.toFinset_card_of_nodup hnodup, Array.length_toList]

/-- The outcome of an ordering: an order if nothing reaches a cycle, and otherwise the number of the
components that do, with the label of the smallest. -/
theorem order_cases (h : ∀ id ∈ net.references, id < net.size) :
    (∃ ids, net.order = .ok ids ∧ ∀ id, ¬ net.ReachesCycle id) ∨
      ∃ first, IsLeast {id | net.ReachesCycle id} first ∧
        net.order =
          .error (.cyclicDependency {id | net.ReachesCycle id}.ncard (net.label first)) := by
  obtain ⟨hmem, hascending⟩ := settled h
  rw [order]
  generalize (Schedule.start net).settle net net.size = o at hmem hascending
  cases hfirst : o.waiting[0]? with
  | none =>
      have hempty : o.waiting.toList = [] := by simpa using hfirst
      exact .inl ⟨_, rfl, fun id => by simp [← hmem, hempty]⟩
  | some first =>
      have hncard := ncard_reachesCycle hmem (hascending.imp Nat.ne_of_lt)
      refine .inr ⟨first, ⟨?_, ?_⟩, by rw [hncard]⟩
      · exact (hmem first).mp (Array.mem_toList_iff.mpr (Array.mem_of_getElem? hfirst))
      · intro id hid
        rw [← Array.getElem?_toList] at hfirst
        obtain ⟨rest, hrest⟩ : ∃ rest, o.waiting.toList = first :: rest := by
          cases hlist : o.waiting.toList with
          | nil => simp [hlist] at hfirst
          | cons x rest => exact ⟨rest, by simpa [hlist] using hfirst⟩
        have hid := (hmem id).mpr hid
        rw [hrest] at hid hascending
        rcases List.mem_cons.mp hid with rfl | hid
        · exact Nat.le_refl _
        · exact Nat.le_of_lt (List.rel_of_pairwise_cons hascending hid)

theorem exists_order_iff (h : ∀ id ∈ net.references, id < net.size) :
    (∃ ids, net.order = .ok ids) ↔ ∀ id, ¬ TransGen net.Reads id id := by
  constructor
  · rintro ⟨ids, hids⟩ id hcycle
    rcases order_cases h with ⟨_, -, hfree⟩ | ⟨_, -, herror⟩
    · exact hfree id ⟨id, .refl, hcycle⟩
    · cases hids.symm.trans herror
  · intro hfree
    rcases order_cases h with ⟨ids, hids, -⟩ | ⟨first, hfirst, -⟩
    · exact ⟨ids, hids⟩
    · obtain ⟨i, -, hcycle⟩ := hfirst.1
      exact absurd hcycle (hfree i)

/-- The passes always end, with look-ups that all find their entries. They come to an order exactly
if no dependent component depends on itself, and then to one that arranges the dependent components
and passes the check of orders. Otherwise the error tells how many components reach a cycle, and the
label of the first of them. -/
theorem order_arranges_or_names_cycle (h : net.WellFormed) :
    net.orderAt.InRange net.order ∧
      ((∃ ids, net.order = .ok ids) ↔ ∀ id, ¬ TransGen net.Reads id id) ∧
      (∀ ids, net.order = .ok ids → net.Arranges ids ∧ net.isOrder ids = true) ∧
      ∀ e, net.order = .error e → ∃ first, IsLeast {id | net.ReachesCycle id} first ∧
        e = .cyclicDependency {id | net.ReachesCycle id}.ncard (net.label first) := by
  have hreferences := (wellFormed_iff.mp h).references
  refine ⟨inRange_orderAt hreferences, exists_order_iff hreferences, fun ids hids => ?_, ?_⟩
  · exact ⟨arranges_of_isOrder (isOrder_of_order hids), isOrder_of_order hids⟩
  · intro e he
    rcases order_cases hreferences with ⟨ids, hids, -⟩ | ⟨first, hfirst, herror⟩
    · cases he.symm.trans hids
    · cases he.symm.trans herror
      exact ⟨first, hfirst, rfl⟩

/-- Two views that read each other, and three propositions that read one of them. -/
def whirl : Draft := .ofDeclarations ["watcher"]
  [.legal (.ofIndex 0) .noop, .goal (.ofIndex 0) 0, .terminal, .view "here", .view "there",
    .connect 4 5, .connect 5 4, .connect 4 1, .connect 4 2, .connect 4 3]

theorem whirl_toNet : whirl.toNet = .ok (whirl.assemble 3) := by rfl

/-- A light that feeds back into itself through a fact is no cycle, as the fact is set from outside.
The two views are one, which holds up all five components. -/
theorem order_arranges_or_names_cycle_whirl :
    (∀ id, ¬ TransGen (blinker.assemble 6).Reads id id) ∧
      ∃ first, IsLeast {id | (whirl.assemble 3).ReachesCycle id} first ∧
        {id | (whirl.assemble 3).ReachesCycle id}.ncard = 5 ∧
        (whirl.assemble 3).label first = "legal 0 noop" := by
  have hblinker := order_arranges_or_names_cycle (IsAccepted.drafted _ blinker_toNet).wellFormed
  have hwhirl := order_arranges_or_names_cycle (IsAccepted.drafted _ whirl_toNet).wellFormed
  refine ⟨hblinker.2.1.mp ⟨[2, 3, 4, 5, 6], by decide⟩, ?_⟩
  obtain ⟨first, hfirst, herror⟩ := hwhirl.2.2.2 (.cyclicDependency 5 "legal 0 noop") (by decide)
  injection herror with hcount hlabel
  exact ⟨first, hfirst, hcount.symm, hlabel.symm⟩

end Net

end GeneralGame
