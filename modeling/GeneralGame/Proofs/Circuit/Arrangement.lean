import GeneralGame.Proofs.Circuit.Lookups

/-!
Which lists are orders of evaluation: those of the dependent components in an order in which each
comes after all that it reads. The passes give such a list whenever they give one at all. A version
of the check with a table of positions and with look-ups by place decides the same of every list.
-/
namespace GeneralGame.Net

variable {net : Net} {a : Assignment} {id i : ComponentId} {ids : List ComponentId}

/-- The list has every dependent component exactly once, and what a component reads is set from
outside or stands strictly before it. -/
structure Arranges (net : Net) (ids : List ComponentId) : Prop where
  perm : ids.Perm net.dependentIds
  earlier : ∀ (pos : Nat) id c, ids[pos]? = some id → net.component? id = some c →
    ∀ i ∈ c.inputs, net.IsIndependent i ∨ i ∈ ids.take pos

theorem follows_iff : net.follows a.values ids = true ↔
    ids.Nodup ∧ (∀ id ∈ ids, id < a.values.size ∧ a.get id = false) ∧
      ∀ (pos : Nat) id, ids[pos]? = some id → net.IsReady (a.setAll (ids.take pos)) id := by
  constructor
  · intro h
    refine ⟨nodup_of_follows h, unmarked_of_follows h, fun pos id hid => ?_⟩
    obtain ⟨hlt, rfl⟩ := List.getElem?_eq_some_iff.mp hid
    rw [← List.take_append_drop pos ids, List.drop_eq_getElem_cons hlt, follows_append,
      follows_cons] at h
    exact h.2.2.1
  · rintro ⟨hnodup, hnew, hready⟩
    induction ids generalizing a with
    | nil => rfl
    | cons first rest ih =>
        obtain ⟨hfirst, hnodup⟩ := List.nodup_cons.mp hnodup
        refine follows_cons.mpr ⟨hnew first List.mem_cons_self, hready 0 first rfl, ?_⟩
        apply ih hnodup
        · intro id hid
          have hne : first ≠ id := fun heq => hfirst (heq ▸ hid)
          simpa [Assignment.get_set_of_ne hne] using hnew id (List.mem_cons_of_mem first hid)
        · intro pos id hid
          exact hready (pos + 1) id hid

theorem arranges_of_isOrder (h : net.isOrder ids = true) : net.Arranges ids where
  perm := perm_of_isOrder h
  earlier pos id c hid hc i hi := by
    obtain ⟨-, -, hready⟩ := follows_iff.mp (isOrder_iff.mp h).2
    obtain ⟨c', hc', hinputs⟩ := hready pos id hid
    cases hc.symm.trans hc'
    have hmarked := hinputs i hi
    have hlt := Assignment.lt_size_of_get hmarked
    simp only [Assignment.size_setAll, size_independent] at hlt
    rw [Assignment.get_setAll, get_independent hlt] at hmarked
    exact hmarked.imp_right And.left

theorem isOrder_of_arranges (hnet : ∀ id ∈ net.references, id < net.size) (h : net.Arranges ids) :
    net.isOrder ids = true := by
  have hnew : ∀ id ∈ ids, id < net.size ∧ net.independent.get id = false := fun id hid =>
    mem_dependentIds.mp (h.perm.mem_iff.mp hid)
  refine isOrder_iff.mpr ⟨h.perm.length_eq.symm, follows_iff.mpr ⟨?_, ?_, ?_⟩⟩
  · exact h.perm.nodup_iff.mpr net.nodup_dependentIds
  · simpa only [size_independent] using hnew
  · intro pos id hid
    have hlt := (hnew id (List.mem_of_getElem? hid)).1
    have hc : net.component? id = some net.components[id] := Array.getElem?_eq_getElem hlt
    refine ⟨_, hc, fun i hi => ?_⟩
    have hi' : i < net.size := hnet i (mem_references_of_input hc hi)
    rw [Assignment.get_setAll, get_independent hi', size_independent, and_iff_left hi']
    exact h.earlier pos id _ hid hc i hi

/-! ### The check with a table of positions -/

/-- Enters the position of a component. It is refused if it does not exist, is set from outside or
has a position already. -/
def enterPosition (net : Net) (positions : Array (Option Nat)) (entry : ComponentId × Nat) :
    Option (Array (Option Nat)) :=
  if net.independentMask.getD entry.1 true then none
  else match positions[entry.1]? with
    | some none => some (positions.setIfInBounds entry.1 (some entry.2))
    | _ => none

/-- The position of every listed component, if none of them is refused. -/
def positions? (net : Net) (ids : List ComponentId) : Option (Array (Option Nat)) :=
  ids.zipIdx.foldlM net.enterPosition (Array.replicate net.size none)

/-- Whether an input is set from outside or has a position before `pos`. -/
def isEarlierAt (net : Net) (positions : Array (Option Nat)) (pos : Nat) (i : ComponentId) :
    Option Bool := do
  if ← net.independentMask[i]? then return true
  return (← positions[i]?).any (· < pos)

/-- `isOrder` with a table of positions; nothing comes of it where a look-up finds no entry. -/
def isOrderAt (net : Net) (ids : List ComponentId) : Option Bool :=
  match net.positions? ids with
  | none => some false
  | some positions =>
    if net.independentMask.count false = ids.length then
      ids.zipIdx.allM fun (id, pos) =>
        match net.component? id with
        | none => some false
        | some c => c.inputs.allM (net.isEarlierAt positions pos)
    else some false

theorem enterPosition_eq_some {positions positions' : Array (Option Nat)} {pos : Nat} :
    net.enterPosition positions (id, pos) = some positions' ↔
      (net.independentMask.getD id true = false ∧ positions[id]? = some none) ∧
        positions' = positions.setIfInBounds id (some pos) := by
  rw [enterPosition]
  cases hmask : net.independentMask.getD id true with
  | true => simp
  | false =>
      rcases hposition : positions[id]? with _ | _ | _ <;> simp [eq_comm]

/-- What may be entered: new components, each once. -/
def Enterable (net : Net) (positions : Array (Option Nat)) (ids : List ComponentId) : Prop :=
  ids.Nodup ∧ ∀ id ∈ ids, net.independentMask.getD id true = false ∧ positions[id]? = some none

theorem enterable_cons {positions : Array (Option Nat)} (pos : Nat) :
    net.Enterable positions (id :: ids) ↔
      (net.independentMask.getD id true = false ∧ positions[id]? = some none) ∧
        net.Enterable (positions.setIfInBounds id (some pos)) ids := by
  have hset : ∀ {i}, positions[id]? = some none → ((positions.setIfInBounds id (some pos))[i]? =
      some none ↔ id ≠ i ∧ positions[i]? = some none) := by
    intro i hid
    obtain ⟨hlt, -⟩ := Array.getElem?_eq_some_iff.mp hid
    rw [Array.getElem?_setIfInBounds]
    by_cases hi : id = i
    · subst hi
      simp [hlt]
    · simp [hi]
  simp only [Enterable, List.nodup_cons, List.forall_mem_cons]
  constructor
  · rintro ⟨⟨hid, hnodup⟩, hnew, hrest⟩
    refine ⟨hnew, hnodup, fun i hi => ⟨(hrest i hi).1, (hset hnew.2).mpr ⟨?_, (hrest i hi).2⟩⟩⟩
    rintro rfl
    exact hid hi
  · rintro ⟨hnew, hnodup, hrest⟩
    have hne : ∀ i ∈ ids, id ≠ i ∧ positions[i]? = some none := fun i hi =>
      (hset hnew.2).mp (hrest i hi).2
    exact ⟨⟨fun hid => (hne id hid).1 rfl, hnodup⟩, hnew,
      fun i hi => ⟨(hrest i hi).1, (hne i hi).2⟩⟩

/-- The table after some components were entered, the first of them at `pos`. -/
theorem foldlM_enterPosition {positions : Array (Option Nat)} (pos : Nat)
    (h : net.Enterable positions ids) :
    ∃ positions', (ids.zipIdx pos).foldlM net.enterPosition positions = some positions' ∧
      ∀ i, positions'[i]? = if i ∈ ids then some (some (pos + ids.idxOf i)) else positions[i]? := by
  induction ids generalizing positions pos with
  | nil => exact ⟨positions, rfl, fun i => rfl⟩
  | cons id ids ih =>
      obtain ⟨hnew, hrest⟩ := (enterable_cons pos).mp h
      obtain ⟨hid, -⟩ := List.nodup_cons.mp h.1
      obtain ⟨positions', hfold, hget⟩ := ih (pos + 1) hrest
      refine ⟨positions', ?_, fun i => ?_⟩
      · rw [List.zipIdx_cons, List.foldlM_cons, enterPosition_eq_some.mpr ⟨hnew, rfl⟩]
        exact hfold
      · obtain ⟨hlt, -⟩ := Array.getElem?_eq_some_iff.mp hnew.2
        rw [hget, Array.getElem?_setIfInBounds]
        by_cases hi : id = i
        · subst hi
          simp [hid, hlt]
        · by_cases hmem : i ∈ ids
          · simp [hmem, List.idxOf_cons_ne _ hi, Nat.add_right_comm, Nat.add_assoc]
          · simp [hmem, hi, Ne.symm hi]

theorem enterable_of_foldlM {positions positions' : Array (Option Nat)} {pos : Nat}
    (h : (ids.zipIdx pos).foldlM net.enterPosition positions = some positions') :
    net.Enterable positions ids := by
  induction ids generalizing positions pos with
  | nil => exact ⟨.nil, nofun⟩
  | cons id ids ih =>
      rw [List.zipIdx_cons, List.foldlM_cons] at h
      obtain ⟨entered, henter, hfold⟩ := Option.bind_eq_some_iff.mp h
      obtain ⟨hnew, rfl⟩ := enterPosition_eq_some.mp henter
      exact (enterable_cons pos).mpr ⟨hnew, ih hfold⟩

theorem enterable_iff : net.Enterable (Array.replicate net.size none) ids ↔
    ids.Nodup ∧ ∀ id ∈ ids, id < net.size ∧ net.independent.get id = false := by
  refine and_congr_right' (forall₂_congr fun id _ => ?_)
  have hnew : net.independentMask.getD id true = false ↔
      id < net.independent.values.size ∧ net.independent.get id = false := isNew_iff
  rw [hnew, size_independent]
  simp +contextual [Array.getElem?_replicate]

/-- Looking up a position is looking at what is marked once the components before are. -/
theorem isEarlierAt_eq {positions : Array (Option Nat)} (hi : i < net.size)
    (hpositions : positions[i]? = some (if i ∈ ids then some (ids.idxOf i) else none)) (pos : Nat) :
    net.isEarlierAt positions pos i = some ((net.independent.setAll (ids.take pos)).get i) := by
  have hlt : i < net.independentMask.size := by
    have hsize := net.size_independent
    exact hsize ▸ hi
  have hmask : net.independentMask[i]? = some (net.independent.get i) := by
    simp [independent, Assignment.get, hlt]
  have hget : (net.independent.setAll (ids.take pos)).get i =
      (net.independent.get i || decide (i ∈ ids.take pos)) := by
    rw [Bool.eq_iff_iff, Assignment.get_setAll, size_independent]
    simp [hi]
  rw [isEarlierAt, hmask, hpositions, hget]
  by_cases hmem : i ∈ ids
  · cases net.independent.get i <;> simp [hmem, List.mem_take_iff_idxOf_lt hmem]
  · have htake : i ∉ ids.take pos := fun h => hmem (List.mem_of_mem_take h)
    cases net.independent.get i <;> simp [hmem, htake]

/-- With the positions of all listed components, the look-ups say whether each follows its inputs. -/
theorem allM_isEarlierAt {positions : Array (Option Nat)} (h : net.WellFormed)
    (hentered : net.Enterable (Array.replicate net.size none) ids)
    (hpositions : ∀ i < net.size,
      positions[i]? = some (if i ∈ ids then some (ids.idxOf i) else none)) :
    (ids.zipIdx.allM fun (id, pos) =>
        match net.component? id with
        | none => some false
        | some c => c.inputs.allM (net.isEarlierAt positions pos)) =
      some (net.follows net.independent.values ids) := by
  have hreferences := (wellFormed_iff.mp h).references
  have hready : ∀ entry ∈ ids.zipIdx,
      (match net.component? entry.1 with
        | none => some false
        | some c => c.inputs.allM (net.isEarlierAt positions entry.2)) =
      some (Schedule.inputsReady net (net.independent.setAll (ids.take entry.2)).values entry.1) := by
    rintro ⟨id, pos⟩ -
    rw [Schedule.inputsReady]
    cases hc : net.component? id with
    | none => rfl
    | some c =>
        apply allM_eq_some
        intro i hi
        have hlt := hreferences i (mem_references_of_input hc hi)
        exact isEarlierAt_eq hlt (hpositions i hlt) pos
  have hentries : ids.Nodup ∧ ∀ id ∈ ids, id < net.size ∧ net.independent.get id = false :=
    enterable_iff.mp hentered
  rw [allM_eq_some hready, Option.some.injEq, Bool.eq_iff_iff, List.all_eq_true, follows_iff,
    size_independent, and_iff_right hentries.1, and_iff_right hentries.2]
  simp only [inputsReady_iff]
  exact ⟨fun hall pos id hid => hall (id, pos) (List.mk_mem_zipIdx_iff_getElem?.mpr hid),
    fun hall entry hmem => hall entry.2 entry.1 (List.mk_mem_zipIdx_iff_getElem?.mp hmem)⟩

theorem isOrderAt_eq (h : net.WellFormed) (ids : List ComponentId) :
    net.isOrderAt ids = some (net.isOrder ids) := by
  rw [isOrderAt, isOrder]
  cases hpositions : net.positions? ids with
  | none =>
      have hfollows : net.follows net.independent.values ids = false := by
        rw [← Bool.not_eq_true]
        intro hfollows
        obtain ⟨hnodup, hnew, -⟩ := follows_iff.mp hfollows
        have hentered := enterable_iff.mpr ⟨hnodup, by simpa only [size_independent] using hnew⟩
        obtain ⟨positions, hfold, -⟩ := foldlM_enterPosition 0 hentered
        cases hpositions.symm.trans hfold
      change net.follows net.independentMask ids = false at hfollows
      simp [hfollows]
  | some positions =>
      have hentered := enterable_of_foldlM hpositions
      obtain ⟨positions', hfold, hget⟩ := foldlM_enterPosition 0 hentered
      cases hpositions.symm.trans hfold
      have hplaces : ∀ i < net.size,
          positions[i]? = some (if i ∈ ids then some (ids.idxOf i) else none) := by
        intro i hi
        rw [hget]
        split <;> simp [hi]
      dsimp only
      rw [allM_isEarlierAt h hentered hplaces]
      by_cases hcount : net.independentMask.count false = ids.length <;> simp [hcount, independent]

/-- Of every list of components, also of ones that do not exist or stand in it twice, the check
tells whether it arranges the dependent components; with look-ups by place it comes to the same, so
that every look-up finds its entry. -/
theorem isOrder_decides_arrangement (h : net.WellFormed) (ids : List ComponentId) :
    net.isOrderAt ids = some (net.isOrder ids) ∧ (net.isOrder ids = true ↔ net.Arranges ids) :=
  ⟨isOrderAt_eq h ids, arranges_of_isOrder, isOrder_of_arranges (wellFormed_iff.mp h).references⟩

/-- A light that goes on and off while a watcher waits. -/
def blinker : Draft := .ofDeclarations ["watcher"]
  [.base "on", .not 1, .next 1 2, .legal (.ofIndex 0) .noop, .connect 2 4, .goal (.ofIndex 0) 100,
    .connect 1 5, .terminal]

theorem blinker_toNet : blinker.toNet = .ok (blinker.assemble 6) := by rfl

/-- The legal proposition may come anywhere after the gate that feeds it, and not before; a list
with a component twice and another that does not exist is refused. -/
theorem isOrder_decides_arrangement_blinker : ∃ net, blinker.toNet = .ok net ∧
    net.Arranges [6, 2, 5, 4, 3] ∧ ¬ net.Arranges [4, 2, 3, 5, 6] ∧
      net.isOrderAt [2, 2, 99, 3, 4] = some false := by
  have hnet : (blinker.assemble 6).WellFormed := (IsAccepted.drafted _ blinker_toNet).wellFormed
  have hdecides := isOrder_decides_arrangement hnet
  refine ⟨_, blinker_toNet, (hdecides _).2.mp (by decide), ?_, ?_⟩
  · rw [← (hdecides _).2]
    decide
  · rw [(hdecides _).1]
    decide

end GeneralGame.Net
