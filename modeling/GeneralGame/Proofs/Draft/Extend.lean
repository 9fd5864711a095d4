import GeneralGame.Proofs.Draft.Sketch

/-!
How drafts change. A step appends components and may connect some of them; what was computed before
stays computed.
-/
namespace GeneralGame.Draft

variable {d d' : Draft} {k k' : Sketch} {id i : ComponentId} {c : Component} {f g : Signal}

theorem forall_getElem?_singleton {α : Type} {p : Nat → α → Prop} {a : α} (h : p 0 a) :
    ∀ i b, [a][i]? = some b → p i b := by
  intro i b hb
  cases i with
  | zero => exact Option.some.inj hb ▸ h
  | succ i => cases hb

/-! ### More components -/

/-- The draft with more components. -/
def extend (d : Draft) (cs : List Component) : Draft := { d with components := d.components ++ cs }

theorem component?_extend (d : Draft) (cs : List Component) (id : ComponentId) :
    (d.extend cs).component? id = (d.components.toList ++ cs)[id]? := by
  rw [component?, extend, ← Array.getElem?_toList, Array.toList_appendList]

theorem component?_extend_of_lt (hid : id < d.size) (cs : List Component) :
    (d.extend cs).component? id = d.component? id := by
  rw [component?_extend, List.getElem?_append_left hid, Array.getElem?_toList]
  rfl

theorem component?_extend_add (d : Draft) (cs : List Component) (i : Nat) :
    (d.extend cs).component? (d.size + i) = cs[i]? := by
  have hle : d.components.toList.length ≤ d.size + i := Nat.le_add_right _ _
  rw [component?_extend, List.getElem?_append_right hle]
  exact congrArg (cs[·]?) (Nat.add_sub_cancel_left d.size i)

theorem component?_extend_size (d : Draft) (c : Component) (cs : List Component) :
    (d.extend (c :: cs)).component? d.size = some c :=
  component?_extend_add d (c :: cs) 0

theorem size_extend (d : Draft) (cs : List Component) : (d.extend cs).size = d.size + cs.length := by
  rw [size, extend, size, ← Array.length_toList, Array.toList_appendList, List.length_append,
    Array.length_toList]

/-- What is set from outside may come with the new components, but is none of the old ones. -/
theorem grows_of_extend {cs : List Component} (hcomponents : d'.components = d.components ++ cs)
    (hbases : ∃ ids, d'.bases.toList = d.bases.toList ++ ids)
    (hinputs : ∃ entries, d'.inputs.toList = d.inputs.toList ++ entries)
    (hold : ∀ id < d.size, d'.IsOutside id → d.IsOutside id) : d.Grows d' := by
  obtain ⟨ids, hbases⟩ := hbases
  obtain ⟨entries, hinputs⟩ := hinputs
  have hsame : ∀ id c, d.component? id = some c → d'.component? id = some c := by
    intro id c hc
    rw [← hc, ← component?_extend_of_lt (lt_of_component? hc) cs, component?, component?,
      hcomponents, extend]
  have hbase : ∀ (n : FactId) (id : ComponentId), d.bases[n]? = some id → d'.bases[n]? = some id := by
    intro n id hid
    have hlt : n < d.bases.toList.length := (Array.getElem?_eq_some_iff.mp hid).1
    rw [← Array.getElem?_toList, hbases, List.getElem?_append_left hlt, Array.getElem?_toList, hid]
  constructor
  · exact hbase
  · intro id hid
    rw [IsOutside, outsideIds, hbases, hinputs] at *
    simp only [List.cons_append, List.mem_cons, List.mem_append, List.map_append] at *
    rcases hid with hid | hid | hid
    · exact .inl hid
    · exact .inr (.inl (.inl hid))
    · exact .inr (.inr (.inl hid))
  · exact fun id c hc => ⟨c, hsame id c hc, rfl⟩
  · intro x v hv
    constructor
    · exact hv.start
    · exact fun n id hid => hv.fact n id (hbase n id hid)
    · intro r m id hid
      apply hv.does r m id
      rw [← Array.mem_toList_iff, hinputs]
      exact List.mem_append_left entries (Array.mem_toList_iff.mpr hid)
    · intro id c hc hinner
      exact hv.inner id c (hsame id c hc) fun hid => hinner (hold id (lt_of_component? hc) hid)

theorem grows_extend (d : Draft) (cs : List Component) : d.Grows (d.extend cs) :=
  grows_of_extend rfl ⟨[], (List.append_nil _).symm⟩ ⟨[], (List.append_nil _).symm⟩ fun _ _ h => h

theorem component?_extend_of_some (hc : d.component? id = some c) (cs : List Component) :
    (d.extend cs).component? id = some c := by
  rw [component?_extend_of_lt (lt_of_component? hc), hc]

/-- None of the new components is set from outside. -/
theorem Tidy.not_isOutside_new (h : d.Tidy) (cs : List Component) (i : Nat) :
    ¬ (d.extend cs).IsOutside (d.size + i) :=
  fun hid => Nat.not_lt.mpr (Nat.le_add_right _ i) (h.outside_lt hid)

theorem Tidy.extend (h : d.Tidy) {cs : List Component}
    (hfits : ∀ i c, cs[i]? = some c → (d.extend cs).Fits (d.size + i) c) : (d.extend cs).Tidy where
  connected := h.connected
  distinct := h.distinct
  outside id hid := by
    obtain ⟨c, hc, hkind, hinputs⟩ := h.outside id hid
    exact ⟨c, component?_extend_of_some hc cs, hkind, hinputs⟩
  inner id c hc hinner := by
    rcases Nat.lt_or_ge id d.size with hlt | hge
    · rw [component?_extend_of_lt hlt] at hc
      exact (h.inner id c hc hinner).mono (d.grows_extend cs)
    · obtain ⟨i, rfl⟩ := Nat.exists_eq_add_of_le hge
      rw [component?_extend_add] at hc
      exact hfits i c hc

theorem Realizes.extend (hk : d.Realizes k) {cs : List Component}
    (hfits : ∀ i c, cs[i]? = some c → (d.extend cs).Fits (d.size + i) c) :
    (d.extend cs).Realizes k where
  tidy := hk.tidy.extend hfits
  roles := hk.roles
  size := hk.size
  facts n id hid := by
    have hlt := (hk.tidy.signals_fact hid).lt
    exact (hk.facts n id hid).mono (d.grows_extend cs) (component?_extend_of_lt hlt cs)
  inputs := hk.inputs
  legals := hk.legals.mono (d.grows_extend cs)
  goals := hk.goals.mono (d.grows_extend cs)
  terminal := hk.terminal.imp fun _ _ ht => ht.mono (d.grows_extend cs)

/-! ### Connections -/

/-- The draft with more inputs of one component. -/
def wire (d : Draft) (target : ComponentId) (sources : List ComponentId) : Draft :=
  { d with components := d.components.modify target fun c =>
      { c with inputs := c.inputs ++ sources } }

theorem component?_wire (d : Draft) (target : ComponentId) (sources : List ComponentId)
    (id : ComponentId) : (d.wire target sources).component? id =
      if target = id then
        (d.component? id).map fun c => { c with inputs := c.inputs ++ sources }
      else d.component? id :=
  Array.getElem?_modify

theorem grows_wire {target : ComponentId} (htarget : d.IsOutside target)
    (sources : List ComponentId) : d.Grows (d.wire target sources) where
  bases _ _ hid := hid
  outside _ hid := hid
  kinds id c hc := by
    rw [component?_wire, hc]
    split
    · exact ⟨_, rfl, rfl⟩
    · exact ⟨c, rfl, rfl⟩
  solves x v hv := by
    refine ⟨hv.start, hv.fact, hv.does, fun id c hc hinner => hv.inner id c ?_ hinner⟩
    have hne : target ≠ id := fun heq => hinner (heq ▸ htarget)
    rw [component?_wire, if_neg hne, hc]

theorem Tidy.wire (h : d.Tidy) {target : ComponentId} (htarget : target ∈ d.bases)
    (houtside : d.IsOutside target) (sources : List ComponentId) :
    (d.wire target sources).Tidy where
  connected := h.connected
  distinct := h.distinct
  outside id hid := by
    obtain ⟨c, hc, hkind, hinputs⟩ := h.outside id hid
    rw [component?_wire, hc]
    split
    · rename_i heq
      exact ⟨_, rfl, hkind, fun hother => absurd (heq ▸ htarget) hother⟩
    · exact ⟨c, rfl, hkind, hinputs⟩
  inner id c hc hinner := by
    have hne : target ≠ id := fun heq => hinner (heq ▸ houtside)
    rw [component?_wire, if_neg hne] at hc
    exact (h.inner id c hc hinner).mono (grows_wire houtside sources)

/-- The initial marker, the facts and the moves have different components. -/
theorem parts_of_distinct (h : d.outsideIds.Nodup) :
    (init ∉ d.bases.toList ∧ init ∉ d.inputs.toList.map (·.2.2)) ∧
      d.bases.toList.Nodup ∧ (d.inputs.toList.map (·.2.2)).Nodup ∧
        ∀ i ∈ d.bases.toList, ∀ j ∈ d.inputs.toList.map (·.2.2), i ≠ j := by
  rw [outsideIds, List.cons_append, List.nodup_cons, List.mem_append, not_or,
    List.nodup_append] at h
  exact h

theorem Tidy.base_inj (h : d.Tidy) {m n : FactId} (hm : d.bases[m]? = some id)
    (hn : d.bases[n]? = some id) : m = n := by
  rw [← Array.getElem?_toList] at hm hn
  have hlt := (List.getElem?_eq_some_iff.mp hm).1
  exact (List.getElem?_inj hlt (parts_of_distinct h.distinct).2.1).mp (hm.trans hn.symm)

/-- A transition that is connected to a base proposition feeds its fact. -/
theorem Realizes.feed (hk : d.Realizes k) {n : FactId} (hid : d.bases[n]? = some id)
    (hfree : k.feeds n = none) (hi : d.Carries i f) : (d.wire id [i]).Realizes (k.feed n f) := by
  have houtside := isOutside_base hid
  have hgrows := grows_wire houtside [i]
  constructor
  · exact hk.tidy.wire (Array.mem_of_getElem? hid) houtside [i]
  · exact hk.roles
  · exact hk.size
  · intro m id' hid'
    have hfact := hk.facts m id' hid'
    by_cases hm : m = n
    · subst hm
      obtain rfl : id' = id := Option.some.inj (hid'.symm.trans hid)
      obtain ⟨c, hc, hname, hfeed⟩ := hfact
      rw [hfree] at hfeed
      refine ⟨{ c with inputs := c.inputs ++ [i] }, ?_, hname, ?_⟩
      · rw [component?_wire, if_pos rfl, hc]
        rfl
      · have hinputs : c.inputs = [] := List.forall₂_nil_right_iff.mp hfeed
        simp only [Sketch.feed, if_pos, hinputs, List.nil_append]
        exact .cons (hi.mono hgrows) .nil
    · have hne : id ≠ id' := fun heq => hm (hk.tidy.base_inj (heq ▸ hid') hid)
      simp only [Sketch.feed, if_neg hm]
      exact hfact.mono hgrows (by rw [component?_wire, if_neg hne])
  · exact hk.inputs
  · exact hk.legals.mono hgrows
  · exact hk.goals.mono hgrows
  · exact hk.terminal.imp fun _ _ ht => ht.mono hgrows

theorem ext_component? {components : Array Component}
    (h : ∀ id, d.component? id = components[id]?) : d = { d with components } := by
  have hcomponents : d.components = components := Array.ext_getElem? h
  rw [← hcomponents]

theorem wire_nil (d : Draft) (target : ComponentId) : d.wire target [] = d := by
  symm
  apply ext_component?
  intro id
  change d.component? id = (d.wire target []).component? id
  rw [component?_wire]
  split
  · cases d.component? id with
    | none => rfl
    | some c => simp
  · rfl

theorem wire_of_size_le {target : ComponentId} (h : d.size ≤ target) (sources : List ComponentId) :
    d.wire target sources = d := by
  apply ext_component?
  intro id
  change (d.wire target sources).component? id = d.component? id
  rw [component?_wire]
  split
  · rename_i heq
    rw [component?, Array.getElem?_eq_none (heq ▸ h), Option.map_none]
  · rfl

theorem wire_wire (d : Draft) (target : ComponentId) (xs ys : List ComponentId) :
    (d.wire target xs).wire target ys = d.wire target (xs ++ ys) := by
  apply ext_component?
  intro id
  change ((d.wire target xs).wire target ys).component? id = (d.wire target (xs ++ ys)).component? id
  rw [component?_wire, component?_wire, component?_wire]
  split
  · rw [Option.map_map]
    congr 1
    funext c
    simp
  · rfl

theorem wire_extend (d : Draft) (c : Component) (cs : List Component)
    (sources : List ComponentId) : (d.extend (c :: cs)).wire d.size sources =
      d.extend ({ c with inputs := c.inputs ++ sources } :: cs) := by
  apply ext_component?
  intro id
  change ((d.extend (c :: cs)).wire d.size sources).component? id = (d.extend _).component? id
  rw [component?_wire]
  rcases Nat.lt_or_ge id d.size with hlt | hge
  · rw [if_neg (Nat.ne_of_gt hlt), component?_extend_of_lt hlt, component?_extend_of_lt hlt]
  · obtain ⟨i, rfl⟩ := Nat.exists_eq_add_of_le hge
    rw [component?_extend_add, component?_extend_add]
    cases i with
    | zero => exact if_pos rfl
    | succ i => exact if_neg (Nat.ne_of_lt (Nat.lt_add_of_pos_right (Nat.succ_pos i)))

theorem connect_run {source target : ComponentId} (hs : source < d.size) (ht : target < d.size) :
    (connect source target).run d = ((), d.wire target [source]) := by
  change (connect source target) d = _
  simp only [connect]
  rw [if_pos hs, if_pos ht]
  rfl

theorem size_wire (d : Draft) (target : ComponentId) (sources : List ComponentId) :
    (d.wire target sources).size = d.size :=
  Array.size_modify

theorem forM_connect_run {sources : List ComponentId} {target : ComponentId}
    (hs : ∀ i ∈ sources, i < d.size) (ht : target < d.size) :
    (sources.forM fun source => connect source target).run d = ((), d.wire target sources) := by
  induction sources generalizing d with
  | nil =>
      rw [wire_nil]
      rfl
  | cons source sources ih =>
      have hfirst := connect_run (hs source List.mem_cons_self) ht
      have hrest : ∀ i ∈ sources, i < (d.wire target [source]).size := by
        intro i hi
        rw [size_wire]
        exact hs i (List.mem_cons_of_mem source hi)
      have hwire : (d.wire target [source]).wire target sources = d.wire target (source :: sources) :=
        wire_wire d target [source] sources
      rw [List.forM_eq_forM, List.forM_cons, StateT.run_bind, hfirst, ← hwire]
      exact ih hrest (by rw [size_wire]; exact ht)

theorem addGate_run {kind : ComponentKind} {sources : List ComponentId}
    (hs : ∀ i ∈ sources, i < d.size) :
    (addGate kind sources).run d = (d.size, d.extend [⟨kind, sources, none⟩]) := by
  have hsize : (d.extend [⟨kind, [], none⟩]).size = d.size + 1 := Array.size_push _
  have hconnect := @forM_connect_run (d.extend [⟨kind, [], none⟩]) sources d.size
    (fun i hi => hsize ▸ Nat.lt_succ_of_lt (hs i hi)) (hsize ▸ Nat.lt_succ_self _)
  rw [wire_extend] at hconnect
  rw [addGate, StateT.run_bind]
  change ((sources.forM fun source => connect source d.size) >>= fun _ => Pure.pure d.size).run
    (d.extend [⟨kind, [], none⟩]) = _
  rw [StateT.run_bind, hconnect]
  rfl

end GeneralGame.Draft
