import GeneralGame.Proofs.Draft.Assembly

/-!
What declarations say, read off their list alone: the components that they create in turn, the
connections that they make, and what they designate. The draft that carries the declarations out
keeps an account of just that.
-/
namespace GeneralGame

/-- A connection with the number of components that there were when it was made. -/
structure Connection where
  source : ComponentId
  target : ComponentId
  among : Nat

/-- Both ends existed when the connection was made. -/
structure Connection.IsSound (c : Connection) : Prop where
  source : c.source < c.among
  target : c.target < c.among

/-- The sources that are connected to a component, in the order of their connection. -/
def Connection.sourcesTo (id : ComponentId) (cs : List Connection) : List ComponentId :=
  cs.filterMap fun c => if c.target = id then some c.source else none

namespace Declaration

/-- Kind and name of the component that a declaration creates. -/
def created? : Declaration → Option (ComponentKind × Option String)
  | .init => none
  | .base name => some (.proposition, some name)
  | .input role m => some (.proposition, some s!"does {role.index} {m.name}")
  | .legal role m => some (.proposition, some s!"legal {role.index} {m.name}")
  | .goal role value => some (.proposition, some s!"goal {role.index} {value}")
  | .terminal => some (.proposition, some "terminal")
  | .view name => some (.proposition, some name)
  | .and _ => some (.and, none)
  | .or _ => some (.or, none)
  | .not _ => some (.not, none)
  | .constant value => some (.constant value, none)
  | .next _ _ => some (.transition, none)
  | .connect _ _ => none

/-- The connections that a declaration makes where `id` is the next free place. A gate takes this
place before its sources are connected to it. -/
def connections (id : ComponentId) : Declaration → List Connection
  | .and sources => sources.map fun source => ⟨source, id, id + 1⟩
  | .or sources => sources.map fun source => ⟨source, id, id + 1⟩
  | .not source => [⟨source, id, id + 1⟩]
  | .next target source => [⟨source, id, id + 1⟩, ⟨id, target, id + 1⟩]
  | .connect source target => [⟨source, target, id⟩]
  | _ => []

def base? (id : ComponentId) : Declaration → Option ComponentId
  | .base _ => some id
  | _ => none

def input? (id : ComponentId) : Declaration → Option (RoleId × Move × ComponentId)
  | .input role m => some (role, m, id)
  | _ => none

def legal? (id : ComponentId) : Declaration → Option (RoleId × Move × ComponentId)
  | .legal role m => some (role, m, id)
  | _ => none

def goal? (id : ComponentId) : Declaration → Option (RoleId × Nat × ComponentId)
  | .goal role value => some (role, value, id)
  | _ => none

def terminal? (id : ComponentId) : Declaration → Option ComponentId
  | .terminal => some id
  | _ => none

end Declaration

/-- Declarations in the order in which they are made. -/
abbrev Declarations := List Declaration

namespace Declarations

/-- Kinds and names of all components: the initial marker and what is created after it. -/
def created (ds : Declarations) : List (ComponentKind × Option String) :=
  (.proposition, some "init") :: ds.filterMap Declaration.created?

def size (ds : Declarations) : Nat := ds.created.length

def placedFrom (id : ComponentId) : Declarations → List (ComponentId × Declaration)
  | [] => []
  | x :: ds => (id, x) :: placedFrom (id + x.created?.toList.length) ds

/-- The declarations, each with the place that is free when it is made. -/
def placed (ds : Declarations) : List (ComponentId × Declaration) := ds.placedFrom 1

def connections (ds : Declarations) : List Connection :=
  ds.placed.flatMap fun (id, x) => x.connections id

/-- What the declarations designate, in order. -/
def designated {α : Type} (part? : ComponentId → Declaration → Option α) (ds : Declarations) :
    List α :=
  ds.placed.filterMap fun (id, x) => part? id x

def bases (ds : Declarations) : List ComponentId := ds.designated Declaration.base?

def inputs (ds : Declarations) : List (RoleId × Move × ComponentId) :=
  ds.designated Declaration.input?

def legals (ds : Declarations) : List (RoleId × Move × ComponentId) :=
  ds.designated Declaration.legal?

def goals (ds : Declarations) : List (RoleId × Nat × ComponentId) :=
  ds.designated Declaration.goal?

/-- Of several terminal propositions the last one counts. -/
def terminal? (ds : Declarations) : Option ComponentId :=
  (ds.designated Declaration.terminal?).getLast?

/-- The input proposition that is in charge of a move: the last one that was declared for it. -/
def input? (ds : Declarations) (r : RoleId) (m : Move) : Option ComponentId :=
  ((Sketch.ofRole ds.inputs r).filterMap fun e => if e.1 = m then some e.2 else none).getLast?

/-- The sources of a component, in the order of their connection. -/
def sourcesOf (ds : Declarations) (id : ComponentId) : List ComponentId :=
  Connection.sourcesTo id ds.connections

/-- A component as it was declared and connected. -/
def component? (ds : Declarations) (id : ComponentId) : Option Component :=
  ds.created[id]?.map fun e => ⟨e.1, ds.sourcesOf id, e.2⟩

variable {ds : Declarations} {id : ComponentId} {x : Declaration} {c : Connection}

/-! ### One more declaration -/

theorem created_concat (ds : Declarations) (x : Declaration) :
    created (ds ++ [x]) = ds.created ++ x.created?.toList := by
  rw [created, created, filterMap_concat, List.cons_append]

theorem size_concat (ds : Declarations) (x : Declaration) :
    size (ds ++ [x]) = ds.size + x.created?.toList.length := by
  rw [size, size, created_concat, List.length_append]

theorem placedFrom_concat (id : ComponentId) (ds : Declarations) (x : Declaration) :
    placedFrom id (ds ++ [x]) =
      placedFrom id ds ++ [(id + (ds.filterMap Declaration.created?).length, x)] := by
  induction ds generalizing id with
  | nil => rfl
  | cons y ds ih =>
      rw [List.cons_append, placedFrom, ih, placedFrom, List.cons_append, List.filterMap_cons]
      cases y.created? with
      | none => rfl
      | some e => simp [Nat.add_assoc, Nat.add_comm 1]

theorem placed_concat (ds : Declarations) (x : Declaration) :
    placed (ds ++ [x]) = ds.placed ++ [(ds.size, x)] := by
  rw [placed, placedFrom_concat, Nat.add_comm]
  rfl

theorem connections_concat (ds : Declarations) (x : Declaration) :
    connections (ds ++ [x]) = ds.connections ++ x.connections ds.size := by
  rw [connections, placed_concat, List.flatMap_append, List.flatMap_singleton, connections]

theorem designated_concat {α : Type} (part? : ComponentId → Declaration → Option α)
    (ds : Declarations) (x : Declaration) :
    designated part? (ds ++ [x]) = ds.designated part? ++ (part? ds.size x).toList := by
  rw [designated, placed_concat, filterMap_concat, designated]

theorem sourcesOf_concat (ds : Declarations) (x : Declaration) (id : ComponentId) :
    sourcesOf (ds ++ [x]) id =
      ds.sourcesOf id ++ Connection.sourcesTo id (x.connections ds.size) := by
  rw [sourcesOf, connections_concat, Connection.sourcesTo, List.filterMap_append]
  rfl

/-! ### Places -/

theorem exists_placed_iff : (∃ id, (id, x) ∈ ds.placed) ↔ x ∈ ds := by
  induction ds using List.reverseRecOn with
  | nil => exact iff_of_false (fun ⟨_, h⟩ => List.not_mem_nil h) List.not_mem_nil
  | append_singleton ds y ih =>
      rw [placed_concat, List.mem_append, ← ih, List.mem_singleton]
      constructor
      · rintro ⟨id, hid⟩
        rcases List.mem_append.mp hid with hid | hid
        · exact .inl ⟨id, hid⟩
        · cases List.mem_singleton.mp hid
          exact .inr rfl
      · rintro (⟨id, hid⟩ | rfl)
        · exact ⟨id, List.mem_append_left _ hid⟩
        · exact ⟨size ds, List.mem_append_right _ List.mem_cons_self⟩

/-- A component is at the place that was free when it was created. -/
theorem created_of_placed {e : ComponentKind × Option String} (h : (id, x) ∈ ds.placed)
    (hx : x.created? = some e) : ds.created[id]? = some e := by
  induction ds using List.reverseRecOn with
  | nil => cases h
  | append_singleton ds y ih =>
      rw [created_concat]
      rw [placed_concat] at h
      rcases List.mem_append.mp h with h | h
      · have hid := ih h
        rw [List.getElem?_append_left (List.getElem?_eq_some_iff.mp hid).1, hid]
      · cases List.mem_singleton.mp h
        rw [hx, size, List.getElem?_append_right (Nat.le_refl _), Nat.sub_self]
        rfl

theorem mem_designated {α : Type} {part? : ComponentId → Declaration → Option α} {a : α} :
    a ∈ ds.designated part? ↔ ∃ id x, (id, x) ∈ ds.placed ∧ part? id x = some a := by
  rw [designated, List.mem_filterMap]
  exact ⟨fun ⟨⟨id, x⟩, h⟩ => ⟨id, x, h⟩, fun ⟨id, x, h⟩ => ⟨(id, x), h⟩⟩

/-! ### Connections -/

theorem among_of_mem (hc : c ∈ x.connections id) : c.among = id + x.created?.toList.length := by
  cases x with
  | and sources =>
      obtain ⟨source, -, rfl⟩ := List.mem_map.mp hc
      rfl
  | or sources =>
      obtain ⟨source, -, rfl⟩ := List.mem_map.mp hc
      rfl
  | not source =>
      cases List.mem_singleton.mp hc
      rfl
  | next base source =>
      rcases List.mem_cons.mp hc with rfl | hc
      · rfl
      · cases List.mem_singleton.mp hc
        rfl
  | connect source target =>
      cases List.mem_singleton.mp hc
      rfl
  | _ => cases hc

theorem among_le_size (hc : c ∈ ds.connections) : c.among ≤ ds.size := by
  induction ds using List.reverseRecOn with
  | nil => cases hc
  | append_singleton ds x ih =>
      rw [size_concat]
      rw [connections_concat] at hc
      rcases List.mem_append.mp hc with hc | hc
      · exact Nat.le_trans (ih hc) (Nat.le_add_right _ _)
      · exact Nat.le_of_eq (among_of_mem hc)

theorem source_lt_of_mem (hsound : ∀ c ∈ ds.connections, c.IsSound) {source : ComponentId}
    (h : source ∈ ds.sourcesOf id) : source < ds.size := by
  obtain ⟨c, hc, hif⟩ := List.mem_filterMap.mp h
  obtain ⟨-, hsource⟩ := Option.ite_none_right_eq_some.mp hif
  cases hsource
  exact Nat.lt_of_lt_of_le (hsound c hc).source (among_le_size hc)

/-- What does not exist yet has no sources. -/
theorem sourcesOf_of_size_le (hsound : ∀ c ∈ ds.connections, c.IsSound) (hid : ds.size ≤ id) :
    ds.sourcesOf id = [] := by
  refine List.filterMap_eq_nil_iff.mpr fun c hc => if_neg ?_
  rintro rfl
  have hlt := Nat.lt_of_lt_of_le (hsound c hc).target (among_le_size hc)
  exact Nat.not_lt.mpr hid hlt

end Declarations

namespace Draft

variable {d d' d'' : Draft} {cs cs' : List Connection} {ds : Declarations} {roles : List String}

/-! ### The account of a draft -/

/-- The connections are made, and nothing else changes. -/
structure Joins (cs : List Connection) (d d' : Draft) : Prop where
  frame : d' = { d with components := d'.components, dangling := d'.dangling }
  component : ∀ id, d'.component? id = (d.component? id).map fun c =>
    { c with inputs := c.inputs ++ Connection.sourcesTo id cs }
  size : d'.size = d.size
  dangling : d'.dangling = #[] ↔
    d.dangling = #[] ∧ ∀ c ∈ cs, c.source < d.size ∧ c.target < d.size

theorem Joins.refl (d : Draft) : Joins [] d d where
  frame := rfl
  component id := by
    cases d.component? id with
    | none => rfl
    | some c => simp [Connection.sourcesTo]
  size := rfl
  dangling := (and_iff_left nofun).symm

theorem Joins.trans (h : Joins cs d d') (h' : Joins cs' d' d'') : Joins (cs ++ cs') d d'' where
  frame := by
    rw [h'.frame, h.frame]
  component id := by
    rw [h'.component, h.component, Option.map_map]
    congr 1
    funext c
    simp [Connection.sourcesTo]
  size := h'.size.trans h.size
  dangling := by
    rw [h'.dangling, h.dangling, h.size, List.forall_mem_append, and_assoc]

/-- A connection is made as far as its target exists, and its missing ends are noted. -/
theorem connect_snd (d : Draft) (source target : ComponentId) :
    ((connect source target).run d).2 =
      { d.wire target [source] with
        dangling := d.dangling ++ ([source, target].filter (d.size ≤ ·)).toArray } := by
  have hsize : ∀ id, { d with dangling := d.dangling.push id }.size = d.size := fun _ => rfl
  change (connect source target d).2 = _
  rcases Nat.lt_or_ge source d.size with hs | hs <;>
    rcases Nat.lt_or_ge target d.size with ht | ht
  · simp [connect, hs, ht, wire]
  · simp [connect, hs, ht, Nat.not_lt.mpr ht, wire_of_size_le ht]
  · simp [connect, hs, ht, Nat.not_lt.mpr hs, hsize, wire]
  · rw [List.filter_eq_self.mpr (by simp [hs, ht]), wire_of_size_le ht]
    have hboth : d.dangling ++ #[source, target] = (d.dangling.push source).push target := rfl
    simp [connect, Nat.not_lt.mpr hs, Nat.not_lt.mpr ht, hsize, hboth]

theorem joins_connect (d : Draft) (source target : ComponentId) (among : Nat) :
    Joins [⟨source, target, among⟩] d ((connect source target).run d).2 := by
  rw [connect_snd]
  constructor
  · rfl
  · intro id
    refine (component?_wire d target [source] id).trans ?_
    by_cases h : target = id
    · simp [Connection.sourcesTo, h]
    · simp [Connection.sourcesTo, h]
  · exact size_wire d target [source]
  · rw [List.forall_mem_singleton]
    simp

/-- The components of a declaration are there, and what it designates is listed. -/
def register (d : Draft) (x : Declaration) : Draft :=
  { d.extend (x.created?.toList.map fun e => ⟨e.1, [], e.2⟩) with
    bases := d.bases ++ (x.base? d.size).toArray
    inputs := d.inputs ++ (x.input? d.size).toArray
    legals := d.legals ++ (x.legal? d.size).toArray
    goals := d.goals ++ (x.goal? d.size).toArray
    terminal := (x.terminal? d.size).or d.terminal }

theorem joins_forM (sources : List ComponentId) (target among : Nat) (d : Draft) :
    Joins (sources.map (⟨·, target, among⟩)) d
      ((sources.forM fun source => connect source target).run d).2 := by
  induction sources generalizing d with
  | nil => exact .refl d
  | cons source sources ih => exact (joins_connect d source target among).trans (ih _)

theorem joins_addGate (kind : ComponentKind) (sources : List ComponentId) (among : Nat)
    (d : Draft) : Joins (sources.map (⟨·, d.size, among⟩)) (d.extend [⟨kind, [], none⟩])
      ((addGate kind sources).run d).2 :=
  joins_forM sources d.size among (d.extend [⟨kind, [], none⟩])

theorem addGate_fst (kind : ComponentKind) (sources : List ComponentId) (d : Draft) :
    ((addGate kind sources).run d).1 = d.size := by
  rw [addGate, StateT.run_bind]
  change (((sources.forM fun source => connect source d.size) >>= fun _ => Pure.pure d.size).run
    (d.extend [⟨kind, [], none⟩])).1 = _
  rw [StateT.run_bind]
  rfl

theorem joins_next (target source : ComponentId) (among : Nat) (d : Draft) :
    Joins [⟨source, d.size, among⟩, ⟨d.size, target, among⟩]
      (d.extend [⟨.transition, [], none⟩]) ((next target source).run d).2 := by
  have hgate := joins_addGate .transition [source] among d
  have hid := addGate_fst .transition [source] d
  rw [next, StateT.run_bind]
  cases hrun : (addGate .transition [source]).run d with
  | mk id d' =>
      rw [hrun] at hgate hid
      cases hid
      exact hgate.trans (joins_connect d' d.size target among)

theorem Joins.some {α : Type} {x : Drafting α} (h : Joins cs d (x.run d').2) :
    Joins cs d ((do return some (← x) : Drafting (Option α)).run d').2 := h

theorem joins_declare (x : Declaration) (d : Draft) :
    Joins (x.connections d.size) (d.register x) (x.declare.run d).2 := by
  cases x with
  | init => exact .refl d
  | base name => exact .refl (d.register (.base name))
  | input role m => exact .refl (d.register (.input role m))
  | legal role m => exact .refl (d.register (.legal role m))
  | goal role value => exact .refl (d.register (.goal role value))
  | terminal => exact .refl (d.register .terminal)
  | view name => exact .refl (d.register (.view name))
  | and sources => exact (joins_addGate .and sources (d.size + 1) d).some
  | or sources => exact (joins_addGate .or sources (d.size + 1) d).some
  | not source => exact (joins_addGate .not [source] (d.size + 1) d).some
  | constant value => exact .refl (d.register (.constant value))
  | next target source => exact (joins_next target source (d.size + 1) d).some
  | connect source target => exact joins_connect d source target d.size

/-- The draft is what the declarations say. Once a connection has a missing end nothing is said of
the components, for it does not reach its target even if that is created later. -/
structure Records (d : Draft) (roles : List String) (ds : Declarations) : Prop where
  roles : d.roles = roles
  size : d.size = ds.size
  component : (∀ c ∈ ds.connections, c.IsSound) → ∀ id, d.component? id = ds.component? id
  bases : d.bases.toList = ds.bases
  inputs : d.inputs.toList = ds.inputs
  legals : d.legals.toList = ds.legals
  goals : d.goals.toList = ds.goals
  terminal : d.terminal = ds.terminal?
  dangling : d.dangling = #[] ↔ ∀ c ∈ ds.connections, c.IsSound

theorem records_new (roles : List String) : (new roles).Records roles [] where
  roles := rfl
  size := rfl
  component _ id := by
    match id with
    | 0 => rfl
    | id + 1 => rfl
  bases := rfl
  inputs := rfl
  legals := rfl
  goals := rfl
  terminal := rfl
  dangling := iff_of_true rfl nofun

theorem size_register (d : Draft) (x : Declaration) :
    (d.register x).size = d.size + x.created?.toList.length := by
  refine (size_extend d _).trans ?_
  rw [List.length_map]

/-- The new component has no sources yet. -/
theorem Records.component_register (h : d.Records roles ds)
    (hsound : ∀ c ∈ ds.connections, c.IsSound) (x : Declaration) (id : ComponentId) :
    (d.register x).component? id =
      (Declarations.created (ds ++ [x]))[id]?.map fun e => ⟨e.1, ds.sourcesOf id, e.2⟩ := by
  change (d.extend _).component? id = _
  rw [Declarations.created_concat]
  rcases Nat.lt_or_ge id d.size with hlt | hge
  · rw [component?_extend_of_lt hlt, h.component hsound,
      List.getElem?_append_left (Nat.lt_of_lt_of_eq hlt h.size)]
    rfl
  · -- A connection to what is created only now would have had a missing end.
    have hnone := Declarations.sourcesOf_of_size_le hsound (h.size ▸ hge)
    obtain ⟨i, rfl⟩ := Nat.exists_eq_add_of_le hge
    have hplace : d.size + i - ds.created.length = i := by
      rw [h.size]
      exact Nat.add_sub_cancel_left ds.size i
    rw [component?_extend_add, List.getElem?_append_right (h.size ▸ hge), hplace, hnone,
      List.getElem?_map]

/-- What a declaration designates comes last. -/
theorem toList_designated {α : Type} {part? : ComponentId → Declaration → Option α}
    {parts : Array α} (hparts : parts.toList = ds.designated part?) (hsize : d.size = ds.size)
    (x : Declaration) :
    (parts ++ (part? d.size x).toArray).toList = Declarations.designated part? (ds ++ [x]) := by
  rw [Declarations.designated_concat, ← hparts, hsize, Array.toList_append]
  cases part? ds.size x <;> rfl

/-- The step. -/
theorem Records.declare (h : d.Records roles ds) (x : Declaration) :
    Records (x.declare.run d).2 roles (ds ++ [x]) := by
  have hjoins := joins_declare x d
  have hsound : (∀ c ∈ Declarations.connections (ds ++ [x]), c.IsSound) ↔
      (∀ c ∈ ds.connections, c.IsSound) ∧ ∀ c ∈ x.connections d.size, c.IsSound := by
    rw [Declarations.connections_concat, List.forall_mem_append, h.size]
  constructor
  · rw [hjoins.frame]
    exact h.roles
  · rw [hjoins.size, size_register, h.size, Declarations.size_concat]
  · intro hall id
    rw [hjoins.component, h.component_register (hsound.mp hall).1, Option.map_map,
      Declarations.component?, Declarations.sourcesOf_concat, h.size]
    rfl
  · rw [hjoins.frame]
    exact toList_designated h.bases h.size x
  · rw [hjoins.frame]
    exact toList_designated h.inputs h.size x
  · rw [hjoins.frame]
    exact toList_designated h.legals h.size x
  · rw [hjoins.frame]
    exact toList_designated h.goals h.size x
  · rw [hjoins.frame, Declarations.terminal?, Declarations.designated_concat, List.getLast?_append,
      ← h.size, ← Declarations.terminal?, ← h.terminal]
    cases x <;> rfl
  · -- The ends are looked for among the components with the new one, as a gate's own sources are.
    have hends : ∀ c ∈ x.connections d.size,
        (c.source < (d.register x).size ∧ c.target < (d.register x).size ↔ c.IsSound) := by
      intro c hc
      rw [size_register, ← Declarations.among_of_mem hc]
      exact ⟨fun hboth => ⟨hboth.1, hboth.2⟩, fun hboth => ⟨hboth.source, hboth.target⟩⟩
    rw [hjoins.dangling, hsound, ← h.dangling]
    exact and_congr_right' (forall₂_congr hends)

/-- The run. -/
theorem records_ofDeclarations (roles : List String) (ds : Declarations) :
    (ofDeclarations roles ds).Records roles ds := by
  induction ds using List.reverseRecOn with
  | nil => exact records_new roles
  | append_singleton ds x ih =>
      rw [ofDeclarations, List.foldl_concat]
      exact Records.declare ih x

end Draft

end GeneralGame
