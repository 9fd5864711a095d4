import GeneralGame.Proofs.Draft.Account
import GeneralGame.Proofs.Draft.Declarations

/-!
Which declarations make a net, and which net they make. The check of a draft is spread over the
missing ends that are noted on the way, the roles of what was declared and the check of the net.
Together they accept exactly the declarations that describe a game, and the net is what was
declared.
-/
namespace GeneralGame

/-- The number of inputs that a component of the kind may have if it is no base proposition. -/
def ComponentKind.Takes : ComponentKind → Nat → Prop
  | .proposition, n => n ≤ 1
  | .and, n => 1 ≤ n
  | .or, n => 1 ≤ n
  | .not, n => n = 1
  | .transition, n => n = 1
  | .constant _, n => n = 0

theorem takes_of_admits {kind : ComponentKind} {independent : Bool} {n : Nat}
    (h : (Net.expectedInputs kind independent).admits n = true) : kind.Takes n := by
  cases kind <;> cases independent <;>
    simp_all [Net.expectedInputs, InputCount.admits, ComponentKind.Takes]

/-- A proposition that is set from outside takes no inputs. -/
theorem admits_of_takes {kind : ComponentKind} {independent : Bool} {n : Nat} (h : kind.Takes n)
    (hnone : independent = true → n = 0) :
    (Net.expectedInputs kind independent).admits n = true := by
  cases kind <;> cases independent <;>
    simp_all [Net.expectedInputs, InputCount.admits, ComponentKind.Takes]

namespace Declarations

variable {ds : Declarations} {id : ComponentId} {r : RoleId} {m : Move} {value : Nat}

/-- The kind of a component. -/
def kind? (ds : Declarations) (id : ComponentId) : Option ComponentKind :=
  ds.created[id]?.map Prod.fst

/-- What a draft looks at before the check of its net: the number of roles, the ends of connections,
the terminal proposition, and the roles that are named. -/
structure Assembles (ds : Declarations) (roles : List String) : Prop where
  roleCount : 1 ≤ roles.length ∧ roles.length ≤ maxRoles
  connections : ∀ c ∈ ds.connections, c.IsSound
  terminal : .terminal ∈ ds
  inputs : ∀ r m, .input r m ∈ ds → r.index < roles.length
  legals : ∀ r m, .legal r m ∈ ds → r.index < roles.length
  goals : ∀ r value, .goal r value ∈ ds → r.index < roles.length

/-- The declarations describe a game of these roles. -/
structure WellFormed (ds : Declarations) (roles : List String) : Prop
    extends Assembles ds roles where
  /-- A base proposition is fed by one transition or by nothing. -/
  base : ∀ id ∈ ds.bases, ds.sourcesOf id = [] ∨
    ∃ i, ds.sourcesOf id = [i] ∧ ds.kind? i = some .transition
  start : ds.sourcesOf Draft.init = []
  move : ∀ r m id, ds.input? r m = some id → ds.sourcesOf id = []
  other : ∀ id kind, ds.kind? id = some kind → id ∉ ds.bases → kind.Takes (ds.sourcesOf id).length
  hasLegal : ∀ r : RoleId, r.index < roles.length → ∃ m, .legal r m ∈ ds
  hasGoal : ∀ r : RoleId, r.index < roles.length → ∃ value, .goal r value ∈ ds
  values : ∀ r value, .goal r value ∈ ds → value ≤ 100

/-- The net is what the declarations say: its components are those that were created, each with the
sources that were connected to it, and its lists are in the order of the declarations. -/
structure Describes (ds : Declarations) (roles : List String) (net : Net) : Prop where
  roles : net.roles = roles
  size : net.size = ds.size
  component : ∀ id, net.component? id = ds.component? id
  init : net.init = Draft.init
  terminal : ds.terminal? = some net.terminal
  bases : net.bases.toList = ds.bases
  inputs : ∀ r m, net.input? r m = ds.input? r m
  legals : ∀ r, net.legalsOf r = Sketch.ofRole ds.legals r
  goals : ∀ r, net.goalsOf r = Sketch.ofRole ds.goals r
  tables : net.inputs.size = net.roleCount ∧ net.legals.size = net.roleCount ∧
    net.goals.size = net.roleCount

/-! ### What is designated -/

section

variable {α : Type} {part? : ComponentId → Declaration → Option α} {a : α} {x : Declaration}

theorem mem_designated_iff (ha : part? id x = some a)
    (hpart : ∀ i y, part? i y = some a → (i, y) = (id, x)) :
    a ∈ ds.designated part? ↔ (id, x) ∈ ds.placed := by
  rw [mem_designated]
  constructor
  · rintro ⟨i, y, hy, hi⟩
    exact hpart i y hi ▸ hy
  · exact fun hx => ⟨id, x, hx, ha⟩

theorem lt_size_of_placed {e : ComponentKind × Option String} (h : (id, x) ∈ ds.placed)
    (hx : x.created? = some e) : id < ds.size :=
  (List.getElem?_eq_some_iff.mp (created_of_placed h hx)).1

/-- The list has the declarations of one form with their places. -/
def Lists (ds : Declarations) (form : RoleId → α → Declaration)
    (declared : List (RoleId × α × ComponentId)) : Prop :=
  ∀ r a id, (r, a, id) ∈ declared ↔ (id, form r a) ∈ ds.placed

theorem lists_inputs (ds : Declarations) : ds.Lists .input ds.inputs := fun r m id =>
  mem_designated_iff rfl fun i y hy => by cases y <;> cases hy; rfl

theorem lists_legals (ds : Declarations) : ds.Lists .legal ds.legals := fun r m id =>
  mem_designated_iff rfl fun i y hy => by cases y <;> cases hy; rfl

theorem lists_goals (ds : Declarations) : ds.Lists .goal ds.goals := fun r value id =>
  mem_designated_iff rfl fun i y hy => by cases y <;> cases hy; rfl

variable {form : RoleId → α → Declaration} {declared : List (RoleId × α × ComponentId)}

theorem Lists.exists_iff (h : ds.Lists form declared) :
    (∃ id, (r, a, id) ∈ declared) ↔ form r a ∈ ds := by
  rw [← exists_placed_iff]
  exact exists_congr fun id => h r a id

theorem Lists.forall_iff (h : ds.Lists form declared) {p : RoleId → α → Prop} :
    (∀ e ∈ declared, p e.1 e.2.1) ↔ ∀ r a, form r a ∈ ds → p r a := by
  constructor
  · intro hall r a hx
    obtain ⟨id, hid⟩ := h.exists_iff.mpr hx
    exact hall _ hid
  · rintro hall ⟨r, a, id⟩ he
    exact hall r a (h.exists_iff.mp ⟨id, he⟩)

end

theorem exists_base_of_mem (h : id ∈ ds.bases) : ∃ name, (id, .base name) ∈ ds.placed := by
  obtain ⟨i, x, hx, hpart⟩ := mem_designated.mp h
  cases x <;> cases hpart
  exact ⟨_, hx⟩

theorem mem_terminals : id ∈ ds.designated Declaration.terminal? ↔ (id, .terminal) ∈ ds.placed :=
  mem_designated_iff rfl fun i y hy => by cases y <;> cases hy; rfl

theorem exists_terminal?_iff : (∃ id, ds.terminal? = some id) ↔ .terminal ∈ ds := by
  rw [← exists_placed_iff]
  constructor
  · exact fun ⟨id, h⟩ => ⟨id, mem_terminals.mp (List.mem_of_getLast? h)⟩
  · rintro ⟨id, hx⟩
    exact ⟨_, List.getLast?_eq_some_getLast (List.ne_nil_of_mem (mem_terminals.mpr hx))⟩

theorem placed_of_input? (h : ds.input? r m = some id) : (id, .input r m) ∈ ds.placed := by
  obtain ⟨⟨m', id'⟩, he, hif⟩ := List.mem_filterMap.mp (List.mem_of_getLast? h)
  obtain ⟨rfl, hid⟩ := Option.ite_none_right_eq_some.mp hif
  cases hid
  exact (ds.lists_inputs _ _ _).mp (Sketch.mem_ofRole.mp he)

/-! ### The check of the net -/

section

variable {roles : List String} {net : Net} {c : Component} {kind : ComponentKind}

theorem Describes.of_component? (hd : ds.Describes roles net) (hc : net.component? id = some c) :
    ds.kind? id = some c.kind ∧ c.inputs = ds.sourcesOf id := by
  rw [hd.component, component?] at hc
  obtain ⟨e, he, rfl⟩ := Option.map_eq_some_iff.mp hc
  exact ⟨by rw [kind?, he]; rfl, rfl⟩

theorem Describes.exists_component (hd : ds.Describes roles net) (hkind : ds.kind? id = some kind) :
    ∃ c, net.component? id = some c ∧ c.kind = kind ∧ c.inputs = ds.sourcesOf id := by
  obtain ⟨e, he, rfl⟩ := Option.map_eq_some_iff.mp hkind
  refine ⟨⟨e.1, ds.sourcesOf id, e.2⟩, ?_, rfl, rfl⟩
  rw [hd.component, component?, he]
  rfl

theorem Describes.mem_bases (hd : ds.Describes roles net) : id ∈ net.bases ↔ id ∈ ds.bases := by
  rw [← hd.bases, Array.mem_toList_iff]

theorem Describes.roleCount (hd : ds.Describes roles net) : net.roleCount = roles.length :=
  congrArg List.length hd.roles

theorem Describes.isIndependent_iff (hd : ds.Describes roles net) (hw : ds.Assembles roles) :
    net.IsIndependent id ↔ id = Draft.init ∨ id ∈ ds.bases ∨ ∃ r m, ds.input? r m = some id := by
  have hcount : net.inputs.size ≤ maxRoles := by
    rw [hd.tables.1, hd.roleCount]
    exact hw.roleCount.2
  rw [Net.isIndependent_iff hcount, hd.init, hd.mem_bases]
  simp only [hd.inputs]

theorem kind?_of_placed {x : Declaration} {name : Option String} (h : (id, x) ∈ ds.placed)
    (hx : x.created? = some (kind, name)) : ds.kind? id = some kind := by
  rw [kind?, created_of_placed h hx]
  rfl

/-- A proposition that is set from outside and no base proposition has no inputs. -/
theorem Describes.sourcesOf_eq_nil (hd : ds.Describes roles net) (hcircuit : net.IsCircuit)
    (hid : net.IsIndependent id) (hbase : id ∉ ds.bases)
    (hkind : ds.kind? id = some .proposition) : ds.sourcesOf id = [] := by
  obtain ⟨c, hc, hproposition, hinputs⟩ := hd.exists_component hkind
  have hlt : id < net.size := (Array.getElem?_eq_some_iff.mp hc).1
  have hcount := (hcircuit.components id c hc).other (mt hd.mem_bases.mp hbase)
  rw [(Net.get_independent hlt).mpr hid, hproposition, hinputs] at hcount
  exact List.length_eq_zero_iff.mp (of_decide_eq_true hcount)

/-- What feeds a base proposition is one transition or nothing. -/
theorem Describes.feed_of_base (hd : ds.Describes roles net) (hw : ds.Assembles roles)
    (hcircuit : net.IsCircuit) (hid : id ∈ ds.bases) :
    ds.sourcesOf id = [] ∨ ∃ i, ds.sourcesOf id = [i] ∧ ds.kind? i = some .transition := by
  obtain ⟨name, hplaced⟩ := exists_base_of_mem hid
  obtain ⟨c, hc, -, hinputs⟩ := hd.exists_component (kind?_of_placed hplaced rfl)
  have hadmits := hcircuit.components id c hc
  have hfeed := hadmits.feed (hd.mem_bases.mpr hid)
  have hlength := hadmits.base (hd.mem_bases.mpr hid)
  rw [hinputs] at hfeed hlength
  cases hsources : ds.sourcesOf id with
  | nil => exact .inl rfl
  | cons i rest =>
      rw [hsources] at hfeed hlength
      obtain rfl : rest = [] := by
        simpa using hlength
      have hlt : i < ds.size := source_lt_of_mem hw.connections (hsources ▸ List.mem_cons_self)
      have hsource : net.component? i = some _ := Array.getElem?_eq_getElem
        (Nat.lt_of_lt_of_eq hlt hd.size.symm)
      refine .inr ⟨i, rfl, ?_⟩
      rw [(hd.of_component? hsource).1, hfeed i _ rfl hsource]

theorem Describes.wellFormed (hd : ds.Describes roles net) (hw : ds.Assembles roles)
    (hsep : net.Separates) (hcircuit : net.IsCircuit) : ds.WellFormed roles := by
  have hplace : ∀ {id}, id ∈ ds.bases → ∃ f : FactId, net.bases[f]? = some id := fun hid =>
    Array.mem_iff_getElem?.mp (hd.mem_bases.mpr hid)
  have hprovides : ∀ r : RoleId, r.index < roles.length → net.Provides r := fun r hr =>
    hcircuit.provides r (hd.roleCount ▸ hr)
  constructor
  · exact hw
  · exact fun id hid => hd.feed_of_base hw hcircuit hid
  · -- Were it a base proposition too, the check would let it have one input.
    refine hd.sourcesOf_eq_nil hcircuit ((hd.isIndependent_iff hw).mpr (.inl rfl)) ?_ rfl
    intro hbase
    obtain ⟨f, hf⟩ := hplace hbase
    exact hsep.start.1 f (hd.init ▸ hf)
  · intro r m id hid
    have hindependent := (hd.isIndependent_iff hw).mpr (.inr (.inr ⟨r, m, hid⟩))
    refine hd.sourcesOf_eq_nil hcircuit hindependent ?_ (kind?_of_placed (placed_of_input? hid) rfl)
    intro hbase
    obtain ⟨f, hf⟩ := hplace hbase
    exact hsep.apart f r m id hf (hd.inputs r m ▸ hid)
  · intro id kind hkind hbase
    obtain ⟨c, hc, rfl, hinputs⟩ := hd.exists_component hkind
    rw [← hinputs]
    exact takes_of_admits ((hcircuit.components id c hc).other (mt hd.mem_bases.mp hbase))
  · intro r hr
    have hsome := (hprovides r hr).legals
    rw [hd.legals] at hsome
    obtain ⟨⟨m, id⟩, hmem⟩ := List.exists_mem_of_ne_nil _ hsome
    exact ⟨m, ds.lists_legals.exists_iff.mp ⟨id, Sketch.mem_ofRole.mp hmem⟩⟩
  · intro r hr
    have hsome := (hprovides r hr).goals
    rw [hd.goals] at hsome
    obtain ⟨⟨value, id⟩, hmem⟩ := List.exists_mem_of_ne_nil _ hsome
    exact ⟨value, ds.lists_goals.exists_iff.mp ⟨id, Sketch.mem_ofRole.mp hmem⟩⟩
  · intro r value hx
    obtain ⟨id, hid⟩ := ds.lists_goals.exists_iff.mpr hx
    refine (hprovides r (hw.goals r value hx)).values (value, id) ?_
    rw [hd.goals]
    exact Sketch.mem_ofRole.mpr hid

theorem Describes.reference_lt (hd : ds.Describes roles net) (hw : ds.Assembles roles)
    (hid : id ∈ net.references) : id < net.size := by
  rw [hd.size]
  simp only [Net.references, List.mem_append, List.mem_cons, List.mem_flatMap] at hid
  rcases hid with ((rfl | rfl | hbase) | ⟨r, -, (hinput | hlegal) | hgoal⟩) | ⟨c, hc, hi⟩
  · rw [hd.init]
    exact Nat.succ_pos _
  · exact lt_size_of_placed (mem_terminals.mp (List.mem_of_getLast? hd.terminal)) rfl
  · rw [hd.bases] at hbase
    obtain ⟨name, hplaced⟩ := exists_base_of_mem hbase
    exact lt_size_of_placed hplaced rfl
  · cases htable : net.inputs.get? r with
    | none =>
        rw [htable] at hinput
        cases hinput
    | some table =>
        rw [htable] at hinput
        obtain ⟨⟨m, id⟩, he, rfl⟩ := List.mem_map.mp hinput
        have hget : net.input? r m = some id := by
          rw [Net.input?, htable]
          exact MoveTable.get?_eq_some_iff.mpr he
        rw [hd.inputs] at hget
        exact lt_size_of_placed (placed_of_input? hget) rfl
  · rw [hd.legals] at hlegal
    obtain ⟨⟨m, id⟩, he, rfl⟩ := List.mem_map.mp hlegal
    exact lt_size_of_placed ((ds.lists_legals _ _ _).mp (Sketch.mem_ofRole.mp he)) rfl
  · rw [hd.goals] at hgoal
    obtain ⟨⟨value, id⟩, he, rfl⟩ := List.mem_map.mp hgoal
    exact lt_size_of_placed ((ds.lists_goals _ _ _).mp (Sketch.mem_ofRole.mp he)) rfl
  · obtain ⟨target, htarget⟩ := Array.mem_iff_getElem?.mp (Array.mem_toList_iff.mp hc)
    rw [(hd.of_component? htarget).2] at hi
    exact source_lt_of_mem hw.connections hi

theorem Describes.admits (hd : ds.Describes roles net) (hw : ds.WellFormed roles)
    (hc : net.component? id = some c) : net.Admits id c := by
  have hlt : id < net.size := (Array.getElem?_eq_some_iff.mp hc).1
  obtain ⟨hkind, hinputs⟩ := hd.of_component? hc
  constructor
  · intro hbase i source hi hsource
    rw [hinputs] at hi
    rcases hw.base id (hd.mem_bases.mp hbase) with hnone | ⟨i', hone, htransition⟩
    · rw [hnone] at hi
      cases hi
    · rw [hone] at hi
      cases hi
      rw [(hd.of_component? hsource).1] at htransition
      exact Option.some.inj htransition
  · intro hbase
    rw [hinputs]
    rcases hw.base id (hd.mem_bases.mp hbase) with hnone | ⟨i, hone, -⟩
    · rw [hnone]
      exact Nat.zero_le 1
    · rw [hone]
      exact Nat.le_refl 1
  · intro hbase
    rw [hinputs]
    refine admits_of_takes (hw.other id c.kind hkind (mt hd.mem_bases.mpr hbase)) fun hmark => ?_
    -- What is marked and no base proposition is the initial marker or in charge of a move.
    have hid := (hd.isIndependent_iff hw.toAssembles).mp ((Net.get_independent hlt).mp hmark)
    rcases hid with rfl | hid | ⟨r, m, hid⟩
    · rw [hw.start]
      rfl
    · exact absurd (hd.mem_bases.mpr hid) hbase
    · rw [hw.move r m id hid]
      rfl

theorem Describes.isCircuit (hd : ds.Describes roles net) (hw : ds.WellFormed roles) :
    net.IsCircuit where
  roles := by
    rw [hd.roleCount]
    exact hw.roleCount
  inputs := hd.tables.1
  legals := hd.tables.2.1
  goals := hd.tables.2.2
  references _ hid := hd.reference_lt hw.toAssembles hid
  components _ _ hc := hd.admits hw hc
  provides r hr := by
    rw [hd.roleCount] at hr
    constructor
    · obtain ⟨value, hx⟩ := hw.hasGoal r hr
      obtain ⟨id, hid⟩ := ds.lists_goals.exists_iff.mpr hx
      rw [hd.goals]
      exact List.ne_nil_of_mem (Sketch.mem_ofRole.mpr hid)
    · rintro ⟨value, id⟩ hmem
      rw [hd.goals] at hmem
      exact hw.values r value (ds.lists_goals.exists_iff.mp ⟨id, Sketch.mem_ofRole.mp hmem⟩)
    · obtain ⟨m, hx⟩ := hw.hasLegal r hr
      obtain ⟨id, hid⟩ := ds.lists_legals.exists_iff.mpr hx
      rw [hd.legals]
      exact List.ne_nil_of_mem (Sketch.mem_ofRole.mpr hid)

end

end Declarations

namespace Draft

variable {d : Draft} {ds : Declarations} {roles : List String} {t : ComponentId} {net : Net}

/-- The declarations of a role that does not exist are none. -/
theorem getD_ofRoles {α : Type} {declared : Array (RoleId × α)} {count : Nat}
    (hcount : count ≤ maxRoles) (hroles : ∀ e ∈ declared.toList, e.1.index < count) (r : RoleId) :
    ((RoleTable.ofRoles count (ofRole declared)).get? r).getD [] =
      Sketch.ofRole declared.toList r := by
  rw [RoleTable.get?_ofRoles hcount]
  split
  · rfl
  · rename_i hr
    refine (List.eq_nil_iff_forall_not_mem.mpr fun a ha => ?_).symm
    exact hr (hroles (r, a) (Sketch.mem_ofRole.mp ha))

theorem Records.input?_assemble (h : d.Records roles ds) (hw : ds.Assembles roles) (r : RoleId)
    (m : Move) : (d.assemble t).input? r m = ds.input? r m := by
  have hcount : d.roles.length ≤ maxRoles := h.roles ▸ hw.roleCount.2
  have htable := RoleTable.get?_ofRoles hcount (fun r => MoveTable.ofList (ofRole d.inputs r)) r
  change ((RoleTable.ofRoles _ _).get? r).bind _ = _
  rw [htable]
  split
  · rw [Option.bind_some, MoveTable.get?_ofList, Declarations.input?, ← h.inputs]
    rfl
  · rename_i hr
    symm
    rw [Option.bind_none, Option.eq_none_iff_forall_ne_some]
    intro id hid
    apply hr
    rw [h.roles]
    exact hw.inputs r m (Declarations.exists_placed_iff.mp ⟨id, Declarations.placed_of_input? hid⟩)

theorem Records.describes (h : d.Records roles ds) (hw : ds.Assembles roles)
    (ht : ds.terminal? = some t) : ds.Describes roles (d.assemble t) := by
  have hcount : d.roles.length ≤ maxRoles := h.roles ▸ hw.roleCount.2
  constructor
  · exact h.roles
  · exact h.size
  · exact h.component hw.connections
  · rfl
  · exact ht
  · exact h.bases
  · exact h.input?_assemble hw
  · intro r
    rw [← h.legals]
    refine getD_ofRoles hcount ?_ r
    rw [h.legals, h.roles]
    exact (ds.lists_legals.forall_iff).mpr hw.legals
  · intro r
    rw [← h.goals]
    refine getD_ofRoles hcount ?_ r
    rw [h.goals, h.roles]
    exact (ds.lists_goals.forall_iff).mpr hw.goals
  · exact ⟨RoleTable.size_ofRoles hcount _, RoleTable.size_ofRoles hcount _,
      RoleTable.size_ofRoles hcount _⟩

theorem Records.toNet_eq_ok_iff (h : d.Records roles ds) (hparted : d.Parted) :
    d.toNet = .ok net ↔
      ds.WellFormed roles ∧ ∃ t, ds.terminal? = some t ∧ net = d.assemble t := by
  rw [Draft.toNet_eq_ok_iff, h.roles, h.dangling, h.terminal, h.inputs, h.legals, h.goals]
  constructor
  · rintro ⟨hcount, hsound, t, ht, hinputs, hlegals, hgoals, hcheck, rfl⟩
    have hw : ds.Assembles roles := by
      constructor
      · exact hcount
      · exact hsound
      · exact Declarations.exists_terminal?_iff.mp ⟨t, ht⟩
      · exact ds.lists_inputs.forall_iff.mp hinputs
      · exact ds.lists_legals.forall_iff.mp hlegals
      · exact ds.lists_goals.forall_iff.mp hgoals
    have hsep : (d.assemble t).Separates := hparted.separates (h.roles ▸ hcount.2)
    exact ⟨(h.describes hw ht).wellFormed hw hsep (Net.wellFormed_iff.mp hcheck), t, ht, rfl⟩
  · rintro ⟨hw, t, ht, rfl⟩
    have hcheck := Net.wellFormed_iff.mpr ((h.describes hw.toAssembles ht).isCircuit hw)
    exact ⟨hw.roleCount, hw.connections, t, ht, ds.lists_inputs.forall_iff.mpr hw.inputs,
      ds.lists_legals.forall_iff.mpr hw.legals, ds.lists_goals.forall_iff.mpr hw.goals, hcheck, rfl⟩

theorem exists_toNet_iff (roles : List String) (ds : Declarations) :
    (∃ net, (ofDeclarations roles ds).toNet = .ok net) ↔ ds.WellFormed roles := by
  have h := records_ofDeclarations roles ds
  have hparted := parted_ofDeclarations roles ds
  constructor
  · exact fun ⟨_, hnet⟩ => ((h.toNet_eq_ok_iff hparted).mp hnet).1
  · intro hw
    obtain ⟨t, ht⟩ := Declarations.exists_terminal?_iff.mpr hw.terminal
    exact ⟨_, (h.toNet_eq_ok_iff hparted).mpr ⟨hw, t, ht, rfl⟩⟩

/-- A draft is accepted exactly if its declarations are those of a game, and its net is what they
say. -/
theorem toNet_accepts_exactly_games (roles : List String) (ds : Declarations) :
    match (ofDeclarations roles ds).toNet with
    | .ok net => ds.WellFormed roles ∧ ds.Describes roles net
    | .error _ => ¬ ds.WellFormed roles := by
  have h := records_ofDeclarations roles ds
  cases hnet : (ofDeclarations roles ds).toNet with
  | ok net =>
      obtain ⟨hw, t, ht, rfl⟩ := (h.toNet_eq_ok_iff (parted_ofDeclarations roles ds)).mp hnet
      exact ⟨hw, h.describes hw.toAssembles ht⟩
  | error e =>
      intro hw
      obtain ⟨net, hnet'⟩ := (exists_toNet_iff roles ds).mpr hw
      cases hnet.symm.trans hnet'

instance (roles : List String) (ds : Declarations) : Decidable (ds.WellFormed roles) :=
  match h : (ofDeclarations roles ds).toNet with
  | .ok net => isTrue ((exists_toNet_iff roles ds).mp ⟨net, h⟩)
  | .error _ => isFalse fun hw => by
      obtain ⟨net, hnet⟩ := (exists_toNet_iff roles ds).mpr hw
      cases h.symm.trans hnet

/-- A robot that pushes until it is done. Its legal proposition is connected after it was declared,
and the second terminal proposition replaces the first. -/
example : Declarations.WellFormed [.terminal, .base "done", .input (.ofIndex 0) ⟨"push"⟩,
    .or [0, 3], .next 2 4, .legal (.ofIndex 0) ⟨"push"⟩, .not 2, .connect 7 6,
    .goal (.ofIndex 0) 100, .connect 2 8, .terminal, .connect 2 9] ["robot"] := by
  decide +kernel

end Draft

end GeneralGame
