import GeneralGame.Circuit.Draft
import Mathlib.Data.List.Forall2
import Mathlib.Data.List.Basic

/-!
What a draft computes. A sketch describes a game by Boolean functions of the facts that hold and
the moves that are made: when each move is legal, when each score counts, when the game is over, and
which facts follow. A draft realizes a sketch if its propositions compute these functions, whatever
the other components are. Every step of a draft comes with the sketch that it leads to.
-/
namespace GeneralGame

/-- What is set from outside when a net is evaluated. -/
structure Situation where
  start : Bool
  fact : FactId → Bool
  does : RoleId → Move → Bool

/-- What a component tells of a situation. -/
abbrev Signal := Situation → Bool

structure Sketch where
  roles : List String
  facts : List String
  /-- What makes a fact hold in the next state; nothing where there is no such function. -/
  feeds : FactId → Option Signal
  inputs : List (RoleId × Move)
  legals : List (RoleId × Move × Signal)
  goals : List (RoleId × Nat × Signal)
  terminal : Option Signal

namespace Sketch

/-- Nothing is declared yet. -/
def new (roles : List String) : Sketch := ⟨roles, [], fun _ => none, [], [], [], none⟩

/-- Lets a fact follow where a signal holds. -/
def feed (k : Sketch) (f : FactId) (g : Signal) : Sketch :=
  { k with feeds := fun i => if i = f then some g else k.feeds i }

end Sketch

namespace Draft

variable {d d' d'' : Draft} {k k' : Sketch} {id i : ComponentId} {c : Component} {f g : Signal}

/-! ### The circuit of a draft -/

def component? (d : Draft) (id : ComponentId) : Option Component := d.components[id]?

theorem lt_of_component? (hc : d.component? id = some c) : id < d.size :=
  (Array.getElem?_eq_some_iff.mp hc).1

def outsideIds (d : Draft) : List ComponentId :=
  init :: d.bases.toList ++ d.inputs.toList.map (·.2.2)

/-- A component that is set from outside. -/
def IsOutside (d : Draft) (id : ComponentId) : Prop := id ∈ d.outsideIds

/-- Values that agree with a situation and solve the equations of all other components. -/
structure Solves (d : Draft) (x : Situation) (v : ComponentId → Bool) : Prop where
  start : v init = x.start
  fact : ∀ n id, d.bases[n]? = some id → v id = x.fact n
  does : ∀ r m id, (r, m, id) ∈ d.inputs → v id = x.does r m
  inner : ∀ id c, d.component? id = some c → ¬ d.IsOutside id → v id = c.output v

/-- In every solution the component has the value that the signal tells. -/
structure Computes (d : Draft) (id : ComponentId) (f : Signal) : Prop where
  lt : id < d.size
  value : ∀ x v, d.Solves x v → v id = f x

/-- A component that others may read: it is set from outside, or it is a gate. -/
def IsSource (d : Draft) (id : ComponentId) : Prop :=
  d.IsOutside id ∨ ∃ c, d.component? id = some c ∧ c.kind ≠ .proposition

structure Signals (d : Draft) (id : ComponentId) (f : Signal) : Prop extends Computes d id f where
  source : d.IsSource id

/-- An inner component reads sources only, and a gate only such that were there before it. -/
structure Fits (d : Draft) (id : ComponentId) (c : Component) : Prop where
  sources : ∀ i ∈ c.inputs, d.IsSource i
  earlier : c.kind ≠ .proposition → ∀ i ∈ c.inputs, i < id
  count : (Net.expectedInputs c.kind false).admits c.inputs.length = true

/-- What every draft keeps that is made gate by gate. -/
structure Tidy (d : Draft) : Prop where
  connected : d.dangling = #[]
  distinct : d.outsideIds.Nodup
  outside : ∀ id, d.IsOutside id →
    ∃ c, d.component? id = some c ∧ c.kind = .proposition ∧ (id ∉ d.bases → c.inputs = [])
  inner : ∀ id c, d.component? id = some c → ¬ d.IsOutside id → d.Fits id c

/-- A transition that carries a signal. -/
structure Carries (d : Draft) (id : ComponentId) (f : Signal) : Prop extends Signals d id f where
  transition : ∃ c, d.component? id = some c ∧ c.kind = .transition

/-- The fact's base proposition has its name, and is fed what the sketch feeds it. -/
def IsFact (d : Draft) (id : ComponentId) (name : Option String) (feed : Option Signal) : Prop :=
  ∃ c, d.component? id = some c ∧ c.name = name ∧ List.Forall₂ d.Carries c.inputs feed.toList

/-- The propositions that are declared for roles compute the signals of the sketch, in order. -/
def Declares {α : Type} (d : Draft) (declared : List (RoleId × α × ComponentId))
    (signals : List (RoleId × α × Signal)) : Prop :=
  List.Forall₂ (fun e s => e.1 = s.1 ∧ e.2.1 = s.2.1 ∧ d.Computes e.2.2 s.2.2) declared signals

structure Realizes (d : Draft) (k : Sketch) : Prop where
  tidy : d.Tidy
  roles : d.roles = k.roles
  size : d.bases.size = k.facts.length
  facts : ∀ n id, d.bases[n]? = some id → d.IsFact id k.facts[n]? (k.feeds n)
  inputs : d.inputs.toList.map (fun e => (e.1, e.2.1)) = k.inputs
  legals : d.Declares d.legals.toList k.legals
  goals : d.Declares d.goals.toList k.goals
  terminal : List.Forall₂ d.Computes d.terminal.toList k.terminal.toList

/-! ### Growing -/

/-- Whatever is computed before is computed after. -/
structure Grows (d d' : Draft) : Prop where
  bases : ∀ (n : FactId) (id : ComponentId), d.bases[n]? = some id → d'.bases[n]? = some id
  outside : ∀ id, d.IsOutside id → d'.IsOutside id
  kinds : ∀ id c, d.component? id = some c →
    ∃ c', d'.component? id = some c' ∧ c'.kind = c.kind
  solves : ∀ x v, d'.Solves x v → d.Solves x v

theorem Grows.refl (d : Draft) : d.Grows d where
  bases _ _ h := h
  outside _ h := h
  kinds _ c h := ⟨c, h, rfl⟩
  solves _ _ h := h

theorem Grows.trans (h : d.Grows d') (h' : d'.Grows d'') : d.Grows d'' where
  bases n id hid := h'.bases n id (h.bases n id hid)
  outside id hid := h'.outside id (h.outside id hid)
  kinds id c hc := by
    obtain ⟨c', hc', hkind⟩ := h.kinds id c hc
    obtain ⟨c'', hc'', hkind'⟩ := h'.kinds id c' hc'
    exact ⟨c'', hc'', hkind'.trans hkind⟩
  solves x v hv := h.solves x v (h'.solves x v hv)

theorem Grows.size_le (h : d.Grows d') : d.size ≤ d'.size := by
  apply Nat.le_of_not_lt
  intro hlt
  obtain ⟨c, hc, -⟩ := h.kinds d'.size _ (Array.getElem?_eq_getElem hlt)
  exact absurd (lt_of_component? hc) (Nat.lt_irrefl _)

theorem IsSource.mono (hid : d.IsSource id) (h : d.Grows d') : d'.IsSource id := by
  rcases hid with hid | ⟨c, hc, hkind⟩
  · exact .inl (h.outside id hid)
  · obtain ⟨c', hc', hkind'⟩ := h.kinds id c hc
    exact .inr ⟨c', hc', hkind' ▸ hkind⟩

theorem Computes.mono (hid : d.Computes id f) (h : d.Grows d') : d'.Computes id f :=
  ⟨Nat.lt_of_lt_of_le hid.lt h.size_le, fun x v hv => hid.value x v (h.solves x v hv)⟩

theorem Signals.mono (hid : d.Signals id f) (h : d.Grows d') : d'.Signals id f :=
  ⟨hid.toComputes.mono h, hid.source.mono h⟩

theorem Signals.congr (hid : d.Signals id f) (h : ∀ x, f x = g x) : d.Signals id g := by
  rw [← funext h]
  exact hid

theorem Carries.mono (hid : d.Carries id f) (h : d.Grows d') : d'.Carries id f := by
  obtain ⟨c, hc, hkind⟩ := hid.transition
  obtain ⟨c', hc', hkind'⟩ := h.kinds id c hc
  exact ⟨hid.toSignals.mono h, c', hc', hkind'.trans hkind⟩

theorem Fits.mono (hc : d.Fits id c) (h : d.Grows d') : d'.Fits id c :=
  ⟨fun i hi => (hc.sources i hi).mono h, hc.earlier, hc.count⟩

theorem Declares.mono {α : Type} {es : List (RoleId × α × ComponentId)}
    {ss : List (RoleId × α × Signal)} (hes : d.Declares es ss) (h : d.Grows d') :
    d'.Declares es ss :=
  hes.imp fun _ _ ⟨hrole, ha, hcomputes⟩ => ⟨hrole, ha, hcomputes.mono h⟩

theorem IsFact.mono {name : Option String} {feed : Option Signal} (hid : d.IsFact id name feed)
    (h : d.Grows d') (hsame : d'.component? id = d.component? id) : d'.IsFact id name feed := by
  obtain ⟨c, hc, hname, hfeed⟩ := hid
  exact ⟨c, hsame.trans hc, hname, hfeed.imp fun _ _ ht => ht.mono h⟩

/-! ### What can be read -/

theorem Tidy.outside_lt (h : d.Tidy) (hid : d.IsOutside id) : id < d.size := by
  obtain ⟨c, hc, -⟩ := h.outside id hid
  exact lt_of_component? hc

theorem IsSource.lt (hid : d.IsSource id) (h : d.Tidy) : id < d.size := by
  rcases hid with hid | ⟨c, hc, -⟩
  · exact h.outside_lt hid
  · exact lt_of_component? hc

theorem isOutside_init : d.IsOutside init := List.mem_cons_self

theorem isOutside_base {n : FactId} (hid : d.bases[n]? = some id) : d.IsOutside id := by
  apply List.mem_append_left
  exact List.mem_cons_of_mem init (Array.mem_toList_iff.mpr (Array.mem_of_getElem? hid))

theorem isOutside_input {r : RoleId} {m : Move} (hid : (r, m, id) ∈ d.inputs) : d.IsOutside id :=
  List.mem_append_right _ (List.mem_map_of_mem (Array.mem_toList_iff.mpr hid))

theorem Tidy.signals_fact (h : d.Tidy) {n : FactId} (hid : d.bases[n]? = some id) :
    d.Signals id fun x => x.fact n :=
  ⟨⟨h.outside_lt (isOutside_base hid), fun _ _ hv => hv.fact n id hid⟩, .inl (isOutside_base hid)⟩

theorem Tidy.signals_init (h : d.Tidy) : d.Signals init Situation.start :=
  ⟨⟨h.outside_lt isOutside_init, fun _ _ hv => hv.start⟩, .inl isOutside_init⟩

end Draft

end GeneralGame
