import GeneralGame.Search.Sampling.VisitTable
import Mathlib.Algebra.BigOperators.Group.Finset.Basic

/-!
What is read off a visit table: which states it has entries for, how often they were visited, what
they scored in total and which successors they have. Every change of the table is described by what
it does to these four.
-/
namespace GeneralGame.VisitTable

variable {t : VisitTable} {s u : State}

/-- The successors of a state, once it was expanded. -/
def children? (t : VisitTable) (s : State) : Option (List Child) := (t.get? s).bind Node.children

/-- What the playouts through a state scored together. -/
def total (t : VisitTable) (s : State) : Float := (t.node s).total

/-- The state `s` was expanded, and `u` is one of its successors. -/
def Leads (t : VisitTable) (s u : State) : Prop :=
  ∃ children, t.children? s = some children ∧ ∃ c ∈ children, c.state = u

/-- The states that were expanded. -/
def expanded (t : VisitTable) : Finset State :=
  t.nodes.keys.toFinset.filter fun s => (t.children? s).isSome

/-- How many successors the expanded states have together. -/
def successorCount (t : VisitTable) : Nat :=
  ∑ s ∈ t.expanded, ((t.children? s).getD []).length

theorem contains_eq_isSome : t.contains s = (t.get? s).isSome := by
  simp [contains, get?]

theorem visits_eq : t.visits s = (t.node s).visits := by
  unfold visits node
  cases t.get? s <;> rfl

theorem children?_eq : t.children? s = (t.node s).children := by
  unfold children? node
  cases t.get? s <;> rfl

theorem leads_of_mem {c : Child} (h : c ∈ (t.children? s).getD []) : t.Leads s c.state := by
  cases hchildren : t.children? s with
  | none =>
      rw [hchildren] at h
      cases h
  | some children =>
      rw [hchildren] at h
      exact ⟨children, hchildren, c, h, rfl⟩

theorem mem_expanded : s ∈ t.expanded ↔ (t.children? s).isSome = true := by
  unfold expanded
  rw [Finset.mem_filter, List.mem_toFinset, Std.TreeMap.mem_keys, and_iff_right_iff_imp]
  intro h
  by_contra hmem
  have hnone : t.get? s = none := Std.TreeMap.getElem?_eq_none hmem
  rw [children?, hnone] at h
  cases h

theorem isVisited_iff {node : Node} : (t.get? s).filter Node.isVisited = some node ↔
    t.get? s = some node ∧ 0 < t.visits s := by
  rw [Option.filter_eq_some_iff]
  apply and_congr_right
  intro h
  simp [visits, h, Node.isVisited]

theorem any_isExpanded : (t.get? s).any Node.isExpanded = (t.children? s).isSome := by
  unfold children?
  cases t.get? s <;> rfl

/-! ### Changes -/

variable {change : Node → Node}

theorem contains_alter :
    (t.alter s change).contains u = (decide (s = u) || t.contains u) := by
  rw [contains_eq_isSome, get?_alter, contains_eq_isSome]
  by_cases h : s = u <;> simp [h]

theorem node_alter :
    (t.alter s change).node u = if s = u then change (t.node s) else t.node u := by
  unfold node
  rw [get?_alter]
  by_cases h : s = u <;> simp [h, node]

@[simp] theorem contains_register :
    (t.register s).contains u = (decide (s = u) || t.contains u) := contains_alter

@[simp] theorem node_register : (t.register s).node u = t.node u := by
  rw [register, node_alter]
  by_cases h : s = u <;> simp [h]

@[simp] theorem contains_withRoot {root : State} :
    (withRoot root).contains u = decide (root = u) := by
  rw [withRoot, contains_register]
  simp [contains_eq_isSome]

@[simp] theorem node_withRoot {root : State} : (withRoot root).node u = .new := by
  rw [withRoot, node_register, node, get?_empty]
  rfl

theorem contains_expand {children : List Child} :
    (t.expand s children).contains u = (decide (s = u) || t.contains u) := contains_alter

theorem node_expand {children : List Child} : (t.expand s children).node u =
    if s = u then (t.node s).expand children else t.node u := node_alter

theorem visits_expand {children : List Child} :
    (t.expand s children).visits u = t.visits u := by
  rw [visits_eq, node_expand, visits_eq]
  by_cases h : s = u <;> simp [h, Node.expand]

theorem total_expand {children : List Child} : (t.expand s children).total u = t.total u := by
  rw [total, node_expand, total]
  by_cases h : s = u <;> simp [h, Node.expand]

theorem children?_expand {children : List Child} : (t.expand s children).children? u =
    if s = u then some children else t.children? u := by
  rw [children?_eq, node_expand, children?_eq]
  by_cases h : s = u <;> simp [h, Node.expand]

/-! ### Backups -/

variable {path : List State} {visits : Nat} {reward : Float}

theorem contains_backup :
    (t.backup path visits reward).contains u = (decide (u ∈ path) || t.contains u) := by
  induction path generalizing t with
  | nil => simp [backup]
  | cons s path ih =>
      change ((t.record s visits reward).backup path visits reward).contains u = _
      rw [ih, record, contains_alter]
      by_cases h : s = u
      · simp [h]
      · simp [h, Ne.symm h]

theorem children?_backup : (t.backup path visits reward).children? u = t.children? u := by
  induction path generalizing t with
  | nil => rfl
  | cons s path ih =>
      change ((t.record s visits reward).backup path visits reward).children? u = _
      rw [ih, children?_eq, record, node_alter, children?_eq]
      by_cases h : s = u <;> simp [h, Node.record]

theorem leads_backup : (t.backup path visits reward).Leads s u ↔ t.Leads s u := by
  unfold Leads
  rw [children?_backup]

/-- A backup counts once for every state of a path without repetition, and for no other state. -/
theorem visits_backup (hpath : path.Nodup) : (t.backup path visits reward).visits u =
    t.visits u + if u ∈ path then visits else 0 := by
  induction path generalizing t with
  | nil => rfl
  | cons s path ih =>
      obtain ⟨hs, hrest⟩ := List.nodup_cons.mp hpath
      change ((t.record s visits reward).backup path visits reward).visits u = _
      rw [ih hrest, visits_eq, record, node_alter, visits_eq]
      by_cases h : s = u
      · subst h
        simp [hs, Node.record]
      · simp [h, Ne.symm h]

/-! ### The count of successors -/

theorem expanded_congr {t' : VisitTable} (h : ∀ s, t'.children? s = t.children? s) :
    t'.expanded = t.expanded := by
  ext s
  rw [mem_expanded, mem_expanded, h]

theorem successorCount_congr {t' : VisitTable} (h : ∀ s, t'.children? s = t.children? s) :
    t'.successorCount = t.successorCount := by
  unfold successorCount
  rw [expanded_congr h]
  exact Finset.sum_congr rfl fun s _ => by rw [h]

@[simp] theorem successorCount_withRoot {root : State} : (withRoot root).successorCount = 0 := by
  apply Finset.sum_eq_zero
  intro s hs
  rw [mem_expanded, children?_eq, node_withRoot] at hs
  cases hs

/-- A state that is expanded for the first time adds its successors to the count. -/
theorem successorCount_expand {children : List Child} (h : t.children? s = none) :
    (t.expand s children).successorCount = t.successorCount + children.length := by
  have hs : s ∉ t.expanded := by
    rw [mem_expanded, h]
    exact Bool.false_ne_true
  have hexpanded : (t.expand s children).expanded = insert s t.expanded := by
    ext u
    rw [Finset.mem_insert, mem_expanded, mem_expanded, children?_expand]
    by_cases hu : s = u
    · simp [hu]
    · simp [hu, Ne.symm hu]
  unfold successorCount
  rw [hexpanded, Finset.sum_insert hs, children?_expand, if_pos rfl, Nat.add_comm]
  congr 1
  refine Finset.sum_congr rfl fun u hu => ?_
  have hne : s ≠ u := fun heq => hs (heq ▸ hu)
  rw [children?_expand, if_neg hne]

end GeneralGame.VisitTable
