/-!
Game states. A fact is known by its place in the list of base propositions, and a state is the
set of the facts that hold. Two states with the same facts are equal, however they were reached.
-/
namespace GeneralGame

abbrev FactId := Nat

def FactId.text (f : FactId) : String := s!"Fact({f})"

/-- A finite set of facts, listed in ascending order without repetition. -/
@[ext]
structure State where
  facts : List FactId
  ascending : facts.Pairwise (· < ·)
deriving DecidableEq

namespace State

/-- Adds a fact to an ascending list, at its place. -/
def insertFact (f : FactId) : List FactId → List FactId
  | [] => [f]
  | g :: gs =>
    if f < g then f :: g :: gs
    else if f = g then g :: gs
    else g :: insertFact f gs

theorem mem_insertFact {x f : FactId} {gs : List FactId} :
    x ∈ insertFact f gs ↔ x = f ∨ x ∈ gs := by
  induction gs with
  | nil => simp [insertFact]
  | cons g gs ih =>
    simp only [insertFact]
    split
    · simp
    · split
      · rename_i h
        subst h
        simp
      · simp only [List.mem_cons, ih]
        constructor <;> rintro (h | h | h) <;> simp [h]

theorem insertFact_ascending (f : FactId) {gs : List FactId} (h : gs.Pairwise (· < ·)) :
    (insertFact f gs).Pairwise (· < ·) := by
  induction gs with
  | nil => simp [insertFact]
  | cons g gs ih =>
    obtain ⟨hg, hgs⟩ := List.pairwise_cons.mp h
    simp only [insertFact]
    split
    · rename_i hfg
      refine List.pairwise_cons.mpr ⟨fun x hx => ?_, h⟩
      rcases List.mem_cons.mp hx with rfl | hx
      · exact hfg
      · exact Nat.lt_trans hfg (hg x hx)
    · split
      · exact h
      · refine List.pairwise_cons.mpr ⟨fun x hx => ?_, ih hgs⟩
        rcases mem_insertFact.mp hx with rfl | hx
        · exact Nat.lt_of_le_of_ne (Nat.not_lt.mp ‹_›) (Ne.symm ‹_›)
        · exact hg x hx

def empty : State := ⟨[], .nil⟩

instance : Inhabited State := ⟨empty⟩

def insert (s : State) (f : FactId) : State :=
  ⟨insertFact f s.facts, insertFact_ascending f s.ascending⟩

/-- The set of the listed facts; order and repetition do not matter. -/
def ofFacts (fs : List FactId) : State := fs.foldr (fun f s => s.insert f) empty

def contains (s : State) (f : FactId) : Bool := s.facts.contains f

def size (s : State) : Nat := s.facts.length

def isEmpty (s : State) : Bool := s.facts.isEmpty

def text (s : State) : String :=
  "\x7b" ++ ", ".intercalate (s.facts.map fun f => toString f) ++ "\x7d"

instance : Membership FactId State := ⟨fun s f => f ∈ s.facts⟩

theorem mem_def {s : State} {f : FactId} : f ∈ s ↔ f ∈ s.facts := Iff.rfl

@[simp] theorem mem_insert {s : State} {f x : FactId} : x ∈ s.insert f ↔ x = f ∨ x ∈ s :=
  mem_insertFact

@[simp] theorem not_mem_empty {x : FactId} : x ∉ empty := by simp [mem_def, empty]

@[simp] theorem mem_ofFacts {fs : List FactId} {x : FactId} : x ∈ ofFacts fs ↔ x ∈ fs := by
  induction fs with
  | nil => simp [ofFacts]
  | cons f fs ih =>
    have hstep : ofFacts (f :: fs) = (ofFacts fs).insert f := rfl
    rw [hstep, mem_insert, ih, List.mem_cons]

/-- A state is determined by its facts. -/
theorem eq_of_mem_iff {s t : State} (h : ∀ f, f ∈ s ↔ f ∈ t) : s = t := by
  have nodup (s : State) : s.facts.Nodup := s.ascending.imp Nat.ne_of_lt
  have hperm : s.facts.Perm t.facts := (List.perm_ext_iff_of_nodup (nodup s) (nodup t)).mpr h
  refine State.ext (hperm.eq_of_pairwise (fun f g _ _ hfg hgf => ?_) s.ascending t.ascending)
  exact absurd hgf (Nat.lt_asymm hfg)

/-- States are ordered by their lists of facts, so that tables may be keyed by them. -/
instance : Ord State := ⟨compareOn facts⟩

instance : Std.TransOrd State := inferInstanceAs (Std.TransCmp (compareOn facts))

instance : Std.LawfulEqOrd State where
  eq_of_compare {s t} h :=
    have hfacts : compare s.facts t.facts = .eq := h
    State.ext (Std.LawfulEqCmp.eq_of_compare hfacts)

end State

end GeneralGame
