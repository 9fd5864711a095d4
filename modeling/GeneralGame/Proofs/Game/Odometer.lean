import GeneralGame.Odometer
import GeneralGame.Proofs.Failing
import Mathlib.Algebra.BigOperators.Ring.List
import Mathlib.Algebra.GroupWithZero.Nat
import Mathlib.Data.List.Forall2

/-!
What the odometer comes to. None of its look-ups ever misses an entry, and its choices come in the
order of the product. What can go wrong is the count: it must fit a machine word, and so must the
room for the joint moves, or there are none of them.
-/
namespace GeneralGame.Game

variable {α : Type}

/-- All ways to choose one entry of every list, the first list changing slowest. -/
def product : List (List α) → List (List α)
  | [] => [[]]
  | as :: rest =>
    let tails := product rest
    as.flatMap fun a => tails.map (a :: ·)

theorem length_product (lists : List (List α)) :
    (product lists).length = (lists.map List.length).prod := by
  induction lists with
  | nil => rfl
  | cons as lists ih => simp [product, List.length_flatMap, ih]

/-! ### The choices that are left -/

/-- One place in each list. -/
def Places (lists : List (List α)) (places : List Nat) : Prop :=
  List.Forall₂ (fun i as => i < as.length) places lists

/-- The choices from some places on, in the order of the product. -/
def choicesFrom : List (List α) → List Nat → List (List α)
  | as :: lists, i :: places =>
    (as[i]?.toList.flatMap fun a => (choicesFrom lists places).map (a :: ·)) ++
      (as.drop (i + 1)).flatMap fun a => (product lists).map (a :: ·)
  | _, _ => [[]]

/-- The places after these, and whether there are any. -/
def advance : List (List α) → List Nat → Bool × List Nat
  | as :: lists, i :: places =>
    match advance lists places with
    | (true, places) => (true, i :: places)
    | (false, places) => if i + 1 < as.length then (true, (i + 1) :: places) else (false, 0 :: places)
  | _, places => (false, places)

variable {lists : List (List α)} {as : List α} {places : List Nat} {i pos : Nat}

theorem Places.ne_nil (h : Places lists places) : ∀ as ∈ lists, as ≠ [] := by
  induction h with
  | nil => simp
  | cons hi _ ih => exact List.forall_mem_cons.mpr ⟨List.ne_nil_of_length_pos (by omega), ih⟩

theorem places_start (h : ∀ as ∈ lists, as ≠ []) :
    Places lists (List.replicate lists.length 0) := by
  induction lists with
  | nil => exact .nil
  | cons as lists ih =>
      obtain ⟨has, hlists⟩ := List.forall_mem_cons.mp h
      exact .cons (List.length_pos_iff.mpr has) (ih hlists)

/-- From the start on, all choices are left. -/
theorem choicesFrom_start (h : ∀ as ∈ lists, as ≠ []) :
    choicesFrom lists (List.replicate lists.length 0) = product lists := by
  induction lists with
  | nil => rfl
  | cons as lists ih =>
      obtain ⟨has, hlists⟩ := List.forall_mem_cons.mp h
      obtain ⟨a, as, rfl⟩ := List.exists_cons_of_ne_nil has
      simp [choicesFrom, product, List.replicate_succ, ih hlists]

theorem advanceAt_succ (lists : List (List α)) (pos : Nat) (places : List Nat) :
    advanceAt lists (pos + 1) places =
      places[pos]?.bind fun i => lists[pos]?.bind fun as =>
        if i + 1 < as.length then some (true, places.set pos (i + 1))
        else advanceAt lists pos (places.set pos 0) := rfl

/-- The odometer advances the places of the lists after the first, and then the first. -/
theorem advanceAt_cons (pos : Nat) (places : List Nat) :
    advanceAt (as :: lists) (pos + 1) (i :: places) =
      (advanceAt lists pos places).bind fun (more, places) =>
        if more then some (true, i :: places) else advanceAt (as :: lists) 1 (i :: places) := by
  induction pos generalizing places with
  | zero => rfl
  | succ pos ih =>
      rw [advanceAt_succ (as :: lists), advanceAt_succ lists]
      cases hplace : places[pos]? with
      | none => simp [hplace]
      | some j =>
          cases hlist : lists[pos]? with
          | none => simp [hplace, hlist]
          | some bs =>
              by_cases hlt : j + 1 < bs.length
              · simp [hplace, hlist, hlt]
              · simp [hplace, hlist, hlt, ih]

theorem advanceAt_eq (h : Places lists places) :
    advanceAt lists lists.length places = some (advance lists places) := by
  induction h with
  | nil => rfl
  | @cons i as places lists hi _ ih =>
      rw [List.length_cons, advanceAt_cons, ih, advance]
      cases advance lists places with
      | mk more rest => cases more <;> simp [advanceAt]; split <;> simp

theorem pickAt_cons (hi : i < as.length) :
    pickAt (as :: lists) (i :: places) = (pickAt lists places).map (as[i] :: ·) := by
  simp [pickAt, hi, Option.map_eq_bind]

/-- One step of the odometer: these places make the first choice of those that are left, and the
next places, if there are any, make the others. -/
theorem choicesFrom_step (h : Places lists places) :
    ∃ choice, pickAt lists places = some choice ∧
      match advance lists places with
      | (true, next) => Places lists next ∧
          choicesFrom lists places = choice :: choicesFrom lists next
      | (false, next) => next = List.replicate lists.length 0 ∧
          choicesFrom lists places = [choice] := by
  induction h with
  | nil => exact ⟨[], rfl, rfl, rfl⟩
  | @cons i as places lists hi hplaces ih =>
      obtain ⟨choice, hpick, hadvance⟩ := ih
      refine ⟨as[i] :: choice, by rw [pickAt_cons hi, hpick]; rfl, ?_⟩
      have hentry : as[i]? = some as[i] := List.getElem?_eq_getElem hi
      rw [advance]
      cases hnext : advance lists places with
      | mk more next =>
          rw [hnext] at hadvance
          cases more with
          | true =>
              obtain ⟨hplaces', hleft⟩ := hadvance
              refine ⟨.cons hi hplaces', ?_⟩
              simp [choicesFrom, hentry, hleft]
          | false =>
              obtain ⟨rfl, hleft⟩ := hadvance
              have hne := Places.ne_nil hplaces
              by_cases hlt : i + 1 < as.length
              · simp only [hlt, if_true]
                refine ⟨.cons hlt (places_start hne), ?_⟩
                simp [choicesFrom, hentry, hleft, hlt, choicesFrom_start hne]
                rw [List.drop_eq_getElem_cons hlt, List.flatMap_cons]
              · simp only [hlt, if_false]
                have hdrop : as.drop (i + 1) = [] := List.drop_eq_nil_of_le (by omega)
                exact ⟨rfl, by simp [choicesFrom, hentry, hleft, hdrop]⟩

theorem choicesAt_eq {n : Nat} (h : Places lists places)
    (hn : (choicesFrom lists places).length = n) :
    choicesAt lists n places = some (choicesFrom lists places) := by
  induction n generalizing places with
  | zero =>
      obtain ⟨choice, -, hadvance⟩ := choicesFrom_step h
      rw [List.length_eq_zero_iff] at hn
      split at hadvance <;> simp [hadvance.2] at hn
  | succ n ih =>
      obtain ⟨choice, hpick, hadvance⟩ := choicesFrom_step h
      rw [choicesAt, hpick, advanceAt_eq h]
      split at hadvance
      · rename_i next hnext
        obtain ⟨hplaces, hleft⟩ := hadvance
        have hrest := ih hplaces (by simpa [hleft] using hn)
        simp [hnext, hrest, hleft]
      · rename_i hnext
        simp [hnext, hadvance.2]

/-- From the start on, the odometer finds a place in each list and comes to the product. -/
theorem choicesAt_start (hcount : (lists.map List.length).prod ≠ 0) :
    choicesAt lists (lists.map List.length).prod (List.replicate lists.length 0) =
      some (product lists) := by
  have hne : ∀ as ∈ lists, as ≠ [] := by
    rintro as has rfl
    exact hcount (List.prod_eq_zero (List.mem_map.mpr ⟨[], has, rfl⟩))
  have hstart := choicesFrom_start hne
  rw [choicesAt_eq (places_start hne) (by rw [hstart, length_product]), hstart]

/-! ### The count -/

theorem prod_lengths_pos (h : ∀ as ∈ lists, as ≠ []) : 0 < (lists.map List.length).prod := by
  refine Nat.pos_of_ne_zero fun hzero => ?_
  obtain ⟨as, has, hlength⟩ := List.mem_map.mp (List.prod_eq_zero_iff.mp hzero)
  exact h as has (List.length_eq_zero_iff.mp hlength)

theorem prod_lengths_le_pow {most : Nat} (h : ∀ as ∈ lists, as.length ≤ most) :
    (lists.map List.length).prod ≤ most ^ lists.length := by
  induction lists with
  | nil => exact Nat.le_refl 1
  | cons as lists ih =>
      obtain ⟨has, hlists⟩ := List.forall_mem_cons.mp h
      rw [List.map_cons, List.prod_cons, List.length_cons, Nat.pow_succ']
      exact Nat.mul_le_mul has (ih hlists)

theorem foldlM_fit_length {n : Nat} (hn : n < UInt64.size) (h : ∀ as ∈ lists, as ≠ []) :
    lists.foldlM (fun count as => fit UInt64.size (count * as.length)) n =
      fit UInt64.size (n * (lists.map List.length).prod) := by
  induction lists generalizing n with
  | nil =>
      rw [List.map_nil, List.prod_nil, Nat.mul_one]
      exact (fit_of_lt hn).symm
  | cons as lists ih =>
      obtain ⟨-, hlists⟩ := List.forall_mem_cons.mp h
      rw [List.foldlM_cons, List.map_cons, List.prod_cons, ← Nat.mul_assoc]
      by_cases hfits : n * as.length < UInt64.size
      · rw [fit_of_lt hfits]
        exact ih hfits hlists
      · have hle : UInt64.size ≤ n * as.length * (lists.map List.length).prod :=
          (Nat.not_lt.mp hfits).trans (Nat.le_mul_of_pos_right _ (prod_lengths_pos hlists))
        rw [fit_of_le (Nat.not_lt.mp hfits), fit_of_le hle]
        rfl

/-- Lists with entries are counted exactly, if the count fits. -/
theorem countChoices_eq (h : ∀ as ∈ lists, as ≠ []) :
    countChoices lists = fit UInt64.size (lists.map List.length).prod := by
  rw [countChoices, foldlM_fit_length (by decide) h, Nat.one_mul]

theorem eq_of_foldlM_fit_length {n count : Nat}
    (h : lists.foldlM (fun count as => fit UInt64.size (count * as.length)) n = .ok count) :
    count = n * (lists.map List.length).prod := by
  induction lists generalizing n with
  | nil =>
      cases h
      exact (Nat.mul_one _).symm
  | cons as lists ih =>
      rw [List.foldlM_cons] at h
      by_cases hfits : n * as.length < UInt64.size
      · rw [fit_of_lt hfits] at h
        rw [List.map_cons, List.prod_cons, ← Nat.mul_assoc]
        exact ih h
      · rw [fit_of_le (Nat.not_lt.mp hfits)] at h
        cases h

/-! ### Joint moves -/

variable {lists : List (List Move)}

/-- There is room for the joint moves of these lists. -/
def Fits (lists : List (List Move)) : Prop :=
  (lists.map List.length).prod * jointMoveBytes < 2 ^ 63

instance : Decidable (Fits lists) := inferInstanceAs (Decidable (_ < _))

theorem fits_of_length_le (most : Nat) (h : ∀ ms ∈ lists, ms.length ≤ most)
    (hroom : most ^ lists.length * jointMoveBytes < 2 ^ 63) : Fits lists :=
  Nat.lt_of_le_of_lt (Nat.mul_le_mul_right _ (prod_lengths_le_pow h)) hroom

theorem eq_of_reserve {total : Nat} (h : reserve lists = .ok total) :
    total = (lists.map List.length).prod := by
  obtain ⟨count, hcount, h⟩ := exists_of_bind_eq_ok h
  obtain ⟨_, -, h⟩ := exists_of_bind_eq_ok h
  cases h
  rw [eq_of_foldlM_fit_length hcount, Nat.one_mul]

/-- Room is made for the joint moves of lists with entries exactly if they fit. -/
theorem reserve_eq (h : ∀ ms ∈ lists, ms ≠ []) :
    reserve lists =
      if Fits lists then .ok (lists.map List.length).prod else .error .panic := by
  rw [reserve, countChoices_eq h]
  by_cases hcount : (lists.map List.length).prod < UInt64.size
  · rw [fit_of_lt hcount]
    by_cases hfits : Fits lists
    · rw [if_pos hfits]
      exact congrArg (· >>= fun _ => pure (lists.map List.length).prod) (fit_of_lt hfits)
    · rw [if_neg hfits]
      exact congrArg (· >>= fun _ => pure (lists.map List.length).prod)
        (fit_of_le (Nat.not_lt.mp hfits))
  · have hfits : ¬Fits lists := by
      rw [Fits, jointMoveBytes]
      rw [UInt64.size] at hcount
      omega
    rw [fit_of_le (Nat.not_lt.mp hcount), if_neg hfits]
    rfl

/-- No look-up of the odometer fails: once there is room, the product is made. -/
theorem cartesian_eq_map (lists : List (List Move)) :
    cartesian lists = (reserve lists).map fun _ => (product lists).map .mk := by
  rw [cartesian]
  cases htotal : reserve lists with
  | error f => rfl
  | ok total =>
      obtain rfl := eq_of_reserve htotal
      by_cases hzero : (lists.map List.length).prod = 0
      · have hnil : product lists = [] := by rw [← List.length_eq_zero_iff, length_product, hzero]
        simp [Except.map, bind, Except.bind, hzero, hnil]
        rfl
      · simp [Except.map, bind, Except.bind, hzero, choicesAt_start hzero]
        rfl

/-- The joint moves of lists with entries, or a breakdown where there are too many of them. -/
theorem cartesian_eq (h : ∀ ms ∈ lists, ms ≠ []) :
    cartesian lists = if Fits lists then .ok ((product lists).map .mk) else .error .panic := by
  rw [cartesian_eq_map, reserve_eq h]
  split <;> rfl

end GeneralGame.Game
