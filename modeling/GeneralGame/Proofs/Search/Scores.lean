import GeneralGame.Search.Incumbent
import Mathlib

/-!
The order of scores. Scores are floating-point numbers. All of them but the one that is no number
have a rank in a linear order, in which the infinities come first and last, and one is less than
another if its rank is. What is not a number has no rank, so it is neither less nor greater than
anything.
-/
namespace GeneralGame.Score

open Float.Model

/-- A place in the order; the first difference decides. -/
abbrev Rank := Int ×ₗ Int ×ₗ Int

def lowest : Rank := toLex (-2, toLex (0, 0))

def highest : Rank := toLex (2, toLex (0, 0))

/-- Where a number stands in the order: by its sign, then its exponent, then its significand. Both
zeros stand in the same place. -/
def rankOf? : UnpackedFloat → Option Rank
  | .notANumber => none
  | .infinity .negative => some lowest
  | .finite .negative m e _ => some (toLex (-1, toLex (-e, -m)))
  | .zero _ => some (toLex (0, toLex (0, 0)))
  | .finite .positive m e _ => some (toLex (1, toLex (e, m)))
  | .infinity .positive => some highest

def rank? (x : Float) : Option Rank := rankOf? x.toModel.unpack

theorem lt_eq_true_iff (u v : UnpackedFloat) :
    u.lt v = true ↔ ∃ a b, rankOf? u = some a ∧ rankOf? v = some b ∧ a < b := by
  rcases u with (_ | _) | _ | _ | ⟨_ | _, m, e, hm⟩ <;>
    rcases v with (_ | _) | _ | _ | ⟨_ | _, m', e', hm'⟩ <;>
      simp [rankOf?, lowest, highest, UnpackedFloat.lt, UnpackedFloat.compare,
        Prod.Lex.toLex_lt_toLex, Ordering.then_eq_lt, Ordering.then_eq_gt, compare_lt_iff_lt,
        compare_gt_iff_gt]
  -- Left over is minus infinity against plus infinity, of which the signs are compared.
  rfl

variable {x y z : Float}

theorem lt_iff_rank : x < y ↔ ∃ a b, rank? x = some a ∧ rank? y = some b ∧ a < b :=
  decide_eq_true_iff.trans (lt_eq_true_iff x.toModel.unpack y.toModel.unpack)

theorem rankOf?_eq_none {u : UnpackedFloat} : rankOf? u = none ↔ u = .notANumber := by
  rcases u with (_ | _) | _ | _ | ⟨_ | _, m, e, hm⟩ <;> simp [rankOf?]

theorem isNaN_iff : x.isNaN = true ↔ rank? x = none :=
  UnpackedFloat.isNaN_iff.trans rankOf?_eq_none.symm

theorem exists_rank (h : x.isNaN = false) : ∃ a, rank? x = some a := by
  apply Option.ne_none_iff_exists'.mp
  intro hnone
  rw [isNaN_iff.mpr hnone] at h
  cases h

theorem isNaN_of_rank {a : Rank} (h : rank? x = some a) : x.isNaN = false := by
  rw [← Bool.not_eq_true, isNaN_iff, h]
  exact Option.some_ne_none a

theorem isNaN_of_lt (h : x < y) : y.isNaN = false := by
  obtain ⟨_, b, _, hb, _⟩ := lt_iff_rank.mp h
  exact isNaN_of_rank hb

/-! ### The order -/

theorem not_lt_self (x : Float) : ¬ x < x := by
  intro h
  obtain ⟨a, b, ha, hb, hlt⟩ := lt_iff_rank.mp h
  cases ha.symm.trans hb
  exact lt_irrefl a hlt

theorem lt_of_lt_of_lt (hxy : x < y) (hyz : y < z) : x < z := by
  obtain ⟨a, b, ha, hb, hab⟩ := lt_iff_rank.mp hxy
  obtain ⟨b', c, hb', hc, hbc⟩ := lt_iff_rank.mp hyz
  cases hb.symm.trans hb'
  exact lt_iff_rank.mpr ⟨a, c, ha, hc, hab.trans hbc⟩

/-- What holds of `y` against `z` holds of every number that `y` does not fall short of. -/
theorem lt_of_not_lt_of_lt (hx : x.isNaN = false) (hyx : ¬ y < x) (hyz : y < z) : x < z := by
  obtain ⟨a, ha⟩ := exists_rank hx
  obtain ⟨b, c, hb, hc, hbc⟩ := lt_iff_rank.mp hyz
  have hab : ¬ b < a := fun h => hyx (lt_iff_rank.mpr ⟨b, a, hb, ha, h⟩)
  exact lt_iff_rank.mpr ⟨a, c, ha, hc, (not_lt.mp hab).trans_lt hbc⟩

/-! ### The infinities -/

/-- Plus infinity, which every average of goals falls short of. -/
def plusInfinity : Float := 1 / 0

theorem rank?_minusInfinity : rank? minusInfinity = some lowest := rfl

theorem rank?_plusInfinity : rank? plusInfinity = some highest := rfl

theorem rankOf?_bounds {u : UnpackedFloat} {a : Rank} (h : rankOf? u = some a) :
    lowest ≤ a ∧ a ≤ highest ∧ (a = highest → u = .infinity .positive) := by
  rcases u with (_ | _) | _ | _ | ⟨_ | _, m, e, hm⟩ <;> cases h <;>
    simp [lowest, highest, Prod.Lex.toLex_le_toLex]

theorem eq_plusInfinity (h : x.toModel.unpack = .infinity .positive) : x = plusInfinity := by
  have hunpack : x.toModel.unpack = plusInfinity.toModel.unpack := h
  have hbits := (UnpackedFloat.unpack_inj_of_valid x.toModel.valid plusInfinity.toModel.valid).mp
    hunpack
  exact Float.toBits_inj.mp (UInt64.toBitVec_inj.mp hbits)

theorem minusInfinity_lt_of_lt (h : x < y) : minusInfinity < y := by
  obtain ⟨a, b, ha, hb, hlt⟩ := lt_iff_rank.mp h
  exact lt_iff_rank.mpr ⟨_, b, rank?_minusInfinity, hb, (rankOf?_bounds ha).1.trans_lt hlt⟩

theorem not_plusInfinity_lt (x : Float) : ¬ plusInfinity < x := by
  intro h
  obtain ⟨a, b, ha, hb, hlt⟩ := lt_iff_rank.mp h
  cases rank?_plusInfinity.symm.trans ha
  exact not_lt.mpr (rankOf?_bounds hb).2.1 hlt

theorem lt_plusInfinity (hx : x.isNaN = false) (hne : x ≠ plusInfinity) : x < plusInfinity := by
  obtain ⟨a, ha⟩ := exists_rank hx
  obtain ⟨-, hle, htop⟩ := rankOf?_bounds ha
  have hlt : a < highest := lt_of_le_of_ne hle fun h => hne (eq_plusInfinity (htop h))
  exact lt_iff_rank.mpr ⟨a, highest, ha, rank?_plusInfinity, hlt⟩

end GeneralGame.Score
