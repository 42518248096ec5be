import Mathlib.Algebra.BigOperators.Ring.Finset
import Mathlib.Algebra.Order.BigOperators.Group.Finset
import Mathlib.Data.Int.Cast.Lemmas
import Mathlib.Algebra.Order.Field.Basic
import Mathlib.Algebra.Order.Floor.Ring
import Mathlib.Tactic.Linarith

/-! Truncation towards zero, and how far it takes a sum of several numbers. -/

namespace Truncation

variable {K : Type*} [Field K] [LinearOrder K] [FloorRing K]

def truncate (x : K) : ℤ := if 0 ≤ x then ⌊x⌋ else ⌈x⌉

variable {x y : K}

theorem truncate_of_nonneg (h : 0 ≤ x) : truncate x = ⌊x⌋ := if_pos h

theorem truncate_nonneg (h : 0 ≤ x) : 0 ≤ truncate x := by
  rw [truncate_of_nonneg h]
  exact Int.floor_nonneg.mpr h

theorem truncate_le (h : 0 ≤ x) : (truncate x : K) ≤ x := by
  rw [truncate_of_nonneg h]
  exact Int.floor_le x

theorem lt_truncate_add_one (h : 0 ≤ x) : x < truncate x + 1 := by
  rw [truncate_of_nonneg h]
  exact Int.lt_floor_add_one x

variable [IsStrictOrderedRing K]

@[simp] theorem truncate_intCast (n : ℤ) : truncate (n : K) = n := by
  simp [truncate]

theorem truncate_div_intCast {a b : ℤ} (ha : 0 ≤ a) (hb : 0 ≤ b) :
    truncate ((a : K) / b) = a / b := by
  rw [truncate_of_nonneg (div_nonneg (Int.cast_nonneg ha) (Int.cast_nonneg hb)),
    Int.floor_div_cast_of_nonneg hb, Int.floor_intCast]

theorem truncate_neg (x : K) : truncate (-x) = -truncate x := by
  unfold truncate
  rcases lt_trichotomy x 0 with neg | rfl | pos
  · rw [if_pos (by linarith), if_neg neg.not_ge, Int.floor_neg]
  · simp
  · rw [if_neg (by linarith), if_pos pos.le, Int.ceil_neg]

theorem abs_truncate_sub_lt (x : K) : |(truncate x : K) - x| < 1 := by
  rcases le_total 0 x with h | h
  · rw [abs_lt]
    constructor <;> linarith [truncate_le h, lt_truncate_add_one h]
  · have neg : 0 ≤ -x := neg_nonneg.mpr h
    have below := truncate_le neg
    have above := lt_truncate_add_one neg
    rw [truncate_neg, Int.cast_neg] at below above
    rw [abs_lt]
    constructor <;> linarith

theorem abs_sum_map_truncate_sub_le (xs : List K) :
    |((xs.map truncate).sum : K) - xs.sum| ≤ xs.length := by
  induction xs with
  | nil => simp
  | cons x rest ih =>
      rw [List.map_cons, List.sum_cons, List.sum_cons, Int.cast_add, List.length_cons,
        Nat.cast_succ, add_comm (rest.length : K), add_sub_add_comm]
      exact (abs_add_le _ _).trans (add_le_add (abs_truncate_sub_lt x).le ih)

theorem abs_sum_truncate_sub_le {ι : Type*} (s : Finset ι) (f : ι → K) :
    |((∑ i ∈ s, truncate (f i) : ℤ) : K) - ∑ i ∈ s, f i| ≤ s.card := by
  have listed := abs_sum_map_truncate_sub_le (s.toList.map f)
  rwa [List.map_map, Finset.sum_map_toList, Finset.sum_map_toList, List.length_map,
    Finset.length_toList] at listed

end Truncation
