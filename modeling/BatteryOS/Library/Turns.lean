import BatteryOS.Library.Proportion
import Mathlib.Data.List.Perm.Subperm

/-! Parties that are asked one after the other for their share of an amount, in proportion to their
weights, where every answer takes something off the total that the next one is divided by. The
answers do not depend on the order unless a party takes something off while another has a weight. -/

namespace Turns

variable {α K : Type*} [Field K] [DecidableEq K] (weight taken : α → K) (amount : K)

/-- The answers of the parties in an order, from a total on; `none` once the total is zero. -/
def answers : K → List α → Option (List K)
  | _, [] => some []
  | total, x :: rest =>
    if total = 0 then none
    else (answers (total - taken x) rest).map fun others => weight x / total * amount :: others

/-- Asked in any order, every party gives the same answer, and the answers make up the amount. -/
def Consistent (parties : List α) : Prop :=
  ∃ answer : α → K, (∀ order, order.Perm parties →
    answers weight taken amount (Proportion.totalWeight weight parties) order =
      some (order.map answer)) ∧ (parties.map answer).sum = amount

variable {weight taken amount} {parties : List α}

theorem answers_congr {weight' taken' : α → K} {order : List α} (total : K)
    (same : ∀ x ∈ order, weight x = weight' x ∧ taken x = taken' x) :
    answers weight taken amount total order = answers weight' taken' amount total order := by
  induction order generalizing total with
  | nil => rfl
  | cons x rest ih =>
      have first := same x List.mem_cons_self
      rw [answers, answers, first.1, first.2,
        ih _ fun y hy => same y (List.mem_cons_of_mem x hy)]

theorem forall_split_cons {P : List α → α → Prop} {y : α} {rest : List α} :
    (∀ before x after, y :: rest = before ++ x :: after → P before x) ↔
      P [] y ∧ ∀ before x after, rest = before ++ x :: after → P (y :: before) x := by
  constructor
  · intro h
    exact ⟨h [] y rest rfl, fun before x after split =>
      h (y :: before) x after (by rw [split, List.cons_append])⟩
  · rintro ⟨first, later⟩ before x after split
    cases before with
    | nil =>
        obtain ⟨rfl, rfl⟩ := List.cons.inj split
        exact first
    | cons z before =>
        obtain ⟨rfl, rfl⟩ := List.cons.inj split
        exact later before x after rfl

theorem answers_eq_map_iff {answer : α → K} (total : K) (order : List α) :
    answers weight taken amount total order = some (order.map answer) ↔
      ∀ before x after, order = before ++ x :: after →
        total - (before.map taken).sum ≠ 0 ∧
          weight x / (total - (before.map taken).sum) * amount = answer x := by
  induction order generalizing total with
  | nil => exact iff_of_true rfl fun before x after h => by simp at h
  | cons y rest ih =>
      rw [forall_split_cons]
      simp only [List.map_nil, List.sum_nil, sub_zero, List.map_cons, List.sum_cons, ← sub_sub]
      rw [← ih, answers]
      by_cases zero : total = 0
      · simp [zero]
      · rw [if_neg zero, and_assoc, and_iff_right zero]
        cases answers weight taken amount (total - taken y) rest <;> simp [and_comm]

theorem exists_order {first : List α} (h : first.Subperm parties) :
    ∃ after, (first ++ after).Perm parties := by
  obtain ⟨middle, perm, sub⟩ := h
  obtain ⟨after, split⟩ := sub.exists_perm_append
  exact ⟨after, (perm.append_right after).symm.trans split.symm⟩

theorem sum_taken_eq_zero (quiet : ∀ y ∈ parties, taken y ≠ 0 → ∀ x ∈ parties, x ≠ y →
      weight x = 0) {before after : List α} {x : α} (nodup : parties.Nodup)
    (order : (before ++ x :: after).Perm parties) (weighs : weight x ≠ 0) :
    (before.map taken).sum = 0 := by
  have distinct := (order.nodup_iff.mpr nodup)
  rw [List.nodup_append] at distinct
  refine List.sum_eq_zero fun t ht => ?_
  obtain ⟨y, hy, rfl⟩ := List.mem_map.mp ht
  by_contra takes
  have ne : x ≠ y := fun same => distinct.2.2 y hy x List.mem_cons_self same.symm
  exact weighs (quiet y (order.subset (List.mem_append_left _ hy)) takes x
    (order.subset (by simp)) ne)

theorem quiet_of_consistent (total_ne : Proportion.totalWeight weight parties ≠ 0)
    (consistent : Consistent weight taken amount parties) :
    (∀ asked x, (x :: asked).Subperm parties →
      (asked.map taken).sum ≠ Proportion.totalWeight weight parties) ∧
    (amount = 0 ∨ ∀ y ∈ parties, taken y ≠ 0 → ∀ x ∈ parties, x ≠ y → weight x = 0) := by
  obtain ⟨answer, answered, -⟩ := consistent
  have right (before : List α) {after : List α} {x : α}
      (order : (before ++ x :: after).Perm parties) :=
    (answers_eq_map_iff _ _).mp (answered _ order) before x after rfl
  refine ⟨fun asked x selected whole => ?_, ?_⟩
  · obtain ⟨after, perm⟩ := exists_order selected
    have turn : (asked ++ x :: after).Perm parties := List.perm_middle.trans perm
    exact (right asked turn).1 (by rw [whole, sub_self])
  · by_cases nothing : amount = 0
    · exact .inl nothing
    · refine .inr fun y hy takes x hx ne => ?_
      by_contra weighs
      -- `x` is asked first in one order and after `y` in another
      have pair : [y, x].Subperm parties :=
        List.subperm_of_subset (by simp [ne.symm]) (by simp [hy, hx])
      obtain ⟨late, afterBoth⟩ := exists_order pair
      have single : [x].Subperm parties := List.singleton_subperm_iff.mpr hx
      obtain ⟨rest, afterOne⟩ := exists_order single
      have first := (right [] afterOne).2
      obtain ⟨second_ne, second⟩ := right [y] afterBoth
      simp only [List.map_nil, List.sum_nil, sub_zero, List.map_singleton, List.sum_singleton]
        at first second second_ne
      have same := first.trans second.symm
      rw [mul_left_inj' nothing, div_eq_div_iff total_ne second_ne,
        mul_right_inj' weighs] at same
      exact takes (sub_eq_self.mp same)

theorem consistent_of_quiet (nodup : parties.Nodup)
    (total_ne : Proportion.totalWeight weight parties ≠ 0)
    (selections : ∀ asked x, (x :: asked).Subperm parties →
      (asked.map taken).sum ≠ Proportion.totalWeight weight parties)
    (quiet : amount = 0 ∨ ∀ y ∈ parties, taken y ≠ 0 → ∀ x ∈ parties, x ≠ y → weight x = 0) :
    Consistent weight taken amount parties := by
  refine ⟨fun x => weight x / Proportion.totalWeight weight parties * amount,
    fun order perm => ?_, ?_⟩
  · rw [answers_eq_map_iff]
    rintro before x after rfl
    have selected : (x :: before).Subperm parties :=
      ((List.sublist_append_left _ after).subperm).trans (List.perm_middle.symm.trans perm).subperm
    refine ⟨fun zero => selections before x selected (sub_eq_zero.mp zero).symm, ?_⟩
    rcases quiet with rfl | quiet
    · rw [mul_zero, mul_zero]
    · by_cases weighs : weight x = 0
      · rw [weighs, zero_div, zero_div]
      · rw [sum_taken_eq_zero quiet nodup perm weighs, sub_zero]
  · have shares : (parties.map fun x =>
        weight x / Proportion.totalWeight weight parties * amount) =
        parties.map (Proportion.share weight parties amount) :=
      List.map_congr_left fun x _ => by rw [Proportion.share, div_mul_eq_mul_div]
    rw [shares, Proportion.sum_share total_ne]

/-- The answers are consistent exactly when no selection of parties takes off the whole total while
another is still to be asked, and no party takes anything off while another has a weight. -/
theorem consistent_iff_quiet (nodup : parties.Nodup)
    (total_ne : Proportion.totalWeight weight parties ≠ 0) :
    Consistent weight taken amount parties ↔
      (∀ asked x, (x :: asked).Subperm parties →
        (asked.map taken).sum ≠ Proportion.totalWeight weight parties) ∧
      (amount = 0 ∨ ∀ y ∈ parties, taken y ≠ 0 → ∀ x ∈ parties, x ≠ y → weight x = 0) :=
  ⟨quiet_of_consistent total_ne, fun h => consistent_of_quiet nodup total_ne h.1 h.2⟩

end Turns
