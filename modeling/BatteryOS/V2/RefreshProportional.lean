import BatteryOS.V2.Redistribution
import BatteryOS.V2.Scale

/-! The refresh of the policy that divides in proportion. The current of the source is divided as
the children have asked. Where what they asked for adds up to nothing, it goes to those that asked
for its direction, and the others are reported to have what they asked for on top of it. -/

namespace BatteryOS.V2

/-- The C function: halves are rounded away from zero. -/
def round (x : ℚ) : ℤ := if 0 ≤ x then ⌊x + 1 / 2⌋ else ⌈x - 1 / 2⌉

namespace BALSplitter

open Truncation

variable {n : ℕ}

def totalEstimatedCharge (sp : BALSplitter n) : ℚ :=
  ∑ i, sp.estimates.childrenEstimatedChargeNow i

def totalNetCurrents (current : Fin n → ℤ) : ℤ := ∑ i, current i

def totalPosCurrents (current : Fin n → ℤ) : ℤ := ∑ i, if current i > 0 then current i else 0

def totalNegCurrents (current : Fin n → ℤ) : ℤ := ∑ i, if current i < 0 then current i else 0

def proportionalCurrent (current : Fin n → ℤ) (sourceMA : ℤ) (childId : Fin n) : ℤ :=
  if totalNetCurrents current = 0 then
    if sourceMA > 0 ∧ current childId > 0 then
      truncate ((sourceMA * current childId : ℚ) / totalPosCurrents current)
    else if sourceMA < 0 ∧ current childId < 0 then
      truncate ((sourceMA * current childId : ℚ) / totalNegCurrents current)
    else current childId
  else truncate ((current childId * sourceMA : ℚ) / totalNetCurrents current)

/-- The second loop, with the total of the estimated charges from the first. When they come to
nothing, the charges start again from the scales. -/
def proportion (current : Fin n → ℤ) (total : ℚ) (childScales : Fin n → Scale)
    (sourceStatus : BatteryStatus) : List (Fin n) → Estimates n → Estimates n
  | [], e => e
  | childId :: rest, e =>
    let scale := childScales childId
    let failed : Bool := |total| < 1 / 1000000
    let capacity : ℤ :=
      if failed then truncate (sourceStatus.capacityMAh * scale.capacity)
      else round (e.childrenEstimatedChargeNow childId / total * sourceStatus.capacityMAh)
    let cstatus : BatteryStatus :=
      { voltageMV := sourceStatus.voltageMV
        currentMA := proportionalCurrent current sourceStatus.currentMA childId
        capacityMAh := capacity
        maxCapacityMAh := truncate (sourceStatus.maxCapacityMAh * scale.maxCapacity)
        maxChargingCurrentMA := truncate (sourceStatus.maxChargingCurrentMA * scale.maxChargeRate)
        maxDischargingCurrentMA :=
          truncate (sourceStatus.maxDischargingCurrentMA * scale.maxDischargeRate)
        timestamp := sourceStatus.timestamp }
    let charge := if failed then
        Function.update e.childrenEstimatedChargeNow childId capacity
      else e.childrenEstimatedChargeNow
    proportion current total childScales sourceStatus rest
      { e with
        childrenEstimatedChargeNow := charge
        childrenStatusNow := Function.update e.childrenStatusNow childId cstatus }

def refreshProportional (ids : List (Fin n)) (childScales : Fin n → Scale)
    (sourceStatus : BatteryStatus) (now : ℤ) (sp : BALSplitter n) : BALSplitter n :=
  let sp := sp.estimateCharge now
  { sp with
    estimates := proportion sp.childrenCurrentNow sp.totalEstimatedCharge childScales sourceStatus
      ids sp.estimates }

theorem proportion_current {current : Fin n → ℤ} {total : ℚ} {childScales : Fin n → Scale}
    {sourceStatus : BatteryStatus} {ids : List (Fin n)} (e : Estimates n) (i : Fin n) :
    ((proportion current total childScales sourceStatus ids e).childrenStatusNow i).currentMA =
      if i ∈ ids then proportionalCurrent current sourceStatus.currentMA i
      else (e.childrenStatusNow i).currentMA := by
  induction ids generalizing e with
  | nil => rfl
  | cons childId rest ih =>
      rw [proportion, ih]
      exact Spill.ite_mem_cons_update (f := BatteryStatus.currentMA)
        (proportionalCurrent current sourceStatus.currentMA) rfl

theorem refreshProportional_current (children : Children n) (childScales : Fin n → Scale)
    (sourceStatus : BatteryStatus) (now : ℤ) (sp : BALSplitter n) (i : Fin n) :
    ((sp.refreshProportional children.ids childScales sourceStatus now).estimates.childrenStatusNow
      i).currentMA = proportionalCurrent sp.childrenCurrentNow sourceStatus.currentMA i := by
  rw [refreshProportional, proportion_current, if_pos (children.complete i)]
  rfl

/-! ### The sum of the reported currents -/

section Sum

variable {current : Fin n → ℤ} {sourceMA : ℤ}

theorem abs_sum_sub_le_of_net (net : totalNetCurrents current ≠ 0) :
    |∑ i, proportionalCurrent current sourceMA i - sourceMA| ≤ n := by
  have whole : ∑ i, (current i * sourceMA : ℚ) / totalNetCurrents current = sourceMA := by
    have ne : (totalNetCurrents current : ℚ) ≠ 0 := Int.cast_ne_zero.mpr net
    rw [← Finset.sum_div, ← Finset.sum_mul, ← Int.cast_sum]
    exact mul_div_cancel_left₀ _ ne
  have close := abs_sum_truncate_sub_le Finset.univ
    fun i => (current i * sourceMA : ℚ) / totalNetCurrents current
  rw [whole, Finset.card_univ, Fintype.card_fin] at close
  simp only [proportionalCurrent, if_neg net]
  exact_mod_cast close

theorem totalPos_add_totalNeg (current : Fin n → ℤ) :
    totalPosCurrents current + totalNegCurrents current = totalNetCurrents current := by
  rw [totalPosCurrents, totalNegCurrents, totalNetCurrents, ← Finset.sum_add_distrib]
  refine Finset.sum_congr rfl fun i _ => ?_
  split_ifs <;> omega

theorem proportionalCurrent_same (net : totalNetCurrents current = 0) {i : Fin n}
    (same : 0 < sourceMA * current i) :
    proportionalCurrent current sourceMA i =
      sourceMA.sign * (sourceMA * current i / totalPosCurrents current) := by
  have balance := totalPos_add_totalNeg current
  have nonneg : 0 ≤ totalPosCurrents current :=
    Finset.sum_nonneg fun i _ => by split_ifs <;> omega
  rw [proportionalCurrent, if_pos net]
  rcases pos_and_pos_or_neg_and_neg_of_mul_pos same with ⟨source, child⟩ | ⟨source, child⟩
  · rw [if_pos ⟨source, child⟩, Int.sign_eq_one_of_pos source, one_mul, ← Int.cast_mul,
      truncate_div_intCast same.le nonneg]
  · have mirrored : totalNegCurrents current = -totalPosCurrents current := by omega
    rw [if_neg (by omega), if_pos ⟨source, child⟩, Int.sign_eq_neg_one_of_neg source, ← Int.cast_mul,
      mirrored, Int.cast_neg, div_neg, truncate_neg, truncate_div_intCast same.le nonneg, neg_one_mul]

theorem proportionalCurrent_other (net : totalNetCurrents current = 0) {i : Fin n}
    (other : ¬ 0 < sourceMA * current i) : proportionalCurrent current sourceMA i = current i := by
  rw [proportionalCurrent, if_pos net, if_neg fun h => other (mul_pos h.1 h.2),
    if_neg fun h => other (mul_pos_of_neg_of_neg h.1 h.2)]

theorem sum_same (net : totalNetCurrents current = 0) (source : sourceMA ≠ 0) :
    ∑ i with 0 < sourceMA * current i, current i = sourceMA.sign * totalPosCurrents current := by
  have balance := totalPos_add_totalNeg current
  rw [Finset.sum_filter]
  rcases source.lt_or_gt with neg | pos
  · rw [Int.sign_eq_neg_one_of_neg neg, neg_one_mul]
    trans totalNegCurrents current
    · refine Finset.sum_congr rfl fun i _ => if_congr ?_ rfl rfl
      exact ⟨fun h => (neg_iff_neg_of_mul_pos h).mp neg, mul_pos_of_neg_of_neg neg⟩
    · omega
  · rw [Int.sign_eq_one_of_pos pos, one_mul]
    exact Finset.sum_congr rfl fun i _ => if_congr (mul_pos_iff_of_pos_left pos) rfl rfl

def cutOff (current : Fin n → ℤ) (sourceMA : ℤ) : ℤ :=
  ∑ i with 0 < sourceMA * current i, sourceMA * current i % totalPosCurrents current

theorem sum_sub_mul (net : totalNetCurrents current = 0) (source : sourceMA ≠ 0) :
    (∑ i, proportionalCurrent current sourceMA i - sourceMA) * totalPosCurrents current =
      -sourceMA.sign * (totalPosCurrents current * totalPosCurrents current +
        cutOff current sourceMA) := by
  have same := sum_same net source
  have shares : (∑ i with 0 < sourceMA * current i, proportionalCurrent current sourceMA i) *
      totalPosCurrents current = sourceMA.sign * (sourceMA * (sourceMA.sign *
        totalPosCurrents current) - cutOff current sourceMA) := by
    rw [← same, cutOff, Finset.mul_sum, ← Finset.sum_sub_distrib, Finset.mul_sum, Finset.sum_mul]
    refine Finset.sum_congr rfl fun i hi => ?_
    rw [proportionalCurrent_same net (Finset.mem_filter.mp hi).2, mul_assoc, mul_comm (_ / _),
      Int.mul_ediv_self]
  have others : ∑ i with ¬ 0 < sourceMA * current i, proportionalCurrent current sourceMA i =
      -(sourceMA.sign * totalPosCurrents current) := by
    have all := Finset.sum_filter_add_sum_filter_not Finset.univ (0 < sourceMA * current ·) current
    have sum : ∑ i, current i = 0 := net
    rw [Finset.sum_congr rfl fun i hi => proportionalCurrent_other net (Finset.mem_filter.mp hi).2]
    linarith
  have square : sourceMA.sign * sourceMA.sign = 1 := by
    rcases source.lt_or_gt with neg | pos
    · rw [Int.sign_eq_neg_one_of_neg neg, neg_mul_neg, one_mul]
    · rw [Int.sign_eq_one_of_pos pos, one_mul]
  rw [← Finset.sum_filter_add_sum_filter_not Finset.univ (0 < sourceMA * current ·), others,
    sub_mul, add_mul, shares]
  linear_combination (sourceMA * totalPosCurrents current) * square

theorem cutOff_nonneg (current : Fin n → ℤ) (sourceMA : ℤ)
    (requested : 0 < totalPosCurrents current) : 0 ≤ cutOff current sourceMA :=
  Finset.sum_nonneg fun _ _ => Int.emod_nonneg _ requested.ne'

def Attributed (current : Fin n → ℤ) (sourceMA : ℤ) : Prop :=
  totalNetCurrents current ≠ 0 ∨ sourceMA = 0 ∨ (∀ i, current i = 0) ∧ |sourceMA| ≤ n ∨
    0 < totalPosCurrents current ∧
      totalPosCurrents current * totalPosCurrents current + cutOff current sourceMA ≤
        n * totalPosCurrents current

theorem all_zero_iff (net : totalNetCurrents current = 0) :
    (∀ i, current i = 0) ↔ ¬ 0 < totalPosCurrents current := by
  have balance := totalPos_add_totalNeg current
  constructor
  · intro idle requested
    simp [totalPosCurrents, idle] at requested
  · intro none
    have noPos : totalPosCurrents current = 0 :=
      le_antisymm (not_lt.mp none) (Finset.sum_nonneg fun i _ => by split_ifs <;> omega)
    have noNeg : totalNegCurrents current = 0 := by omega
    intro i
    have pos := (Finset.sum_eq_zero_iff_of_nonneg fun i _ => by split_ifs <;> omega).mp noPos i
      (Finset.mem_univ i)
    have neg := (Finset.sum_eq_zero_iff_of_nonpos fun i _ => by split_ifs <;> omega).mp noNeg i
      (Finset.mem_univ i)
    split_ifs at pos neg <;> omega

theorem abs_sum_sub_le_iff (current : Fin n → ℤ) (sourceMA : ℤ) :
    |∑ i, proportionalCurrent current sourceMA i - sourceMA| ≤ n ↔ Attributed current sourceMA := by
  by_cases net : totalNetCurrents current = 0
  swap
  · exact iff_of_true (abs_sum_sub_le_of_net net) (.inl net)
  rw [Attributed, or_iff_right (not_not.mpr net)]
  by_cases source : sourceMA = 0
  · subst source
    have idle (i : Fin n) : proportionalCurrent current 0 i = current i :=
      proportionalCurrent_other net (by omega)
    have sum : ∑ i, current i = 0 := net
    simp [idle, sum]
  rw [or_iff_right source]
  by_cases requested : 0 < totalPosCurrents current
  · have distance := congrArg abs (sum_sub_mul net source)
    have lost : 0 ≤ totalPosCurrents current * totalPosCurrents current + cutOff current sourceMA :=
      add_nonneg (mul_self_nonneg _) (cutOff_nonneg current sourceMA requested)
    rw [abs_mul, abs_mul, abs_neg, abs_of_pos requested, Int.abs_sign_of_ne_zero source, one_mul,
      abs_of_nonneg lost] at distance
    rw [all_zero_iff net, or_iff_right fun h => h.1 requested, and_iff_right requested, ← distance]
    exact (mul_le_mul_iff_left₀ requested).symm
  · have idle := (all_zero_iff net).mpr requested
    have nothing (i : Fin n) : proportionalCurrent current sourceMA i = 0 := by
      rw [proportionalCurrent_other net (by simp [idle i]), idle i]
    simp [nothing, requested, idle]

end Sum

/-- The reported currents add up to the current of the source within one for each child exactly
when the requests do not cancel out, or the source has no current, or nothing was requested and
the current is as small, or what was requested in one direction and is cut off is. -/
theorem refreshProportional_attributes_iff (children : Children n) (childScales : Fin n → Scale)
    (sourceStatus : BatteryStatus) (now : ℤ) (sp : BALSplitter n) :
    |∑ i, ((sp.refreshProportional children.ids childScales sourceStatus now).estimates.childrenStatusNow
        i).currentMA - sourceStatus.currentMA| ≤ n ↔
      Attributed sp.childrenCurrentNow sourceStatus.currentMA := by
  simp only [refreshProportional_current]
  exact abs_sum_sub_le_iff sp.childrenCurrentNow sourceStatus.currentMA

/-- One child asks for what the other charges with, and the source is measured at 50. -/
theorem cancelling_not_attributed :
    ¬ |∑ i, ((({ dischargingAndCharging with
        childrenCurrentNow := fun i => if i = 0 then 1000 else -1000 } :
          BALSplitter 2).refreshProportional [0, 1] (fun _ => .ofProportion (1 / 2))
        ⟨12, 50, 1000, 1000, 2000, 2000, 0⟩ 0).estimates.childrenStatusNow i).currentMA - 50| ≤ 2 := by
  decide +kernel

end BALSplitter

end BatteryOS.V2
