import BatteryOS.V3.AggregateLimits

/-! The voltage of an aggregate: the mean of the voltages of its parents by the current that each
can take, or give when none can be taken. When neither is possible the sums are divided by zero,
as with one parent full and another empty. -/

namespace BatteryOS.V3

open Proportion

/-- The voltage at the end of `calcStatusVals`, from the rates that `set_c_rate` left. With both
currents zero it is a quotient by zero. -/
def calcVoltage (rates : ℚ × ℚ) (parents : List BatteryStatus) : Option ℚ :=
  let status := sumStatus rates 0 parents
  if status.maxChargingCurrentMA = 0 ∧ status.maxDischargingCurrentMA = 0 then none
  else some status.voltageMV

theorem calcVoltage_eq_some {now : ℤ} {rates : ℚ × ℚ} {parents : List BatteryStatus}
    {voltageMV : ℚ} (h : calcVoltage rates parents = some voltageMV) :
    (sumStatus rates now parents).voltageMV = voltageMV := by
  rw [calcVoltage] at h
  split_ifs at h
  exact Option.some.inj h

/-- A voltage among those of the parents, as their mean by weights that are not negative. -/
structure MeanVoltage (parents : List BatteryStatus) (voltageMV : ℚ) : Prop where
  mean : ∃ weight : BatteryStatus → ℚ, (∀ p ∈ parents, 0 ≤ weight p) ∧
    totalWeight weight parents ≠ 0 ∧
    voltageMV = Proportion.mean weight BatteryStatus.voltageMV parents
  smallest_le : ∃ p ∈ parents, p.voltageMV ≤ voltageMV
  le_largest : ∃ p ∈ parents, voltageMV ≤ p.voltageMV

theorem meanVoltage_mean {weight : BatteryStatus → ℚ} {parents : List BatteryStatus}
    (nonneg : ∀ p ∈ parents, 0 ≤ weight p) (total : totalWeight weight parents ≠ 0)
    (ne : parents ≠ []) :
    MeanVoltage parents (mean weight BatteryStatus.voltageMV parents) where
  mean := ⟨weight, nonneg, total, rfl⟩
  smallest_le := exists_le_mean nonneg total ne
  le_largest := exists_mean_le nonneg total ne

def contribution (weight limit : BatteryStatus → ℚ) (parents : List BatteryStatus)
    (p : BatteryStatus) : ℚ :=
  weight p * effectiveRate weight limit parents

section Rates

variable {weight limit : BatteryStatus → ℚ} {parents : List BatteryStatus}

theorem contribution_nonneg (ne : parents ≠ []) (nonneg : ∀ p ∈ parents, 0 ≤ weight p)
    (limits : ∀ p ∈ parents, 0 ≤ limit p) :
    ∀ p ∈ parents, 0 ≤ contribution weight limit parents p :=
  fun p hp => mul_nonneg (nonneg p hp) (effectiveRate_nonneg nonneg limits ne)

theorem totalWeight_contribution_ne_zero_iff (ne : parents ≠ [])
    (nonneg : ∀ p ∈ parents, 0 ≤ weight p) (limits : ∀ p ∈ parents, 0 ≤ limit p) :
    totalWeight (contribution weight limit parents) parents ≠ 0 ↔
      ∀ p ∈ parents, weight p ≠ 0 ∧ limit p ≠ 0 := by
  have total : totalWeight (contribution weight limit parents) parents =
      totalWeight weight parents * effectiveRate weight limit parents :=
    List.sum_map_mul_right ..
  have least := effectiveRate_isLeast weight limit ne
  have rate_nonneg := effectiveRate_nonneg nonneg limits ne
  rw [total]
  constructor
  · intro h p hp
    have below := least.2 ⟨p, hp, rfl⟩
    rw [calcCRate] at below
    constructor
    · intro zero
      rw [if_pos zero] at below
      exact right_ne_zero_of_mul h (le_antisymm below rate_nonneg)
    · intro zero
      rw [zero, zero_div, ite_self] at below
      exact right_ne_zero_of_mul h (le_antisymm below rate_nonneg)
  · intro h
    obtain ⟨p, hp, attained⟩ := least.1
    have rate : effectiveRate weight limit parents ≠ 0 := by
      rw [← attained, calcCRate, if_neg (h p hp).1]
      exact div_ne_zero (h p hp).2 (h p hp).1
    exact mul_ne_zero (totalWeight_pos nonneg hp (h p hp).1).ne' rate

end Rates

theorem calcVoltage_eq (parents : List BatteryStatus) :
    let taken := contribution BatteryStatus.chargeCapacity BatteryStatus.maxChargingCurrentMA parents
    let given := contribution BatteryStatus.capacityMAh BatteryStatus.maxDischargingCurrentMA parents
    calcVoltage (setCRate parents) parents =
      if totalWeight taken parents ≠ 0 then some (mean taken BatteryStatus.voltageMV parents)
      else if totalWeight given parents ≠ 0 then some (mean given BatteryStatus.voltageMV parents)
      else none := by
  intro taken given
  have charging : (sumStatus (setCRate parents) 0 parents).maxChargingCurrentMA =
      totalWeight taken parents := rfl
  have discharging : (sumStatus (setCRate parents) 0 parents).maxDischargingCurrentMA =
      totalWeight given parents := rfl
  have voltage : (sumStatus (setCRate parents) 0 parents).voltageMV =
      if totalWeight taken parents ≠ 0 then mean taken BatteryStatus.voltageMV parents
      else mean given BatteryStatus.voltageMV parents := rfl
  simp only [calcVoltage, charging, discharging, voltage]
  by_cases take : totalWeight taken parents = 0
  · by_cases give : totalWeight given parents = 0 <;> simp [take, give]
  · simp [take]

/-- The voltage is calculated without a division by zero, and lies among the voltages of the
parents, exactly when all of them can be charged or all of them can be discharged. -/
theorem voltage_mean_iff (now : ℤ) {parents : List BatteryStatus} (ne : parents ≠ [])
    (sound : ∀ p ∈ parents, p.Sound) :
    (∃ voltageMV, calcVoltage (setCRate parents) parents = some voltageMV ∧
        (calcStatusVals now parents).voltageMV = voltageMV ∧ MeanVoltage parents voltageMV) ↔
      (∀ p ∈ parents, p.capacityMAh ≠ p.maxCapacityMAh ∧ p.maxChargingCurrentMA ≠ 0) ∨
        ∀ p ∈ parents, p.capacityMAh ≠ 0 ∧ p.maxDischargingCurrentMA ≠ 0 := by
  have charge : ∀ p ∈ parents, 0 ≤ p.capacityMAh := fun p hp => (sound p hp).capacityMAh
  have room : ∀ p ∈ parents, 0 ≤ p.chargeCapacity :=
    fun p hp => sub_nonneg.mpr (sound p hp).capacity_le
  have charging_limits : ∀ p ∈ parents, 0 ≤ p.maxChargingCurrentMA :=
    fun p hp => (sound p hp).maxChargingCurrentMA
  have discharging_limits : ∀ p ∈ parents, 0 ≤ p.maxDischargingCurrentMA :=
    fun p hp => (sound p hp).maxDischargingCurrentMA
  have charging := totalWeight_contribution_ne_zero_iff ne room charging_limits
  have discharging := totalWeight_contribution_ne_zero_iff ne charge discharging_limits
  have has_room : (∀ p ∈ parents, p.chargeCapacity ≠ 0 ∧ p.maxChargingCurrentMA ≠ 0) ↔
      ∀ p ∈ parents, p.capacityMAh ≠ p.maxCapacityMAh ∧ p.maxChargingCurrentMA ≠ 0 :=
    forall₂_congr fun p _ => and_congr_left' (sub_ne_zero.trans ne_comm)
  rw [has_room] at charging
  rw [← charging, ← discharging]
  have calculated := calcVoltage_eq parents
  dsimp only at calculated
  constructor
  · rintro ⟨voltageMV, some_voltage, -, -⟩
    by_contra neither
    push Not at neither
    rw [calculated, if_neg (not_not.mpr neither.1), if_neg (not_not.mpr neither.2)] at some_voltage
    cases some_voltage
  · intro possible
    split_ifs at calculated with take give
    · exact ⟨_, calculated, calcVoltage_eq_some calculated,
        meanVoltage_mean (contribution_nonneg ne room charging_limits) take ne⟩
    · exact ⟨_, calculated, calcVoltage_eq_some calculated,
        meanVoltage_mean (contribution_nonneg ne charge discharging_limits) give ne⟩
    · exact absurd possible (not_or.mpr ⟨take, give⟩)

theorem voltage_mean_iff_halfFull :
    ∃ voltageMV, calcVoltage (setCRate [.halfFull, .threeQuartersFull])
        [.halfFull, .threeQuartersFull] = some voltageMV ∧
      (calcStatusVals 0 [.halfFull, .threeQuartersFull]).voltageMV = voltageMV ∧
      MeanVoltage [.halfFull, .threeQuartersFull] voltageMV :=
  (voltage_mean_iff 0 (by simp)
    (by simpa using ⟨BatteryStatus.halfFull_sound, BatteryStatus.threeQuartersFull_sound⟩)).mpr
      (.inl (by decide +kernel))

def BatteryStatus.full : BatteryStatus := ⟨5, 0, 2000, 2000, 500, 500, 0⟩

/-- One parent that is full and one that is empty: there is no voltage to report. -/
theorem no_voltage_full_empty :
    BatteryStatus.full.Sound ∧ BatteryStatus.empty.Sound ∧
      ¬ ∃ voltageMV, calcVoltage (setCRate [.full, .empty]) [.full, .empty] = some voltageMV ∧
        (calcStatusVals 0 [.full, .empty]).voltageMV = voltageMV ∧
        MeanVoltage [.full, .empty] voltageMV := by
  have divided : calcVoltage (setCRate [.full, .empty]) [.full, .empty] = none := by decide +kernel
  refine ⟨by constructor <;> decide +kernel, by constructor <;> decide +kernel, ?_⟩
  rintro ⟨voltageMV, calculated, -⟩
  rw [divided] at calculated
  cases calculated

end BatteryOS.V3
