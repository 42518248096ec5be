import BatteryOS.Library.Proportion
import BatteryOS.V3.Aggregate

/-! The limits of an aggregate against what its parents can share. A discharge within the limit
asks no parent for more than its own. The limit is the largest that can be shared as long as every
parent has something to contribute; one that has nothing brings its C-rate of 0 into the minimum
and with it the limit of them all. -/

namespace BatteryOS.V3

open Proportion

theorem minRate_isLeast (rates : List ℚ) (ne : rates ≠ []) :
    IsLeast {rate | rate ∈ rates} (minRate rates) := by
  obtain ⟨first, rest, rfl⟩ := List.exists_cons_of_ne_nil ne
  rw [minRate]
  clear ne
  induction rest generalizing first with
  | nil => exact ⟨List.mem_cons_self, fun rate h => (List.mem_singleton.mp h).ge⟩
  | cons second rest ih =>
      rw [List.foldl_cons]
      obtain ⟨attained, least⟩ := ih (if second < first then second else first)
      have smaller : (if second < first then second else first) ≤ first ∧
          (if second < first then second else first) ≤ second := by
        split_ifs with less
        · exact ⟨less.le, le_rfl⟩
        · exact ⟨le_rfl, not_lt.mp less⟩
      have below := least List.mem_cons_self
      constructor
      · have either : (if second < first then second else first) ∈ first :: second :: rest := by
          split_ifs
          · exact List.mem_cons_of_mem _ List.mem_cons_self
          · exact List.mem_cons_self
        rcases List.mem_cons.mp attained with same | inside
        · exact (congrArg (· ∈ first :: second :: rest) same).mpr either
        · exact List.mem_cons_of_mem _ (List.mem_cons_of_mem _ inside)
      · intro rate h
        rcases List.mem_cons.mp h with rfl | h
        · exact below.trans smaller.1
        rcases List.mem_cons.mp h with rfl | inside
        · exact below.trans smaller.2
        · exact least (List.mem_cons_of_mem _ inside)

theorem calcCRate_nonneg {currentMA capacityMAh : ℚ} (current : 0 ≤ currentMA)
    (capacity : 0 ≤ capacityMAh) : 0 ≤ calcCRate currentMA capacityMAh := by
  unfold calcCRate
  split_ifs
  · exact le_rfl
  · exact div_nonneg current capacity

section Rates

variable {weight limit : BatteryStatus → ℚ} {parents : List BatteryStatus}

def effectiveRate (weight limit : BatteryStatus → ℚ) (parents : List BatteryStatus) : ℚ :=
  minRate (parents.map fun p => calcCRate (limit p) (weight p))

theorem effectiveRate_isLeast (weight limit : BatteryStatus → ℚ) (ne : parents ≠ []) :
    IsLeast {rate | ∃ p ∈ parents, calcCRate (limit p) (weight p) = rate}
      (effectiveRate weight limit parents) := by
  have least := minRate_isLeast (parents.map fun p => calcCRate (limit p) (weight p))
    (by simpa using ne)
  simpa only [List.mem_map, effectiveRate] using least

theorem effectiveRate_mem_lowerBounds :
    effectiveRate weight limit parents ∈ lowerBounds (rates weight limit parents) := by
  rintro _ ⟨p, hp, contributes, rfl⟩
  refine (effectiveRate_isLeast weight limit (List.ne_nil_of_mem hp)).2 ⟨p, hp, ?_⟩
  rw [calcCRate, if_neg contributes]

theorem effectiveRate_nonneg (nonneg : ∀ p ∈ parents, 0 ≤ weight p)
    (limits : ∀ p ∈ parents, 0 ≤ limit p) (ne : parents ≠ []) :
    0 ≤ effectiveRate weight limit parents := by
  obtain ⟨p, hp, attained⟩ := (effectiveRate_isLeast weight limit ne).1
  rw [← attained]
  exact calcCRate_nonneg (limits p hp) (nonneg p hp)

theorem effectiveRate_eq_zero (nonneg : ∀ p ∈ parents, 0 ≤ weight p)
    (limits : ∀ p ∈ parents, 0 ≤ limit p) {idle : BatteryStatus} (inside : idle ∈ parents)
    (empty : weight idle = 0) : effectiveRate weight limit parents = 0 := by
  have ne := List.ne_nil_of_mem inside
  refine le_antisymm ?_ (effectiveRate_nonneg nonneg limits ne)
  exact (effectiveRate_isLeast weight limit ne).2 ⟨idle, inside, if_pos empty⟩

theorem effectiveRate_isLeast_rates_iff (nonneg : ∀ p ∈ parents, 0 ≤ weight p)
    (limits : ∀ p ∈ parents, 0 ≤ limit p) (ne : parents ≠ []) :
    IsLeast (rates weight limit parents) (effectiveRate weight limit parents) ↔
      (∀ p ∈ parents, weight p ≠ 0) ∨ ∃ p ∈ parents, weight p ≠ 0 ∧ limit p = 0 := by
  constructor
  · rintro ⟨⟨q, hq, contributes, eq⟩, -⟩
    refine or_iff_not_imp_left.mpr fun idle => ?_
    push Not at idle
    obtain ⟨z, hz, empty⟩ := idle
    have quotient : limit q / weight q = 0 :=
      eq.symm.trans (effectiveRate_eq_zero nonneg limits hz empty)
    exact ⟨q, hq, contributes, (div_eq_zero_iff.mp quotient).resolve_right contributes⟩
  · intro h
    refine ⟨?_, effectiveRate_mem_lowerBounds⟩
    rcases h with all | ⟨q, hq, contributes, zero⟩
    · obtain ⟨p, hp, attained⟩ := (effectiveRate_isLeast weight limit ne).1
      refine ⟨p, hp, all p hp, ?_⟩
      rw [← attained, calcCRate, if_neg (all p hp)]
    · have rate : limit q / weight q = 0 := by rw [zero, zero_div]
      have below : effectiveRate weight limit parents ≤ limit q / weight q :=
        effectiveRate_mem_lowerBounds ⟨q, hq, contributes, rfl⟩
      have above := effectiveRate_nonneg nonneg limits ne
      exact ⟨q, hq, contributes, (le_antisymm (below.trans rate.le) above).trans rate.symm⟩

theorem bearable_effectiveRate (nonneg : ∀ p ∈ parents, 0 ≤ weight p)
    (limits : ∀ p ∈ parents, 0 ≤ limit p) :
    Bearable weight limit parents
      (totalWeight weight parents * effectiveRate weight limit parents) := by
  by_cases some_weight : ∃ p ∈ parents, weight p ≠ 0
  · exact (bearable_mul_iff nonneg limits some_weight).mpr effectiveRate_mem_lowerBounds
  · push Not at some_weight
    intro p hp
    rw [share, some_weight p hp, zero_mul, zero_div]
    exact limits p hp

end Rates

variable {parents : List BatteryStatus} {now : ℤ}

theorem maxDischargingCurrentMA_eq :
    (calcStatusVals now parents).maxDischargingCurrentMA =
      totalWeight BatteryStatus.capacityMAh parents *
        effectiveRate BatteryStatus.capacityMAh BatteryStatus.maxDischargingCurrentMA parents :=
  List.sum_map_mul_right ..

theorem maxChargingCurrentMA_eq :
    (calcStatusVals now parents).maxChargingCurrentMA =
      totalWeight BatteryStatus.chargeCapacity parents *
        effectiveRate BatteryStatus.chargeCapacity BatteryStatus.maxChargingCurrentMA parents :=
  List.sum_map_mul_right ..

def BatteryStatus.threeQuartersFull : BatteryStatus := ⟨5, 0, 3000, 4000, 600, 600, 0⟩

theorem BatteryStatus.threeQuartersFull_sound : BatteryStatus.threeQuartersFull.Sound := by
  constructor <;> decide +kernel

/-- The limits of an aggregate are the largest totals that its parents can share exactly when
every parent has something to contribute, or one that has is not allowed any current. -/
theorem limits_tight_iff (now : ℤ) {parents : List BatteryStatus}
    (sound : ∀ p ∈ parents, p.Sound) :
    ((∃ p ∈ parents, p.capacityMAh ≠ 0) →
      (IsGreatest {total | ∀ p ∈ parents, p.capacityMAh * total /
            (parents.map BatteryStatus.capacityMAh).sum ≤ p.maxDischargingCurrentMA}
          (calcStatusVals now parents).maxDischargingCurrentMA ↔
        (∀ p ∈ parents, p.capacityMAh ≠ 0) ∨
          ∃ p ∈ parents, p.capacityMAh ≠ 0 ∧ p.maxDischargingCurrentMA = 0)) ∧
    ((∃ p ∈ parents, p.chargeCapacity ≠ 0) →
      (IsGreatest {total | ∀ p ∈ parents, p.chargeCapacity * total /
            (parents.map BatteryStatus.chargeCapacity).sum ≤ p.maxChargingCurrentMA}
          (calcStatusVals now parents).maxChargingCurrentMA ↔
        (∀ p ∈ parents, p.chargeCapacity ≠ 0) ∨
          ∃ p ∈ parents, p.chargeCapacity ≠ 0 ∧ p.maxChargingCurrentMA = 0)) := by
  rw [maxDischargingCurrentMA_eq, maxChargingCurrentMA_eq]
  constructor
  · rintro ⟨p, hp, contributes⟩
    have charge : ∀ p ∈ parents, 0 ≤ p.capacityMAh := fun p hp => (sound p hp).capacityMAh
    have limits : ∀ p ∈ parents, 0 ≤ p.maxDischargingCurrentMA :=
      fun p hp => (sound p hp).maxDischargingCurrentMA
    exact (isGreatest_iff charge limits ⟨p, hp, contributes⟩).trans
      (effectiveRate_isLeast_rates_iff charge limits (List.ne_nil_of_mem hp))
  · rintro ⟨p, hp, contributes⟩
    have room : ∀ p ∈ parents, 0 ≤ p.chargeCapacity :=
      fun p hp => sub_nonneg.mpr (sound p hp).capacity_le
    have limits : ∀ p ∈ parents, 0 ≤ p.maxChargingCurrentMA :=
      fun p hp => (sound p hp).maxChargingCurrentMA
    exact (isGreatest_iff room limits ⟨p, hp, contributes⟩).trans
      (effectiveRate_isLeast_rates_iff room limits (List.ne_nil_of_mem hp))

theorem limits_tight_iff_uneven :
    IsGreatest {total | ∀ p ∈ [BatteryStatus.halfFull, .threeQuartersFull],
        p.capacityMAh * total / ([BatteryStatus.halfFull, .threeQuartersFull].map
          BatteryStatus.capacityMAh).sum ≤ p.maxDischargingCurrentMA}
      (calcStatusVals 0 [.halfFull, .threeQuartersFull]).maxDischargingCurrentMA ∧
    IsGreatest {total | ∀ p ∈ [BatteryStatus.halfFull, .threeQuartersFull],
        p.chargeCapacity * total / ([BatteryStatus.halfFull, .threeQuartersFull].map
          BatteryStatus.chargeCapacity).sum ≤ p.maxChargingCurrentMA}
      (calcStatusVals 0 [.halfFull, .threeQuartersFull]).maxChargingCurrentMA := by
  have sound : ∀ p ∈ [BatteryStatus.halfFull, .threeQuartersFull], p.Sound := by
    simpa using ⟨BatteryStatus.halfFull_sound, BatteryStatus.threeQuartersFull_sound⟩
  obtain ⟨discharging, charging⟩ := limits_tight_iff 0 sound
  exact ⟨(discharging (by decide +kernel)).mpr (.inl (by decide +kernel)),
    (charging (by decide +kernel)).mpr (.inl (by decide +kernel))⟩

def BatteryStatus.empty : BatteryStatus := ⟨5, 0, 0, 2000, 500, 500, 0⟩

/-- A parent that is half full could deliver 500 mA; beside an empty one the limit is 0. -/
theorem limits_not_tight_empty :
    BatteryStatus.halfFull.Sound ∧ BatteryStatus.empty.Sound ∧
      ¬ IsGreatest {total | ∀ p ∈ [BatteryStatus.halfFull, .empty], p.capacityMAh * total /
            ([BatteryStatus.halfFull, .empty].map BatteryStatus.capacityMAh).sum ≤
              p.maxDischargingCurrentMA}
          (calcStatusVals 0 [.halfFull, .empty]).maxDischargingCurrentMA := by
  refine ⟨BatteryStatus.halfFull_sound, by constructor <;> decide +kernel, fun greatest => ?_⟩
  have limit : (calcStatusVals 0 [.halfFull, .empty]).maxDischargingCurrentMA = 0 := by
    decide +kernel
  have possible : ∀ p ∈ [BatteryStatus.halfFull, .empty], p.capacityMAh * 500 /
      ([BatteryStatus.halfFull, .empty].map BatteryStatus.capacityMAh).sum ≤
        p.maxDischargingCurrentMA := by
    decide +kernel
  have below : (500 : ℚ) ≤ 0 := limit ▸ greatest.2 possible
  norm_num at below

end BatteryOS.V3
