import BatteryOS.V3.AggregateLimits
import BatteryOS.V3.System

/-! What an aggregate sends to its parents on a request, while they answer the loop with the
statuses that its own was computed from. A discharge is shared within their limits. A charge is sent
with the sign turned, because the C-rate is negative already. -/

namespace BatteryOS.V3

open Proportion

section Loop

variable (get : World → ℕ → Option (BatteryStatus × World))
  (send : World → ℕ → ℚ → Option (Bool × World))

/-- The loop of `AggregateBattery::schedule_set_current` with the currents given. -/
def sendEach : World → List ℕ → List ℚ → Option (Bool × World)
  | w, i :: indices, targetCurrentMA :: targets => do
    let (_, w) ← get w i
    let (accepted, w) ← send w i targetCurrentMA
    if accepted then sendEach w indices targets else return (false, w)
  | w, _, _ => some (true, w)

/-- The statuses with which the parents answer the loop, each of them after those before it have
taken their currents. -/
inductive Answers : World → List ℕ → List ℚ → List BatteryStatus → Prop
  | nil (w : World) : Answers w [] [] []
  | cons {w w₁ : World} {i : ℕ} {indices : List ℕ} {targetCurrentMA : ℚ} {targets : List ℚ}
      {pStatus : BatteryStatus} {parents : List BatteryStatus}
      (got : get w i = some (pStatus, w₁))
      (rest : ∀ w₂, send w₁ i targetCurrentMA = some (true, w₂) →
        Answers w₂ indices targets parents) :
      Answers w (i :: indices) (targetCurrentMA :: targets) (pStatus :: parents)

variable {get send}

theorem Answers.dispatch_eq {capacityMAh currentMA : ℚ} {w : World} {indices : List ℕ}
    {parents : List BatteryStatus}
    (answers : Answers get send w indices (parents.map (targetCurrent capacityMAh currentMA))
      parents) :
    dispatch get send capacityMAh currentMA w indices =
      sendEach get send w indices (parents.map (targetCurrent capacityMAh currentMA)) := by
  induction indices generalizing w parents with
  | nil => cases parents <;> rfl
  | cons i indices ih =>
      cases parents with
      | nil => cases answers
      | cons pStatus parents =>
          cases answers with
          | cons got rest =>
              simp only [dispatch, sendEach, List.map_cons, got, Option.bind_eq_bind,
                Option.bind_some]
              refine Option.bind_congr fun result sent => ?_
              obtain ⟨accepted, w₂⟩ := result
              cases accepted with
              | false => rfl
              | true => exact ih (rest w₂ sent)

end Loop

/-- What aggregates with a given status send, on a request that they take, to parents that answer
with given statuses. -/
def AggregateSends (status : BatteryStatus) (parents : List BatteryStatus) (currentMA : ℚ)
    (targets : List ℚ) : Prop :=
  ∀ (w w₁ : World) (i fuel : ℕ) (indices : List ℕ) (now startTime endTime : ℤ) (name : String)
    (sequenceNumber : ℕ),
    w.kind? i = some (.aggregate indices) →
    getStatus now (fuel + 1) w i = some (status, w₁) →
    ¬ (name = (w.battery i).batteryName ∧
      { w.battery i with status := status }.refuses now currentMA startTime) →
    Answers (getStatus now fuel)
      (scheduleSetCurrent now startTime endTime name sequenceNumber fuel) w₁ indices targets
      parents →
    scheduleSetCurrent now startTime endTime name sequenceNumber (fuel + 1) w i currentMA =
      sendEach (getStatus now fuel)
        (scheduleSetCurrent now startTime endTime name sequenceNumber fuel) w₁ indices targets

theorem aggregateSends_targetCurrent (status : BatteryStatus) (parents : List BatteryStatus)
    (currentMA : ℚ) :
    AggregateSends status parents currentMA
      (parents.map (targetCurrent status.capacityMAh currentMA)) := by
  intro w w₁ i fuel indices now startTime endTime name sequenceNumber aggregate got taken answers
  have node := World.getElem?_of_kind aggregate
  simp only [scheduleSetCurrent, node, got, Option.bind_eq_bind, Option.bind_some, if_neg taken]
  exact answers.dispatch_eq

/-- A charging request is sent to a parent with the sign turned: the C-rate is negative
already. -/
theorem targetCurrent_charging_nonneg {capacityMAh currentMA : ℚ} (neg : currentMA < 0)
    (charged : 0 ≤ capacityMAh) {parent : BatteryStatus} (sound : parent.Sound) :
    0 ≤ targetCurrent capacityMAh currentMA parent := by
  have room : 0 ≤ parent.chargeCapacity := sub_nonneg.mpr sound.capacity_le
  have rate : calcCRate currentMA capacityMAh ≤ 0 := by
    unfold calcCRate
    split_ifs
    · exact le_rfl
    · exact div_nonpos_of_nonpos_of_nonneg neg.le charged
  simp only [targetCurrent, if_pos neg]
  rw [neg_mul, ← mul_neg]
  exact mul_nonneg room (neg_nonneg.mpr rate)

/-- Every charging request that an aggregate accepts is dispatched wrongly: its targets are not
all charging currents within the parents' limits that add up to the request. -/
theorem charging_dispatch_wrong (now : ℤ) {parents : List BatteryStatus} (_ne : parents ≠ [])
    (sound : ∀ p ∈ parents, p.Sound) {status : BatteryStatus}
    (cached : status = calcStatusVals now parents) {currentMA : ℚ} (neg : currentMA < 0)
    (_accepted : -currentMA ≤ status.maxChargingCurrentMA) :
    AggregateSends status parents currentMA
        (parents.map (targetCurrent status.capacityMAh currentMA)) ∧
      ¬ ((∀ p ∈ parents, targetCurrent status.capacityMAh currentMA p ≤ 0 ∧
          |targetCurrent status.capacityMAh currentMA p| ≤ p.maxChargingCurrentMA) ∧
        (parents.map (targetCurrent status.capacityMAh currentMA)).sum = currentMA) := by
  refine ⟨aggregateSends_targetCurrent status parents currentMA, ?_⟩
  rintro ⟨-, sum⟩
  have charged : 0 ≤ status.capacityMAh := by
    rw [cached]
    exact List.sum_nonneg fun c hc => by
      obtain ⟨p, hp, rfl⟩ := List.mem_map.mp hc
      exact (sound p hp).capacityMAh
  have nonneg : 0 ≤ (parents.map (targetCurrent status.capacityMAh currentMA)).sum :=
    List.sum_nonneg fun c hc => by
      obtain ⟨p, hp, rfl⟩ := List.mem_map.mp hc
      exact targetCurrent_charging_nonneg neg charged (sound p hp)
  linarith

theorem charging_dispatch_wrong_halfFull :
    AggregateSends (calcStatusVals 0 [.halfFull]) [.halfFull] (-100)
        ([BatteryStatus.halfFull].map
          (targetCurrent (calcStatusVals 0 [.halfFull]).capacityMAh (-100))) ∧
      ¬ ((∀ p ∈ [BatteryStatus.halfFull],
          targetCurrent (calcStatusVals 0 [.halfFull]).capacityMAh (-100) p ≤ 0 ∧
          |targetCurrent (calcStatusVals 0 [.halfFull]).capacityMAh (-100) p| ≤
            p.maxChargingCurrentMA) ∧
        ([BatteryStatus.halfFull].map
          (targetCurrent (calcStatusVals 0 [.halfFull]).capacityMAh (-100))).sum = -100) :=
  charging_dispatch_wrong 0 (by simp) (by simpa using BatteryStatus.halfFull_sound) rfl
    (by decide +kernel) (by decide +kernel)

def halfFullWorld : World :=
  [⟨{ Battery.new "p" 1000 .active with status := .halfFull }, .physical⟩,
    ⟨{ Battery.new "a" 1000 .active with status := calcStatusVals 0 [.halfFull] },
      .aggregate [0]⟩]

/-- Asked to charge with 100 mA, the aggregate discharges the parent with 100 mA. -/
theorem charge_discharges_parent :
    BatteryStatus.halfFull.Sound ∧
      -(-100) ≤ (calcStatusVals 0 [.halfFull]).maxChargingCurrentMA ∧
      targetCurrent (calcStatusVals 0 [.halfFull]).capacityMAh (-100) .halfFull = 100 ∧
      (scheduleSetCurrent 0 10 20 "a" 0 2 halfFullWorld 1 (-100)).map (fun result =>
        (result.1, (result.2.battery 0).eventSet.elems)) =
          some (true, [⟨.setCurrentBegin, 100, 10, "a", 0⟩, ⟨.setCurrentEnd, 100, 20, "a", 0⟩]) :=
  ⟨BatteryStatus.halfFull_sound, by decide +kernel, by decide +kernel, by decide +kernel⟩

theorem targetCurrent_eq_share (now : ℤ) (parents : List BatteryStatus) {currentMA : ℚ}
    (nonneg : 0 ≤ currentMA) (p : BatteryStatus) :
    targetCurrent (calcStatusVals now parents).capacityMAh currentMA p =
      share BatteryStatus.capacityMAh parents currentMA p := by
  have capacity : (calcStatusVals now parents).capacityMAh =
      totalWeight BatteryStatus.capacityMAh parents := rfl
  simp only [targetCurrent, if_neg (not_lt.mpr nonneg), calcCRate, capacity, share]
  split_ifs with empty
  · rw [empty, mul_zero, div_zero]
  · exact (mul_div_assoc ..).symm

/-- Every discharge that an aggregate accepts is shared among the parents in proportion to their
capacity, and asks none of them for more than its limit. -/
theorem discharging_dispatch (now : ℤ) {parents : List BatteryStatus}
    (sound : ∀ p ∈ parents, p.Sound) {status : BatteryStatus}
    (cached : status = calcStatusVals now parents) {currentMA : ℚ} (nonneg : 0 ≤ currentMA)
    (accepted : currentMA ≤ status.maxDischargingCurrentMA) :
    AggregateSends status parents currentMA
        (parents.map (targetCurrent status.capacityMAh currentMA)) ∧
      (∀ p ∈ parents,
        targetCurrent status.capacityMAh currentMA p =
          p.capacityMAh * currentMA / (parents.map BatteryStatus.capacityMAh).sum ∧
        0 ≤ targetCurrent status.capacityMAh currentMA p ∧
        targetCurrent status.capacityMAh currentMA p ≤ p.maxDischargingCurrentMA) ∧
      (parents.map (targetCurrent status.capacityMAh currentMA)).sum = currentMA := by
  refine ⟨aggregateSends_targetCurrent status parents currentMA, ?_⟩
  subst cached
  have charge : ∀ p ∈ parents, 0 ≤ p.capacityMAh := fun p hp => (sound p hp).capacityMAh
  have limits : ∀ p ∈ parents, 0 ≤ p.maxDischargingCurrentMA :=
    fun p hp => (sound p hp).maxDischargingCurrentMA
  rw [maxDischargingCurrentMA_eq] at accepted
  have bearable := (bearable_effectiveRate charge limits).mono charge accepted
  have shares := targetCurrent_eq_share now parents nonneg
  refine ⟨fun p hp => ?_, ?_⟩
  · rw [shares]
    exact ⟨rfl, share_nonneg charge nonneg hp, bearable p hp⟩
  · rw [List.map_congr_left fun p _ => shares p]
    by_cases empty : totalWeight BatteryStatus.capacityMAh parents = 0
    · have idle : currentMA = 0 := by
        rw [empty, zero_mul] at accepted
        exact le_antisymm accepted nonneg
      subst idle
      exact List.sum_eq_zero fun x hx => by
        obtain ⟨p, -, rfl⟩ := List.mem_map.mp hx
        rw [share, mul_zero, zero_div]
    · exact sum_share empty

theorem discharging_dispatch_uneven :
    AggregateSends (calcStatusVals 0 [.halfFull, .threeQuartersFull])
        [.halfFull, .threeQuartersFull] 400
        ([BatteryStatus.halfFull, .threeQuartersFull].map
          (targetCurrent (calcStatusVals 0 [.halfFull, .threeQuartersFull]).capacityMAh 400)) ∧
      (∀ p ∈ [BatteryStatus.halfFull, .threeQuartersFull],
        targetCurrent (calcStatusVals 0 [.halfFull, .threeQuartersFull]).capacityMAh 400 p =
          p.capacityMAh * 400 /
            ([BatteryStatus.halfFull, .threeQuartersFull].map BatteryStatus.capacityMAh).sum ∧
        0 ≤ targetCurrent (calcStatusVals 0 [.halfFull, .threeQuartersFull]).capacityMAh 400 p ∧
        targetCurrent (calcStatusVals 0 [.halfFull, .threeQuartersFull]).capacityMAh 400 p ≤
          p.maxDischargingCurrentMA) ∧
      ([BatteryStatus.halfFull, .threeQuartersFull].map
        (targetCurrent (calcStatusVals 0 [.halfFull, .threeQuartersFull]).capacityMAh 400)).sum =
          400 :=
  discharging_dispatch 0
    (by simpa using ⟨BatteryStatus.halfFull_sound, BatteryStatus.threeQuartersFull_sound⟩) rfl
    (by decide +kernel) (by decide +kernel)

end BatteryOS.V3
