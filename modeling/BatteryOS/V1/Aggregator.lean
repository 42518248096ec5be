import BatteryOS.Library.Proportion
import BatteryOS.V1.Battery
import Mathlib.Data.Sign.Basic
import Mathlib.Tactic.Linarith
import Mathlib.Tactic.NormNum
import Mathlib.Tactic.Ring

/-! The V1 aggregator. Each source is set to a share by its state of charge, or by its room when the
battery is charged. Everything happens at one instant, so that a source reports the same before and
after it is set, apart from its current. -/

namespace BatteryOS.V1

open Proportion

structure Source where
  status : BatteryStatus
  accepts : ℚ → Bool

structure AggregatorBattery where
  voltage : ℚ
  sources : List Source

namespace AggregatorBattery

structure Totals where
  maxCapacity : ℚ
  curCapacity : ℚ
  maxDischargeTime : ℚ
  maxChargeTime : ℚ
  current : ℚ

def tally (s : Totals) (source : BatteryStatus) : Except Error Totals := do
  let dischargeTime ← div source.stateOfCharge source.maxDischargingCurrent
  let chargeTime ← div (source.maxCapacity - source.stateOfCharge) source.maxChargingCurrent
  return {
    maxCapacity := s.maxCapacity + source.maxCapacity
    curCapacity := s.curCapacity + source.stateOfCharge
    maxDischargeTime := max s.maxDischargeTime dischargeTime
    maxChargeTime := max s.maxChargeTime chargeTime
    current := s.current + source.current }

def getStatus (voltage : ℚ) (sources : List BatteryStatus) : Except Error BatteryStatus := do
  let s ← sources.foldlM tally ⟨0, 0, 0, 0, 0⟩
  let maxDischargeRate ← div s.curCapacity s.maxDischargeTime
  let maxChargeRate ← div (s.maxCapacity - s.curCapacity) s.maxChargeTime
  return ⟨voltage, s.current, s.curCapacity, s.maxCapacity, maxDischargeRate, maxChargeRate⟩

def setSources (share : BatteryStatus → Except Error ℚ) : List Source → Except Error (List ℚ)
  | [] => .ok []
  | source :: rest => do
      let current ← share source.status
      if source.accepts current then
        let currents ← setSources share rest
        return current :: currents
      else throw .currentOutOfRange

/-- The three loops of `set_current`: what each source is set to. -/
def distribute (agg : AggregatorBattery) (status : BatteryStatus) (targetCurrent : ℚ) :
    Except Error (List ℚ) :=
  if targetCurrent > 0 then do
    let charge := status.stateOfCharge
    let time ← div charge targetCurrent
    setSources (fun source => div source.stateOfCharge time) agg.sources
  else if targetCurrent < 0 then do
    let charge := status.maxCapacity - status.stateOfCharge
    let time ← div charge (-targetCurrent)
    setSources (fun source => div (source.maxCapacity - source.stateOfCharge) time) agg.sources
  else setSources (fun _ => .ok 0) agg.sources

/-- `set_current`: the currents that the sources are set to, if it returns. -/
def setCurrent (agg : AggregatorBattery) (targetCurrent : ℚ) : Except Error (List ℚ) := do
  let status ← getStatus agg.voltage (agg.sources.map Source.status)
  if ¬ (targetCurrent ≥ -status.maxChargingCurrent ∧ targetCurrent ≤ status.maxDischargingCurrent)
  then throw .currentOutOfRange
  else
    let currents ← agg.distribute status targetCurrent
    let after := List.zipWith (fun source current => { source.status with current := current })
      agg.sources currents
    let _ ← getStatus agg.voltage after
    return currents

section Shares

variable {share : BatteryStatus → Except Error ℚ} {sources : List Source} {currents : List ℚ}
  {agg : AggregatorBattery} {status : BatteryStatus} {voltage targetCurrent : ℚ}

theorem foldlM_tally {statuses : List BatteryStatus} {s s' : Totals}
    (run : statuses.foldlM tally s = .ok s') :
    s'.curCapacity = s.curCapacity + totalWeight BatteryStatus.stateOfCharge statuses ∧
      s'.maxCapacity = s.maxCapacity + totalWeight BatteryStatus.maxCapacity statuses := by
  induction statuses generalizing s with
  | nil =>
      cases run
      simp [totalWeight]
  | cons first rest ih =>
      rw [List.foldlM_cons, bind_eq_ok] at run
      obtain ⟨next, one, run⟩ := run
      simp only [tally, bind_eq_ok] at one
      obtain ⟨dischargeTime, -, chargeTime, -, one⟩ := one
      cases one
      obtain ⟨cur, max⟩ := ih run
      rw [cur, max]
      simp only [totalWeight, List.map_cons, List.sum_cons]
      exact ⟨add_assoc .., add_assoc ..⟩

theorem getStatus_sums {statuses : List BatteryStatus}
    (read : getStatus voltage statuses = .ok status) :
    status.stateOfCharge = totalWeight BatteryStatus.stateOfCharge statuses ∧
      status.maxCapacity = totalWeight BatteryStatus.maxCapacity statuses := by
  simp only [getStatus, bind_eq_ok] at read
  obtain ⟨s, tallied, rate, -, rate', -, read⟩ := read
  cases read
  obtain ⟨cur, max⟩ := foldlM_tally tallied
  rw [cur, max, zero_add, zero_add]
  exact ⟨rfl, rfl⟩

theorem setSources_eq_map {f : BatteryStatus → ℚ} (share_eq : ∀ s c, share s = .ok c → c = f s)
    (set : setSources share sources = .ok currents) :
    currents = sources.map fun source => f source.status := by
  induction sources generalizing currents with
  | nil =>
      cases set
      rfl
  | cons source rest ih =>
      rw [setSources, bind_eq_ok] at set
      obtain ⟨current, own, set⟩ := set
      split_ifs at set
      · rw [bind_eq_ok] at set
        obtain ⟨others, later, set⟩ := set
        cases set
        rw [List.map_cons, ← share_eq _ _ own, ih later]

def room (status : BatteryStatus) : ℚ := status.maxCapacity - status.stateOfCharge

theorem totalWeight_room (statuses : List BatteryStatus) :
    totalWeight room statuses = totalWeight BatteryStatus.maxCapacity statuses -
      totalWeight BatteryStatus.stateOfCharge statuses := by
  induction statuses with
  | nil => simp [totalWeight]
  | cons first rest ih =>
      simp only [totalWeight, List.map_cons, List.sum_cons] at ih ⊢
      rw [ih, room]
      ring

theorem setSources_share (weight : BatteryStatus → ℚ) {charge time amount : ℚ}
    (total : charge = totalWeight weight (sources.map Source.status))
    (timed : div charge amount = .ok time)
    (set : setSources (fun s => div (weight s) time) sources = .ok currents) :
    currents = (sources.map Source.status).map
      (Proportion.share weight (sources.map Source.status) amount) := by
  obtain ⟨-, rfl⟩ := div_eq_ok.mp timed
  rw [List.map_map]
  refine setSources_eq_map (f := Proportion.share weight (sources.map Source.status) amount)
    (fun s c own => ?_) set
  obtain ⟨-, rfl⟩ := div_eq_ok.mp own
  rw [Proportion.share, ← total, div_div_eq_mul_div]

theorem totalWeight_ne_zero (weight : BatteryStatus → ℚ) {charge time amount : ℚ}
    (nonempty : sources ≠ []) (total : charge = totalWeight weight (sources.map Source.status))
    (timed : div charge amount = .ok time)
    (set : setSources (fun s => div (weight s) time) sources = .ok currents) :
    totalWeight weight (sources.map Source.status) ≠ 0 := by
  obtain ⟨-, rfl⟩ := div_eq_ok.mp timed
  obtain ⟨source, rest, rfl⟩ := List.exists_cons_of_ne_nil nonempty
  rw [setSources, bind_eq_ok] at set
  obtain ⟨current, own, -⟩ := set
  have time_ne := (div_eq_ok.mp own).1
  intro zero
  rw [total, zero, zero_div] at time_ne
  exact time_ne rfl

end Shares

structure Valid (status : BatteryStatus) : Prop where
  maxDischargingCurrent_pos : 0 < status.maxDischargingCurrent
  maxChargingCurrent_pos : 0 < status.maxChargingCurrent
  stateOfCharge_nonneg : 0 ≤ status.stateOfCharge
  stateOfCharge_le : status.stateOfCharge ≤ status.maxCapacity

/-- Every source is set to a current with the sign of the target or to zero, and the currents
add up to the target. -/
structure Conserves (sources : List Source) (targetCurrent : ℚ) (currents : List ℚ) : Prop where
  each : currents.length = sources.length
  sign : ∀ current ∈ currents, current = 0 ∨ SignType.sign current = SignType.sign targetCurrent
  sum : currents.sum = targetCurrent

variable {agg : AggregatorBattery} {targetCurrent : ℚ} {currents : List ℚ}

variable {status : BatteryStatus}

theorem conserves_discharging (nonempty : agg.sources ≠ [])
    (valid : ∀ source ∈ agg.sources, Valid source.status) (discharging : 0 < targetCurrent)
    (charge : status.stateOfCharge =
      totalWeight BatteryStatus.stateOfCharge (agg.sources.map Source.status))
    (distributed : agg.distribute status targetCurrent = .ok currents) :
    Conserves agg.sources targetCurrent currents := by
  rw [distribute, if_pos discharging, bind_eq_ok] at distributed
  obtain ⟨time, timed, loop⟩ := distributed
  have shares := setSources_share BatteryStatus.stateOfCharge charge timed loop
  have ne := totalWeight_ne_zero BatteryStatus.stateOfCharge nonempty charge timed loop
  have nonneg : ∀ s ∈ agg.sources.map Source.status, 0 ≤ s.stateOfCharge := by
    intro s hs
    obtain ⟨source, hsource, rfl⟩ := List.mem_map.mp hs
    exact (valid source hsource).stateOfCharge_nonneg
  rw [shares]
  constructor
  · rw [List.length_map, List.length_map]
  · intro current hc
    obtain ⟨s, hs, rfl⟩ := List.mem_map.mp hc
    rcases (share_nonneg nonneg discharging.le hs).eq_or_lt with zero | pos
    · exact .inl zero.symm
    · exact .inr (by rw [sign_pos pos, sign_pos discharging])
  · exact sum_share ne

theorem conserves_idle (distributed : agg.distribute status 0 = .ok currents) :
    Conserves agg.sources 0 currents := by
  rw [distribute, if_neg (lt_irrefl _), if_neg (lt_irrefl _)] at distributed
  have zeros := setSources_eq_map (f := fun _ => 0) (fun s c own => (Except.ok.inj own).symm)
    distributed
  rw [zeros]
  constructor
  · rw [List.length_map]
  · intro current hc
    obtain ⟨source, -, rfl⟩ := List.mem_map.mp hc
    exact .inl rfl
  · simp

theorem sum_charging (nonempty : agg.sources ≠ []) (charging : targetCurrent < 0)
    (total : status.maxCapacity - status.stateOfCharge =
      totalWeight room (agg.sources.map Source.status))
    (distributed : agg.distribute status targetCurrent = .ok currents) :
    currents.sum = -targetCurrent := by
  rw [distribute, if_neg charging.not_gt, if_pos charging, bind_eq_ok] at distributed
  obtain ⟨time, timed, loop⟩ := distributed
  rw [setSources_share room total timed loop,
    sum_share (totalWeight_ne_zero room nonempty total timed loop)]

/-- The currents are right exactly when the battery is not charged. A source that is to be charged
is set to its share of the amount with the sign of a discharge. -/
theorem conserves_iff (nonempty : agg.sources ≠ [])
    (valid : ∀ source ∈ agg.sources, Valid source.status)
    (set : agg.setCurrent targetCurrent = .ok currents) :
    Conserves agg.sources targetCurrent currents ↔ 0 ≤ targetCurrent := by
  rw [setCurrent, bind_eq_ok] at set
  obtain ⟨status, read, set⟩ := set
  split_ifs at set
  simp only [bind_eq_ok] at set
  obtain ⟨sent, distributed, after, -, set⟩ := set
  cases set
  obtain ⟨charge, capacity⟩ := getStatus_sums read
  rcases lt_trichotomy targetCurrent 0 with charging | rfl | discharging
  · have total : status.maxCapacity - status.stateOfCharge =
        totalWeight room (agg.sources.map Source.status) := by
      rw [totalWeight_room, charge, capacity]
    have opposite := sum_charging nonempty charging total distributed
    refine iff_of_false (fun conserves => ?_) charging.not_ge
    linarith [conserves.sum]
  · exact iff_of_true (conserves_idle distributed) le_rfl
  · exact iff_of_true (conserves_discharging nonempty valid discharging charge distributed)
      discharging.le

def halfFull : AggregatorBattery :=
  let source : Source := ⟨⟨7000, 0, 500, 1000, 12, 12⟩, fun c => -12 ≤ c && c ≤ 12⟩
  ⟨7000, [source, source]⟩

theorem halfFull_conserves : Conserves halfFull.sources 10 [5, 5] ↔ (0 : ℚ) ≤ 10 := by
  have valid : ∀ source ∈ halfFull.sources, Valid source.status := by
    intro source hs
    have same : source.status = ⟨7000, 0, 500, 1000, 12, 12⟩ := by
      simp only [halfFull, List.mem_cons, List.not_mem_nil, or_false, or_self] at hs
      rw [hs]
    rw [same]
    constructor <;> norm_num
  have set : halfFull.setCurrent 10 = .ok [5, 5] := by decide +kernel
  exact conserves_iff (by decide) valid set

/-- Asked to be charged by 10 A, the battery has both sources discharge 5 A. -/
theorem halfFull_charging_not_conserves :
    halfFull.setCurrent (-10) = .ok [5, 5] ∧ ¬ Conserves halfFull.sources (-10) [5, 5] := by
  refine ⟨by decide +kernel, fun conserves => ?_⟩
  have sum := conserves.sum
  norm_num at sum

end AggregatorBattery

end BatteryOS.V1
