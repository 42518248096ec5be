import BatteryOS.V3.Battery

/-! What an aggregate computes from the statuses of its parents: its own status and
the shares of a request. The limits go by C-rates over the room and the charge of the
parents; the shares of a request go by the charge alone, whichever way it flows. -/

namespace BatteryOS.V3

def calcCRate (currentMA capacityMAh : ℚ) : ℚ :=
  if capacityMAh = 0 then 0 else currentMA / capacityMAh

/-- The room for charge, `chargeCapacity` of a parent. -/
def BatteryStatus.chargeCapacity (status : BatteryStatus) : ℚ :=
  status.maxCapacityMAh - status.capacityMAh

/-- The lambda `min`. An empty vector, on which the source reads past the end, does not
occur: an aggregate has parents. -/
def minRate : List ℚ → ℚ
  | [] => 0
  | minValue :: rest => rest.foldl (fun m val => if val < m then val else m) minValue

/-- `eff_charge_c_rate` and `eff_discharge_c_rate`. -/
def setCRate (parents : List BatteryStatus) : ℚ × ℚ :=
  (minRate (parents.map fun p => calcCRate p.maxChargingCurrentMA p.chargeCapacity),
    minRate (parents.map fun p => calcCRate p.maxDischargingCurrentMA p.capacityMAh))

/-- The sums of `calcStatusVals` under given rates. A quotient by zero, NaN in the source,
is 0 here; it goes into the voltage only. -/
def sumStatus (rates : ℚ × ℚ) (now : ℤ) (parents : List BatteryStatus) : BatteryStatus :=
  let charging := (parents.map fun p => p.chargeCapacity * rates.1).sum
  let discharging := (parents.map fun p => p.capacityMAh * rates.2).sum
  { voltageMV :=
      if charging ≠ 0 then
        (parents.map fun p => p.chargeCapacity * rates.1 * p.voltageMV).sum / charging
      else (parents.map fun p => p.capacityMAh * rates.2 * p.voltageMV).sum / discharging
    currentMA := (parents.map BatteryStatus.currentMA).sum
    capacityMAh := (parents.map BatteryStatus.capacityMAh).sum
    maxCapacityMAh := (parents.map BatteryStatus.maxCapacityMAh).sum
    maxChargingCurrentMA := charging
    maxDischargingCurrentMA := discharging
    time := now }

def calcStatusVals (now : ℤ) (parents : List BatteryStatus) : BatteryStatus :=
  sumStatus (setCRate parents) now parents

/-- `target_current_mA`: what a request of `currentMA` on an aggregate of a given capacity asks
of a parent. -/
def targetCurrent (capacityMAh currentMA : ℚ) (parent : BatteryStatus) : ℚ :=
  let cRate := calcCRate currentMA capacityMAh
  if currentMA < 0 then -parent.chargeCapacity * cRate else parent.capacityMAh * cRate

structure BatteryStatus.Sound (status : BatteryStatus) : Prop where
  voltageMV : 0 ≤ status.voltageMV
  currentMA : 0 ≤ status.currentMA
  capacityMAh : 0 ≤ status.capacityMAh
  capacity_le : status.capacityMAh ≤ status.maxCapacityMAh
  maxChargingCurrentMA : 0 ≤ status.maxChargingCurrentMA
  maxDischargingCurrentMA : 0 ≤ status.maxDischargingCurrentMA

def BatteryStatus.halfFull : BatteryStatus := ⟨5, 0, 1000, 2000, 500, 500, 0⟩

theorem BatteryStatus.halfFull_sound : BatteryStatus.halfFull.Sound := by
  constructor <;> decide +kernel

end BatteryOS.V3
