import Mathlib.Algebra.Order.Field.Rat
import Mathlib.Data.Rat.Cast.Order

/-! What every V1 battery has: a status, and a meter that is advanced by the calls to the battery.
Numbers are exact, times are in seconds. -/

namespace BatteryOS.V1

inductive Error
  | zeroDivision
  | key
  | badName
  | invalidArgument
  | noResources
  | batteryInUse
  | currentOutOfRange
  | nameTaken
deriving DecidableEq, Repr

theorem bind_eq_ok {α β : Type} {x : Except Error α} {f : α → Except Error β} {b : β} :
    (x >>= f) = .ok b ↔ ∃ a, x = .ok a ∧ f a = .ok b := by
  constructor
  · intro h
    cases x with
    | error e => cases h
    | ok a => exact ⟨a, rfl, h⟩
  · rintro ⟨a, rfl, h⟩
    exact h

def div (a b : ℚ) : Except Error ℚ := if b = 0 then .error .zeroDivision else .ok (a / b)

theorem div_eq_ok {a b q : ℚ} : div a b = .ok q ↔ b ≠ 0 ∧ q = a / b := by
  rw [div]
  split_ifs with zero <;> simp [zero, eq_comm]

structure BatteryStatus where
  voltage : ℚ
  current : ℚ
  stateOfCharge : ℚ
  maxCapacity : ℚ
  maxDischargingCurrent : ℚ
  maxChargingCurrent : ℚ
deriving DecidableEq, Repr

structure Metered where
  current : ℚ
  meter : ℚ
  timestamp : ℚ
deriving DecidableEq, Repr

namespace Metered

def new (time : ℚ) : Metered := ⟨0, 0, time⟩

def updateMeter (m : Metered) (endtimestamp endcurrent newcurrent : ℚ) : Metered :=
  let duration := endtimestamp - m.timestamp
  let ampHours := (m.current + endcurrent) / 2 * (duration / 3600)
  ⟨newcurrent, m.meter - ampHours, endtimestamp⟩

def setMeter (m : Metered) (newvalue : ℚ) : Metered := { m with meter := newvalue }

end Metered

end BatteryOS.V1
