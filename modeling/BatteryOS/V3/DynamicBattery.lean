import BatteryOS.V3.JBDBMS
import BatteryOS.V3.Lifecycle

/-! A dynamic battery over the driver of a JBD battery management system. The driver returns a
status whatever it has read, and `getStatus`, a change to ACTIVE and the event thread store it:
what the battery reports against the last response that was valid. -/

namespace BatteryOS.V3

namespace Battery

def checkAndRefresh (driver : Driver) (now time : ℤ) (b : Battery) : BatteryStatus :=
  if b.refreshMode = .lazy then
    if now - b.status.time > b.maxStaleness then driver.refresh time b.status else b.status
  else b.status

/-- `getStatus`, which asks the clock, and a refresh that reads the device a little later. -/
def getStatus (driver : Driver) (now time : ℤ) (b : Battery) : BatteryStatus × Battery :=
  let b := if b.refreshMode = .lazy then { b with status := b.checkAndRefresh driver now time }
    else b
  (b.status, b)

end Battery

/-- The functions that the battery loads, while the port answers with these bytes. Its
`set_current` does nothing. -/
def JBDBMS.driver (bms : JBDBMS) (data : List UInt8) : Driver where
  refresh time _ := bms.refresh time data
  setCurrent _ status := status

/-- What makes the battery ask its driver, with the response that the driver would read then. -/
inductive DeviceAction
  | getStatus (now time : ℤ) (data : List UInt8)
  | setRefreshMode (refreshMode : RefreshMode) (sequenceNumber : ℕ) (time : ℤ) (data : List UInt8)
  | refreshEvent (iter : Event) (sequenceNumber : ℕ) (time : ℤ) (data : List UInt8)
  | setMaxStaleness (maxStaleness : ℤ)

structure DynamicBattery where
  battery : Battery
  lastValid : BatteryStatus

namespace DeviceAction

def apply (bms : JBDBMS) (b : Battery) : DeviceAction → Battery
  | .getStatus now time data => (b.getStatus (bms.driver data) now time).2
  | .setRefreshMode refreshMode sequenceNumber time data =>
    (b.setRefreshMode (bms.driver data) time sequenceNumber refreshMode).1
  | .refreshEvent iter sequenceNumber time data =>
    (b.refreshAt (bms.driver data) time sequenceNumber iter).1
  | .setMaxStaleness maxStaleness => { b with maxStaleness := maxStaleness }

def reads (b : Battery) : DeviceAction → Option (ℤ × List UInt8)
  | .getStatus now time data =>
    if b.refreshMode = .lazy ∧ now - b.status.time > b.maxStaleness then some (time, data)
    else none
  | .setRefreshMode refreshMode _ time data =>
    if b.refreshMode ≠ refreshMode ∧ refreshMode = .active then some (time, data) else none
  | .refreshEvent _ _ time data => some (time, data)
  | .setMaxStaleness _ => none

def lastValid (bms : JBDBMS) (last : BatteryStatus) : Option (ℤ × List UInt8) → BatteryStatus
  | none => last
  | some (time, data) => if JBDBMS.accepts data then bms.reading time data else last

def step (bms : JBDBMS) (σ : DynamicBattery) (action : DeviceAction) : Option DynamicBattery :=
  some ⟨action.apply bms σ.battery, lastValid bms σ.lastValid (action.reads σ.battery)⟩

variable {bms : JBDBMS} {b : Battery}

theorem apply_status (bms : JBDBMS) (b : Battery) (action : DeviceAction) :
    (action.apply bms b).status = match action.reads b with
      | none => b.status
      | some (time, data) => bms.refresh time data := by
  cases action with
  | getStatus now time data =>
      simp only [apply, reads, Battery.getStatus, Battery.checkAndRefresh]
      split_ifs <;> simp_all [JBDBMS.driver]
  | setRefreshMode refreshMode sequenceNumber time data =>
      simp only [apply, reads, Battery.setRefreshMode]
      by_cases same : b.refreshMode = refreshMode
      · simp [same]
      · by_cases active : refreshMode = .active
        · subst active
          simp [same, JBDBMS.driver]
        · simp [same, active]
  | refreshEvent iter sequenceNumber time data =>
      simp only [apply, reads, Battery.refreshAt]
      split_ifs <;> rfl
  | setMaxStaleness maxStaleness => rfl

end DeviceAction

def BatteryStatus.SameValues (status other : BatteryStatus) : Prop :=
  { status with time := 0 } = { other with time := 0 }

namespace DynamicBattery

open DeviceAction StepRun

variable {bms : JBDBMS} {σ σ' : DynamicBattery}

def HoldsLast (σ : DynamicBattery) : Prop := σ.battery.status.SameValues σ.lastValid

/-- `getStatus` reports the values of the last valid response, after what it has read itself. -/
def Reports (bms : JBDBMS) (σ : DynamicBattery) : DeviceAction → Prop
  | .getStatus now time data =>
    (σ.battery.getStatus (bms.driver data) now time).1.SameValues
      (DeviceAction.lastValid bms σ.lastValid (reads σ.battery (.getStatus now time data)))
  | .setRefreshMode _ _ _ _ | .refreshEvent _ _ _ _ | .setMaxStaleness _ => True

/-- A response that is read is accepted, unless there is nothing to lose. -/
def ReadsValid (σ : DynamicBattery) (action : DeviceAction) : Prop :=
  ∀ time data, action.reads σ.battery = some (time, data) →
    JBDBMS.accepts data = true ∨ BatteryStatus.zero.SameValues σ.lastValid

theorem holdsLast_step (holds : σ.HoldsLast) {action : DeviceAction}
    (step : action.step bms σ = some σ') : σ'.HoldsLast ↔ σ.ReadsValid action := by
  obtain rfl := Option.some.inj step
  rw [HoldsLast, apply_status, ReadsValid]
  rcases reads : action.reads σ.battery with _ | ⟨time, data⟩
  · exact iff_of_true holds fun time data h => by cases h
  · have only : (∀ time' data', some (time, data) = some (time', data') →
        JBDBMS.accepts data' = true ∨ BatteryStatus.zero.SameValues σ.lastValid) ↔
        JBDBMS.accepts data = true ∨ BatteryStatus.zero.SameValues σ.lastValid := by
      simp
    dsimp only [DeviceAction.lastValid]
    rw [only, JBDBMS.refresh_eq]
    cases accepted : JBDBMS.accepts data
    · simp
    · simp [BatteryStatus.SameValues]

theorem reports_of_holdsLast (bms : JBDBMS) {action : DeviceAction}
    (next : ∀ σ', action.step bms σ = some σ' → σ'.HoldsLast) : Reports bms σ action := by
  cases action with
  | getStatus now time data => exact next _ rfl
  | _ => trivial

/-- Every `getStatus` reports what the last valid response says and no other response changes the
battery, in the runs in which no refresh reads a rejected response, unless it finds zeros. -/
theorem rejected_keeps_iff (bms : JBDBMS) (b : Battery) (actions : List DeviceAction) :
    (Along (step bms) (Reports bms) ⟨b, b.status⟩ actions ∧
        Always (step bms) HoldsLast ⟨b, b.status⟩ actions) ↔
      Along (step bms) ReadsValid ⟨b, b.status⟩ actions := by
  have always_iff : Always (step bms) HoldsLast ⟨b, b.status⟩ actions ↔
      Along (step bms) ReadsValid ⟨b, b.status⟩ actions :=
    always_iff_along (I := fun _ => True) trivial (fun _ _ _ _ _ => trivial) rfl
      (fun _ _ _ _ holds valid step => (holdsLast_step holds step).mpr valid)
      fun _ _ _ holds next => (holdsLast_step holds rfl).mp (next _ rfl)
  rw [and_iff_right_of_imp, always_iff]
  intro always before action isPrefix σ run
  refine reports_of_holdsLast bms fun σ' step => always _ isPrefix σ' ?_
  rw [exec_concat, run, Option.bind_some, step]

/-- A response of one byte after a valid one. -/
theorem rejected_clears :
    ¬ (Along (step ⟨200000, 200000⟩) (Reports ⟨200000, 200000⟩)
        ⟨.new "dynamic" 1000 .lazy, .zero⟩
        [.getStatus 5000 6000
          (JBDBMS.basicInfoResponse 1200 100 500 1000 (List.Vector.replicate 19 0)),
          .getStatus 9000 10000 [0xDD]] ∧
      Always (step ⟨200000, 200000⟩) HoldsLast ⟨.new "dynamic" 1000 .lazy, .zero⟩
        [.getStatus 5000 6000
          (JBDBMS.basicInfoResponse 1200 100 500 1000 (List.Vector.replicate 19 0)),
          .getStatus 9000 10000 [0xDD]]) := by
  rintro ⟨-, always⟩
  have holds := always _ (List.prefix_refl _) _ rfl
  exact absurd (congrArg BatteryStatus.voltageMV holds) (by decide +kernel)

end DynamicBattery

end BatteryOS.V3
