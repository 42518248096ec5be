import BatteryOS.Library.StepRun
import BatteryOS.V3.Battery

/-! The charging simulation of pseudo and partition batteries: a thread of its own adds up the
current, in whole iterations, as long as there is one. `set_current`, the limits that a partition
manager sets and the iterations come in any order. -/

namespace BatteryOS.V3

inductive Simulation
  | pseudoBattery
  | partitionBattery
deriving DecidableEq, Repr

/-- The members that the thread shares, and `thread`: the local `capacity` of `runChargingThread`
until it returns. A pseudo battery has no requested current and does not look at it. -/
structure SimulatedBattery where
  status : BatteryStatus
  requestedCurrentMA : ℚ
  runningThread : Bool
  thread : Option ℚ

/-- The head of the loop of a partition battery: it clamps the current to the limit of its
direction, or restores the requested one. -/
def clampOrRestore (status : BatteryStatus) (requestedCurrentMA : ℚ) : ℚ :=
  if status.currentMA < 0 then
    if -status.currentMA > status.maxChargingCurrentMA then -status.maxChargingCurrentMA
    else if status.currentMA ≠ requestedCurrentMA then requestedCurrentMA
    else status.currentMA
  else
    if status.currentMA > status.maxDischargingCurrentMA then status.maxDischargingCurrentMA
    else if status.currentMA ≠ requestedCurrentMA then requestedCurrentMA
    else status.currentMA

namespace SimulatedBattery

def of (status : BatteryStatus) : SimulatedBattery := ⟨status, 0, false, none⟩

def integrated (kind : Simulation) (σ : SimulatedBattery) : ℚ :=
  match kind with
  | .pseudoBattery => σ.status.currentMA
  | .partitionBattery => clampOrRestore σ.status σ.requestedCurrentMA

/-- The rest of an iteration: the capacity at full or empty, where the current is taken away. -/
def saturate (maxCapacityMAh capacity currentMA : ℚ) : ℚ × ℚ :=
  if currentMA < 0 then
    if capacity ≥ maxCapacityMAh then (maxCapacityMAh, 0) else (capacity, currentMA)
  else if currentMA > 0 then
    if capacity ≤ 0 then (0, 0) else (capacity, currentMA)
  else (capacity, currentMA)

/-- `runChargingThread` from the test of its loop to the next: it returns, or goes through the
body. Without a thread there is nothing to run. -/
def runChargingThread (kind : Simulation) (σ : SimulatedBattery) : Option SimulatedBattery :=
  match σ.thread with
  | none => none
  | some capacity =>
    if σ.status.currentMA = 0 then some { σ with thread := none }
    else
      let currentMA := σ.integrated kind
      let rest := saturate σ.status.maxCapacityMAh (capacity + -currentMA / 20) currentMA
      some { σ with
        status := { σ.status with capacityMAh := rest.1, currentMA := rest.2 }
        thread := some rest.1 }

/-- `set_current`. At zero it joins the thread, which returns at its next test. -/
def setCurrent (σ : SimulatedBattery) (currentMA : ℚ) : SimulatedBattery :=
  let σ := { σ with
    status := { σ.status with currentMA := currentMA }
    requestedCurrentMA := currentMA }
  if currentMA = 0 then
    if σ.runningThread then { σ with runningThread := false, thread := none } else σ
  else if σ.runningThread then σ
  else { σ with runningThread := true, thread := some σ.status.capacityMAh }

end SimulatedBattery

inductive ChargingAction
  | setCurrent (currentMA : ℚ)
  | setMaxChargingCurrent (currentMA : ℚ)
  | setMaxDischargingCurrent (currentMA : ℚ)
  | iteration

def ChargingAction.step (kind : Simulation) (σ : SimulatedBattery) :
    ChargingAction → Option SimulatedBattery
  | .setCurrent currentMA => some (σ.setCurrent currentMA)
  | .setMaxChargingCurrent currentMA =>
    some { σ with status := { σ.status with maxChargingCurrentMA := currentMA } }
  | .setMaxDischargingCurrent currentMA =>
    some { σ with status := { σ.status with maxDischargingCurrentMA := currentMA } }
  | .iteration => σ.runChargingThread kind

namespace SimulatedBattery

open ChargingAction StepRun

variable {kind : Simulation} {σ σ' : SimulatedBattery} {status : BatteryStatus}

theorem saturate_mem {maxCapacityMAh capacity : ℚ} (currentMA : ℚ) (low : 0 ≤ capacity)
    (high : capacity ≤ maxCapacityMAh) :
    let rest := saturate maxCapacityMAh (capacity + -currentMA / 20) currentMA
    0 ≤ rest.1 ∧ rest.1 ≤ maxCapacityMAh := by
  dsimp only
  unfold saturate
  split_ifs with charging full discharging empty
  · exact ⟨low.trans high, le_rfl⟩
  · dsimp only
    constructor <;> linarith
  · exact ⟨le_rfl, low.trans high⟩
  · dsimp only
    constructor <;> linarith
  · have none : currentMA = 0 := le_antisymm (not_lt.mp discharging) (not_lt.mp charging)
    simp [none, low, high]

structure Filled (σ : SimulatedBattery) : Prop where
  low : 0 ≤ σ.status.capacityMAh
  high : σ.status.capacityMAh ≤ σ.status.maxCapacityMAh
  thread : ∀ capacity, σ.thread = some capacity → capacity = σ.status.capacityMAh

theorem Filled.runChargingThread (h : σ.Filled) (run : σ.runChargingThread kind = some σ') :
    σ'.Filled := by
  unfold SimulatedBattery.runChargingThread at run
  cases hthread : σ.thread with
  | none => simp [hthread] at run
  | some capacity =>
      obtain rfl := h.thread capacity hthread
      simp only [hthread] at run
      split_ifs at run
      · obtain rfl := Option.some.inj run
        exact ⟨h.low, h.high, by simp⟩
      · obtain rfl := Option.some.inj run
        obtain ⟨low, high⟩ := saturate_mem (σ.integrated kind) h.low h.high
        exact ⟨low, high, fun capacity same => (Option.some.inj same).symm⟩

theorem Filled.setCurrent (h : σ.Filled) (currentMA : ℚ) : (σ.setCurrent currentMA).Filled := by
  unfold SimulatedBattery.setCurrent
  dsimp only
  split_ifs
  · exact ⟨h.low, h.high, by simp⟩
  · exact ⟨h.low, h.high, h.thread⟩
  · exact ⟨h.low, h.high, h.thread⟩
  · exact ⟨h.low, h.high, fun capacity same => (Option.some.inj same).symm⟩

theorem Filled.step (h : σ.Filled) {action : ChargingAction}
    (step : action.step kind σ = some σ') : σ'.Filled := by
  cases action with
  | setCurrent currentMA =>
      obtain rfl := Option.some.inj step
      exact h.setCurrent currentMA
  | setMaxChargingCurrent currentMA =>
      obtain rfl := Option.some.inj step
      exact ⟨h.low, h.high, h.thread⟩
  | setMaxDischargingCurrent currentMA =>
      obtain rfl := Option.some.inj step
      exact ⟨h.low, h.high, h.thread⟩
  | iteration => exact h.runChargingThread step

def Exceeds (status : BatteryStatus) : Prop :=
  if status.currentMA < 0 then -status.currentMA > status.maxChargingCurrentMA
  else status.currentMA > status.maxDischargingCurrentMA

instance (status : BatteryStatus) : Decidable (Exceeds status) :=
  inferInstanceAs (Decidable (if status.currentMA < 0
    then -status.currentMA > status.maxChargingCurrentMA
    else status.currentMA > status.maxDischargingCurrentMA))

theorem clampOrRestore_eq (status : BatteryStatus) (requestedCurrentMA : ℚ) :
    clampOrRestore status requestedCurrentMA =
      if Exceeds status then
        if status.currentMA < 0 then -status.maxChargingCurrentMA
        else status.maxDischargingCurrentMA
      else requestedCurrentMA := by
  unfold clampOrRestore Exceeds
  split_ifs <;> simp_all

theorem allows_clampOrRestore {status : BatteryStatus} {requestedCurrentMA : ℚ} :
    status.Allows (clampOrRestore status requestedCurrentMA) ↔
      if Exceeds status then -status.maxChargingCurrentMA ≤ status.maxDischargingCurrentMA
      else status.Allows requestedCurrentMA := by
  rw [clampOrRestore_eq]
  split_ifs with exceeds charging
  · exact ⟨fun allows => allows.2, fun le => ⟨le_rfl, le⟩⟩
  · exact ⟨fun allows => allows.1, fun le => ⟨le, le_rfl⟩⟩
  · rfl

/-- What an iteration of a partition battery should do: integrate a current within the limits,
and keep the charge within the capacity. -/
def WithinLimits (σ : SimulatedBattery) : ChargingAction → Prop
  | .iteration => σ.thread.isSome → σ.status.currentMA ≠ 0 →
      σ.status.Allows (σ.integrated .partitionBattery) ∧
      ∀ σ', σ.runChargingThread .partitionBattery = some σ' →
        0 ≤ σ'.status.capacityMAh ∧ σ'.status.capacityMAh ≤ σ'.status.maxCapacityMAh
  | _ => True

/-- An iteration that clamps finds limits that leave a current; one that does not finds the
requested current within them. -/
def RequestFits (σ : SimulatedBattery) : ChargingAction → Prop
  | .iteration => σ.thread.isSome → σ.status.currentMA ≠ 0 →
      if Exceeds σ.status then
        -σ.status.maxChargingCurrentMA ≤ σ.status.maxDischargingCurrentMA
      else σ.status.Allows σ.requestedCurrentMA
  | _ => True

theorem Filled.withinLimits_iff (h : σ.Filled) (action : ChargingAction) :
    σ.WithinLimits action ↔ σ.RequestFits action := by
  cases action with
  | iteration =>
      refine forall₂_congr fun _ _ => ?_
      rw [← allows_clampOrRestore]
      refine and_iff_left fun σ' run => ?_
      have filled := h.runChargingThread run
      exact ⟨filled.low, filled.high⟩
  | _ => rfl

theorem charging_withinLimits_iff (low : 0 ≤ status.capacityMAh)
    (high : status.capacityMAh ≤ status.maxCapacityMAh) (actions : List ChargingAction) :
    Along (step .partitionBattery) WithinLimits (of status) actions ↔
      Along (step .partitionBattery) RequestFits (of status) actions :=
  along_congr (I := Filled) ⟨low, high, by simp [of]⟩ (fun _ _ _ filled => filled.step)
    fun _ action filled => filled.withinLimits_iff action

def halfFull : BatteryStatus := ⟨0, 0, 500, 1000, 500, 500, 0⟩

theorem charging_withinLimits_iff_halfFull :
    Along (step .partitionBattery) WithinLimits (of halfFull) [.setCurrent 400, .iteration] ↔
      Along (step .partitionBattery) RequestFits (of halfFull) [.setCurrent 400, .iteration] :=
  charging_withinLimits_iff (by decide +kernel) (by decide +kernel) _

/-- After a clamp the next iteration takes the requested current again. -/
theorem charging_exceeds_limit :
    ¬ Along (step .partitionBattery) WithinLimits (of halfFull)
      [.setCurrent 400, .setMaxDischargingCurrent 100, .iteration, .iteration] := by
  intro along
  obtain ⟨s, run, thread, current, exceeds⟩ :
      ∃ s, exec (step .partitionBattery) (of halfFull)
        [.setCurrent 400, .setMaxDischargingCurrent 100, .iteration] = some s ∧
        s.thread.isSome ∧ s.status.currentMA ≠ 0 ∧
        ¬ s.status.Allows (s.integrated .partitionBattery) :=
    ⟨_, rfl, by decide +kernel, by decide +kernel, by decide +kernel⟩
  exact exceeds (along _ .iteration (List.prefix_refl _) s run thread current).1

/-- A current has its thread, and the flag is not set without one. -/
structure Alive (σ : SimulatedBattery) : Prop where
  current : σ.status.currentMA ≠ 0 → σ.thread.isSome
  flag : σ.runningThread → σ.thread.isSome ∨ σ.status.currentMA = 0

theorem alive_iff : σ.Alive ↔ (σ.status.currentMA ≠ 0 → σ.thread.isSome) := by
  refine ⟨Alive.current, fun h => ⟨h, fun _ => ?_⟩⟩
  by_cases hcurrent : σ.status.currentMA = 0
  · exact .inr hcurrent
  · exact .inl (h hcurrent)

theorem Alive.runChargingThread (run : σ.runChargingThread kind = some σ') : σ'.Alive := by
  rw [alive_iff]
  unfold SimulatedBattery.runChargingThread at run
  cases hthread : σ.thread with
  | none => simp [hthread] at run
  | some capacity =>
      simp only [hthread] at run
      split_ifs at run with returns
      · obtain rfl := Option.some.inj run
        exact fun current => absurd returns current
      · obtain rfl := Option.some.inj run
        exact fun _ => rfl

def Restartable (σ : SimulatedBattery) : ChargingAction → Prop
  | .setCurrent currentMA => currentMA ≠ 0 → σ.runningThread → σ.thread.isSome
  | _ => True

theorem alive_setCurrent {currentMA : ℚ} :
    (σ.setCurrent currentMA).Alive ↔ (currentMA ≠ 0 → σ.runningThread → σ.thread.isSome) := by
  rw [alive_iff]
  unfold SimulatedBattery.setCurrent
  dsimp only
  split_ifs with zero running running
  · simp [zero]
  · simp [zero]
  · simp [running]
  · simp [running]

theorem alive_step (alive : σ.Alive) {action : ChargingAction}
    (step : action.step kind σ = some σ') : σ'.Alive ↔ σ.Restartable action := by
  cases action with
  | setCurrent currentMA =>
      obtain rfl := Option.some.inj step
      exact alive_setCurrent
  | setMaxChargingCurrent currentMA =>
      obtain rfl := Option.some.inj step
      exact iff_true_intro ⟨alive.current, alive.flag⟩
  | setMaxDischargingCurrent currentMA =>
      obtain rfl := Option.some.inj step
      exact iff_true_intro ⟨alive.current, alive.flag⟩
  | iteration => exact iff_true_intro (Alive.runChargingThread step)

theorem alive_of : (of status).Alive ↔ status.currentMA = 0 := by
  simp [alive_iff, of]

/-- The thread is there for every current of a run, unless the battery starts with one or a flag
outlives its thread when the next current is set. -/
theorem charging_alive_iff (kind : Simulation) (status : BatteryStatus)
    (actions : List ChargingAction) :
    Always (step kind) Alive (of status) actions ↔
      status.currentMA = 0 ∧ Along (step kind) Restartable (of status) actions := by
  rw [← alive_of]
  refine always_iff_start_and_along (I := fun _ => True) trivial (fun _ _ _ _ _ => trivial)
    (fun s action s' _ alive restartable step => (alive_step alive step).mpr restartable)
    fun s action _ alive next => ?_
  cases action with
  | setCurrent currentMA => exact alive_setCurrent.mp (next _ rfl)
  | _ => trivial

theorem not_alive_nearlyEmpty (kind : Simulation) :
    ¬ Always (step kind) Alive (of { halfFull with capacityMAh := 10 })
      [.setCurrent 400, .iteration, .iteration, .setCurrent 400] := by
  intro always
  have idle : (exec (step kind) (of { halfFull with capacityMAh := 10 })
      [.setCurrent 400, .iteration, .iteration, .setCurrent 400]).map
        (fun σ => (σ.status.currentMA, σ.thread)) = some (400, none) := by
    cases kind <;> decide +kernel
  obtain ⟨σ, run, same⟩ := Option.map_eq_some_iff.mp idle
  obtain ⟨current, thread⟩ := Prod.mk.inj same
  have alive := (always _ (List.prefix_refl _) σ run).current
  simp [current, thread] at alive

theorem charging_not_alive :
    ¬ Always (step .pseudoBattery) Alive (of { halfFull with capacityMAh := 10 })
        [.setCurrent 400, .iteration, .iteration, .setCurrent 400] ∧
      ¬ Always (step .partitionBattery) Alive (of { halfFull with capacityMAh := 10 })
        [.setCurrent 400, .iteration, .iteration, .setCurrent 400] :=
  ⟨not_alive_nearlyEmpty _, not_alive_nearlyEmpty _⟩

end SimulatedBattery

end BatteryOS.V3
