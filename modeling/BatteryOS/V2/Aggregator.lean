import BatteryOS.Library.Proportion
import BatteryOS.Library.Truncation
import BatteryOS.V2.Splitter

/-! The aggregator. Its limits go by the longest time that one of its sources needs at its own, and
a request is divided so that all of them are done at once. What the sources answer is logged and
not passed on. -/

namespace BatteryOS.V2

open Truncation Proportion

/-- A source, in a world that it may share with others. -/
structure Source (W : Type) where
  getStatus : W → BatteryStatus × W
  scheduleSetCurrent : Request → W → Bool × W

structure Sent where
  currentMA : ℤ
  accepted : Bool
deriving DecidableEq, Repr

structure AggregatorBattery where
  voltageMV : ℤ
  status : BatteryStatus

namespace AggregatorBattery

variable {W : Type}

/-- The largest of the quotients. It does not depend on which of the threads comes first. -/
def maxTime (charge currentMA : BatteryStatus → ℤ) (parents : List BatteryStatus) : ℚ :=
  parents.foldl (fun time p => max time (charge p / currentMA p)) 0

def room (status : BatteryStatus) : ℤ := status.maxCapacityMAh - status.capacityMAh

def maxDischargeTime (parents : List BatteryStatus) : ℚ :=
  maxTime BatteryStatus.capacityMAh BatteryStatus.maxDischargingCurrentMA parents

def maxChargeTime (parents : List BatteryStatus) : ℚ :=
  maxTime room BatteryStatus.maxChargingCurrentMA parents

/-- A limit for a charge; one where there is nothing to charge or to discharge. -/
def maxCurrent (charge : ℤ) (time : ℚ) : ℤ :=
  if |time| < 1 / 1000000 then 1 else truncate (charge / time)

/-- `refresh`, with the statuses of the parents. That one is out of the tolerance for the voltage is
only logged. -/
def refresh (agg : AggregatorBattery) (now : ℤ) (parents : List BatteryStatus) :
    AggregatorBattery :=
  let maxCap := (parents.map BatteryStatus.maxCapacityMAh).sum
  let currentCap := (parents.map BatteryStatus.capacityMAh).sum
  { agg with
    status :=
      { voltageMV := agg.voltageMV
        currentMA := (parents.map BatteryStatus.currentMA).sum
        capacityMAh := currentCap
        maxCapacityMAh := maxCap
        maxChargingCurrentMA := maxCurrent (maxCap - currentCap) (maxChargeTime parents)
        maxDischargingCurrentMA := maxCurrent currentCap (maxDischargeTime parents)
        timestamp := now } }

def refuses (status : BatteryStatus) (targetCurrentMA : ℤ) : Bool :=
  (targetCurrentMA ≥ 0 && status.capacityMAh = 0) ||
    (targetCurrentMA < 0 && status.capacityMAh ≥ status.maxCapacityMAh) ||
    BALSplitter.tooHigh status targetCurrentMA

/-- The current to send to a source, for which its status is read unless it is to stop. -/
def currentTo (status : BatteryStatus) (targetCurrentMA : ℤ) (src : Source W) (w : W) : ℤ × W :=
  if targetCurrentMA > 0 then
    let remainingTime : ℚ := status.capacityMAh / targetCurrentMA
    let (srcStatus, w) := src.getStatus w
    (truncate (srcStatus.capacityMAh / remainingTime), w)
  else if targetCurrentMA < 0 then
    let charge := status.maxCapacityMAh - status.capacityMAh
    let chargingTime : ℚ := charge / (-targetCurrentMA : ℤ)
    let (srcStatus, w) := src.getStatus w
    (-truncate ((srcStatus.maxCapacityMAh - srcStatus.capacityMAh : ℤ) / chargingTime), w)
  else (0, w)

def forward (status : BatteryStatus) (r : Request) : List (Source W) → W → List Sent × W
  | [], w => ([], w)
  | src :: rest, w =>
    let (current, w) := currentTo status r.targetCurrentMA src w
    let (success, w) := src.scheduleSetCurrent { r with targetCurrentMA := current } w
    let (sent, w) := forward status r rest w
    (⟨current, success⟩ :: sent, w)

/-- `schedule_set_current`, from the status that `get_status` has left. -/
def scheduleSetCurrent (agg : AggregatorBattery) (sources : List (Source W)) (r : Request) (w : W) :
    Bool × List Sent × W :=
  if refuses agg.status r.targetCurrentMA then (false, [], w)
  else (true, forward agg.status r sources w)

/-! ### What the sources are sent -/

section Shares

variable {charge currentMA : BatteryStatus → ℤ} {parents : List BatteryStatus} {amount : ℤ}

def part (charge : BatteryStatus → ℤ) (parents : List BatteryStatus) (amount : ℤ) :
    BatteryStatus → ℚ :=
  share (fun p => (charge p : ℚ)) parents amount

variable (nonneg : ∀ p ∈ parents, 0 ≤ charge p) (some_charge : 0 < (parents.map charge).sum)
  (asked : 0 < amount)
include nonneg some_charge asked

end Shares

section Dispatch

variable {statuses : List BatteryStatus} {sources : List (Source W)} {r : Request}
  {status : BatteryStatus}

end Dispatch

def halfFull : BatteryStatus := ⟨12, 0, 500, 1000, 200, 200, 0⟩

/-- Each of the sources accepts its current, in the state that those before it leave. -/
def EachAccepts (status : BatteryStatus) (r : Request) : List (Source W) → W → Prop
  | [], _ => True
  | src :: rest, w =>
    let (current, w) := currentTo status r.targetCurrentMA src w
    let (success, w) := src.scheduleSetCurrent { r with targetCurrentMA := current } w
    success = true ∧ EachAccepts status r rest w

theorem forward_accepted_iff (status : BatteryStatus) (r : Request) (sources : List (Source W))
    (w : W) : (∀ sent ∈ (forward status r sources w).1, sent.accepted = true) ↔
      EachAccepts status r sources w := by
  induction sources generalizing w with
  | nil => exact iff_of_true (fun sent h => by cases h) trivial
  | cons src rest ih =>
      rw [forward, EachAccepts]
      dsimp only
      rw [List.forall_mem_cons, ih]

/-- Success means that every source has accepted, and after a refusal nothing is kept. -/
def ReportsCompletely {E : Type} (events : W → E) (before : W) (result : Bool × List Sent × W) :
    Prop :=
  (result.1 = true → ∀ sent ∈ result.2.1, sent.accepted = true) ∧
    ((∃ sent ∈ result.2.1, sent.accepted = false) →
      result.1 = false ∧ events result.2.2 = events before)

/-- The aggregator reports a complete dispatch, or none, exactly when it refuses the request itself
or every source accepts. -/
theorem reportsCompletely_iff {E : Type} (events : W → E) (agg : AggregatorBattery)
    (sources : List (Source W)) (r : Request) (w : W) :
    ReportsCompletely events w (agg.scheduleSetCurrent sources r w) ↔
      refuses agg.status r.targetCurrentMA = true ∨ EachAccepts agg.status r sources w := by
  unfold scheduleSetCurrent
  split_ifs with refused
  · refine iff_of_true ⟨fun success => absurd success Bool.false_ne_true, ?_⟩ (.inl refused)
    intro refusal
    obtain ⟨sent, inside, -⟩ := refusal
    cases inside
  · rw [or_iff_right refused, ← forward_accepted_iff, ReportsCompletely]
    refine ⟨fun complete => complete.1 rfl, fun accepted => ⟨fun _ => accepted, ?_⟩⟩
    intro refusal
    obtain ⟨sent, inside, refused⟩ := refusal
    rw [accepted sent inside] at refused
    cases refused

/-- Two batteries, of which the second is asked when the request is late for it. -/
theorem refused_dispatch_reported :
    let first : Source (Battery × Battery) :=
      ⟨fun w => (halfFull, w), fun r w =>
        let result := w.1.scheduleSetCurrent (fun _ _ => 0) 2 2 2 r
        (result.1, result.2, w.2)⟩
    let second : Source (Battery × Battery) :=
      ⟨fun w => (halfFull, w), fun r w =>
        let result := w.2.scheduleSetCurrent (fun _ _ => 0) 4 4 4 r
        (result.1, w.1, result.2)⟩
    let agg := (⟨12, halfFull⟩ : AggregatorBattery).refresh 0 [halfFull, halfFull]
    let w : Battery × Battery := (.new 1000000000, .new 1000000000)
    ¬ ReportsCompletely (fun w => (w.1.eventQueue, w.2.eventQueue)) w
      (agg.scheduleSetCurrent [first, second] ⟨100, true, 3, 10⟩ w) := by
  intro first second agg w complete
  exact absurd (complete.1 (by decide +kernel)) (by decide +kernel)

end AggregatorBattery

end BatteryOS.V2
