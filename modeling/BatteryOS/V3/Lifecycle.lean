import BatteryOS.Library.StepRun
import BatteryOS.V3.Directory
import BatteryOS.V3.Run

/-! The life of one battery: it is constructed, receives requests, changes its refresh mode and is
woken for batches, in any order. Sequence numbers come from one counter for all batteries, so
others may draw some in between. -/

namespace BatteryOS.V3

namespace Battery

/-- `PartitionBattery::setSourceBattery`, with the status that the manager gives. -/
def setSourceBattery (b : Battery) (status : BatteryStatus) (now : ℤ) (sequenceNumber : ℕ) :
    Battery × ℕ :=
  if b.refreshMode = .active then
    ({ b with
        status := status
        eventSet := b.eventSet.insert
          ⟨.refresh, 0, now + b.maxStaleness, b.batteryName, sequenceNumber⟩ }, sequenceNumber + 1)
  else ({ b with status := status }, sequenceNumber)

def setRefreshMode (driver : Driver) (now : ℤ) (b : Battery) (sequenceNumber : ℕ)
    (refreshMode : RefreshMode) : Battery × ℕ :=
  if b.refreshMode = refreshMode then (b, sequenceNumber)
  else if refreshMode = .active then
    ({ b with
        refreshMode := refreshMode
        status := driver.refresh now b.status
        eventSet := b.eventSet.insert
          ⟨.refresh, 0, now + b.maxStaleness, b.batteryName, sequenceNumber⟩ }, sequenceNumber + 1)
  else ({ b with refreshMode := refreshMode }, sequenceNumber)

end Battery

/-- The batteries that the directory makes under names of the caller's. -/
inductive Construction
  | physical
  | aggregate
  | partition (status : BatteryStatus)

/-- The constructors, and for a partition `setSourceBattery` after it. -/
def Construction.battery (construction : Construction) (batteryName : String) (maxStaleness : ℤ)
    (refreshMode : RefreshMode) (now : ℤ) (sequenceNumber : ℕ) : Battery × ℕ :=
  match construction with
  | .physical => (Battery.new batteryName maxStaleness refreshMode, sequenceNumber)
  | .aggregate =>
    (aggregateBattery batteryName maxStaleness refreshMode now sequenceNumber, sequenceNumber + 1)
  | .partition status =>
    (Battery.new batteryName maxStaleness refreshMode).setSourceBattery status now sequenceNumber

section Idle

variable (batteryName : String) (maxStaleness : ℤ) (refreshMode : RefreshMode) (now : ℤ)
  (sequenceNumber : ℕ)

theorem idle_new : (Battery.new batteryName maxStaleness refreshMode).Idle :=
  ⟨rfl, rfl, fun z hz => absurd hz (OrderedSet.not_mem_empty z)⟩

theorem mem_singleton_refresh {z refreshEvent : Event} (hid : refreshEvent.eventID = .refresh)
    (hz : z ∈ OrderedSet.insert (∅ : EventSet) refreshEvent) : z.eventID = .refresh := by
  rcases OrderedSet.mem_insert.mp hz with old | ⟨rfl, -⟩
  · exact absurd old (OrderedSet.not_mem_empty z)
  · exact hid

theorem idle_aggregate :
    (aggregateBattery batteryName maxStaleness refreshMode now sequenceNumber).Idle :=
  ⟨rfl, rfl, fun _ hz => mem_singleton_refresh rfl hz⟩

theorem Construction.idle (construction : Construction) :
    (construction.battery batteryName maxStaleness refreshMode now sequenceNumber).1.Idle := by
  cases construction with
  | physical => exact idle_new batteryName maxStaleness refreshMode
  | aggregate => exact idle_aggregate batteryName maxStaleness refreshMode now sequenceNumber
  | partition status =>
      unfold Construction.battery Battery.setSourceBattery
      split_ifs
      · exact ⟨rfl, rfl, fun _ hz => mem_singleton_refresh rfl hz⟩
      · exact ⟨rfl, rfl, fun z hz => absurd hz (OrderedSet.not_mem_empty z)⟩

end Idle

theorem partitionBatteries_cons (args : PartitionArgs) (status : BatteryStatus)
    (sequenceNumber : ℕ) (name : String) (maxStaleness : ℤ) (refreshMode : RefreshMode)
    (rest : List (String × ℤ × RefreshMode)) :
    args.partitionBatteries status sequenceNumber ((name, maxStaleness, refreshMode) :: rest) =
      let child := (Construction.partition (args.initBatteryStatus status name)).battery name
        maxStaleness refreshMode args.now sequenceNumber
      let others := args.partitionBatteries status child.2 rest
      (child.1 :: others.1, others.2) := by
  by_cases active : refreshMode = .active
  · simp [PartitionArgs.partitionBatteries, Construction.battery, Battery.setSourceBattery,
      Battery.new, active]
  · simp [PartitionArgs.partitionBatteries, Construction.battery, Battery.setSourceBattery,
      Battery.new, active]

/-- What can happen to a battery. `insert` is a request that comes after its source has accepted
it, `refresh` any change of the status, `draw` a number drawn by another battery. -/
inductive LifeAction
  | setRefreshMode (now : ℤ) (refreshMode : RefreshMode)
  | schedule (now : ℤ) (currentMA : ℚ) (startTime endTime : ℤ)
  | request (r : Request)
  | insert (r : Request)
  | refresh (status : BatteryStatus)
  | batch (fuel : ℕ) (now : ℤ)
  | draw

/-- One step of a battery and the counter. A batch that fails has no next state. -/
def LifeAction.step (driver : Driver) : Battery × ℕ → LifeAction → Option (Battery × ℕ)
  | (b, n), .setRefreshMode now refreshMode => some (b.setRefreshMode driver now n refreshMode)
  | (b, n), .schedule now currentMA startTime endTime =>
    some (b.request ⟨now, currentMA, startTime, endTime, b.batteryName, n⟩, n + 1)
  | (b, n), .request r => some (b.request r, n)
  | (b, n), .insert r =>
    some (b.checkMergeAndInsertEvents r.name r.currentMA r.startTime r.endTime r.sequenceNumber, n)
  | (b, n), .refresh status => some ({ b with status := status }, n)
  | (b, n), .batch fuel now =>
    match b.runEventThread driver fuel n now with
    | .done b n _ => some (b, n)
    | .running | .outOfRange => none
  | (b, n), .draw => some (b, n + 1)

def LifeAction.Proper : LifeAction → Prop
  | .schedule _ _ startTime endTime => startTime < endTime
  | .request r | .insert r => r.startTime < r.endTime
  | .setRefreshMode _ _ | .refresh _ | .batch _ _ | .draw => True

variable {driver : Driver} {b b' : Battery} {n n' : ℕ}

theorem batch_step {fuel : ℕ} {now : ℤ}
    (h : LifeAction.step driver (b, n) (.batch fuel now) = some (b', n')) :
    ∃ commanded, b.runEventThread driver fuel n now = .done b' n' commanded := by
  simp only [LifeAction.step] at h
  cases hdone : b.runEventThread driver fuel n now with
  | running => simp [hdone] at h
  | outOfRange => simp [hdone] at h
  | done b'' n'' commanded =>
      simp only [hdone, Option.some_inj, Prod.mk_inj] at h
      obtain ⟨rfl, rfl⟩ := h
      exact ⟨commanded, rfl⟩

theorem setRefreshMode_events (driver : Driver) (b : Battery) (n : ℕ) (now : ℤ)
    (refreshMode : RefreshMode) :
    (b.setRefreshMode driver now n refreshMode).1.eventMap = b.eventMap ∧
      ∀ z, z.eventID ≠ .refresh →
        (z ∈ (b.setRefreshMode driver now n refreshMode).1.eventSet ↔ z ∈ b.eventSet) := by
  unfold Battery.setRefreshMode
  split_ifs
  · exact ⟨rfl, fun _ _ => Iff.rfl⟩
  · refine ⟨rfl, fun z hz => OrderedSet.mem_insert.trans (or_iff_left fun e => hz ?_)⟩
    rw [e.1]
  · exact ⟨rfl, fun _ _ => Iff.rfl⟩

theorem LifeAction.consistent_step {action : LifeAction} (h : b.Consistent)
    (proper : action.Proper) (step : action.step driver (b, n) = some (b', n')) :
    b'.Consistent := by
  cases action with
  | setRefreshMode now refreshMode =>
      have result : b.setRefreshMode driver now n refreshMode = (b', n') := Option.some.inj step
      obtain ⟨map, events⟩ := setRefreshMode_events driver b n now refreshMode
      rw [result] at map events
      unfold Battery.Consistent
      rw [map]
      exact Consistent.congr h fun z hz => events z (by rcases hz with hz | hz <;> simp [hz])
  | schedule now currentMA startTime endTime =>
      obtain ⟨rfl, -⟩ := Prod.mk_inj.mp (Option.some.inj step)
      exact h.request proper
  | request r =>
      obtain ⟨rfl, -⟩ := Prod.mk_inj.mp (Option.some.inj step)
      exact h.request proper
  | insert r =>
      obtain ⟨rfl, -⟩ := Prod.mk_inj.mp (Option.some.inj step)
      exact h.checkMergeAndInsertEvents proper
  | refresh status =>
      obtain ⟨rfl, -⟩ := Prod.mk_inj.mp (Option.some.inj step)
      exact h
  | batch fuel now =>
      obtain ⟨commanded, done⟩ := batch_step step
      exact h.runEventThread done
  | draw =>
      obtain ⟨rfl, -⟩ := Prod.mk_inj.mp (Option.some.inj step)
      exact h

/-- The entries of the map and the BEGIN and END events of the queue correspond. -/
structure Battery.EntriesQueued (b : Battery) : Prop where
  numbers : ∀ k, (∃ pair, b.eventMap.find? k = some pair) ↔
    ∃ z ∈ b.eventSet, z.eventID = .setCurrentEnd ∧ z.sequenceNumber = k
  second : ∀ k pair, b.eventMap.find? k = some pair → pair.second.eventID = .setCurrentEnd ∧
    pair.second ∈ b.eventSet ∧ ∀ z ∈ b.eventSet, z.eventID = .setCurrentEnd →
      z.sequenceNumber = k → z = pair.second
  pair : ∀ k pair, b.eventMap.find? k = some pair →
    pair.first.sequenceNumber = k ∧ pair.second.sequenceNumber = k ∧
      pair.first.currentMA = pair.second.currentMA ∧ pair.first.eventTime < pair.second.eventTime
  begin : ∀ z ∈ b.eventSet, z.eventID = .setCurrentBegin →
    ∃ pair, b.eventMap.find? z.sequenceNumber = some pair ∧ pair.first = z

theorem Battery.Consistent.entriesQueued (h : b.Consistent) : b.EntriesQueued where
  numbers k := by
    constructor
    · rintro ⟨pair, stored⟩
      have interval := h.interval stored
      exact ⟨pair.second, h.second_mem stored, interval.second_eventID, interval.second⟩
    · rintro ⟨z, hz, hid, rfl⟩
      obtain ⟨pair, stored, -⟩ := h.end_stored hz hid
      exact ⟨pair, stored⟩
  second k pair stored := ⟨(h.interval stored).second_eventID, h.second_mem stored,
    fun _ hz hid number => h.eq_second stored hz number hid⟩
  pair k pair stored := by
    have interval := h.interval stored
    exact ⟨interval.first, interval.second, interval.same_current.symm, interval.ordered⟩
  begin _ hz hid := h.begin_stored hz hid

/-- In every state that is reached from an empty battery the map and the queue correspond. -/
theorem exec_entriesQueued {batteryName : String} {maxStaleness : ℤ} {refreshMode : RefreshMode}
    {actions : List LifeAction} {σ : Battery × ℕ} (proper : ∀ action ∈ actions, action.Proper)
    (run : StepRun.exec (LifeAction.step driver)
      (Battery.new batteryName maxStaleness refreshMode, n) actions = some σ) :
    σ.1.EntriesQueued := by
  have empty := (idle_new batteryName maxStaleness refreshMode).consistent
  have keep : ∀ (σ : Battery × ℕ) (action : LifeAction) (σ' : Battery × ℕ), σ.1.Consistent →
      action.Proper → action.step driver σ = some σ' → σ'.1.Consistent :=
    fun _ _ _ => LifeAction.consistent_step
  exact (StepRun.exec_invariant (Q := fun σ : Battery × ℕ => σ.1.Consistent) empty keep
    (StepRun.along_of_forall proper) run).entriesQueued

/-- A request is covered and cancelled, another cut short, a third sent again, between batches. -/
theorem exec_entriesQueued_merges :
    ∃ σ, StepRun.exec (LifeAction.step .still) (Battery.new "p" 1000 .lazy, 1)
        [.insert ⟨0, 100, 10, 20, "a", 1⟩, .insert ⟨0, 200, 5, 30, "a", 2⟩,
          .insert ⟨0, 50, 20, 40, "a", 3⟩, .insert ⟨0, 25, 20, 40, "a", 3⟩, .batch 9 5, .batch 9 5,
          .batch 9 25] = some σ ∧ σ.1.EntriesQueued := by
  obtain ⟨σ, run⟩ := Option.isSome_iff_exists.mp (show
    (StepRun.exec (LifeAction.step .still) (Battery.new "p" 1000 .lazy, 1)
      [.insert ⟨0, 100, 10, 20, "a", 1⟩, .insert ⟨0, 200, 5, 30, "a", 2⟩,
        .insert ⟨0, 50, 20, 40, "a", 3⟩, .insert ⟨0, 25, 20, 40, "a", 3⟩, .batch 9 5, .batch 9 5,
        .batch 9 25]).isSome = true by decide +kernel)
  refine ⟨σ, run, exec_entriesQueued (fun action member => ?_) run⟩
  simp only [List.mem_cons, List.not_mem_nil, or_false] at member
  rcases member with rfl | rfl | rfl | rfl | rfl | rfl | rfl
  all_goals simp [LifeAction.Proper]

end BatteryOS.V3
