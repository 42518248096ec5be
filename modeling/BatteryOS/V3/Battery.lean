import BatteryOS.V3.Event

/-! The scheduler inside a battery: requests are merged into the event queue and
the event thread processes what falls due. The two device functions that every
kind of battery overrides are a parameter, and one batch of the event thread is a
function of its wake-up time. Locks, the condition variable and the shutdown flag
are outside the model: each call runs whole, on one clock reading. -/

namespace BatteryOS.V3

structure BatteryStatus where
  voltageMV : ℚ
  currentMA : ℚ
  capacityMAh : ℚ
  maxCapacityMAh : ℚ
  maxChargingCurrentMA : ℚ
  maxDischargingCurrentMA : ℚ
  time : ℤ
deriving DecidableEq, Repr

def BatteryStatus.zero : BatteryStatus := ⟨0, 0, 0, 0, 0, 0, 0⟩

def BatteryStatus.Allows (status : BatteryStatus) (currentMA : ℚ) : Prop :=
  -status.maxChargingCurrentMA ≤ currentMA ∧ currentMA ≤ status.maxDischargingCurrentMA

instance (status : BatteryStatus) (currentMA : ℚ) : Decidable (status.Allows currentMA) :=
  inferInstanceAs (Decidable (_ ∧ _))

inductive RefreshMode
  | lazy
  | active
deriving DecidableEq, Repr

structure Battery where
  batteryName : String
  currentMA : ℤ
  eventSet : EventSet
  eventMap : EventMap
  status : BatteryStatus
  refreshMode : RefreshMode
  maxStaleness : ℤ

def Battery.new (batteryName : String) (maxStaleness : ℤ) (refreshMode : RefreshMode) : Battery :=
  ⟨batteryName, 0, ∅, ∅, .zero, refreshMode, maxStaleness⟩

/-- `refresh` reads the device at a time, `setCurrent` commands it; both act on the status. -/
structure Driver where
  refresh : ℤ → BatteryStatus → BatteryStatus
  setCurrent : ℤ → BatteryStatus → BatteryStatus

/-- How a pending interval stands to a new request of its name: the tests of the
merge loop, in their order. -/
inductive Overlap
  | otherName
  | covered
  | nested
  | endMoved
  | beginMoved
  | untouched
deriving DecidableEq, Repr

def overlap (batteryName : String) (startTime endTime : ℤ) (pair : EventPair) : Overlap :=
  if batteryName ≠ pair.first.batteryName then .otherName
  else if startTime ≤ pair.first.eventTime ∧ endTime ≥ pair.second.eventTime then .covered
  else if startTime ≥ pair.first.eventTime ∧ endTime < pair.second.eventTime then .nested
  else if startTime ≥ pair.first.eventTime ∧ endTime ≥ pair.second.eventTime then .endMoved
  else if startTime ≤ pair.first.eventTime ∧ endTime ≤ pair.second.eventTime then .beginMoved
  else .untouched

/-- The three events that the merge loop builds against a stored pair. -/
def cancelEvent (batteryName : String) (startTime : ℤ) (pair : EventPair) : Event :=
  ⟨.cancelSetCurrentEvent, 0, startTime, batteryName, pair.first.sequenceNumber⟩

def movedEnd (batteryName : String) (startTime : ℤ) (pair : EventPair) : Event :=
  ⟨.setCurrentEnd, pair.second.currentMA, startTime, batteryName, pair.second.sequenceNumber⟩

def movedBegin (batteryName : String) (endTime : ℤ) (pair : EventPair) : Event :=
  ⟨.setCurrentBegin, pair.first.currentMA, endTime, batteryName, pair.first.sequenceNumber⟩

def requestPair (batteryName : String) (targetCurrentMA : ℤ) (startTime endTime : ℤ)
    (sequenceNumber : ℕ) : EventPair where
  first := ⟨.setCurrentBegin, targetCurrentMA, startTime, batteryName, sequenceNumber⟩
  second := ⟨.setCurrentEnd, targetCurrentMA, endTime, batteryName, sequenceNumber⟩

/-- What the merge loop carries: the two containers and the current still to be asked for. -/
structure Merge where
  eventSet : EventSet
  eventMap : EventMap
  targetCurrentMA : ℚ

def mergeEntry (batteryName : String) (startTime endTime : ℤ) (m : Merge) (key : ℕ) : Merge :=
  match m.eventMap.find? key with
  | none => m
  | some pair =>
    match overlap batteryName startTime endTime pair with
    | .covered => { m with eventSet := m.eventSet.insert (cancelEvent batteryName startTime pair) }
    | .nested => { m with targetCurrentMA := m.targetCurrentMA - pair.first.currentMA }
    | .endMoved =>
      let newEvent := movedEnd batteryName startTime pair
      { m with
        eventSet := (m.eventSet.erase pair.second).insert newEvent
        eventMap := m.eventMap.modify pair.second.sequenceNumber
          fun oldPair => { oldPair with second := newEvent } }
    | .beginMoved =>
      let newEvent := movedBegin batteryName endTime pair
      { m with
        eventSet := (m.eventSet.erase pair.first).insert newEvent
        eventMap := m.eventMap.modify pair.first.sequenceNumber
          fun oldPair => { oldPair with first := newEvent } }
    | .otherName | .untouched => m

namespace Battery

/-- The first half of `checkMergeAndInsertEvents`: a request under a known sequence
number replaces that request and adds to its current, a new one is merged with
every pending request of its name. -/
def checkMerge (b : Battery) (batteryName : String) (currentMA : ℚ) (startTime endTime : ℤ)
    (sequenceNumber : ℕ) : Merge :=
  match b.eventMap.find? sequenceNumber with
  | some pair =>
    { eventSet := (b.eventSet.erase pair.first).erase pair.second
      eventMap := b.eventMap.erase sequenceNumber
      targetCurrentMA := currentMA + pair.first.currentMA }
  | none =>
    b.eventMap.keys.foldl (mergeEntry batteryName startTime endTime)
      ⟨b.eventSet, b.eventMap, currentMA⟩

def checkMergeAndInsertEvents (b : Battery) (batteryName : String) (currentMA : ℚ)
    (startTime endTime : ℤ) (sequenceNumber : ℕ) : Battery :=
  let m := b.checkMerge batteryName currentMA startTime endTime sequenceNumber
  let eventPair :=
    requestPair batteryName (truncate m.targetCurrentMA) startTime endTime sequenceNumber
  { b with
    eventSet := (m.eventSet.insert eventPair.first).insert eventPair.second
    eventMap := m.eventMap.insert sequenceNumber eventPair }

/-- The checks that `schedule_set_current` makes on a request under the battery's own name. -/
def refuses (b : Battery) (now : ℤ) (currentMA : ℚ) (startTime : ℤ) : Bool :=
  startTime < now || currentMA * -1 > b.status.maxChargingCurrentMA ||
    currentMA > b.status.maxDischargingCurrentMA

/-- `Battery::schedule_set_current`, which physical batteries use as it is. -/
def scheduleSetCurrent (b : Battery) (now : ℤ) (currentMA : ℚ) (startTime endTime : ℤ)
    (name : String) (sequenceNumber : ℕ) : Bool × Battery :=
  if name = b.batteryName ∧ b.refuses now currentMA startTime then (false, b)
  else (true, b.checkMergeAndInsertEvents name currentMA startTime endTime sequenceNumber)

end Battery

/-- What the scan over the due events leaves: the battery with its refreshes done,
the counter they drew numbers from, the events collected and where it stopped. -/
structure Scan where
  battery : Battery
  sequenceNumber : ℕ
  eventVector : List Event
  iter : Option Event

/-- The REFRESH branch of the scan: in ACTIVE mode the next refresh is queued first. -/
def Battery.refreshAt (driver : Driver) (now : ℤ) (b : Battery) (sequenceNumber : ℕ)
    (iter : Event) : Battery × ℕ :=
  if b.refreshMode = .active then
    ({ b with
        eventSet := b.eventSet.insert { iter with
          eventTime := iter.eventTime + b.maxStaleness
          sequenceNumber := sequenceNumber }
        status := driver.refresh now b.status }, sequenceNumber + 1)
  else ({ b with status := driver.refresh now b.status }, sequenceNumber)

/-- The loop over the due events, from `iter`. It inserts into the set it walks, so it
is given fuel; `none` is a loop that has not come to its end. -/
def scan (driver : Driver) (now : ℤ) :
    ℕ → Battery → ℕ → List Event → Option Event → Option Scan
  | 0, _, _, _, _ => none
  | _ + 1, b, sequenceNumber, eventVector, none => some ⟨b, sequenceNumber, eventVector, none⟩
  | fuel + 1, b, sequenceNumber, eventVector, some iter =>
    if iter.eventTime > now then some ⟨b, sequenceNumber, eventVector, some iter⟩
    else match iter.eventID with
      | .setCurrentBegin | .setCurrentEnd =>
        scan driver now fuel b sequenceNumber (eventVector ++ [iter]) (b.eventSet.next iter)
      | .cancelSetCurrentEvent => some ⟨b, sequenceNumber, eventVector, some iter⟩
      | .refresh =>
        let next := b.refreshAt driver now sequenceNumber iter
        scan driver now fuel next.1 next.2 (eventVector ++ [iter]) (next.1.eventSet.next iter)

/-- One pass of the event thread's outer loop: it is still scanning, it threw
`std::out_of_range`, or it is done, with the value it passed to `set_current` if it did. -/
inductive Batch
  | running
  | outOfRange
  | done (battery : Battery) (sequenceNumber : ℕ) (commanded : Option ℤ)

def Batch.commanded : Batch → Option ℤ
  | .done _ _ commanded => commanded
  | .running | .outOfRange => none

def Batch.throws : Batch → Bool
  | .outOfRange => true
  | .running | .done _ _ _ => false

namespace Battery

/-- The cancel at which the scan stopped. Past the end of the set the source reads
`iter->eventID` all the same, which is undefined; here nothing is cancelled then.
`none` is the exception of `eventMap.at`. -/
def cancel (b : Battery) : Option Event → Option Battery
  | none => some b
  | some iter =>
    if iter.eventID = .cancelSetCurrentEvent then
      (b.eventMap.find? iter.sequenceNumber).map fun pair =>
        { b with
          eventSet := ((b.eventSet.erase pair.first).erase pair.second).erase iter
          eventMap := b.eventMap.erase iter.sequenceNumber }
    else some b

def applyEvent (b : Battery) (event : Event) : Battery :=
  match event.eventID with
  | .setCurrentBegin =>
    { b with currentMA := b.currentMA + event.currentMA, eventSet := b.eventSet.erase event }
  | .setCurrentEnd =>
    { b with
      currentMA := b.currentMA - event.currentMA
      eventMap := b.eventMap.erase event.sequenceNumber
      eventSet := b.eventSet.erase event }
  | .refresh | .cancelSetCurrentEvent => { b with eventSet := b.eventSet.erase event }

/-- The collected events are applied and the device commanded once, if the sum has changed. -/
def applyEvents (driver : Driver) (b : Battery) (eventVector : List Event) : Battery × Option ℤ :=
  if b.eventSet.elems = [] then (b, none)
  else
    let next := eventVector.foldl applyEvent b
    if next.currentMA ≠ b.currentMA then
      ({ next with status := driver.setCurrent next.currentMA next.status }, some next.currentMA)
    else (next, none)

def runEventThread (driver : Driver) (fuel sequenceNumber : ℕ) (now : ℤ) (b : Battery) : Batch :=
  match scan driver now fuel b sequenceNumber [] b.eventSet.begin with
  | none => .running
  | some s =>
    match s.battery.cancel s.iter with
    | none => .outOfRange
    | some c =>
      let next := c.applyEvents driver s.eventVector
      .done next.1 s.sequenceNumber next.2

end Battery

end BatteryOS.V3
