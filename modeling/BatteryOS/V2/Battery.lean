import BatteryOS.Library.Timeline

/-! The scheduler of a V2 battery. A request previews the event queue, takes the events between
its two times out of it and puts in two of its own; the background thread takes what is due off
the front and commands the device once. Every reading of the clock is an argument. Locks, the
condition variable and the quit flag are outside the model, and so is what a refresh does to the
status. -/

namespace BatteryOS.V2

inductive Function
  | refresh
  | setCurrentEnd
  | setCurrent
  | cancelEvent
deriving DecidableEq, Repr

/-- The numbering of the enumeration, which the sort order uses. -/
def Function.toInt : Function → ℤ
  | .refresh => 0
  | .setCurrentEnd => 1
  | .setCurrent => 2
  | .cancelEvent => 3

theorem Function.toInt_injective : Function.toInt.Injective := by
  intro a b h
  cases a <;> cases b <;> simp_all [Function.toInt]

/-- `other_data` is the number of a child, and 0 for a null pointer. -/
structure Event where
  timepoint : ℤ
  timeAdded : ℤ
  sequenceNumber : ℕ
  func : Function
  currentMA : ℤ
  isGreaterThan : Bool
  otherData : ℕ
deriving DecidableEq, Repr

namespace Event

def lt (lhs rhs : Event) : Prop :=
  if lhs.timepoint < rhs.timepoint then True
  else if lhs.timepoint > rhs.timepoint then False
  else if lhs.timeAdded < rhs.timeAdded then True
  else if lhs.timeAdded > rhs.timeAdded then False
  else if lhs.sequenceNumber < rhs.sequenceNumber then True
  else if lhs.sequenceNumber > rhs.sequenceNumber then False
  else lhs.func.toInt < rhs.func.toInt

/-- The key by which `operator<` compares. -/
def key (e : Event) : ℤ ×ₗ ℤ ×ₗ ℕ ×ₗ ℤ :=
  toLex (e.timepoint, toLex (e.timeAdded, toLex (e.sequenceNumber, e.func.toInt)))

theorem key_lt_iff {x y : Event} : x.key < y.key ↔
    x.timepoint < y.timepoint ∨ x.timepoint = y.timepoint ∧
      (x.timeAdded < y.timeAdded ∨ x.timeAdded = y.timeAdded ∧
        (x.sequenceNumber < y.sequenceNumber ∨ x.sequenceNumber = y.sequenceNumber ∧
          x.func.toInt < y.func.toInt)) := by
  simp only [key, Prod.Lex.toLex_lt_toLex]

theorem lt_iff_key_lt (x y : Event) : x.lt y ↔ x.key < y.key := by
  rw [key_lt_iff, lt]
  split_ifs <;> grind

theorem key_eq_iff {x y : Event} : x.key = y.key ↔
    x.timepoint = y.timepoint ∧ x.timeAdded = y.timeAdded ∧
      x.sequenceNumber = y.sequenceNumber ∧ x.func = y.func := by
  simp [key, Function.toInt_injective.eq_iff]

theorem timepoint_le_of_key_le (x y : Event) (h : x.key ≤ y.key) : x.timepoint ≤ y.timepoint := by
  rw [le_iff_lt_or_eq, key_lt_iff, key_eq_iff] at h
  omega

def setsCurrent (e : Event) : Bool := e.func = .setCurrent || e.func = .setCurrentEnd

end Event

abbrev EventQueue := OrderedSet Event.key

inductive RefreshMode
  | lazy
  | active
deriving DecidableEq, Repr

/-- Times and durations are in the unit of the clock. -/
def milliseconds (count : ℤ) : ℤ := count * 1000000

structure Battery where
  eventQueue : EventQueue
  currentSequenceNumber : ℕ
  currentNow : ℤ
  isGreaterThanCurrentNow : Bool
  refreshMode : RefreshMode
  maxStaleness : ℤ

structure Request where
  targetCurrentMA : ℤ
  isGreaterThanTarget : Bool
  whenToSet : ℤ
  untilWhen : ℤ
deriving DecidableEq, Repr

/-- A current, and whether the real one is to be above or below it. -/
structure Setting where
  currentMA : ℤ
  isGreaterThan : Bool
deriving DecidableEq, Repr

def Event.setting (e : Event) : Setting := ⟨e.currentMA, e.isGreaterThan⟩

/-- The first pass of `schedule_set_current`: `current_value_before_set` and the value to resume,
which the delays are asked for. -/
def previewDelay (whenToSet untilWhen : ℤ) (beforeSet upToNow : ℤ) : List Event → ℤ × ℤ
  | [] => (beforeSet, upToNow)
  | event :: rest =>
    let beforeSet := if event.timepoint ≤ whenToSet then event.currentMA else beforeSet
    if event.timepoint > untilWhen then (beforeSet, upToNow)
    else if event.func = .refresh then previewDelay whenToSet untilWhen beforeSet upToNow rest
    else previewDelay whenToSet untilWhen beforeSet event.currentMA rest

/-- The second pass: the events to remove, and the setting to resume. -/
def previewRemoval (whenToSet untilWhen : ℤ) (upToNow : Setting) :
    List Event → List Event × Setting
  | [] => ([], upToNow)
  | event :: rest =>
    if event.func = .refresh then previewRemoval whenToSet untilWhen upToNow rest
    else if whenToSet ≤ event.timepoint ∧ event.timepoint ≤ untilWhen then
      let (removed, setting) := previewRemoval whenToSet untilWhen event.setting rest
      (event :: removed, setting)
    else if event.timepoint > untilWhen then ([], upToNow)
    else previewRemoval whenToSet untilWhen event.setting rest

/-- The loop of the background thread: the events that it takes. The clock is read again after
each of them, and stands still when no more readings are given. -/
def dueEvents : ℤ → List ℤ → List Event → List Event
  | _, _, [] => []
  | now, readings, top :: rest =>
    if top.timepoint > now then []
    else top :: dueEvents (readings.head?.getD now) readings.tail rest

namespace Battery

def new (maxStaleness : ℤ) : Battery := ⟨∅, 0, 0, false, .lazy, maxStaleness⟩

/-- An event under the next sequence number, built at a reading of the clock. -/
def emplace (b : Battery) (timeAdded timepoint : ℤ) (func : Function) (setting : Setting)
    (otherData : ℕ) : Battery :=
  { b with
    eventQueue := b.eventQueue.insert ⟨timepoint, timeAdded, b.currentSequenceNumber, func,
      setting.currentMA, setting.isGreaterThan, otherData⟩
    currentSequenceNumber := b.currentSequenceNumber + 1 }

def emplaceRefresh (b : Battery) (now timeAdded : ℤ) : Battery :=
  { b with
    eventQueue := b.eventQueue.insert
      ⟨now + b.maxStaleness, timeAdded, 2147483647, .refresh, 0, false, 0⟩ }

def remove (b : Battery) (events : List Event) : Battery :=
  { b with eventQueue := events.foldl OrderedSet.erase b.eventQueue }

/-- `Battery::schedule_set_current`, with the virtual `get_delay` as an argument. -/
def scheduleSetCurrent (getDelay : ℤ → ℤ → ℤ) (now timeAdded timeAdded' : ℤ) (b : Battery)
    (r : Request) : Bool × Battery :=
  if r.whenToSet < now then (false, b)
  else
    let (beforeSet, toResume) := previewDelay r.whenToSet r.untilWhen b.currentNow b.currentNow
      b.eventQueue.elems
    let whenToSet := r.whenToSet - getDelay beforeSet r.targetCurrentMA
    let untilWhen := r.untilWhen - getDelay r.targetCurrentMA toResume
    let (removed, upToNow) := previewRemoval whenToSet untilWhen
      ⟨b.currentNow, b.isGreaterThanCurrentNow⟩ b.eventQueue.elems
    let b := b.remove removed
    let b := b.emplace timeAdded whenToSet .setCurrent
      ⟨r.targetCurrentMA, r.isGreaterThanTarget⟩ 0
    (true, b.emplace timeAdded' untilWhen .setCurrentEnd upToNow 0)

def takeDue (b : Battery) (now : ℤ) (readings : List ℤ) : List Event × Battery :=
  let events := dueEvents now readings b.eventQueue.elems
  (events, b.remove events)

/-- The rule for batteries other than splitters: only the last of the due events is carried out. -/
def setLast (b : Battery) (succeeds : Bool) (events : List Event) : Battery :=
  if events.any fun e => e.func = .cancelEvent then b
  else match (events.filter Event.setsCurrent).getLast? with
    | none => b
    | some last =>
      if succeeds then
        { b with
          currentNow := last.currentMA
          isGreaterThanCurrentNow := last.isGreaterThan }
      else b

def requeueRefresh (b : Battery) (now timeAdded : ℤ) (events : List Event) : Battery :=
  if events.any (fun e => e.func = .refresh) ∧ b.refreshMode = .active then
    b.emplaceRefresh now timeAdded
  else b

/-- One round of `background_func`. `succeeds` is what `set_current` returns. -/
def backgroundFunc (now : ℤ) (readings : List ℤ) (refreshed timeAdded : ℤ) (succeeds : Bool)
    (b : Battery) : Battery :=
  let (events, b) := b.takeDue now readings
  (b.setLast succeeds events).requeueRefresh refreshed timeAdded events

def startBackgroundRefresh (now timeAdded : ℤ) (b : Battery) : Bool × Battery :=
  if b.maxStaleness < milliseconds 100 then (false, b)
  else (true, { b with refreshMode := .active }.emplaceRefresh now timeAdded)

def stopBackgroundRefresh (b : Battery) : Bool × Battery :=
  if b.refreshMode = .active then (true, { b with refreshMode := .lazy }) else (false, b)

def setMaxStaleness (b : Battery) (maxStaleness : ℤ) : Battery :=
  { b with maxStaleness := maxStaleness }

end Battery

end BatteryOS.V2
