import BatteryOS.Library.StepRun
import BatteryOS.V3.EventThread

/-! Runs of one battery: requests and batches of the event thread in any order, on a
clock that never goes back. A request comes through the overload that draws its
sequence number from the global counter, or under a name and number of the caller's. -/

namespace BatteryOS.V3

structure Request where
  now : ℤ
  currentMA : ℚ
  startTime : ℤ
  endTime : ℤ
  name : String
  sequenceNumber : ℕ

/-- How a stored interval stands to a request, and the pair that its merge leaves. -/
def Request.meets (r : Request) (pair : EventPair) : Overlap :=
  overlap r.name r.startTime r.endTime pair

def Request.merged (r : Request) (pair : EventPair) : EventPair :=
  mergedPair r.name r.startTime r.endTime pair

namespace Request

theorem merged_interval (r : Request) {k : ℕ} {pair : EventPair} (h : pair.Interval k) :
    (r.merged pair).Interval k :=
  mergedPair_interval r.name r.startTime r.endTime h

variable (r : Request) (pair : EventPair)

theorem merged_currentMA : (r.merged pair).first.currentMA = pair.first.currentMA :=
  mergedPair_currentMA r.name r.startTime r.endTime

theorem merged_batteryName : (r.merged pair).first.batteryName = pair.first.batteryName :=
  mergedPair_batteryName r.name r.startTime r.endTime

theorem merged_first_eventTime : (r.merged pair).first.eventTime =
    if r.meets pair = .beginMoved then r.endTime else pair.first.eventTime := by
  unfold merged mergedPair meets
  cases overlap r.name r.startTime r.endTime pair <;> rfl

theorem merged_first_eventTime_of_le {pair : EventPair} (h : pair.first.eventTime ≤ r.startTime) :
    (r.merged pair).first.eventTime = pair.first.eventTime := by
  rw [merged_first_eventTime, if_neg]
  intro moved
  exact h.not_gt (overlap_eq_beginMoved.mp moved).2.1

theorem merged_second_eventTime : (r.merged pair).second.eventTime =
    if r.meets pair = .endMoved then r.startTime else pair.second.eventTime := by
  unfold merged mergedPair meets
  cases overlap r.name r.startTime r.endTime pair <;> rfl

end Request

namespace Battery

def Refuses (b : Battery) (r : Request) : Prop :=
  r.name = b.batteryName ∧ b.refuses r.now r.currentMA r.startTime = true

instance (b : Battery) (r : Request) : Decidable (b.Refuses r) :=
  inferInstanceAs (Decidable (_ ∧ _))

def request (b : Battery) (r : Request) : Battery :=
  (b.scheduleSetCurrent r.now r.currentMA r.startTime r.endTime r.name r.sequenceNumber).2

theorem request_of_refuses {b : Battery} {r : Request} (h : b.Refuses r) : b.request r = b := by
  unfold Refuses at h
  simp only [request, scheduleSetCurrent, if_pos h]

theorem request_of_accepts {b : Battery} {r : Request} (h : ¬ b.Refuses r) :
    b.request r =
      b.checkMergeAndInsertEvents r.name r.currentMA r.startTime r.endTime r.sequenceNumber := by
  unfold Refuses at h
  simp only [request, scheduleSetCurrent, if_neg h]

/-- A request that is merged without being checked, as its source has accepted it. -/
def insertRequest (b : Battery) (r : Request) : Battery :=
  b.checkMergeAndInsertEvents r.name r.currentMA r.startTime r.endTime r.sequenceNumber

theorem request_eq_insertRequest {b : Battery} {r : Request} (h : ¬ b.Refuses r) :
    b.request r = b.insertRequest r :=
  request_of_accepts h

def newPair (b : Battery) (r : Request) : EventPair :=
  b.insertedPair r.name r.currentMA r.startTime r.endTime r.sequenceNumber

section Inserted

variable {b : Battery} {r : Request} (hb : b.Consistent)

section Fresh

variable (fresh : b.eventMap.find? r.sequenceNumber = none)
include hb fresh

theorem Consistent.inserted_find? (k : ℕ) : (b.insertRequest r).eventMap.find? k =
    if k = r.sequenceNumber then some (b.newPair r)
    else (b.eventMap.find? k).map r.merged := by
  rw [insertRequest, insertEvents_find? _ _ _ _ hb.numbered, hb.checkMerge_find? fresh]
  rfl

variable (hlt : r.startTime < r.endTime)
include hlt

theorem Consistent.mem_inserted_begin {z : Event} (hid : z.eventID = .setCurrentBegin) :
    z ∈ (b.insertRequest r).eventSet ↔ z = (b.newPair r).first ∨
      ∃ pair, b.eventMap.find? z.sequenceNumber = some pair ∧ z = (r.merged pair).first ∧
        (pair.first ∈ b.eventSet ∨ r.meets pair = .beginMoved) := by
  rw [insertRequest, hb.mem_insertEvents hlt, hb.mem_checkMerge_begin fresh hid,
    ← or_assoc, or_iff_left, or_comm]
  · rfl
  · rintro rfl
    simp [insertedPair, requestPair] at hid

theorem Consistent.mem_inserted_end {z : Event} (hid : z.eventID = .setCurrentEnd) :
    z ∈ (b.insertRequest r).eventSet ↔ z = (b.newPair r).second ∨
      ∃ pair, b.eventMap.find? z.sequenceNumber = some pair ∧ z = (r.merged pair).second := by
  rw [insertRequest, hb.mem_insertEvents hlt, hb.mem_checkMerge_end fresh hid,
    or_iff_right (a := z = (insertedPair b r.name _ _ _ _).first), or_comm]
  · rfl
  · rintro rfl
    simp [insertedPair, requestPair] at hid

theorem Consistent.mem_inserted_cancel {z : Event} (hid : z.eventID = .cancelSetCurrentEvent) :
    z ∈ (b.insertRequest r).eventSet ↔ z ∈ b.eventSet ∨
      ∃ pair, b.eventMap.find? z.sequenceNumber = some pair ∧ r.meets pair = .covered ∧
        z = cancelEvent r.name r.startTime pair ∧ ∀ y ∈ b.eventSet, y.key ≠ z.key := by
  rw [insertRequest, hb.mem_insertEvents hlt, hb.mem_checkMerge_cancel fresh hid, or_iff_left]
  · rfl
  · rintro (rfl | rfl) <;> simp [insertedPair, requestPair] at hid

end Fresh

section Resent

variable {pair : EventPair} (stored : b.eventMap.find? r.sequenceNumber = some pair)
include hb stored

theorem Consistent.reinserted_find? (k : ℕ) : (b.insertRequest r).eventMap.find? k =
    if k = r.sequenceNumber then some (b.newPair r) else b.eventMap.find? k := by
  rw [insertRequest, insertEvents_find? _ _ _ _ hb.numbered]
  simp only [Battery.checkMerge, stored, OrderedMap.find?_erase]
  split_ifs <;> rfl

theorem Consistent.mem_reinserted (hlt : r.startTime < r.endTime) {z : Event} :
    z ∈ (b.insertRequest r).eventSet ↔
      z ∈ b.eventSet ∧ z.key ≠ pair.first.key ∧ z.key ≠ pair.second.key ∨
        z = (b.newPair r).first ∨ z = (b.newPair r).second := by
  rw [insertRequest, hb.mem_insertEvents hlt]
  simp only [Battery.checkMerge, stored, OrderedSet.mem_erase, and_assoc]
  rfl

end Resent

end Inserted

section Accepted

variable {b : Battery} {r : Request} (hb : b.Consistent) (accepts : ¬ b.Refuses r)
  (hlt : r.startTime < r.endTime)

theorem Consistent.request {b : Battery} {r : Request} (hb : b.Consistent)
    (hlt : r.startTime < r.endTime) : (b.request r).Consistent := by
  by_cases refuses : b.Refuses r
  · rwa [request_of_refuses refuses]
  · rw [request_of_accepts refuses]
    exact hb.checkMergeAndInsertEvents hlt

section Fresh

variable (fresh : b.eventMap.find? r.sequenceNumber = none)
include hb accepts fresh

theorem Consistent.request_find? (k : ℕ) : (b.request r).eventMap.find? k =
    if k = r.sequenceNumber then some (b.newPair r)
    else (b.eventMap.find? k).map r.merged := by
  rw [request_eq_insertRequest accepts, hb.inserted_find? fresh]

include hlt

theorem Consistent.mem_request_begin {z : Event} (hid : z.eventID = .setCurrentBegin) :
    z ∈ (b.request r).eventSet ↔ z = (b.newPair r).first ∨
      ∃ pair, b.eventMap.find? z.sequenceNumber = some pair ∧ z = (r.merged pair).first ∧
        (pair.first ∈ b.eventSet ∨ r.meets pair = .beginMoved) := by
  rw [request_eq_insertRequest accepts, hb.mem_inserted_begin fresh hlt hid]

theorem Consistent.mem_request_end {z : Event} (hid : z.eventID = .setCurrentEnd) :
    z ∈ (b.request r).eventSet ↔ z = (b.newPair r).second ∨
      ∃ pair, b.eventMap.find? z.sequenceNumber = some pair ∧ z = (r.merged pair).second := by
  rw [request_eq_insertRequest accepts, hb.mem_inserted_end fresh hlt hid]

theorem Consistent.mem_request_cancel {z : Event} (hid : z.eventID = .cancelSetCurrentEvent) :
    z ∈ (b.request r).eventSet ↔ z ∈ b.eventSet ∨
      ∃ pair, b.eventMap.find? z.sequenceNumber = some pair ∧ r.meets pair = .covered ∧
        z = cancelEvent r.name r.startTime pair ∧ ∀ y ∈ b.eventSet, y.key ≠ z.key := by
  rw [request_eq_insertRequest accepts, hb.mem_inserted_cancel fresh hlt hid]

end Fresh

section Resent

variable {pair : EventPair} (stored : b.eventMap.find? r.sequenceNumber = some pair)
include hb accepts stored

theorem Consistent.resend_find? (k : ℕ) : (b.request r).eventMap.find? k =
    if k = r.sequenceNumber then some (b.newPair r) else b.eventMap.find? k := by
  rw [request_eq_insertRequest accepts, hb.reinserted_find? stored]

theorem Consistent.mem_resend (hlt : r.startTime < r.endTime) {z : Event} :
    z ∈ (b.request r).eventSet ↔
      z ∈ b.eventSet ∧ z.key ≠ pair.first.key ∧ z.key ≠ pair.second.key ∨
        z = (b.newPair r).first ∨ z = (b.newPair r).second := by
  rw [request_eq_insertRequest accepts, hb.mem_reinserted stored hlt]

end Resent

end Accepted

/-- Nothing scheduled and no current flowing; REFRESH events may be queued. -/
structure Idle (b : Battery) : Prop where
  currentMA : b.currentMA = 0
  eventMap : b.eventMap = ∅
  eventSet : ∀ z ∈ b.eventSet, z.eventID = .refresh

theorem Idle.consistent {b : Battery} (h : b.Idle) : b.Consistent where
  interval stored := by simp [h.eventMap] at stored
  second_mem stored := by simp [h.eventMap] at stored
  begin_stored hz hid := by simp [h.eventSet _ hz] at hid
  end_stored hz hid := by simp [h.eventSet _ hz] at hid

end Battery

/-- A battery with the global counter `SEQUENCE_NUMBER` and the clock, and the record of what
has happened: the requests accepted, the last one first, and the current last commanded. -/
structure Scheduler where
  battery : Battery
  sequenceNumber : ℕ
  clock : ℤ
  accepted : List Request
  commanded : ℤ

namespace Scheduler

/-- The request that `schedule_set_current(current_mA, startTime, endTime)` forwards. -/
def ownRequest (σ : Scheduler) (now : ℤ) (currentMA : ℚ) (startTime endTime : ℤ) : Request :=
  ⟨now, currentMA, startTime, endTime, σ.battery.batteryName, σ.sequenceNumber⟩

def receive (σ : Scheduler) (r : Request) (sequenceNumber : ℕ) : Scheduler where
  battery := σ.battery.request r
  sequenceNumber := sequenceNumber
  clock := r.now
  accepted := if σ.battery.Refuses r then σ.accepted else r :: σ.accepted
  commanded := σ.commanded

def wake (σ : Scheduler) (now : ℤ) (b : Battery) (sequenceNumber : ℕ) (commanded : Option ℤ) :
    Scheduler where
  battery := b
  sequenceNumber := sequenceNumber
  clock := now
  accepted := σ.accepted
  commanded := commanded.getD σ.commanded

/-- The runs whose requests all meet `allowed` in the state they arrive in. -/
inductive Run (driver : Driver) (allowed : Battery → Request → Prop) (start : Scheduler) :
    Scheduler → Prop where
  | refl : Run driver allowed start start
  | schedule {σ : Scheduler} (now : ℤ) (currentMA : ℚ) (startTime endTime : ℤ) :
      Run driver allowed start σ → σ.clock ≤ now → startTime < endTime →
      allowed σ.battery (σ.ownRequest now currentMA startTime endTime) →
      Run driver allowed start
        (σ.receive (σ.ownRequest now currentMA startTime endTime) (σ.sequenceNumber + 1))
  | request {σ : Scheduler} (r : Request) :
      Run driver allowed start σ → σ.clock ≤ r.now → r.startTime < r.endTime →
      allowed σ.battery r → Run driver allowed start (σ.receive r σ.sequenceNumber)
  | batch {σ : Scheduler} {fuel sequenceNumber : ℕ} {now : ℤ} {b : Battery}
      {commanded : Option ℤ} :
      Run driver allowed start σ → σ.clock ≤ now →
      σ.battery.runEventThread driver fuel σ.sequenceNumber now =
        .done b sequenceNumber commanded →
      Run driver allowed start (σ.wake now b sequenceNumber commanded)

section Run

variable {driver : Driver} {allowed : Battery → Request → Prop} {start σ : Scheduler}

theorem Run.invariant (P : Scheduler → Prop) (run : Run driver allowed start σ) (init : P start)
    (request : ∀ σ r n, σ.clock ≤ r.now → r.startTime < r.endTime → allowed σ.battery r → P σ →
      P (σ.receive r n))
    (batch : ∀ σ fuel n n' now b commanded, σ.clock ≤ now → P σ →
      σ.battery.runEventThread driver fuel n now = .done b n' commanded →
      P (σ.wake now b n' commanded)) :
    P σ := by
  induction run with
  | refl => exact init
  | schedule now currentMA startTime endTime _ hclock hlt hallowed ih =>
      exact request _ _ _ hclock hlt hallowed ih
  | request r _ hclock hlt hallowed ih => exact request _ _ _ hclock hlt hallowed ih
  | batch _ hclock hdone ih => exact batch _ _ _ _ _ _ _ hclock ih hdone

theorem Run.battery_invariant (P : Battery → ℤ → Prop) (run : Run driver allowed start σ)
    (init : P start.battery start.clock)
    (request : ∀ b r clock, clock ≤ r.now → r.startTime < r.endTime → allowed b r → P b clock →
      P (b.request r) r.now)
    (batch : ∀ b b' fuel n n' clock now commanded, clock ≤ now → P b clock →
      b.runEventThread driver fuel n now = .done b' n' commanded → P b' now) :
    P σ.battery σ.clock :=
  run.invariant (fun σ => P σ.battery σ.clock) init (fun σ r _ => request σ.battery r σ.clock)
    fun _ _ _ _ _ _ _ => batch _ _ _ _ _ _ _ _

theorem Run.trans {allowed' : Battery → Request → Prop} {τ : Scheduler}
    (h : Run driver allowed start σ) (h' : Run driver allowed' σ τ)
    (weaker : ∀ b r, allowed' b r → allowed b r) : Run driver allowed start τ := by
  induction h' with
  | refl => exact h
  | schedule now currentMA startTime endTime _ hclock hlt hallowed ih =>
      exact .schedule now currentMA startTime endTime ih hclock hlt (weaker _ _ hallowed)
  | request r _ hclock hlt hallowed ih => exact .request r ih hclock hlt (weaker _ _ hallowed)
  | batch _ hclock hdone ih => exact .batch ih hclock hdone

end Run

inductive Action
  | schedule (now : ℤ) (currentMA : ℚ) (startTime endTime : ℤ)
  | request (r : Request)
  | batch (now : ℤ)

section Exec

variable (driver : Driver) (allowed : Battery → Request → Prop) [∀ b r, Decidable (allowed b r)]
  (fuel : ℕ)

def step (σ : Scheduler) : Action → Option Scheduler
  | .schedule now currentMA startTime endTime =>
    let r := σ.ownRequest now currentMA startTime endTime
    if σ.clock ≤ now ∧ startTime < endTime ∧ allowed σ.battery r then
      some (σ.receive r (σ.sequenceNumber + 1))
    else none
  | .request r =>
    if σ.clock ≤ r.now ∧ r.startTime < r.endTime ∧ allowed σ.battery r then
      some (σ.receive r σ.sequenceNumber)
    else none
  | .batch now =>
    if σ.clock ≤ now then
      match σ.battery.runEventThread driver fuel σ.sequenceNumber now with
      | .done b sequenceNumber commanded => some (σ.wake now b sequenceNumber commanded)
      | .running | .outOfRange => none
    else none

def exec (σ : Scheduler) (actions : List Action) : Option Scheduler :=
  actions.foldlM (step driver allowed fuel) σ

variable {driver allowed fuel}

theorem run_of_step {start σ σ' : Scheduler} {a : Action} (run : Run driver allowed start σ)
    (h : step driver allowed fuel σ a = some σ') : Run driver allowed start σ' := by
  cases a with
  | schedule now currentMA startTime endTime =>
      simp only [step] at h
      split_ifs at h with hd
      cases h
      exact .schedule now currentMA startTime endTime run hd.1 hd.2.1 hd.2.2
  | request r =>
      simp only [step] at h
      split_ifs at h with hd
      cases h
      exact .request r run hd.1 hd.2.1 hd.2.2
  | batch now =>
      simp only [step] at h
      split_ifs at h with hd
      cases hdone : σ.battery.runEventThread driver fuel σ.sequenceNumber now with
      | running => simp [hdone] at h
      | outOfRange => simp [hdone] at h
      | done b n commanded =>
          simp only [hdone, Option.some_inj] at h
          subst h
          exact .batch run hd hdone

theorem run_of_exec {start σ σ' : Scheduler} {actions : List Action}
    (run : Run driver allowed start σ) (h : σ.exec driver allowed fuel actions = some σ') :
    Run driver allowed start σ' :=
  StepRun.exec_kept run (fun _ _ _ run hstep => run_of_step run hstep) h

theorem exists_run_of_exec {start : Scheduler} {actions : List Action} {p : Scheduler → Bool}
    (h : (start.exec driver allowed fuel actions).any p = true) :
    ∃ σ, Run driver allowed start σ ∧ p σ = true := by
  obtain ⟨σ, hexec, hp⟩ := (Option.any_eq_true p _).mp h
  exact ⟨σ, run_of_exec .refl hexec, hp⟩

end Exec

def initial (maxChargingCurrentMA maxDischargingCurrentMA : ℚ) : Scheduler where
  battery := { Battery.new "battery" 1000 .lazy with
    status := { BatteryStatus.zero with
      maxChargingCurrentMA := maxChargingCurrentMA
      maxDischargingCurrentMA := maxDischargingCurrentMA } }
  sequenceNumber := 1
  clock := 0
  accepted := []
  commanded := 0

theorem initial_idle (maxChargingCurrentMA maxDischargingCurrentMA : ℚ) :
    (initial maxChargingCurrentMA maxDischargingCurrentMA).battery.Idle :=
  ⟨rfl, rfl, fun z hz => absurd hz (OrderedSet.not_mem_empty z)⟩

end Scheduler

def Driver.still : Driver := ⟨fun _ status => status, fun _ status => status⟩

end BatteryOS.V3
