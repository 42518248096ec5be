import BatteryOS.Library.LastWrite
import BatteryOS.V3.Event

/-! The schedule of a secure client: a current for every minute of the day. A request is an interval
of absolute time, of which only the local hour and minute of its two ends are used: the loop writes
from the one to the other, so that an interval that ends on the next day, or with the day, writes
nothing. The local time is a fixed offset from UTC, and times are far below 2^63, where the cast to
`time_t` changes nothing. The connections and `client_submit` are outside the model. -/

namespace BatteryOS.V3

structure Tm where
  tmHour : ℕ
  tmMin : ℕ

def localtime (offset : ℤ) (time : ℕ) : Tm :=
  let secondOfDay := ((time + offset) % 86400).toNat
  ⟨secondOfDay / 3600, secondOfDay % 3600 / 60⟩

/-- Conversion of a `double` that is not negative to `uint32_t`; from 2^32 on it is undefined in the
source. -/
def toUInt32 (x : ℚ) : UInt32 := UInt32.ofNat (truncate x).toNat

/-- The loop of `schedule_set_current` at minute `i`, with `count` more to go. -/
def fillSlots (value : UInt32) : (count i : ℕ) → Vector UInt32 1440 → Vector UInt32 1440
  | 0, _, schedule => schedule
  | count + 1, i, schedule => fillSlots value count (i + 1) (schedule.setIfInBounds i value)

structure SecureClientBattery where
  schedule : Vector UInt32 1440

structure Submission where
  data : Vector UInt32 1440
  dataLen : ℕ
  currentEnergy : ℕ
  maxV : ℕ
  maxE : ℕ

namespace SecureClientBattery

def new : SecureClientBattery := ⟨Vector.replicate 1440 0⟩

/-- `schedule_set_current` of seconds since the epoch. -/
def scheduleSetCurrent (offset : ℤ) (b : SecureClientBattery) (currentMA : ℚ)
    (startTime endTime : ℕ) : Bool × SecureClientBattery :=
  let startTm := localtime offset startTime
  let endTm := localtime offset endTime
  let startMin := startTm.tmHour * 60 + startTm.tmMin
  let endMin := endTm.tmHour * 60 + endTm.tmMin
  (false, { b with
    schedule := fillSlots (toUInt32 currentMA) (endMin - startMin) startMin b.schedule })

/-- `schedule_set_current` of time points, which count milliseconds. -/
def scheduleSetCurrentAt (offset : ℤ) (b : SecureClientBattery) (currentMA : ℚ)
    (startTime endTime : ℕ) : Bool × SecureClientBattery :=
  b.scheduleSetCurrent offset currentMA (startTime / 1000) (endTime / 1000)

def submitSchedule (b : SecureClientBattery) : Submission := ⟨b.schedule, 1440, 2000, 2000, 2000⟩

end SecureClientBattery

inductive TimeUnit
  | seconds
  | milliseconds
deriving DecidableEq, Repr

def TimeUnit.perSecond : TimeUnit → ℕ
  | .seconds => 1
  | .milliseconds => 1000

structure ScheduleCall where
  unit : TimeUnit
  currentMA : ℚ
  startTime : ℕ
  endTime : ℕ
  nonneg : 0 ≤ currentMA
  ordered : startTime ≤ endTime
  short : endTime < startTime + 86400 * unit.perSecond

namespace ScheduleCall

def run (offset : ℤ) (b : SecureClientBattery) (call : ScheduleCall) : SecureClientBattery :=
  match call.unit with
  | .seconds => (b.scheduleSetCurrent offset call.currentMA call.startTime call.endTime).2
  | .milliseconds => (b.scheduleSetCurrentAt offset call.currentMA call.startTime call.endTime).2

/-- A time rounded down to a minute, and to a day, of local time. -/
def minute (offset : ℤ) (call : ScheduleCall) (time : ℕ) : ℤ :=
  (time + offset * call.unit.perSecond) / (60 * call.unit.perSecond)

def day (offset : ℤ) (call : ScheduleCall) (time : ℕ) : ℤ :=
  (time + offset * call.unit.perSecond) / (86400 * call.unit.perSecond)

/-- The interval, rounded down to minutes, contains the minute of day. -/
def Covers (offset : ℤ) (call : ScheduleCall) (slot : Fin 1440) : Prop :=
  ∃ k : ℤ, call.minute offset call.startTime ≤ k ∧ k < call.minute offset call.endTime ∧
    k % 1440 = slot

/-- The interval ends on the local day on which it starts. -/
def SameDay (offset : ℤ) (call : ScheduleCall) : Prop :=
  call.day offset call.startTime = call.day offset call.endTime

/-- The current is a number of the schedule's own type. -/
def Whole (call : ScheduleCall) : Prop := call.currentMA.den = 1 ∧ call.currentMA < 2 ^ 32

variable {offset : ℤ} {call : ScheduleCall} {slot : Fin 1440}

theorem covers_iff : call.Covers offset slot ↔
    (slot - call.minute offset call.startTime) % 1440 <
      call.minute offset call.endTime - call.minute offset call.startTime := by
  constructor
  · rintro ⟨k, start, stop, hk⟩
    omega
  · intro h
    exact ⟨call.minute offset call.startTime +
      (slot - call.minute offset call.startTime) % 1440, by omega, by omega, by omega⟩

instance (offset : ℤ) (call : ScheduleCall) (slot : Fin 1440) :
    Decidable (call.Covers offset slot) :=
  decidable_of_iff _ covers_iff.symm

instance (offset : ℤ) (call : ScheduleCall) : Decidable (call.SameDay offset) :=
  inferInstanceAs (Decidable (_ = _))

instance (call : ScheduleCall) : Decidable call.Whole := inferInstanceAs (Decidable (_ ∧ _))

end ScheduleCall

theorem getElem_fillSlots (value : UInt32) (count i : ℕ) (schedule : Vector UInt32 1440) {j : ℕ}
    (hj : j < 1440) : (fillSlots value count i schedule)[j] =
      if i ≤ j ∧ j < i + count then value else schedule[j] := by
  induction count generalizing i schedule with
  | zero =>
      rw [fillSlots, if_neg (by omega)]
  | succ count ih =>
      rw [fillSlots, ih, Vector.getElem_setIfInBounds]
      by_cases here : i = j
      · rw [if_neg (by omega), if_pos here, if_pos (by omega)]
      · rw [if_neg here]
        exact if_congr (by omega) rfl rfl

theorem localtime_minute (offset : ℤ) (time : ℕ) :
    (((localtime offset time).tmHour * 60 + (localtime offset time).tmMin : ℕ) : ℤ) =
      (time + offset) / 60 % 1440 := by
  simp only [localtime]
  omega

theorem toUInt32_eq_iff {x : ℚ} (nonneg : 0 ≤ x) :
    ((toUInt32 x).toNat : ℚ) = x ↔ x.den = 1 ∧ x < 2 ^ 32 := by
  rw [toUInt32, UInt32.toNat_ofNat']
  constructor
  · intro same
    rw [← same]
    exact ⟨Rat.den_natCast _, by exact_mod_cast Nat.mod_lt _ (by decide)⟩
  · rintro ⟨whole, bound⟩
    have num : ((x.num : ℤ) : ℚ) = x := (Rat.den_eq_one_iff x).mp whole
    obtain ⟨n, hn⟩ := Int.eq_ofNat_of_zero_le (Rat.num_nonneg.mpr nonneg)
    obtain rfl : (n : ℚ) = x := by rw [← num, hn, Int.cast_natCast]
    have small : n < 2 ^ 32 := by exact_mod_cast bound
    rw [← Int.cast_natCast n, truncate, Truncation.truncate_intCast, Int.toNat_natCast, Nat.mod_eq_of_lt small]
    rfl

namespace ScheduleCall

variable {offset : ℤ} {call : ScheduleCall} {slot : Fin 1440}

theorem minute_bounds (offset : ℤ) (call : ScheduleCall) :
    call.minute offset call.startTime ≤ call.minute offset call.endTime ∧
      call.minute offset call.endTime ≤ call.minute offset call.startTime + 1440 := by
  obtain ⟨unit, currentMA, startTime, endTime, nonneg, ordered, short⟩ := call
  cases unit with
  | seconds =>
      simp only [minute, TimeUnit.perSecond, Nat.cast_one] at short ⊢
      omega
  | milliseconds =>
      simp only [minute, TimeUnit.perSecond, Nat.cast_ofNat] at short ⊢
      omega

theorem sameDay_iff : call.SameDay offset ↔
    call.minute offset call.startTime / 1440 = call.minute offset call.endTime / 1440 := by
  obtain ⟨unit, currentMA, startTime, endTime, nonneg, ordered, short⟩ := call
  cases unit with
  | seconds =>
      simp only [SameDay, day, minute, TimeUnit.perSecond, Nat.cast_one]
      omega
  | milliseconds =>
      simp only [SameDay, day, minute, TimeUnit.perSecond, Nat.cast_ofNat]
      omega

theorem run_schedule (offset : ℤ) (b : SecureClientBattery) (call : ScheduleCall) :
    ∃ startMin endMin : ℕ, (startMin : ℤ) = call.minute offset call.startTime % 1440 ∧
      (endMin : ℤ) = call.minute offset call.endTime % 1440 ∧
      (call.run offset b).schedule =
        fillSlots (toUInt32 call.currentMA) (endMin - startMin) startMin b.schedule := by
  obtain ⟨unit, currentMA, startTime, endTime, nonneg, ordered, short⟩ := call
  cases unit with
  | seconds =>
      refine ⟨_, _, ?_, ?_, rfl⟩
      all_goals
        rw [localtime_minute]
        simp only [minute, TimeUnit.perSecond, Nat.cast_one]
        omega
  | milliseconds =>
      refine ⟨_, _, ?_, ?_, rfl⟩
      all_goals
        rw [localtime_minute]
        simp only [minute, TimeUnit.perSecond, Nat.cast_ofNat]
        omega

theorem run_slot (offset : ℤ) (b : SecureClientBattery) (call : ScheduleCall) (slot : Fin 1440) :
    (call.run offset b).schedule.get slot =
      if call.SameDay offset ∧ call.Covers offset slot then toUInt32 call.currentMA
      else b.schedule.get slot := by
  obtain ⟨startMin, endMin, start, stop, written⟩ := run_schedule offset b call
  obtain ⟨ordered, short⟩ := minute_bounds offset call
  rw [Vector.get_eq_getElem, Vector.get_eq_getElem, written,
    getElem_fillSlots _ _ _ _ slot.isLt]
  refine if_congr ?_ rfl rfl
  rw [sameDay_iff, covers_iff]
  -- over midnight the loop would have to end before it starts
  omega

end ScheduleCall

namespace SecureClientBattery

def sent (b : SecureClientBattery) (slot : Fin 1440) : ℚ := (b.submitSchedule.data.get slot).toNat

variable {offset : ℤ} {b : SecureClientBattery} {call : ScheduleCall}

theorem sent_new (slot : Fin 1440) : new.sent slot = 0 := by
  simp [sent, submitSchedule, new, Vector.get_eq_getElem]

theorem sent_lt (b : SecureClientBattery) (slot : Fin 1440) : b.sent slot < 2 ^ 32 := by
  unfold sent
  exact_mod_cast UInt32.toNat_lt _

theorem sent_run (offset : ℤ) (b : SecureClientBattery) (call : ScheduleCall) (slot : Fin 1440) :
    (call.run offset b).sent slot =
      if call.SameDay offset ∧ call.Covers offset slot then ((toUInt32 call.currentMA).toNat : ℚ)
      else b.sent slot := by
  simp only [sent, submitSchedule, call.run_slot]
  split_ifs <;> rfl

/-- The call stays within a local day and asks for a current that the schedule can hold, or for the
current that its slots hold already. -/
def Fits (offset : ℤ) (b : SecureClientBattery) (call : ScheduleCall) : Prop :=
  call.SameDay offset ∧ call.Whole ∨ ∀ slot, call.Covers offset slot → b.sent slot = call.currentMA

instance (offset : ℤ) (b : SecureClientBattery) (call : ScheduleCall) :
    Decidable (b.Fits offset call) :=
  inferInstanceAs (Decidable (_ ∧ _ ∨ _))

theorem covered_iff : (∀ slot, call.Covers offset slot →
    (call.run offset b).sent slot = call.currentMA) ↔ b.Fits offset call := by
  simp only [sent_run]
  by_cases sameDay : call.SameDay offset
  · have converted : (∀ slot, call.Covers offset slot →
        (if call.SameDay offset ∧ call.Covers offset slot
          then ((toUInt32 call.currentMA).toNat : ℚ) else b.sent slot) = call.currentMA) ↔
        ∀ slot, call.Covers offset slot → call.Whole :=
      forall₂_congr fun slot covers => by
        rw [if_pos ⟨sameDay, covers⟩, toUInt32_eq_iff call.nonneg, ScheduleCall.Whole]
    rw [converted, Fits, and_iff_right sameDay]
    refine ⟨fun whole => ?_, fun fits slot covers => fits.elim id fun held => ?_⟩
    · by_cases fits : call.Whole
      · exact .inl fits
      · exact .inr fun slot covers => absurd (whole slot covers) fits
    · rw [ScheduleCall.Whole, ← held slot covers]
      exact ⟨Rat.den_natCast _, sent_lt b slot⟩
  · simp only [sameDay, false_and, if_false, Fits, false_or]

/-- What is sent for a minute of day is the current of the last call that covers it, and 0 where
none does. -/
abbrev Reflects (offset : ℤ) : List ScheduleCall × SecureClientBattery → Prop :=
  LastWrite.Reflects (ScheduleCall.Covers offset) ScheduleCall.currentMA 0 sent

abbrev step (offset : ℤ) : List ScheduleCall × SecureClientBattery → ScheduleCall →
    Option (List ScheduleCall × SecureClientBattery) :=
  LastWrite.step fun b call => call.run offset b

/-- What is sent is, at every point of exactly the runs of calls that fit, the current of the last
call that covers each minute of day. -/
theorem reflects_iff (offset : ℤ) (calls : List ScheduleCall) :
    StepRun.Always (step offset) (Reflects offset) ([], new) calls ↔
      StepRun.Along (step offset) (fun σ call => σ.2.Fits offset call) ([], new) calls := by
  have reached : StepRun.Along (step offset)
      (LastWrite.Reaches (ScheduleCall.Covers offset) ScheduleCall.currentMA sent
        fun b call => call.run offset b) ([], new) calls ↔
      StepRun.Along (step offset) (fun σ call => σ.2.Fits offset call) ([], new) calls :=
    StepRun.along_congr (I := fun _ => True) trivial (fun _ _ _ _ _ => trivial)
      fun σ call _ => covered_iff
  rw [← reached]
  exact LastWrite.always_iff_along (fun b call slot uncovered => by
    rw [sent_run, if_neg fun h => uncovered h.2]) sent_new calls

def lastHour : ScheduleCall := ⟨.seconds, 500, 82800, 86400, by decide, by decide, by decide⟩

/-- The hour ends with the day, and nothing is sent for it. -/
theorem not_reflects_lastHour :
    ¬ StepRun.Always (step 0) (Reflects 0) ([], new) [lastHour] := by
  intro always
  have reflects := always [lastHour] (List.prefix_refl _) _ rfl ⟨1380, by decide⟩
  revert reflects
  decide +kernel

end SecureClientBattery

end BatteryOS.V3
