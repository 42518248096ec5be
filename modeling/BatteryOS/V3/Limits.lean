import BatteryOS.V3.Profile

/-! Limits. A request is checked against the limits on its own, while the device is
commanded with a sum. After merge-safe requests every stretch from the frontier of the
event thread on is scheduled within the limits, and what is commanded is the current
scheduled at one instant. -/

namespace BatteryOS.V3

def Driver.KeepsLimits (driver : Driver) : Prop :=
  (∀ now status, (driver.refresh now status).maxChargingCurrentMA = status.maxChargingCurrentMA ∧
    (driver.refresh now status).maxDischargingCurrentMA = status.maxDischargingCurrentMA) ∧
  ∀ currentMA status,
    (driver.setCurrent currentMA status).maxChargingCurrentMA = status.maxChargingCurrentMA ∧
    (driver.setCurrent currentMA status).maxDischargingCurrentMA = status.maxDischargingCurrentMA

theorem Driver.KeepsLimits.keeps {driver : Driver} (h : driver.KeepsLimits)
    (maxChargingCurrentMA maxDischargingCurrentMA : ℚ) :
    driver.Keeps fun status => status.maxChargingCurrentMA = maxChargingCurrentMA ∧
      status.maxDischargingCurrentMA = maxDischargingCurrentMA :=
  ⟨fun now status hs => ⟨(h.1 now status).1.trans hs.1, (h.1 now status).2.trans hs.2⟩,
    fun currentMA status hs =>
      ⟨(h.2 currentMA status).1.trans hs.1, (h.2 currentMA status).2.trans hs.2⟩⟩

theorem BatteryStatus.Allows.truncate {status : BatteryStatus} {n : ℤ} {currentMA : ℚ}
    (hn : status.Allows n) (hc : status.Allows currentMA) :
    status.Allows ((n + truncate (currentMA - n) : ℤ) : ℚ) := by
  unfold Allows at *
  push_cast
  rcases truncate_mem (currentMA - n) with ⟨_, low, high⟩ | ⟨_, low, high⟩
  · constructor <;> linarith [hn.1, hn.2, hc.1, hc.2]
  · constructor <;> linarith [hn.1, hn.2, hc.1, hc.2]

namespace Battery

/-- The event thread stands at `frontier`, and from there on every stretch is scheduled
within the limits. -/
structure Limited (b : Battery) (frontier : ℤ) : Prop where
  begun : ∀ k pair, b.eventMap.find? k = some pair → pair.first ∉ b.eventSet →
    pair.first.eventTime ≤ frontier
  pending : ∀ z ∈ b.eventSet, z.eventID ≠ .refresh → frontier ≤ z.eventTime
  within : ∀ p q, frontier ≤ p → p < q → b.status.Allows (b.flow p q)

theorem Idle.limited {b : Battery} (h : b.Idle) (zero : b.status.Allows 0) (frontier : ℤ) :
    b.Limited frontier where
  begun k pair stored := by simp [h.eventMap] at stored
  pending z hz hid := absurd (h.eventSet z hz) hid
  within p q _ _ := by
    rw [flow, h.eventMap, OrderedMap.sumBy_empty]
    exact_mod_cast zero

section Request

variable {b : Battery} {r : Request} {clock frontier : ℤ}

theorem request_status (b : Battery) (r : Request) : (b.request r).status = b.status := by
  unfold request scheduleSetCurrent
  split_ifs <;> rfl

theorem Limited.request_within (h : b.Limited frontier) (hs : b.Scheduled clock)
    (hclock : clock ≤ r.now) (hfrontier : frontier ≤ clock) (hlt : r.startTime < r.endTime)
    (accepts : ¬ b.Refuses r) (name : r.name = b.batteryName) (safe : b.MergeSafe r) {p q : ℤ}
    (hp : frontier ≤ p) (hpq : p < q) : b.status.Allows ((b.request r).flow p q) := by
  obtain ⟨hstart, allowed⟩ := startTime_of_accepts name accepts
  rw [hs.flow_request hlt accepts name safe hpq, Request.window]
  split_ifs
  · exact (h.within _ _ (by omega) (by omega)).truncate allowed
  · rw [add_zero]
    exact h.within p q hp hpq
  · rw [add_zero]
    exact h.within _ _ (by omega) (by omega)

theorem Limited.request (h : b.Limited frontier) (hs : b.Scheduled clock)
    (hclock : clock ≤ r.now) (hfrontier : frontier ≤ clock) (hlt : r.startTime < r.endTime)
    (name : r.name = b.batteryName) (safe : b.Refuses r ∨ b.MergeSafe r) :
    (b.request r).Limited frontier := by
  by_cases refuses : b.Refuses r
  · rwa [request_of_refuses refuses]
  have safe := safe.resolve_left refuses
  obtain ⟨hstart, -⟩ := startTime_of_accepts name refuses
  have hb := hs.consistent
  refine ⟨fun k pair' stored' begun => ?_, fun z hz hid => ?_, fun p q hp hpq => ?_⟩
  · rw [hb.request_find? refuses safe.fresh] at stored'
    split_ifs at stored' with hk
    · exact absurd (Option.some.inj stored' ▸ newPair_first_mem hb hlt refuses) begun
    · obtain ⟨pair, stored, rfl⟩ := Option.map_eq_some_iff.mp stored'
      rw [hs.accounted.merged_first_mem hb hlt refuses (hclock.trans hstart) safe.fresh stored]
        at begun
      have hle := h.begun k pair stored begun
      rwa [r.merged_first_eventTime_of_le (by omega)]
  · cases hid' : z.eventID with
    | refresh => exact absurd hid' hid
    | setCurrentBegin =>
        rcases (hb.mem_request_begin refuses hlt safe.fresh hid').mp hz with
          rfl | ⟨pair, stored, rfl, pending | moved⟩
        · exact (hfrontier.trans hclock).trans hstart
        · have := h.pending _ pending (by simp [(hb.interval stored).first_eventID])
          rw [r.merged_first_eventTime]
          split_ifs <;> omega
        · rw [r.merged_first_eventTime, if_pos moved]
          omega
    | setCurrentEnd =>
        rcases (hb.mem_request_end refuses hlt safe.fresh hid').mp hz with
          rfl | ⟨pair, stored, rfl⟩
        · exact ((hfrontier.trans hclock).trans hstart).trans hlt.le
        · have := h.pending _ (hb.second_mem stored) (by simp [(hb.interval stored).second_eventID])
          rw [r.merged_second_eventTime]
          split_ifs <;> omega
    | cancelSetCurrentEvent =>
        rcases (hb.mem_request_cancel refuses hlt safe.fresh hid').mp hz with
          hz | ⟨pair, -, -, rfl, -⟩
        · exact h.pending z hz hid
        · exact (hfrontier.trans hclock).trans hstart
  · rw [request_status]
    exact h.request_within hs hclock hfrontier hlt refuses name safe hp hpq

end Request

section Batch

variable {b b' : Battery} {clock frontier now : ℤ} {eventVector : List Event}
  {iter : Option Event}

section Advance

variable (h : b.Limited frontier) (hb : b.Consistent) (batch : Processed now b b' eventVector iter)
include h hb batch

theorem Limited.begun_processed {p : ℤ} (hp : frontier ≤ p)
    (taken : ∀ y ∈ eventVector, y.eventTime ≤ p) (k : ℕ) (pair : EventPair)
    (stored' : b'.eventMap.find? k = some pair) (out : pair.first ∉ b'.eventSet) :
    pair.first.eventTime ≤ p := by
  obtain ⟨stored, other, -⟩ := (batch.find? k pair).mp stored'
  have interval := hb.interval stored
  by_cases first : pair.first ∈ b.eventSet
  · refine taken _ (by_contra fun late => out ?_)
    rw [batch.mem_setCurrent _ (.inl interval.first_eventID), interval.first]
    exact ⟨first, other, late⟩
  · exact (h.begun k pair stored first).trans hp

theorem Limited.advance {p : ℤ} (hp : frontier ≤ p) (taken : ∀ y ∈ eventVector, y.eventTime ≤ p)
    (later : ∀ z ∈ b'.eventSet, z.eventID ≠ .refresh → p ≤ z.eventTime)
    (limits : b'.status.maxChargingCurrentMA = b.status.maxChargingCurrentMA ∧
      b'.status.maxDischargingCurrentMA = b.status.maxDischargingCurrentMA) : b'.Limited p := by
  refine ⟨h.begun_processed hb batch hp taken, later, fun q q' hq hqq' => ?_⟩
  rw [flow_processed hb batch hqq' fun y hy => (taken y hy).trans hq, BatteryStatus.Allows,
    limits.1, limits.2]
  exact h.within q q' (hp.trans hq) hqq'

end Advance

/-- Where the event thread stands after a batch: at the cancel it stopped at, if that was
due, else at the clock. -/
theorem Limited.processed (h : b.Limited frontier) (hb : b.Consistent)
    (hfrontier : frontier ≤ now) (batch : Processed now b b' eventVector iter)
    (limits : b'.status.maxChargingCurrentMA = b.status.maxChargingCurrentMA ∧
      b'.status.maxDischargingCurrentMA = b.status.maxDischargingCurrentMA) :
    ∃ frontier' ≤ now, b'.Limited frontier' ∧
      ((∃ y ∈ eventVector, y.eventID = .setCurrentBegin ∨ y.eventID = .setCurrentEnd) →
        ∃ p, frontier ≤ p ∧ b'.flow p (p + 1) = b.flow p (p + 1) ∧
          (∀ k pair, b'.eventMap.find? k = some pair → pair.first ∉ b'.eventSet →
            pair.first.eventTime ≤ p) ∧
          ∀ z ∈ b'.eventSet, z.eventID ≠ .refresh → p < z.eventTime) := by
  by_cases due : ∃ x, iter = some x ∧ x.eventTime ≤ now
  · obtain ⟨x, hx, hdue⟩ := due
    have xid : x.eventID = .cancelSetCurrentEvent :=
      (batch.stopped x hx).resolve_left (not_lt.mpr hdue)
    have early : ∀ y ∈ eventVector, y.eventTime ≤ x.eventTime - 1 := fun y hy =>
      Int.le_sub_one_of_lt (batch.lt_cancel hx xid hy)
    have hxf : frontier ≤ x.eventTime :=
      h.pending x (batch.iter_mem x hx (by simp [xid])) (by simp [xid])
    have later : ∀ z ∈ b'.eventSet, z.eventID ≠ .refresh → x.eventTime ≤ z.eventTime := by
      intro z hz hid
      obtain ⟨-, y, hy, hle⟩ := batch.later hz hid
      obtain rfl := Option.some.inj (hx.symm.trans hy)
      exact Event.eventTime_le_of_key_le hle
    have taken : ∀ y ∈ eventVector, y.eventTime ≤ x.eventTime := fun y hy =>
      (early y hy).trans (by omega)
    refine ⟨x.eventTime, hdue, h.advance hb batch hxf taken later limits, ?_⟩
    rintro ⟨y, hy, hid⟩
    have hyf := h.pending y (batch.member y hy (by rcases hid with h | h <;> simp [h]))
      (by rcases hid with h | h <;> simp [h])
    have before : frontier ≤ x.eventTime - 1 := hyf.trans (early y hy)
    exact ⟨x.eventTime - 1, before, flow_processed hb batch (by omega) early,
      h.begun_processed hb batch before early, fun z hz hid => Int.sub_one_lt_of_le (later z hz hid)⟩
  · push Not at due
    have later : ∀ z ∈ b'.eventSet, z.eventID ≠ .refresh → now < z.eventTime := by
      intro z hz hid
      obtain ⟨-, x, hx, hle⟩ := batch.later hz hid
      exact (due x hx).trans_le (Event.eventTime_le_of_key_le hle)
    refine ⟨now, le_rfl, h.advance hb batch hfrontier batch.due (fun z hz hid => (later z hz hid).le)
      limits, fun _ => ?_⟩
    exact ⟨now, hfrontier, flow_processed hb batch (by omega) batch.due,
      h.begun_processed hb batch hfrontier batch.due, later⟩

end Batch

structure WithinLimits (b : Battery) (status : BatteryStatus) (clock : ℤ) : Prop where
  scheduled : b.Scheduled clock
  limited : ∃ frontier ≤ clock, b.Limited frontier
  limits : b.status.maxChargingCurrentMA = status.maxChargingCurrentMA ∧
    b.status.maxDischargingCurrentMA = status.maxDischargingCurrentMA

theorem WithinLimits.runEventThread {driver : Driver} (keeps : driver.KeepsLimits)
    {b b' : Battery} {status : BatteryStatus} {clock now : ℤ}
    {fuel sequenceNumber sequenceNumber' : ℕ} {commanded : Option ℤ}
    (h : b.WithinLimits status clock) (hclock : clock ≤ now)
    (done : b.runEventThread driver fuel sequenceNumber now =
      .done b' sequenceNumber' commanded) :
    b'.WithinLimits status now ∧ ∀ v, commanded = some v → status.Allows v := by
  obtain ⟨frontier, hfrontier, limited⟩ := h.limited
  have hb := h.scheduled.consistent
  have scheduled := h.scheduled.runEventThread hclock done
  have limits := runEventThread_status (keeps.keeps _ _) done h.limits
  obtain ⟨eventVector, iter, batch, current, changing⟩ := hb.processed done
  obtain ⟨frontier', hle, limited', instant⟩ := limited.processed hb (hfrontier.trans hclock) batch
    ⟨limits.1.trans h.limits.1.symm, limits.2.trans h.limits.2.symm⟩
  refine ⟨⟨scheduled, ⟨frontier', hle, limited'⟩, limits⟩, ?_⟩
  rintro v rfl
  obtain ⟨p, hp, same, begun, later⟩ := instant (changing (by simp))
  have value : v = b.flow p (p + 1) := by
    rw [← same, ← begunSum_eq_flow scheduled.consistent scheduled.accounted begun
      fun z hz hid => later z hz (by rcases hid with h | h <;> simp [h]),
      ← scheduled.accounted.balance, current]
    rfl
  have within := limited.within p (p + 1) hp (by omega)
  rw [value]
  rwa [BatteryStatus.Allows, h.limits.1, h.limits.2] at within

end Battery

namespace Scheduler

variable {driver : Driver} {start σ : Scheduler}

/-- Merge-safe requests under the battery's own name, on a device that may be set to 0: every
value the event thread commands is within the limits. -/
theorem commanded_within_limits (keeps : driver.KeepsLimits) (idle : start.battery.Idle)
    (zero : start.battery.status.Allows 0)
    (run : Run driver
      (fun b r => r.name = b.batteryName ∧ (b.Refuses r ∨ b.MergeSafe r)) start σ)
    {fuel sequenceNumber : ℕ} {now : ℤ} (hclock : σ.clock ≤ now) {v : ℤ}
    (h : (σ.battery.runEventThread driver fuel sequenceNumber now).commanded = some v) :
    start.battery.status.Allows v := by
  have within := run.battery_invariant (fun b clock => b.WithinLimits start.battery.status clock)
    ⟨idle.scheduled _, ⟨start.clock, le_rfl, idle.limited zero _⟩, rfl, rfl⟩
    (fun b r _ hclock hlt safe h => by
      obtain ⟨frontier, hfrontier, limited⟩ := h.limited
      refine ⟨h.scheduled.request hlt hclock safe.1 safe.2, ⟨frontier, hfrontier.trans hclock,
        limited.request h.scheduled hclock hfrontier hlt safe.1 safe.2⟩, ?_⟩
      rw [Battery.request_status]
      exact h.limits)
    (fun b b' _ _ _ _ _ _ hclock h done => (h.runEventThread keeps hclock done).1)
  cases done : σ.battery.runEventThread driver fuel sequenceNumber now with
  | running | outOfRange => simp [done, Batch.commanded] at h
  | done b' n commanded =>
      rw [done] at h
      exact (within.runEventThread keeps hclock done).2 v h

theorem commanded_within_limits_nested : ∃ σ,
    Run .still (fun b r => r.name = b.batteryName ∧ (b.Refuses r ∨ b.MergeSafe r))
      (initial 200 200) σ ∧
      (σ.battery.runEventThread .still 10 1 20).commanded = some 200 ∧
      (initial 200 200).battery.status.Allows (200 : ℤ) := by
  have computed : ((initial 200 200).exec .still
      (fun b r => r.name = b.batteryName ∧ (b.Refuses r ∨ b.MergeSafe r)) 10
      [.schedule 0 100 10 40, .schedule 0 200 20 30, .batch 10]).any
      (fun σ => σ.clock ≤ 20 ∧
        (σ.battery.runEventThread .still 10 1 20).commanded = some 200) = true := by
    decide +kernel
  obtain ⟨σ, run, commanded⟩ := exists_run_of_exec computed
  obtain ⟨hclock, commanded⟩ := of_decide_eq_true commanded
  exact ⟨σ, run, commanded, commanded_within_limits ⟨fun _ _ => ⟨rfl, rfl⟩, fun _ _ => ⟨rfl, rfl⟩⟩
    (initial_idle 200 200) (by decide +kernel) run hclock commanded⟩

/-- Limits of 100 mA. `[10, 20)` at -100 mA is covered by `[5, 25)` at 100 mA, and `[12, 15)` at
100 mA takes it off all the same: 200 mA are commanded. -/
theorem cancelled_entry_subtracted : ∃ σ,
    Run .still (fun b r => r.name = b.batteryName ∧ ¬ b.Refuses r) (initial 100 100) σ ∧
      (initial 100 100).battery.Idle ∧ σ.clock ≤ 12 ∧
      (σ.battery.runEventThread .still 10 σ.sequenceNumber 12).commanded = some 200 ∧
      ¬ (initial 100 100).battery.status.Allows (200 : ℤ) := by
  have computed : ((initial 100 100).exec .still
      (fun b r => r.name = b.batteryName ∧ ¬ b.Refuses r) 10
      [.schedule 0 (-100) 10 20, .schedule 0 100 5 25, .schedule 0 100 12 15, .batch 5,
        .batch 5]).any
      (fun σ => σ.clock ≤ 12 ∧
        (σ.battery.runEventThread .still 10 σ.sequenceNumber 12).commanded = some 200) = true := by
    decide +kernel
  obtain ⟨σ, run, broken⟩ := exists_run_of_exec computed
  obtain ⟨hclock, commanded⟩ := of_decide_eq_true broken
  exact ⟨σ, run, initial_idle 100 100, hclock, commanded, by decide +kernel⟩

end Scheduler

end BatteryOS.V3
