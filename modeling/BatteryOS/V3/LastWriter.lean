import BatteryOS.V3.Progress

/-! The purpose of the scheduler: at every instant the battery carries the current of the
request accepted last among those whose interval contains the instant. Merge-safe
requests keep the scheduled current equal to that, and the event thread follows it. -/

namespace BatteryOS.V3

/-- The current of the first request in the list whose interval contains `t`. -/
def latest (requests : List Request) (t : ℤ) : ℚ :=
  ((requests.find? fun r => r.startTime ≤ t ∧ t < r.endTime).map Request.currentMA).getD 0

@[simp] theorem latest_nil (t : ℤ) : latest [] t = 0 := rfl

theorem latest_cons (r : Request) (requests : List Request) (t : ℤ) :
    latest (r :: requests) t =
      if r.startTime ≤ t ∧ t < r.endTime then r.currentMA else latest requests t := by
  unfold latest
  rw [List.find?_cons]
  by_cases h : r.startTime ≤ t ∧ t < r.endTime <;> simp [h]

def Battery.OwnInteger (b : Battery) (r : Request) : Prop :=
  r.name = b.batteryName ∧ r.currentMA.den = 1

instance (b : Battery) (r : Request) : Decidable (b.OwnInteger r) :=
  inferInstanceAs (Decidable (_ ∧ _))

namespace Battery

variable {b : Battery} {r : Request} {clock : ℤ}

theorem Scheduled.flow_instant (h : b.Scheduled clock) (hlt : r.startTime < r.endTime)
    (accepts : ¬ b.Refuses r) (own : b.OwnInteger r) (safe : b.MergeSafe r) (t : ℤ) :
    ((b.request r).flow t (t + 1) : ℚ) =
      if r.startTime ≤ t ∧ t < r.endTime then r.currentMA else (b.flow t (t + 1) : ℚ) := by
  have whole : ((r.currentMA.num : ℤ) : ℚ) = r.currentMA := (Rat.den_eq_one_iff _).mp own.2
  rw [h.flow_request hlt accepts own.1 safe (by omega), Request.window]
  by_cases inside : r.startTime ≤ t ∧ t < r.endTime
  · have inside' : r.startTime ≤ t ∧ t + 1 ≤ r.endTime := inside
    simp only [if_pos inside', if_pos inside]
    rw [← whole, ← Int.cast_sub, truncate, Truncation.truncate_intCast]
    push_cast
    ring
  · have outside : ¬ (r.startTime ≤ t ∧ t + 1 ≤ r.endTime) := inside
    have beside : t + 1 ≤ r.startTime ∨ r.endTime ≤ t := by omega
    simp only [if_neg outside, if_pos beside, if_neg inside, add_zero]

end Battery

namespace Scheduler

structure Idle (σ : Scheduler) : Prop where
  battery : σ.battery.Idle
  accepted : σ.accepted = []
  commanded : σ.commanded = 0

/-- From the clock on, what is scheduled is what was asked for last. -/
structure Follows (σ : Scheduler) : Prop where
  scheduled : σ.battery.Scheduled σ.clock
  profile : ∀ t, σ.clock ≤ t → (σ.battery.flow t (t + 1) : ℚ) = latest σ.accepted t
  commanded : σ.commanded = σ.battery.currentMA

variable {driver : Driver} {start σ : Scheduler}

theorem Idle.follows (h : start.Idle) : start.Follows where
  scheduled := h.battery.scheduled _
  profile t _ := by
    rw [Battery.flow, h.battery.eventMap, OrderedMap.sumBy_empty, h.accepted, latest_nil,
      Int.cast_zero]
  commanded := h.commanded.trans h.battery.currentMA.symm

theorem Follows.receive (h : σ.Follows) {r : Request} (n : ℕ) (hclock : σ.clock ≤ r.now)
    (hlt : r.startTime < r.endTime) (own : σ.battery.OwnInteger r)
    (safe : σ.battery.Refuses r ∨ σ.battery.MergeSafe r) : (σ.receive r n).Follows where
  scheduled := h.scheduled.request hlt hclock own.1 safe
  profile t ht := by
    have ht : r.now ≤ t := ht
    simp only [Scheduler.receive]
    by_cases refuses : σ.battery.Refuses r
    · rw [if_pos refuses, Battery.request_of_refuses refuses, h.profile t (hclock.trans ht)]
    · rw [if_neg refuses, latest_cons,
        h.scheduled.flow_instant hlt refuses own (safe.resolve_left refuses),
        h.profile t (hclock.trans ht)]
  commanded := h.commanded.trans (Battery.request_currentMA _ _).symm

theorem Follows.wake (h : σ.Follows) {fuel n n' : ℕ} {now : ℤ} {b : Battery}
    {commanded : Option ℤ} (hclock : σ.clock ≤ now)
    (done : σ.battery.runEventThread driver fuel n now = .done b n' commanded) :
    (σ.wake now b n' commanded).Follows := by
  obtain ⟨eventVector, iter, batch, current, -⟩ := h.scheduled.consistent.processed done
  refine ⟨h.scheduled.runEventThread hclock done, fun t ht => ?_, ?_⟩
  · have ht : now ≤ t := ht
    exact (congrArg _ (Battery.flow_processed h.scheduled.consistent batch (by omega)
      fun y hy => (batch.due y hy).trans ht)).trans (h.profile t (hclock.trans ht))
  · simp only [Scheduler.wake, current, h.commanded]

theorem Follows.commanded_eq (h : σ.Follows) (settled : σ.Settled) :
    (σ.commanded : ℚ) = latest σ.accepted σ.clock := by
  have sum := Battery.begunSum_eq_flow h.scheduled.consistent h.scheduled.accounted
    h.scheduled.accounted.begun_le
    fun z hz hid => settled z hz (by rcases hid with h | h <;> simp [h])
  rw [h.commanded, h.scheduled.accounted.balance, sum, h.profile _ le_rfl]

/-- Last writer wins over runs of merge-safe requests in whole milliamperes. At every clock the
event thread has caught up with, the current commanded is that of the request accepted last
among those that contain the clock; and a live event thread does catch up with any clock. -/
theorem commanded_eq_latest (idle : start.Idle)
    (run : Run driver (fun b r => b.OwnInteger r ∧ (b.Refuses r ∨ b.MergeSafe r)) start σ) :
    (σ.Settled → (σ.commanded : ℚ) = latest σ.accepted σ.clock) ∧
    (σ.battery.Live → ∀ t, σ.clock ≤ t → ∃ τ, Run driver (fun _ _ => False) σ τ ∧
      τ.clock = t ∧ τ.Settled ∧ (τ.commanded : ℚ) = latest σ.accepted t) := by
  have follows : σ.Follows := run.invariant Follows idle.follows
    (fun σ r n hclock hlt safe h => h.receive n hclock hlt safe.1 safe.2)
    (fun σ _ _ _ _ _ _ hclock h done => h.wake hclock done)
  refine ⟨follows.commanded_eq, fun live t ht => ?_⟩
  obtain ⟨τ, more, clock, settled⟩ := exists_settled driver follows.scheduled live ht
  have after : τ.Follows ∧ τ.accepted = σ.accepted := more.invariant
    (fun τ => τ.Follows ∧ τ.accepted = σ.accepted) ⟨follows, rfl⟩
    (fun _ _ _ _ _ no => absurd no id)
    (fun ρ _ _ _ _ _ _ hclock h done => ⟨h.1.wake hclock done, h.2⟩)
  exact ⟨τ, more, clock, settled, by rw [after.1.commanded_eq settled, after.2, clock]⟩

theorem initial_scheduler_idle (maxChargingCurrentMA maxDischargingCurrentMA : ℚ) :
    (initial maxChargingCurrentMA maxDischargingCurrentMA).Idle :=
  ⟨initial_idle _ _, rfl, rfl⟩

theorem commanded_eq_latest_nested : ∃ σ,
    Run .still (fun b r => b.OwnInteger r ∧ (b.Refuses r ∨ b.MergeSafe r)) (initial 1000 1000) σ ∧
      σ.clock = 25 ∧ σ.Settled ∧ (σ.commanded : ℚ) = 300 := by
  have computed : ((initial 1000 1000).exec .still
      (fun b r => b.OwnInteger r ∧ (b.Refuses r ∨ b.MergeSafe r)) 10
      [.schedule 0 100 10 40, .schedule 0 300 20 30, .batch 10, .batch 25]).any
      (fun σ => σ.clock = 25 ∧ σ.Settled ∧ latest σ.accepted σ.clock = 300) = true := by
    decide +kernel
  obtain ⟨σ, run, test⟩ := exists_run_of_exec computed
  obtain ⟨clock, settled, value⟩ := of_decide_eq_true test
  exact ⟨σ, run, clock, settled,
    ((commanded_eq_latest (initial_scheduler_idle 1000 1000) run).1 settled).trans value⟩

/-- `[1000, 2000)` at 200 mA, then `[5000, 6000)` at 300 mA: the second request moves the END of
the first to its own start, and 200 mA flow at 3000, which no request contains. -/
theorem disjoint_request_extends : ∃ σ,
    Run .still (fun b r => b.OwnInteger r ∧ ¬ b.Refuses r) (initial 1000 1000) σ ∧
      (initial 1000 1000).Idle ∧ σ.clock = 3000 ∧ σ.Settled ∧ σ.accepted.length = 2 ∧
      latest σ.accepted 3000 = 0 ∧ σ.commanded = 200 := by
  have computed : ((initial 1000 1000).exec .still
      (fun b r => b.OwnInteger r ∧ ¬ b.Refuses r) 10
      [.schedule 0 200 1000 2000, .schedule 0 300 5000 6000, .batch 1000, .batch 2000,
        .batch 3000]).any
      (fun σ => σ.clock = 3000 ∧ σ.Settled ∧ σ.accepted.length = 2 ∧
        latest σ.accepted 3000 = 0 ∧ σ.commanded = 200) = true := by
    decide +kernel
  obtain ⟨σ, run, test⟩ := exists_run_of_exec computed
  exact ⟨σ, run, initial_scheduler_idle 1000 1000, of_decide_eq_true test⟩

end Scheduler

end BatteryOS.V3
