import BatteryOS.V3.SafeRun

/-! Where the event thread gives its lock back. It does not when the next REFRESH is no later than
the last, when `eventMap.at` throws, or when the time of the next REFRESH is too large for an
`int64_t` of milliseconds. -/

namespace BatteryOS.V3

/-- The first of the times `t`, `t + s`, `t + 2 * s`, … that is later than `now`. -/
def firstAfter (s now t : ℤ) : ℤ := if t ≤ now then t + s * ((now - t) / s + 1) else t

section Times

variable {s now t : ℤ}

theorem firstAfter_of_lt (later : now < t) : firstAfter s now t = t := if_neg (not_le.mpr later)

theorem firstAfter_add (positive : 0 < s) (due : t ≤ now) :
    firstAfter s now (t + s) = firstAfter s now t := by
  have moved : now - t = now - (t + s) + s * 1 := by ring
  rw [firstAfter, firstAfter, if_pos due]
  split_ifs with still
  · rw [moved, Int.add_mul_ediv_left _ _ positive.ne']
    ring
  · rw [Int.ediv_eq_zero_of_lt (by omega) (by omega)]
    ring

theorem le_firstAfter (positive : 0 < s) : t ≤ firstAfter s now t := by
  unfold firstAfter
  split_ifs with due
  · have steps : 0 ≤ (now - t) / s := Int.ediv_nonneg (sub_nonneg.mpr due) positive.le
    exact le_add_of_nonneg_right (mul_nonneg positive.le (by omega))
  · exact le_rfl

end Times

namespace Battery

/-- The times that were added up for a REFRESH fit an `int64_t`. -/
def Fits (b : Battery) : Prop := ∀ z ∈ b.eventSet, z.eventID = .refresh → z.eventTime < 2 ^ 63

/-- So do the times up to the first REFRESH of each chain that is not due. -/
def SumsFit (b : Battery) (now : ℤ) : Prop :=
  b.refreshMode = .lazy ∨ b.maxStaleness ≤ 0 ∨
    ∀ z ∈ b.eventSet, z.eventID = .refresh → firstAfter b.maxStaleness now z.eventTime < 2 ^ 63

/-- Of some chain the first time later than the clock's is `t`. -/
def Chains (b : Battery) (now t : ℤ) : Prop :=
  ∃ z ∈ b.eventSet, z.eventID = .refresh ∧ firstAfter b.maxStaleness now z.eventTime = t

instance (b : Battery) : Decidable b.Fits :=
  inferInstanceAs (Decidable (∀ z ∈ b.eventSet, z.eventID = .refresh → z.eventTime < 2 ^ 63))

instance (b : Battery) (now : ℤ) : Decidable (b.SumsFit now) :=
  inferInstanceAs (Decidable (_ ∨ _ ∨ ∀ z ∈ b.eventSet, _))

end Battery

def LifeAction.SumsFit (σ : Battery × ℕ) : LifeAction → Prop
  | .setRefreshMode now refreshMode =>
    σ.1.refreshMode = refreshMode ∨ refreshMode = .lazy ∨ now + σ.1.maxStaleness < 2 ^ 63
  | .batch _ now => σ.1.SumsFit now
  | .schedule _ _ _ _ | .request _ | .insert _ | .refresh _ | .draw => True

instance (σ : Battery × ℕ) : DecidablePred (LifeAction.SumsFit σ)
  | .setRefreshMode _ _ => inferInstanceAs (Decidable (_ ∨ _ ∨ _))
  | .batch _ now => inferInstanceAs (Decidable (σ.1.SumsFit now))
  | .schedule _ _ _ _ | .request _ | .insert _ | .refresh _ | .draw => .isTrue trivial

/-- `wakeUp` where the `i`-th batch reads `reads i` past the end of the set. -/
def EventThread.wakeUpReading (driver : Driver) (now : ℤ) :
    ℕ → (ℕ → Event) → EventThread → WakeUp
  | 0, _, _ => .running
  | fuel + 1, reads, σ =>
    if σ.battery.Waits now then .waits σ
    else match σ.battery.runEventThreadReading driver (reads 0) fuel σ.sequenceNumber now with
      | .running => .running
      | .outOfRange => .outOfRange
      | .done b n commanded =>
        wakeUpReading driver now fuel (fun i => reads (i + 1))
          ⟨b, n, commanded.getD σ.lastCommanded⟩

section Batch

variable {driver : Driver} {b b' : Battery} {n n' fuel : ℕ} {now : ℤ} {commanded : Option ℤ}

theorem refreshAt_fits (driver : Driver) (n : ℕ) (sums : b.SumsFit now) (fits : b.Fits) {x : Event}
    (hx : x ∈ b.eventSet) (hid : x.eventID = .refresh) (due : x.eventTime ≤ now) :
    let next := (b.refreshAt driver now n x).1
    next.SumsFit now ∧ next.Fits := by
  unfold Battery.refreshAt
  split_ifs with active
  · rcases le_or_gt b.maxStaleness 0 with stale | positive
    · refine ⟨.inr (.inl stale), fun z hz zid => ?_⟩
      rcases OrderedSet.mem_insert.mp hz with hz | ⟨rfl, -⟩
      · exact fits z hz zid
      · exact (add_le_of_nonpos_right stale).trans_lt (fits x hx hid)
    · have sums := (sums.resolve_left (by simp [active])).resolve_left (not_le.mpr positive)
      have sum := (firstAfter_add positive due).trans_lt (sums x hx hid)
      refine ⟨.inr (.inr fun z hz zid => ?_), fun z hz zid => ?_⟩
      · rcases OrderedSet.mem_insert.mp hz with hz | ⟨rfl, -⟩
        · exact sums z hz zid
        · exact sum
      · rcases OrderedSet.mem_insert.mp hz with hz | ⟨rfl, -⟩
        · exact fits z hz zid
        · exact (le_firstAfter positive).trans_lt sum
  · exact ⟨sums, fits⟩

theorem scan_fits {r : Scan} (h : scan driver now fuel b n [] b.eventSet.begin = some r)
    (sums : b.SumsFit now) (fits : b.Fits) : r.battery.SumsFit now ∧ r.battery.Fits := by
  refine (scan_invariant (I := fun s => (∀ x, s.iter = some x → x ∈ s.battery.eventSet) ∧
    s.battery.SumsFit now ∧ s.battery.Fits) ?_ ?_ h
    ⟨fun x hx => (OrderedSet.begin_eq_some hx).1, sums, fits⟩).1.2
  · rintro c n eventVector x ⟨-, fits⟩ - - -
    exact ⟨fun y hy => (OrderedSet.next_eq_some hy).1, fits⟩
  · rintro c n eventVector x ⟨member, sums, fits⟩ due hid
    exact ⟨fun y hy => (OrderedSet.next_eq_some hy).1,
      refreshAt_fits driver n sums fits (member x rfl) hid due⟩

theorem runEventThread_fits (typed : b.Typed) (sums : b.SumsFit now) (fits : b.Fits)
    (done : b.runEventThread driver fuel n now = .done b' n' commanded) :
    b'.SumsFit now ∧ b'.Fits := by
  obtain ⟨s, hscan, -, -, mode, staleness, refreshes⟩ := runEventThread_refreshes typed done
  obtain ⟨sums', fits'⟩ := scan_fits hscan sums fits
  have same := (scan_walked hscan (walked_begin now b)).1
  have old : ∀ z ∈ b'.eventSet, z.eventID = .refresh → z ∈ s.battery.eventSet :=
    fun z hz zid => ((refreshes z zid).mp hz).1
  refine ⟨?_, fun z hz zid => fits' z (old z hz zid) zid⟩
  rw [Battery.SumsFit, mode, staleness, ← same.refreshMode, ← same.maxStaleness]
  exact sums'.imp_right (Or.imp_right fun sums z hz zid => sums z (old z hz zid) zid)

theorem runEventThread_chains (kept : Kept (b, n)) (active : b.refreshMode = .active)
    (positive : 0 < b.maxStaleness)
    (done : b.runEventThread driver fuel n now = .done b' n' commanded) {t : ℤ}
    (chains : b.Chains now t) : b'.Chains now t := by
  obtain ⟨z, hz, zid, first⟩ := chains
  obtain ⟨s, hscan, -, -, -, staleness, refreshes⟩ := runEventThread_refreshes kept.typed done
  obtain ⟨y, ⟨⟨hy, yid⟩, unmet⟩, first'⟩ := scan_unmet
    (P := fun y => firstAfter b.maxStaleness now y.eventTime = t)
    hscan active (walked_begin now b) kept.drawn
    (fun x _ due => (firstAfter_add positive due).trans)
    ⟨z, ⟨⟨hz, zid⟩, List.not_mem_nil⟩, first⟩
  exact ⟨y, (refreshes y yid).mpr ⟨hy, unmet⟩, yid, staleness ▸ first'⟩

end Batch

section Run

variable {driver : Driver} {b b' : Battery} {n n' : ℕ}

theorem Battery.Fits.of_refreshes (fits : b.Fits)
    (same : ∀ z, z.eventID = .refresh → (z ∈ b'.eventSet ↔ z ∈ b.eventSet)) : b'.Fits :=
  fun z hz zid => fits z ((same z zid).mp hz) zid

theorem Battery.Fits.insertRequest (fits : b.Fits) (typed : b.Typed) (r : Request) :
    (b.insertRequest r).Fits :=
  fits.of_refreshes fun _ zid => typed.mem_insertEvents _ _ _ _ _ zid

theorem Battery.Fits.request (fits : b.Fits) (typed : b.Typed) (r : Request) :
    (b.request r).Fits := by
  by_cases refuses : b.Refuses r
  · rwa [Battery.request_of_refuses refuses]
  · rw [Battery.request_eq_insertRequest refuses]
    exact fits.insertRequest typed r

theorem setRefreshMode_fits (driver : Driver) (n : ℕ) {now : ℤ} {refreshMode : RefreshMode}
    (sum : b.refreshMode = refreshMode ∨ refreshMode = .lazy ∨ now + b.maxStaleness < 2 ^ 63)
    (fits : b.Fits) : (b.setRefreshMode driver now n refreshMode).1.Fits := by
  unfold Battery.setRefreshMode
  split_ifs with same active
  · exact fits
  · intro z hz zid
    rcases OrderedSet.mem_insert.mp hz with hz | ⟨rfl, -⟩
    · exact fits z hz zid
    · exact (sum.resolve_left same).resolve_left (by simp [active])
  · exact fits

theorem LifeAction.step_fits {action : LifeAction} (typed : b.Typed) (fits : b.Fits)
    (sums : action.SumsFit (b, n)) (step : action.step driver (b, n) = some (b', n')) :
    b'.Fits := by
  cases action with
  | setRefreshMode now refreshMode =>
      have result : b.setRefreshMode driver now n refreshMode = (b', n') := Option.some.inj step
      have next := setRefreshMode_fits driver n sums fits
      rwa [result] at next
  | schedule now currentMA startTime endTime =>
      obtain ⟨rfl, -⟩ := Prod.mk_inj.mp (Option.some.inj step)
      exact fits.request typed _
  | request r =>
      obtain ⟨rfl, -⟩ := Prod.mk_inj.mp (Option.some.inj step)
      exact fits.request typed r
  | insert r =>
      obtain ⟨rfl, -⟩ := Prod.mk_inj.mp (Option.some.inj step)
      exact fits.insertRequest typed r
  | refresh status =>
      obtain ⟨rfl, -⟩ := Prod.mk_inj.mp (Option.some.inj step)
      exact fits
  | batch fuel now =>
      obtain ⟨commanded, done⟩ := batch_step step
      exact (runEventThread_fits typed sums fits done).2
  | draw =>
      obtain ⟨rfl, -⟩ := Prod.mk_inj.mp (Option.some.inj step)
      exact fits

end Run

namespace EventThread

variable {driver : Driver} {now : ℤ} {fuel : ℕ} {σ τ : EventThread}

theorem wakeUp_invariant {Q : Battery × ℕ → Prop}
    (keep : ∀ {b b' n n' fuel commanded}, Q (b, n) →
      b.runEventThread driver fuel n now = .done b' n' commanded → Q (b', n'))
    (start : Q (σ.battery, σ.sequenceNumber)) (waits : σ.wakeUp driver now fuel = .waits τ) :
    Q (τ.battery, τ.sequenceNumber) ∧ τ.battery.Waits now := by
  induction fuel generalizing σ with
  | zero => cases waits
  | succ fuel ih =>
      rw [wakeUp] at waits
      split_ifs at waits with settled
      · cases waits
        exact ⟨start, settled⟩
      cases batch : σ.battery.runEventThread driver fuel σ.sequenceNumber now with
      | running => simp [batch] at waits
      | outOfRange => simp [batch] at waits
      | done b n commanded =>
          rw [batch] at waits
          exact ih (keep start batch) waits

theorem fits_of_waits (typed : σ.battery.Typed) (sums : σ.battery.SumsFit now)
    (fits : σ.battery.Fits) (waits : σ.wakeUp driver now fuel = .waits τ) : τ.battery.Fits := by
  obtain ⟨⟨-, -, fits'⟩, -⟩ := wakeUp_invariant
    (Q := fun s => s.1.Typed ∧ s.1.SumsFit now ∧ s.1.Fits)
    (fun h batch => ⟨(runEventThread_refreshes h.1 batch).choose_spec.2.2.1,
      runEventThread_fits h.1 h.2.1 h.2.2 batch⟩) ⟨typed, sums, fits⟩ waits
  exact fits'

/-- Every chain of REFRESH is still there when the thread waits again, at its first time later than
the clock's. -/
theorem sumsFit_of_waits (cancels : Cancels (σ.battery, σ.sequenceNumber))
    (waits : σ.wakeUp driver now fuel = .waits τ) (fits : τ.battery.Fits) :
    σ.battery.SumsFit now := by
  cases mode : σ.battery.refreshMode with
  | lazy => exact .inl mode
  | active =>
      rcases le_or_gt σ.battery.maxStaleness 0 with stale | positive
      · exact .inr (.inl stale)
      refine .inr (.inr fun z hz zid => ?_)
      obtain ⟨⟨-, -, -, y, hy, yid, same⟩, settled⟩ := wakeUp_invariant
        (Q := fun s => Cancels s ∧ s.1.refreshMode = .active ∧ 0 < s.1.maxStaleness ∧
          s.1.Chains now (firstAfter σ.battery.maxStaleness now z.eventTime))
        (fun ⟨cancels, active, positive, chains⟩ batch => by
          obtain ⟨-, -, -, -, mode', staleness', -⟩ :=
            runEventThread_refreshes cancels.kept.typed batch
          exact ⟨cancels.batch batch, mode'.trans active, staleness' ▸ positive,
            runEventThread_chains cancels.kept active positive batch chains⟩)
        ⟨cancels, mode, positive, z, hz, zid, rfl⟩ waits
      rw [← same, firstAfter_of_lt (Battery.waits_iff.mp settled y hy)]
      exact fits y hy yid

theorem wakeUpReading_eq (h : Cancels (σ.battery, σ.sequenceNumber)) {reads : ℕ → Event}
    (other : ∀ i, (reads i).eventID ≠ .cancelSetCurrentEvent) :
    σ.wakeUpReading driver now fuel reads = σ.wakeUp driver now fuel ∧
      σ.wakeUp driver now fuel ≠ .outOfRange := by
  induction fuel generalizing σ reads with
  | zero => exact ⟨rfl, by simp [wakeUp]⟩
  | succ fuel ih =>
      rw [wakeUpReading, wakeUp]
      split_ifs with settled
      · exact ⟨rfl, by simp⟩
      have reading : σ.battery.ReadsNoCancel now (reads 0) := .inr (other 0)
      rw [runEventThreadReading_eq h.kept reading]
      cases batch : σ.battery.runEventThread driver fuel σ.sequenceNumber now with
      | running => exact ⟨rfl, by simp⟩
      | outOfRange =>
          exact absurd batch (h.order.cancelsStored.ne_outOfRange driver fuel σ.sequenceNumber now)
      | done b n commanded => exact ih (h.batch batch) fun i => other (i + 1)

end EventThread

section Releases

variable {driver : Driver} {start σ : Battery × ℕ} {steps : List (LifeAction × Event)}

theorem exec_fits (constructed : Constructed start) (fits : start.1.Fits)
    (safe : StepRun.Along (LifeAction.stepReading driver)
      (fun σ step => LifeAction.Safe σ step ∧ step.1.SumsFit σ) start steps)
    (run : StepRun.exec (LifeAction.stepReading driver) start steps = some σ) :
    Cancels σ ∧ σ.1.Fits ∧ σ.1.maxStaleness = start.1.maxStaleness := by
  refine StepRun.exec_invariant (Q := fun σ => Cancels σ ∧ σ.1.Fits ∧
    σ.1.maxStaleness = start.1.maxStaleness) ⟨constructed.cancels, fits, rfl⟩
    (fun s step s' h safe hstep => ?_) safe run
  obtain ⟨cancels, fits, staleness⟩ := h
  rcases step_of_stepReading cancels.kept safe.1.2 hstep with rfl | plain
  · exact ⟨cancels, fits, staleness⟩
  · exact ⟨LifeAction.step_cancels cancels safe.1.1 plain,
      LifeAction.step_fits cancels.kept.typed fits safe.2 plain,
      (LifeAction.step_maxStaleness cancels.kept.typed plain).trans staleness⟩

/-- After a run of cancel-safe requests a wake-up gives the lock back, with every time of a REFRESH
in range, exactly from a battery that is LAZY, or has a staleness above zero, or no REFRESH that is
due, and whose chains of REFRESH come past the clock's time in range. -/
theorem wakeUp_releases (driver : Driver) (construction : Construction) (batteryName : String)
    (message : Option (BitVec 64)) (refreshMode : RefreshMode) (created : ℤ) (n : ℕ)
    (fits : (construction.battery batteryName (parseStaleness message) refreshMode
      created n).1.Fits)
    (safe : StepRun.Along (LifeAction.stepReading driver)
      (fun σ step => LifeAction.Safe σ step ∧ step.1.SumsFit σ)
      (construction.battery batteryName (parseStaleness message) refreshMode created n) steps)
    (run : StepRun.exec (LifeAction.stepReading driver)
      (construction.battery batteryName (parseStaleness message) refreshMode created n) steps =
        some σ)
    (now lastCommanded : ℤ) (reads : ℕ → Event)
    (other : ∀ i, (reads i).eventID ≠ .cancelSetCurrentEvent) :
    (∃ fuel τ, EventThread.wakeUpReading driver now fuel reads ⟨σ.1, σ.2, lastCommanded⟩ =
        .waits τ ∧ τ.battery.Fits) ↔
      (σ.1.refreshMode = .lazy ∨ 0 < parseStaleness message ∨
        ∀ z ∈ σ.1.eventSet, z.eventID = .refresh → now < z.eventTime) ∧ σ.1.SumsFit now := by
  obtain ⟨cancels, fitting, staleness⟩ := exec_fits (.named ..) fits safe run
  rw [construction.battery_maxStaleness] at staleness
  have steady : σ.1.Steady now ↔ σ.1.refreshMode = .lazy ∨ 0 < parseStaleness message ∨
      ∀ z ∈ σ.1.eventSet, z.eventID = .refresh → now < z.eventTime := by
    simp only [Battery.Steady, Battery.Live, staleness, or_assoc]
  have plain (fuel : ℕ) :
      let thread : EventThread := ⟨σ.1, σ.2, lastCommanded⟩
      thread.wakeUpReading driver now fuel reads = thread.wakeUp driver now fuel ∧
        thread.wakeUp driver now fuel ≠ .outOfRange :=
    EventThread.wakeUpReading_eq cancels other
  simp only [fun fuel => (plain fuel).1, ← steady]
  constructor
  · rintro ⟨fuel, τ, waits, fits⟩
    refine ⟨?_, EventThread.sumsFit_of_waits (σ := ⟨σ.1, σ.2, lastCommanded⟩) cancels waits fits⟩
    by_contra unsteady
    exact EventThread.wakeUp_ne_waits cancels.kept unsteady fuel τ waits
  · rintro ⟨h, sums⟩
    obtain ⟨fuel, ended⟩ := EventThread.exists_wakeUp (σ := ⟨σ.1, σ.2, lastCommanded⟩) driver
      cancels.kept.typed h
    cases outcome : EventThread.wakeUp driver now fuel ⟨σ.1, σ.2, lastCommanded⟩ with
    | running => exact absurd outcome ended
    | outOfRange => exact absurd outcome (plain fuel).2
    | waits τ =>
        exact ⟨fuel, τ, outcome,
          EventThread.fits_of_waits cancels.kept.typed sums fitting outcome⟩

/-- An aggregate that was not told a staleness, woken up when four of its refreshes are due. -/
theorem wakeUp_releases_aggregate :
    ∃ σ, StepRun.exec (LifeAction.stepReading .still)
        (Construction.aggregate.battery "g" (parseStaleness none) .active 0 1)
        [(.schedule 0 0 10 20, strayCancel), (.batch 9 1500, strayCancel)] = some σ ∧
      ∃ fuel τ, EventThread.wakeUpReading .still 5000 fuel
        (fun _ => { strayCancel with eventID := .setCurrentEnd }) ⟨σ.1, σ.2, 0⟩ = .waits τ ∧
          τ.battery.Fits := by
  obtain ⟨σ, run, sums⟩ := exists_of_exec (p := fun σ => σ.1.SumsFit 5000) (show
    ((StepRun.exec (LifeAction.stepReading .still)
      (Construction.aggregate.battery "g" (parseStaleness none) .active 0 1)
      [(.schedule 0 0 10 20, strayCancel), (.batch 9 1500, strayCancel)]).any
        fun σ => σ.1.SumsFit 5000) = true by decide +kernel)
  exact ⟨σ, run, (wakeUp_releases .still .aggregate "g" none .active 0 1 (by decide +kernel)
    (by decide +kernel) run 5000 0 _ (fun _ => by simp)).mpr ⟨.inr (.inl (by decide)), sums⟩⟩

end Releases

end BatteryOS.V3
