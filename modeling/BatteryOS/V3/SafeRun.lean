import BatteryOS.V3.Cancellation
import BatteryOS.V3.ScanEnd

/-! Runs in which no batch throws. After its loop a batch reads `iter->eventID` also past the end of
the set, where anything may stand; what it reads there is an argument. A cancel that is read so is
looked up like any other, and `eventMap.at` throws. -/

namespace BatteryOS.V3

/-- `runEventThread` where `past` is read past the end of the set. -/
def Battery.runEventThreadReading (driver : Driver) (past : Event) (fuel sequenceNumber : ℕ)
    (now : ℤ) (b : Battery) : Batch :=
  match scan driver now fuel b sequenceNumber [] b.eventSet.begin with
  | none => .running
  | some s =>
    match s.battery.cancel (some (s.iter.getD past)) with
    | none => .outOfRange
    | some c =>
      let next := c.applyEvents driver s.eventVector
      .done next.1 s.sequenceNumber next.2

/-- A step, with what a batch reads past the end. The thread waits while the set is empty. -/
def LifeAction.stepReading (driver : Driver) :
    Battery × ℕ → LifeAction × Event → Option (Battery × ℕ)
  | (b, n), (.batch fuel now, past) =>
    if b.eventSet.elems = [] then some (b, n)
    else match b.runEventThreadReading driver past fuel n now with
      | .done b n _ => some (b, n)
      | .running | .outOfRange => none
  | σ, (action, _) => action.step driver σ

/-- A batch at this time takes nothing past the end for a cancel. -/
def Battery.ReadsNoCancel (b : Battery) (now : ℤ) (past : Event) : Prop :=
  b.Remains now ∨ past.eventID ≠ .cancelSetCurrentEvent

instance (b : Battery) (now : ℤ) (past : Event) : Decidable (b.ReadsNoCancel now past) :=
  inferInstanceAs (Decidable (_ ∨ _))

def LifeAction.CancelSafe (σ : Battery × ℕ) : LifeAction → Prop
  | .schedule now currentMA startTime endTime =>
    let r : Request := ⟨now, currentMA, startTime, endTime, σ.1.batteryName, σ.2⟩
    startTime < endTime ∧ (σ.1.Refuses r ∨ σ.1.CancelSafe r)
  | .request r => r.startTime < r.endTime ∧ (σ.1.Refuses r ∨ σ.1.CancelSafe r)
  | .insert r => r.startTime < r.endTime ∧ σ.1.CancelSafe r
  | .setRefreshMode _ _ | .refresh _ | .batch _ _ | .draw => True

instance (σ : Battery × ℕ) : DecidablePred (LifeAction.CancelSafe σ)
  | .schedule _ _ _ _ | .request _ | .insert _ => inferInstanceAs (Decidable (_ ∧ _))
  | .setRefreshMode _ _ | .refresh _ | .batch _ _ | .draw => .isTrue trivial

def LifeAction.Safe (σ : Battery × ℕ) (step : LifeAction × Event) : Prop :=
  step.1.CancelSafe σ ∧ step.1.AtWakeUp (fun b _ now => b.ReadsNoCancel now step.2) σ

instance (σ : Battery × ℕ) (step : LifeAction × Event) : Decidable (LifeAction.Safe σ step) :=
  inferInstanceAs (Decidable (_ ∧ _))

section Safe

variable {driver : Driver} {b b' : Battery} {n n' fuel : ℕ} {now : ℤ} {past : Event}

theorem runEventThreadReading_eq (kept : Kept (b, n)) (reads : b.ReadsNoCancel now past) :
    b.runEventThreadReading driver past fuel n now = b.runEventThread driver fuel n now := by
  rw [Battery.runEventThreadReading, Battery.runEventThread]
  cases hscan : scan driver now fuel b n [] b.eventSet.begin with
  | none => rfl
  | some s =>
      have same : s.battery.cancel (some (s.iter.getD past)) = s.battery.cancel s.iter := by
        cases hiter : s.iter with
        | some x => rfl
        | none =>
            rcases reads with remains | other
            · obtain ⟨x, -, hx⟩ := stopsOnElement_of_remains kept remains fuel s hscan
              rw [hiter] at hx
              cases hx
            · exact if_neg other
      cases hcancel : s.battery.cancel s.iter with
      | none => simp only [same, hcancel]
      | some c => simp only [same, hcancel]

theorem step_of_stepReading {σ σ' : Battery × ℕ} {action : LifeAction} (kept : Kept σ)
    (reads : action.AtWakeUp (fun b _ now => b.ReadsNoCancel now past) σ)
    (step : LifeAction.stepReading driver σ (action, past) = some σ') :
    σ' = σ ∨ action.step driver σ = some σ' := by
  cases action with
  | batch fuel now =>
      rw [LifeAction.stepReading] at step
      split_ifs at step with empty
      · exact .inl (Option.some.inj step).symm
      · rw [runEventThreadReading_eq kept (reads empty)] at step
        exact .inr step
  | setRefreshMode now refreshMode => exact .inr step
  | schedule now currentMA startTime endTime => exact .inr step
  | request r => exact .inr step
  | insert r => exact .inr step
  | refresh status => exact .inr step
  | draw => exact .inr step

structure Cancels (σ : Battery × ℕ) : Prop where
  kept : Kept σ
  consistent : σ.1.Consistent
  order : σ.1.CancelOrder

theorem Constructed.cancels {start : Battery × ℕ} (h : Constructed start) : Cancels start := by
  have idle : start.1.Idle := by
    cases h with
    | named construction batteryName maxStaleness refreshMode now n => exact construction.idle ..
    | manager batteryName status now n => exact ⟨rfl, rfl, fun _ hz => mem_singleton_refresh rfl hz⟩
  exact ⟨h.kept, idle.consistent, idle.cancelOrder⟩

theorem Cancels.batch {commanded : Option ℤ} (h : Cancels (b, n))
    (done : b.runEventThread driver fuel n now = .done b' n' commanded) : Cancels (b', n') := by
  obtain ⟨_, _, processed, -⟩ := h.consistent.processed done
  obtain ⟨typed, drawn, -⟩ := runEventThread_chain h.kept.typed h.kept.drawn done
  exact ⟨⟨typed, drawn⟩, h.consistent.runEventThread done, h.order.processed h.consistent processed⟩

theorem Cancels.ne_outOfRange (h : Cancels (b, n)) (reads : b.ReadsNoCancel now past) :
    b.runEventThreadReading driver past fuel n now ≠ .outOfRange := by
  rw [runEventThreadReading_eq h.kept reads]
  exact h.order.cancelsStored.ne_outOfRange driver fuel n now

theorem LifeAction.CancelSafe.proper {σ : Battery × ℕ} {action : LifeAction}
    (safe : action.CancelSafe σ) : action.Proper := by
  cases action with
  | schedule now currentMA startTime endTime => exact safe.1
  | request r => exact safe.1
  | insert r => exact safe.1
  | setRefreshMode now refreshMode => trivial
  | refresh status => trivial
  | batch fuel now => trivial
  | draw => trivial

theorem LifeAction.step_cancels {action : LifeAction} (h : Cancels (b, n))
    (safe : action.CancelSafe (b, n)) (step : action.step driver (b, n) = some (b', n')) :
    Cancels (b', n') := by
  refine ⟨(LifeAction.step_chain h.kept step).1,
    LifeAction.consistent_step h.consistent safe.proper step, ?_⟩
  cases action with
  | setRefreshMode now refreshMode =>
      have result : b.setRefreshMode driver now n refreshMode = (b', n') := Option.some.inj step
      obtain ⟨map, events⟩ := setRefreshMode_events driver b n now refreshMode
      rw [result] at map events
      exact h.order.congr map fun z hid => events z (by simp [hid])
  | schedule now currentMA startTime endTime =>
      obtain ⟨rfl, -⟩ := Prod.mk_inj.mp (Option.some.inj step)
      exact h.order.request h.consistent safe.1 safe.2
  | request r =>
      obtain ⟨rfl, -⟩ := Prod.mk_inj.mp (Option.some.inj step)
      exact h.order.request h.consistent safe.1 safe.2
  | insert r =>
      obtain ⟨rfl, -⟩ := Prod.mk_inj.mp (Option.some.inj step)
      exact h.order.insert h.consistent safe.1 safe.2
  | refresh status =>
      obtain ⟨rfl, -⟩ := Prod.mk_inj.mp (Option.some.inj step)
      exact ⟨h.order.stored, h.order.unique⟩
  | batch fuel now =>
      obtain ⟨commanded, done⟩ := batch_step step
      exact (h.batch done).order
  | draw =>
      obtain ⟨rfl, -⟩ := Prod.mk_inj.mp (Option.some.inj step)
      exact h.order

variable {start σ : Battery × ℕ} {steps : List (LifeAction × Event)}

theorem exec_cancels (constructed : Constructed start)
    (safe : StepRun.Along (LifeAction.stepReading driver) LifeAction.Safe start steps)
    (run : StepRun.exec (LifeAction.stepReading driver) start steps = some σ) : Cancels σ := by
  refine StepRun.exec_invariant (Q := Cancels) constructed.cancels
    (fun s step s' h safe hstep => ?_) safe run
  rcases step_of_stepReading h.kept safe.2 hstep with rfl | plain
  · exact h
  · exact LifeAction.step_cancels h safe.1 plain

/-- Safe runs: every cancel names a stored entry, so `eventMap.at` does not throw, whenever the
event thread wakes next. -/
theorem cancels_stored_of_safe_run (constructed : Constructed start)
    (safe : StepRun.Along (LifeAction.stepReading driver) LifeAction.Safe start steps)
    (run : StepRun.exec (LifeAction.stepReading driver) start steps = some σ) :
    σ.1.CancelsStored ∧ ∀ past fuel now, σ.1.ReadsNoCancel now past →
      σ.1.runEventThreadReading driver past fuel σ.2 now ≠ .outOfRange := by
  have cancels := exec_cancels constructed safe run
  exact ⟨cancels.order.cancelsStored, fun _ _ _ => cancels.ne_outOfRange⟩

theorem exists_of_exec {p : Battery × ℕ → Prop} [DecidablePred p]
    (h : (StepRun.exec (LifeAction.stepReading driver) start steps).any (fun σ => p σ) = true) :
    ∃ σ, StepRun.exec (LifeAction.stepReading driver) start steps = some σ ∧ p σ := by
  obtain ⟨σ, run, holds⟩ := (Option.any_eq_true _ _).mp h
  exact ⟨σ, run, of_decide_eq_true holds⟩

/-- What stands past the end of a set: a cancel of a number that was never drawn. -/
def strayCancel : Event := ⟨.cancelSetCurrentEvent, 0, 0, "", 0⟩

def covering : List (LifeAction × Event) :=
  [(.insert ⟨0, 100, 10, 20, "p", 1⟩, strayCancel), (.insert ⟨0, 100, 5, 25, "p", 2⟩, strayCancel),
    (.batch 9 5, strayCancel)]

/-- A request is covered, and its cancel comes up with events behind it that are not due. -/
theorem cancels_stored_of_safe_run_covered :
    ∃ σ, StepRun.exec (LifeAction.stepReading .still)
        ((Construction.partition .zero).battery "p" 1000 .lazy 0 1) covering = some σ ∧
      σ.1.CancelsStored := by
  obtain ⟨σ, run, -⟩ := exists_of_exec (p := fun _ => True) (show
    ((StepRun.exec (LifeAction.stepReading .still)
      ((Construction.partition .zero).battery "p" 1000 .lazy 0 1) covering).any fun _ => True) =
        true by decide +kernel)
  exact ⟨σ, run, (cancels_stored_of_safe_run (.named (.partition .zero) "p" 1000 .lazy 0 1)
    (by decide +kernel) run).1⟩

/-- `[10, 20)` is covered by `[5, 25)` and again by `[0, 30)`: its second cancel finds nothing. Of
two requests in a row three events are left, all due when the thread wakes at 30: the loop comes to
the end, and a cancel that is read there finds nothing either. -/
theorem cancel_outlives_entry :
    (∃ σ, StepRun.exec (LifeAction.stepReading .still)
        ((Construction.partition .zero).battery "p" 1000 .lazy 0 1)
        [(.insert ⟨0, 100, 10, 20, "p", 1⟩, strayCancel),
          (.insert ⟨0, 100, 5, 25, "p", 2⟩, strayCancel),
          (.insert ⟨0, 100, 0, 30, "p", 3⟩, strayCancel), (.batch 10 0, strayCancel),
          (.batch 10 0, strayCancel)] = some σ ∧
      ¬ σ.1.CancelsStored ∧
        (σ.1.runEventThreadReading .still strayCancel 10 σ.2 0).throws = true) ∧
    ∃ σ, StepRun.exec (LifeAction.stepReading .still)
        ((Construction.partition .zero).battery "p" 1000 .lazy 0 1)
        [(.insert ⟨0, 100, 10, 20, "p", 1⟩, strayCancel),
          (.insert ⟨0, 50, 20, 30, "p", 2⟩, strayCancel), (.batch 10 10, strayCancel)] = some σ ∧
      σ.1.CancelsStored ∧ σ.1.eventSet.elems.length = 3 ∧
        (σ.1.runEventThreadReading .still strayCancel 10 σ.2 30).throws = true := by
  constructor
  · refine exists_of_exec (p := fun σ => ¬ σ.1.CancelsStored ∧ (σ.1.runEventThreadReading .still
      strayCancel 10 σ.2 0).throws = true) ?_
    decide +kernel
  · refine exists_of_exec (p := fun σ => σ.1.CancelsStored ∧ σ.1.eventSet.elems.length = 3 ∧
      (σ.1.runEventThreadReading .still strayCancel 10 σ.2 30).throws = true) ?_
    decide +kernel

end Safe

end BatteryOS.V3
