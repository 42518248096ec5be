import BatteryOS.Library.Meter
import BatteryOS.V2.Redistribution

/-! The charge of a child is estimated by hand in three functions, each of which brings it up to its
own time. Together they keep a meter of what the child has asked for, so that it does not matter
when the splitter was refreshed. -/

namespace BatteryOS.V2

namespace BALSplitter

variable {n : ℕ} {sp : BALSplitter n} {now : ℤ}

/-- As `std::chrono::duration` with a period of an hour. -/
def hoursElapsed (since now : ℤ) : ℚ := (now - since : ℤ) / (milliseconds 3600000 : ℤ)

theorem hoursElapsed_add (a b c : ℤ) : hoursElapsed a b + hoursElapsed b c = hoursElapsed a c := by
  rw [hoursElapsed, hoursElapsed, hoursElapsed, ← add_div, ← Int.cast_add]
  congr 2
  omega

def chargeMeter (sp : BALSplitter n) (i : Fin n) : Meter ℤ ℚ where
  level := sp.estimates.childrenEstimatedChargeNow i
  since := sp.estimates.childrenLastChargeEstimateTimepoint i
  rate := sp.childrenCurrentNow i

def estimatedChargeAt (sp : BALSplitter n) (t : ℤ) (i : Fin n) : ℚ :=
  sp.estimates.childrenEstimatedChargeNow i - sp.childrenCurrentNow i *
    hoursElapsed (sp.estimates.childrenLastChargeEstimateTimepoint i) t

theorem chargeMeter_estimateCharge (i : Fin n) :
    (sp.estimateCharge now).chargeMeter i = (sp.chargeMeter i).settle hoursElapsed now := rfl

theorem chargeMeter_setCurrent (event : Event) (i : Fin n) :
    (sp.setCurrent now event).chargeMeter i =
      if event.otherData = (i : ℕ) then (sp.chargeMeter i).switch hoursElapsed now event.currentMA
      else sp.chargeMeter i := by
  by_cases own : event.otherData = (i : ℕ)
  · simp only [setCurrent, chargeMeter, if_pos own]
    rfl
  · simp only [setCurrent, chargeMeter, if_neg own]

/-- A SET_CURRENT that is carried out, or a refresh by one of the policies that reserve, on the
children that the directory has. -/
inductive EstimateAction (n : ℕ)
  | setCurrent (now : ℤ) (event : Event)
  | refreshTranche (ids : List (Fin n)) (childOriginalStatus : Fin n → BatteryStatus)
    (sourceStatus : BatteryStatus) (now : ℤ)
  | refreshReservation (ids : List (Fin n)) (childOriginalStatus : Fin n → BatteryStatus)
    (sourceStatus : BatteryStatus) (now : ℤ)

variable {n : ℕ} {sp start : BALSplitter (n + 1)} {now : ℤ}

/-- A refresh that runs out of range has done its first loop by then. -/
def estimateStep (sp : BALSplitter (n + 1)) : EstimateAction (n + 1) → BALSplitter (n + 1)
  | .setCurrent now event => sp.setCurrent now event
  | .refreshTranche ids childOriginalStatus sourceStatus now =>
    ((sp.refreshTranche ids childOriginalStatus sourceStatus now).map Prod.fst).getD
      (sp.estimateCharge now)
  | .refreshReservation ids childOriginalStatus sourceStatus now =>
    ((sp.refreshReservation ids childOriginalStatus sourceStatus now).map Prod.fst).getD
      (sp.estimateCharge now)

def EstimateAction.onMeter (i : Fin n) : EstimateAction n → Option (Meter.Step ℤ ℚ)
  | .setCurrent now event =>
    if event.otherData = (i : ℕ) then some (.switch now event.currentMA) else none
  | .refreshTranche _ _ _ now | .refreshReservation _ _ _ now => some (.settle now)

def EstimateAction.request (i : Fin n) : EstimateAction n → Option (ℤ × ℚ)
  | .setCurrent now event =>
    if event.otherData = (i : ℕ) then some (now, (event.currentMA : ℚ)) else none
  | .refreshTranche _ _ _ _ | .refreshReservation _ _ _ _ => none

def EstimateAction.setCurrentCall : EstimateAction n → Option (ℤ × Event)
  | .setCurrent now event => some (now, event)
  | .refreshTranche _ _ _ _ | .refreshReservation _ _ _ _ => none

/-- Whatever the other loops of a refresh report, the estimate is that of the first. -/
theorem chargeMeter_report (distributed : Option (Distribution (n + 1))) (i : Fin (n + 1)) :
    (((distributed.map sp.report).map Prod.fst).getD sp).chargeMeter i = sp.chargeMeter i := by
  cases distributed <;> rfl

theorem chargeMeter_estimateStep (action : EstimateAction (n + 1)) (i : Fin (n + 1)) :
    (sp.estimateStep action).chargeMeter i = ([action].filterMap (EstimateAction.onMeter i)).foldl
      (Meter.act hoursElapsed) (sp.chargeMeter i) := by
  cases action with
  | setCurrent now event =>
      rw [estimateStep, chargeMeter_setCurrent]
      by_cases own : event.otherData = (i : ℕ)
      · rw [if_pos own, List.filterMap_cons, EstimateAction.onMeter, if_pos own]
        rfl
      · rw [if_neg own, List.filterMap_cons, EstimateAction.onMeter, if_neg own]
        rfl
  | refreshTranche ids childOriginalStatus sourceStatus now =>
      rw [estimateStep, refreshTranche, chargeMeter_report, chargeMeter_estimateCharge]
      rfl
  | refreshReservation ids childOriginalStatus sourceStatus now =>
      rw [estimateStep, refreshReservation, chargeMeter_report, chargeMeter_estimateCharge]
      rfl

theorem chargeMeter_run (actions : List (EstimateAction (n + 1))) (i : Fin (n + 1)) :
    (actions.foldl estimateStep start).chargeMeter i =
      (actions.filterMap (EstimateAction.onMeter i)).foldl (Meter.act hoursElapsed)
        (start.chargeMeter i) := by
  induction actions using List.reverseRecOn with
  | nil => rfl
  | append_singleton before action ih =>
      rw [List.foldl_append, List.foldl_cons, List.foldl_nil, chargeMeter_estimateStep, ih,
        List.filterMap_append, List.foldl_append]

theorem switched_onMeter (actions : List (EstimateAction n)) (i : Fin n) :
    (actions.filterMap (EstimateAction.onMeter i)).filterMap Meter.Step.switched =
      actions.filterMap (EstimateAction.request i) := by
  rw [List.filterMap_filterMap]
  refine List.filterMap_congr fun action _ => ?_
  cases action with
  | setCurrent now event =>
      rw [EstimateAction.onMeter, EstimateAction.request]
      split_ifs <;> rfl
  | refreshTranche => rfl
  | refreshReservation => rfl

theorem request_of_setCurrentCalls (actions : List (EstimateAction n)) (i : Fin n) :
    actions.filterMap (EstimateAction.request i) =
      (actions.filterMap EstimateAction.setCurrentCall).filterMap fun call =>
        if call.2.otherData = (i : ℕ) then some (call.1, (call.2.currentMA : ℚ)) else none := by
  rw [List.filterMap_filterMap]
  refine List.filterMap_congr fun action _ => ?_
  cases action <;> rfl

/-- After any run the estimated charge, brought up to a time, is what there was less each current
that the child asked for times the hours it was in force, and two runs in which the children ask
for the same agree. -/
theorem charge_estimate_of_requests (start : BALSplitter (n + 1))
    (actions : List (EstimateAction (n + 1))) (t : ℤ) (i : Fin (n + 1)) :
    (actions.foldl estimateStep start).estimatedChargeAt t i =
        start.estimates.childrenEstimatedChargeNow i -
          Meter.drawn hoursElapsed (start.estimates.childrenLastChargeEstimateTimepoint i)
            (start.childrenCurrentNow i) (actions.filterMap (EstimateAction.request i)) t ∧
      ∀ actions' : List (EstimateAction (n + 1)),
        actions'.filterMap EstimateAction.setCurrentCall =
          actions.filterMap EstimateAction.setCurrentCall →
        (actions'.foldl estimateStep start).estimatedChargeAt t i =
          (actions.foldl estimateStep start).estimatedChargeAt t i := by
  have drawn (actions : List (EstimateAction (n + 1))) :
      (actions.foldl estimateStep start).estimatedChargeAt t i =
        start.estimates.childrenEstimatedChargeNow i -
          Meter.drawn hoursElapsed (start.estimates.childrenLastChargeEstimateTimepoint i)
            (start.childrenCurrentNow i) (actions.filterMap (EstimateAction.request i)) t := by
    have meter : (actions.foldl estimateStep start).chargeMeter i = _ := chargeMeter_run actions i
    have reads := congrArg (Meter.read hoursElapsed · t) meter
    rw [Meter.read_foldl_act hoursElapsed_add, switched_onMeter] at reads
    exact reads
  refine ⟨drawn actions, fun actions' same => ?_⟩
  rw [drawn, drawn, request_of_setCurrentCalls, request_of_setCurrentCalls, same]

/-- The first child has 20 for an hour and then 50 for two, with a refresh in between or without. -/
theorem charge_estimate_of_requests_refreshed :
    let request := EstimateAction.setCurrent (milliseconds 3600000)
      ⟨0, 0, 0, .setCurrent, 50, true, 0⟩
    let refresh := EstimateAction.refreshReservation [0, 1] (fun _ => half)
      ⟨12, 20, 900, 1000, 200, 200, 0⟩ (milliseconds 7200000)
    ([request, refresh].foldl estimateStep dischargingAndCharging).estimatedChargeAt
        (milliseconds 10800000) 0 = 380 ∧
      ([request].foldl estimateStep dischargingAndCharging).estimatedChargeAt
        (milliseconds 10800000) 0 = 380 := by
  intro request refresh
  have requested := charge_estimate_of_requests dischargingAndCharging [request, refresh]
    (milliseconds 10800000) 0
  have refreshed : ([request, refresh].foldl estimateStep
      dischargingAndCharging).estimatedChargeAt (milliseconds 10800000) 0 = 380 :=
    requested.1.trans (by decide +kernel)
  exact ⟨refreshed, (requested.2 [request] rfl).trans refreshed⟩

end BALSplitter

end BatteryOS.V2
