import BatteryOS.Library.Turns
import BatteryOS.V1.Policy

/-! The batteries of a proportional policy. The status of a part is worked out from the meters of
all parts, and a meter is brought up to date by the calls to its own battery, after the status has
been worked out. What the source and the clock say during a call is an argument; a call that raises
leaves behind what it has done. -/

namespace BatteryOS.V1

/-- What a call to the node meets: the source, the clock and the rest of the directory. -/
structure World where
  source : ℕ → Except Error BatteryStatus
  setSource : ℚ → Except Error Unit
  clock : ℕ → ℚ
  otherNode : String → Bool
  otherMeter : String → Except Error ℚ

structure SplitterSystem where
  policy : ProportionalPolicy
  batteries : OrderedMap String Metered

/-- A call, which keeps the state when it raises. -/
abbrev Call (α : Type) := ExceptT Error (StateM SplitterSystem) α

namespace SplitterSystem

def meterOf (s : SplitterSystem) (w : World) (name : String) : Except Error ℚ :=
  match s.batteries.find? name with
  | none => w.otherMeter name
  | some battery => .ok battery.meter

/-- What the policy meets when the source has been asked some times already. -/
def environment (s : SplitterSystem) (w : World) (readings : ℕ) : Environment where
  source n := w.source (readings + n)
  meter := s.meterOf w
  setSource := w.setSource

def updateMeter (s : SplitterSystem) (name : String) (time endcurrent newcurrent : ℚ) :
    SplitterSystem :=
  { s with batteries := s.batteries.modify name fun b => b.updateMeter time endcurrent newcurrent }

def setMeter (s : SplitterSystem) (name : String) (newvalue : ℚ) : SplitterSystem :=
  { s with batteries := s.batteries.modify name fun b => b.setMeter newvalue }

end SplitterSystem

namespace SplitterBattery

open SplitterSystem

def value {α : Type} (x : Except Error α) : Call α := ExceptT.mk fun s => (x, s)

def onPolicy {α : Type} (f : SplitterSystem → ProportionalPolicy × Except Error α) : Call α :=
  ExceptT.mk fun s =>
    let result := f s
    (result.2, { s with policy := result.1 })

/-- `get_status`, after some readings of the source and of the clock. -/
def getStatus (w : World) (readings ticks : ℕ) (name : String) : Call BatteryStatus := do
  let s ← get
  let status ← value (s.policy.getStatus (s.environment w readings) name)
  modify fun s => s.updateMeter name (w.clock ticks) status.current status.current
  return status

def setCurrent (w : World) (name : String) (targetCurrent : ℚ) : Call Unit := do
  let oldStatus ← getStatus w 0 0 name
  onPolicy fun s => s.policy.setCurrent (s.environment w 2) name targetCurrent
  let newStatus ← getStatus w 3 1 name
  modify fun s => s.updateMeter name (w.clock 2) oldStatus.current newStatus.current

def refresh (w : World) (name : String) : Call Unit := do
  let status ← getStatus w 0 0 name
  modify fun s => s.updateMeter name (w.clock 1) status.current status.current

def resetMeter (w : World) (readings : ℕ) (name : String) : Call Unit := do
  let s ← get
  let soc ← value (s.policy.resetMeter (s.environment w readings) 0 name)
  modify fun s => s.setMeter name soc

def removeChild (w : World) (name toName : String) : Call Unit := do
  let s ← get
  let soc ← value (s.policy.removeChild (s.environment w 0) name toName)
  modify fun s => s.setMeter toName soc

/-- `add_child` asks the donor for its status, which brings its meter up to date. -/
def askDonor (w : World) (name fromName : String) (s : SplitterSystem) : SplitterSystem :=
  if name ∈ s.policy.parts ∨ fromName ∉ s.policy.parts then s
  else
    match s.policy.getStatus (s.environment w 0) fromName with
    | .error _ => s
    | .ok status => s.updateMeter fromName (w.clock 1) status.current status.current

def makeSplitterBattery (w : World) (name : String) (targetStatus : BatteryStatus)
    (fromName : String) : Call Unit := do
  let s ← get
  if (s.batteries.find? name).isSome || w.otherNode name then throw .nameTaken
  else
    modify fun s => { s with batteries := s.batteries.set name (.new (w.clock 0)) }
    let s ← get
    let result := s.policy.addChild (s.environment w 0) name targetStatus fromName
    modify (askDonor w name fromName)
    let _ ← onPolicy fun _ => result
    -- the meter of the donor is reset by the policy, and that of the new battery by the node
    resetMeter w 3 fromName
    resetMeter w 4 name

def start (w : World) (initname : String) : SplitterSystem :=
  let s : SplitterSystem :=
    { policy := .init initname
      batteries := OrderedMap.set ∅ initname (.new (w.clock 0)) }
  ((resetMeter w 0 initname).run.run s).2

inductive Operation
  | makeSplitterBattery (w : World) (name : String) (targetStatus : BatteryStatus)
    (fromName : String)
  | setCurrent (w : World) (name : String) (targetCurrent : ℚ)
  | getStatus (w : World) (name : String)
  | refresh (w : World) (name : String)
  | resetMeter (w : World) (name : String)
  | removeChild (w : World) (name toName : String)

def call : Operation → Call Unit
  | .makeSplitterBattery w name targetStatus fromName =>
      makeSplitterBattery w name targetStatus fromName
  | .setCurrent w name targetCurrent => setCurrent w name targetCurrent
  | .getStatus w name => do
      let _ ← getStatus w 0 0 name
  | .refresh w name => refresh w name
  | .resetMeter w name => resetMeter w 0 name
  | .removeChild w name toName => removeChild w name toName

def step (s : SplitterSystem) (op : Operation) : Option SplitterSystem :=
  some ((call op).run.run s).2

def instant (time : ℚ) (status : BatteryStatus) : World where
  source _ := .ok status
  setSource _ := .ok ()
  clock _ := time
  otherNode _ := false
  otherMeter _ := .error .badName

def statesOfCharge (time : ℚ) (status : BatteryStatus) : List String → Call (List ℚ)
  | [] => pure []
  | name :: rest => do
      let report ← getStatus (instant time status) 0 0 name
      let others ← statesOfCharge time status rest
      return report.stateOfCharge :: others

section Calls

variable {α β : Type} {s s' : SplitterSystem} {w : World} {name fromName : String}

def after (x : Call α) (s : SplitterSystem) : SplitterSystem := (x.run.run s).2

def Keeps (P : SplitterSystem → Prop) (x : Call α) : Prop := ∀ s, P s → P (after x s)

variable {P : SplitterSystem → Prop}

theorem run_bind (x : Call α) (f : α → Call β) (s : SplitterSystem) :
    (x >>= f).run.run s = match x.run.run s with
      | (.error e, s') => (.error e, s')
      | (.ok a, s') => (f a).run.run s' := by
  change (ExceptT.bindCont f (x.run.run s).1).run (x.run.run s).2 = _
  rcases x.run.run s with ⟨_ | a, s'⟩ <;> rfl

theorem Keeps.after_bind {x : Call α} {f : α → Call β} (hf : ∀ a, Keeps P (f a))
    (hx : P (after x s)) : P (after (x >>= f) s) := by
  unfold after at hx ⊢
  rw [run_bind]
  cases outcome : x.run.run s with
  | mk result s' =>
      rw [outcome] at hx
      cases result with
      | error e => exact hx
      | ok a => exact hf a s' hx

theorem Keeps.bind {x : Call α} {f : α → Call β} (hx : Keeps P x) (hf : ∀ a, Keeps P (f a)) :
    Keeps P (x >>= f) := fun s hs => Keeps.after_bind hf (hx s hs)

theorem after_get_bind (f : SplitterSystem → Call β) (s : SplitterSystem) :
    after (get >>= f) s = after (f s) s := rfl

theorem after_modify_bind (f : SplitterSystem → SplitterSystem) (g : PUnit → Call β)
    (s : SplitterSystem) : after (modify f >>= g) s = after (g ⟨⟩) (f s) := rfl

theorem Keeps.get_bind {f : SplitterSystem → Call β}
    (hf : ∀ s, P s → P (after (f s) s)) : Keeps P (get >>= f) := hf

theorem Keeps.value (x : Except Error α) : Keeps P (value x) := fun _ hs => hs

theorem Keeps.pure (a : α) : Keeps P (pure a) := fun _ hs => hs

theorem Keeps.modify {f : SplitterSystem → SplitterSystem} (hf : ∀ s, P s → P (f s)) :
    Keeps P (modify f) := hf

theorem Keeps.onPolicy {f : SplitterSystem → ProportionalPolicy × Except Error α}
    (hf : ∀ s, P s → P { s with policy := (f s).1 }) : Keeps P (onPolicy f) := hf

end Calls

structure Registered (s : SplitterSystem) : Prop where
  battery : ∀ name ∈ s.policy.parts, ∃ b, s.batteries.find? name = some b
  current : ∀ name ∈ s.policy.parts, ∃ c, s.policy.currents.find? name = some c

section Reachable

variable {s s' : SplitterSystem} {w : World} {name fromName toName : String}

theorem Registered.modify (h : Registered s) (name : String) (f : Metered → Metered) :
    Registered { s with batteries := s.batteries.modify name f } where
  battery n hn := by
    obtain ⟨b, hb⟩ := h.battery n hn
    rw [OrderedMap.find?_modify]
    split_ifs with same
    · exact ⟨f b, by rw [← same, hb, Option.map_some]⟩
    · exact ⟨b, hb⟩
  current := h.current

theorem keeps_updateMeter (name : String) (time endcurrent newcurrent : ℚ) :
    Keeps Registered (modify fun s => s.updateMeter name time endcurrent newcurrent) :=
  Keeps.modify fun _ h => h.modify name _

theorem keeps_getStatus (w : World) (readings ticks : ℕ) (name : String) :
    Keeps Registered (getStatus w readings ticks name) :=
  Keeps.get_bind fun s h => Keeps.bind (Keeps.value _) (fun _ =>
    Keeps.bind (keeps_updateMeter _ _ _ _) fun _ => Keeps.pure _) s h

theorem keeps_resetMeter (w : World) (readings : ℕ) (name : String) :
    Keeps Registered (resetMeter w readings name) :=
  Keeps.get_bind fun s h => Keeps.bind (Keeps.value _)
    (fun _ => Keeps.modify fun _ h => h.modify name _) s h

theorem keeps_removeChild (w : World) (name toName : String) :
    Keeps Registered (removeChild w name toName) :=
  Keeps.get_bind fun s h => Keeps.bind (Keeps.value _)
    (fun _ => Keeps.modify fun _ h => h.modify toName _) s h

theorem keeps_refresh (w : World) (name : String) : Keeps Registered (refresh w name) :=
  Keeps.bind (keeps_getStatus w 0 0 name) fun _ => keeps_updateMeter _ _ _ _

theorem keeps_setCurrent (w : World) (name : String) (targetCurrent : ℚ) :
    Keeps Registered (setCurrent w name targetCurrent) := by
  refine Keeps.bind (keeps_getStatus w 0 0 name) fun _ =>
    Keeps.bind (Keeps.onPolicy fun s h => ?_) fun _ =>
      Keeps.bind (keeps_getStatus w 3 1 name) fun _ => keeps_updateMeter _ _ _ _
  rw [ProportionalPolicy.setCurrent]
  cases s.policy.checkCurrent (s.environment w 2) name targetCurrent with
  | error e => exact h
  | ok =>
      refine ⟨h.battery, fun n hn => ?_⟩
      obtain ⟨c, hc⟩ := h.current n hn
      rw [ProportionalPolicy.assignCurrent, OrderedMap.find?_set]
      split_ifs
      · exact ⟨_, rfl⟩
      · exact ⟨c, hc⟩

theorem Registered.askDonor (h : Registered s) (w : World) (name fromName : String) :
    Registered (askDonor w name fromName s) := by
  unfold SplitterBattery.askDonor
  split_ifs
  · exact h
  · cases s.policy.getStatus (s.environment w 0) fromName with
    | error e => exact h
    | ok status => exact h.modify fromName _

theorem askDonor_policy (w : World) (name fromName : String) (s : SplitterSystem) :
    (askDonor w name fromName s).policy = s.policy := by
  unfold SplitterBattery.askDonor
  split_ifs
  · rfl
  · cases s.policy.getStatus (s.environment w 0) fromName <;> rfl

theorem askDonor_battery (w : World) (name fromName : String) {n : String} {b : Metered}
    (h : s.batteries.find? n = some b) :
    ∃ b', (askDonor w name fromName s).batteries.find? n = some b' := by
  unfold SplitterBattery.askDonor
  split_ifs
  · exact ⟨b, h⟩
  · cases s.policy.getStatus (s.environment w 0) fromName with
    | error e => exact ⟨b, h⟩
    | ok status =>
        dsimp only
        rw [updateMeter, OrderedMap.find?_modify]
        split_ifs with same
        · exact ⟨_, by rw [← same, h, Option.map_some]⟩
        · exact ⟨b, h⟩

theorem Registered.set (h : Registered s) (name : String) (b : Metered) :
    Registered { s with batteries := s.batteries.set name b } where
  battery n hn := by
    obtain ⟨b', hb⟩ := h.battery n hn
    rw [OrderedMap.find?_set]
    split_ifs
    · exact ⟨b, rfl⟩
    · exact ⟨b', hb⟩
  current := h.current

theorem Registered.addChild (h : Registered s) (b : ∃ b, s.batteries.find? name = some b)
    (env : Environment) (targetStatus : BatteryStatus) (fromName : String) :
    Registered { s with policy := (s.policy.addChild env name targetStatus fromName).1 } := by
  rcases s.policy.addChild_cases env name fromName targetStatus with same | ⟨currents, parts⟩
  · rw [same]
    exact h
  · refine ⟨fun n hn => ?_, fun n hn => ?_⟩
    · rcases parts n hn with rfl | old
      · exact b
      · exact h.battery n old
    · rw [currents, OrderedMap.find?_set]
      split_ifs with same
      · exact ⟨0, rfl⟩
      · exact h.current n ((parts n hn).resolve_left same)

theorem keeps_makeSplitterBattery (w : World) (name : String) (targetStatus : BatteryStatus)
    (fromName : String) :
    Keeps Registered (makeSplitterBattery w name targetStatus fromName) := by
  refine Keeps.get_bind fun s h => ?_
  split_ifs
  · exact h
  · have listed := (h.set name (.new (w.clock 0))).askDonor w name fromName
    rw [after_modify_bind, after_get_bind, after_modify_bind]
    refine Keeps.after_bind (fun _ => Keeps.bind (keeps_resetMeter w 3 fromName)
      fun _ => keeps_resetMeter w 4 name) ?_
    have battery := askDonor_battery (s := { s with
        batteries := s.batteries.set name (.new (w.clock 0)) }) (n := name) w name fromName
      (by rw [OrderedMap.find?_set, if_pos rfl])
    have added := listed.addChild battery (environment { s with
        batteries := s.batteries.set name (.new (w.clock 0)) } w 0) targetStatus fromName
    rw [askDonor_policy] at added
    exact added

theorem keeps_call (op : Operation) : Keeps Registered (call op) := by
  cases op with
  | makeSplitterBattery w name targetStatus fromName =>
      exact keeps_makeSplitterBattery w name targetStatus fromName
  | setCurrent w name targetCurrent => exact keeps_setCurrent w name targetCurrent
  | getStatus w name => exact Keeps.bind (keeps_getStatus w 0 0 name) fun _ => Keeps.pure _
  | refresh w name => exact keeps_refresh w name
  | resetMeter w name => exact keeps_resetMeter w 0 name
  | removeChild w name toName => exact keeps_removeChild w name toName

theorem registered_start (w : World) (initname : String) : Registered (start w initname) := by
  have only {n : String} (hn : n ∈ (ProportionalPolicy.init initname).parts) : n = initname := by
    obtain ⟨scale, found⟩ := ProportionalPolicy.mem_parts.mp hn
    rw [ProportionalPolicy.init, OrderedMap.find?_set] at found
    by_contra other
    rw [if_neg other] at found
    cases found
  refine keeps_resetMeter w 0 initname _ ⟨fun n hn => ?_, fun n hn => ?_⟩
  · exact ⟨_, by rw [only hn, OrderedMap.find?_set, if_pos rfl]⟩
  · exact ⟨0, by
      rw [only hn]
      exact (OrderedMap.find?_set ∅ initname initname 0).trans (if_pos rfl)⟩

open StepRun

theorem registered_of_reachable {initname : String} {ops : List Operation}
    (run : exec step (start w initname) ops = some s) : Registered s :=
  exec_kept (registered_start w initname)
    (fun s op s' h next => by cases next; exact keeps_call op s h) run

end Reachable

section Reports

variable {s : SplitterSystem} {time : ℚ} {status : BatteryStatus} {name : String}

def expectedSoc (s : SplitterSystem) (name : String) : ℚ :=
  ((s.batteries.find? name).map Metered.meter).getD 0

def totalExpectedSoc (s : SplitterSystem) : ℚ := (s.policy.parts.map (expectedSoc s)).sum

def currentOf (s : SplitterSystem) (name : String) : ℚ := (s.policy.currents.find? name).getD 0

/-- What the meter of a part goes down by when its battery is next asked. -/
def pendingCharge (s : SplitterSystem) (time : ℚ) (name : String) : ℚ :=
  ((s.batteries.find? name).map fun b =>
    (b.current + currentOf s name) / 2 * ((time - b.timestamp) / 3600)).getD 0

def asked (s : SplitterSystem) (time : ℚ) (name : String) : SplitterSystem :=
  s.updateMeter name time (currentOf s name) (currentOf s name)

theorem mapM_ok {α β : Type} {f : α → Except Error β} {g : α → β} {xs : List α}
    (h : ∀ x ∈ xs, f x = .ok (g x)) : xs.mapM f = .ok (xs.map g) := by
  induction xs with
  | nil => rfl
  | cons x rest ih =>
      rw [List.mapM_cons, h x List.mem_cons_self, ih fun y hy => h y (List.mem_cons_of_mem x hy)]
      rfl

theorem meterOf_eq (h : Registered s) (w : World) (hn : name ∈ s.policy.parts) :
    s.meterOf w name = .ok (expectedSoc s name) := by
  obtain ⟨b, hb⟩ := h.battery name hn
  rw [meterOf, expectedSoc, hb, Option.map_some, Option.getD_some]

theorem policy_getStatus (time : ℚ) (status : BatteryStatus) (h : Registered s)
    (hn : name ∈ s.policy.parts) :
    ∃ report : BatteryStatus, report.current = currentOf s name ∧
      report.stateOfCharge = expectedSoc s name / totalExpectedSoc s * status.stateOfCharge ∧
      s.policy.getStatus (s.environment (instant time status) 0) name =
        if totalExpectedSoc s = 0 then .error .zeroDivision else .ok report := by
  obtain ⟨scale, found⟩ := ProportionalPolicy.mem_parts.mp hn
  obtain ⟨c, current⟩ := h.current name hn
  have meters : s.policy.parts.mapM (s.environment (instant time status) 0).meter =
      .ok (s.policy.parts.map (expectedSoc s)) :=
    mapM_ok fun n hn => meterOf_eq h (instant time status) hn
  have own : (s.environment (instant time status) 0).meter name = .ok (expectedSoc s name) :=
    meterOf_eq h (instant time status) hn
  have source (n : ℕ) : (s.environment (instant time status) 0).source n = .ok status := rfl
  refine ⟨⟨status.voltage, c, expectedSoc s name / totalExpectedSoc s * status.stateOfCharge,
    status.maxCapacity * scale.maxCapacity,
    status.maxDischargingCurrent * scale.maxDischargeRate,
    status.maxChargingCurrent * scale.maxChargeRate⟩, ?_, rfl, ?_⟩
  · rw [currentOf, current, Option.getD_some]
  · rw [ProportionalPolicy.getStatus, source, source, own, meters,
      ProportionalPolicy.item_of_some found, ProportionalPolicy.item_of_some current]
    by_cases zero : totalExpectedSoc s = 0
    · have quotient : div (expectedSoc s name) (s.policy.parts.map (expectedSoc s)).sum =
          .error .zeroDivision := if_pos zero
      rw [if_pos zero]
      simp only [bind, Except.bind, quotient]
    · have quotient : div (expectedSoc s name) (s.policy.parts.map (expectedSoc s)).sum =
          .ok (expectedSoc s name / totalExpectedSoc s) := if_neg zero
      rw [if_neg zero]
      simp only [bind, Except.bind, quotient]
      rfl

theorem run_getStatus (time : ℚ) (status : BatteryStatus) (h : Registered s)
    (hn : name ∈ s.policy.parts) :
    ∃ report : BatteryStatus,
      report.stateOfCharge = expectedSoc s name / totalExpectedSoc s * status.stateOfCharge ∧
      (getStatus (instant time status) 0 0 name).run.run s =
        if totalExpectedSoc s = 0 then (.error .zeroDivision, s)
        else (.ok report, asked s time name) := by
  obtain ⟨report, current, charge, result⟩ := policy_getStatus time status h hn
  refine ⟨report, charge, ?_⟩
  have run : (getStatus (instant time status) 0 0 name).run.run s =
      match s.policy.getStatus (s.environment (instant time status) 0) name with
      | .error e => (.error e, s)
      | .ok status => (.ok status, s.updateMeter name time status.current status.current) := by
    change ((value (s.policy.getStatus (s.environment (instant time status) 0) name) >>=
      fun status => (do
        modify fun s => s.updateMeter name time status.current status.current
        return status : Call BatteryStatus)).run.run s) = _
    rw [run_bind]
    cases s.policy.getStatus (s.environment (instant time status) 0) name <;> rfl
  rw [run, result]
  split_ifs
  · rfl
  · rw [asked, ← current]

theorem expectedSoc_asked (h : Registered s) (hn : name ∈ s.policy.parts) (n : String) :
    expectedSoc (asked s time name) n =
      if n = name then expectedSoc s name - pendingCharge s time name else expectedSoc s n := by
  rw [expectedSoc, asked, updateMeter, OrderedMap.find?_modify]
  split_ifs with same
  · obtain ⟨b, hb⟩ := h.battery name hn
    rw [expectedSoc, pendingCharge, hb]
    rfl
  · rfl

theorem pendingCharge_asked {n : String} (ne : n ≠ name) :
    pendingCharge (asked s time name) time n = pendingCharge s time n := by
  rw [pendingCharge, asked, updateMeter, OrderedMap.find?_modify, if_neg ne]
  rfl

theorem totalExpectedSoc_asked (h : Registered s) (hn : name ∈ s.policy.parts) :
    totalExpectedSoc (asked s time name) = totalExpectedSoc s - pendingCharge s time name := by
  have nodup : s.policy.parts.Nodup := OrderedMap.keys_nodup _
  have split := List.perm_cons_erase hn
  have others : (s.policy.parts.erase name).map (expectedSoc (asked s time name)) =
      (s.policy.parts.erase name).map (expectedSoc s) :=
    List.map_congr_left fun n hn' => by
      rw [expectedSoc_asked h hn, if_neg (nodup.mem_erase_iff.mp hn').1]
  have sums (f : String → ℚ) : (s.policy.parts.map f).sum =
      f name + ((s.policy.parts.erase name).map f).sum := by
    rw [(split.map f).sum_eq, List.map_cons, List.sum_cons]
  change (s.policy.parts.map (expectedSoc (asked s time name))).sum = _
  rw [totalExpectedSoc, sums, sums (expectedSoc s), others, expectedSoc_asked h hn, if_pos rfl]
  ring

theorem statesOfCharge_eq (h : Registered s) {order : List String} (nodup : order.Nodup)
    (managed : ∀ n ∈ order, n ∈ s.policy.parts) :
    ((statesOfCharge time status order).run.run s).1 =
      (Turns.answers (expectedSoc s) (pendingCharge s time) status.stateOfCharge
        (totalExpectedSoc s) order).elim (.error .zeroDivision) .ok := by
  induction order generalizing s with
  | nil => rfl
  | cons name rest ih =>
      have hn := managed name List.mem_cons_self
      have fresh := (List.nodup_cons.mp nodup).1
      obtain ⟨report, charge, result⟩ := run_getStatus time status h hn
      rw [statesOfCharge, run_bind, result, Turns.answers]
      split_ifs with zero
      · rfl
      · have later := ih (s := asked s time name) (h.modify name _) (List.nodup_cons.mp nodup).2
          fun n hn' => managed n (List.mem_cons_of_mem name hn')
        have same : ∀ n ∈ rest, expectedSoc (asked s time name) n = expectedSoc s n ∧
            pendingCharge (asked s time name) time n = pendingCharge s time n := by
          intro n hn'
          have ne : n ≠ name := fun e => fresh (e ▸ hn')
          exact ⟨by rw [expectedSoc_asked h hn, if_neg ne], pendingCharge_asked ne⟩
        rw [totalExpectedSoc_asked h hn, Turns.answers_congr _ same] at later
        dsimp only
        rw [run_bind, ← charge]
        cases outcome : (statesOfCharge time status rest).run.run (asked s time name) with
        | mk reports s' =>
            rw [outcome] at later
            cases answers : Turns.answers (expectedSoc s) (pendingCharge s time)
                status.stateOfCharge (totalExpectedSoc s - pendingCharge s time name) rest with
            | none =>
                rw [answers] at later
                obtain rfl : reports = .error .zeroDivision := later
                rfl
            | some others =>
                rw [answers] at later
                obtain rfl : reports = .ok others := later
                rfl

/-- At one instant every part reports the same, whichever is asked first, and the reports make up
the charge of the source. -/
def Consistent (s : SplitterSystem) (time : ℚ) (status : BatteryStatus) : Prop :=
  ∃ soc : String → ℚ, (∀ order, order.Perm s.policy.parts →
    ((statesOfCharge time status order).run.run s).1 = .ok (order.map soc)) ∧
      (s.policy.parts.map soc).sum = status.stateOfCharge

theorem consistent_iff_turns (h : Registered s) : Consistent s time status ↔
    Turns.Consistent (expectedSoc s) (pendingCharge s time) status.stateOfCharge
      s.policy.parts := by
  have nodup : s.policy.parts.Nodup := OrderedMap.keys_nodup _
  refine exists_congr fun soc => and_congr_left fun _ => forall₂_congr fun order perm => ?_
  rw [statesOfCharge_eq h (perm.nodup_iff.mpr nodup) fun n hn => perm.subset hn]
  change _ ↔ Turns.answers (expectedSoc s) (pendingCharge s time) status.stateOfCharge
    (totalExpectedSoc s) order = some (order.map soc)
  cases Turns.answers (expectedSoc s) (pendingCharge s time) status.stateOfCharge
    (totalExpectedSoc s) order <;> simp

open StepRun

/-- The reports are consistent exactly when no selection of the parts is due to take the whole
expected charge off while another is still to be asked, and no part has a charge to be taken off
while another has an expected charge, unless the source is empty. -/
theorem consistent_iff {w : World} {initname : String} {ops : List Operation}
    (reached : exec step (start w initname) ops = some s) (time : ℚ) (status : BatteryStatus)
    (total_ne : totalExpectedSoc s ≠ 0) :
    Consistent s time status ↔
      (∀ asked name, (name :: asked).Subperm s.policy.parts →
        (asked.map (pendingCharge s time)).sum ≠ totalExpectedSoc s) ∧
      (status.stateOfCharge = 0 ∨ ∀ x ∈ s.policy.parts, pendingCharge s time x ≠ 0 →
        ∀ y ∈ s.policy.parts, y ≠ x → expectedSoc s y = 0) := by
  rw [consistent_iff_turns (registered_of_reachable reached)]
  exact Turns.consistent_iff_quiet (OrderedMap.keys_nodup _) total_ne

end Reports

def charged (time charge : ℚ) : World where
  source _ := .ok ⟨7000, 0, charge, 200, 20, 20⟩
  setSource _ := .ok ()
  clock _ := time
  otherNode _ := false
  otherMeter _ := .error .badName

/-- Half of the source is split off, and discharges 2 A. -/
def halves : List Operation :=
  [.makeSplitterBattery (charged 0 100) "a" ⟨7000, 0, 50, 100, 10, 10⟩ "free",
    .setCurrent (charged 0 100) "a" 2]

def halved : SplitterSystem :=
  halves.foldl (fun s op => after (call op) s) (start (charged 0 100) "free")

theorem halved_reached : StepRun.exec step (start (charged 0 100) "free") halves = some halved := rfl

/-- At the time of the calls no charge is due. -/
theorem halved_consistent_iff :
    Consistent halved 0 ⟨7000, 2, 100, 200, 20, 20⟩ ↔
      (∀ asked name, (name :: asked).Subperm halved.policy.parts →
        (asked.map (pendingCharge halved 0)).sum ≠ totalExpectedSoc halved) ∧
      ((100 : ℚ) = 0 ∨ ∀ x ∈ halved.policy.parts, pendingCharge halved 0 x ≠ 0 →
        ∀ y ∈ halved.policy.parts, y ≠ x → expectedSoc halved y = 0) :=
  consistent_iff halved_reached 0 ⟨7000, 2, 100, 200, 20, 20⟩ (by decide +kernel)

/-- An hour later the other half reports 50 Ah when it is asked last, and 49 Ah before. -/
theorem halved_not_consistent :
    ∃ s, StepRun.exec step (start (charged 0 100) "free") halves = some s ∧
      totalExpectedSoc s ≠ 0 ∧ ¬ Consistent s 3600 ⟨7000, 2, 98, 200, 20, 20⟩ := by
  refine ⟨halved, rfl, by decide +kernel, ?_⟩
  rintro ⟨soc, reports, -⟩
  have last : ((statesOfCharge 3600 ⟨7000, 2, 98, 200, 20, 20⟩ ["a", "free"]).run.run halved).1 =
      .ok [49, 50] := by decide +kernel
  have first : ((statesOfCharge 3600 ⟨7000, 2, 98, 200, 20, 20⟩ ["free", "a"]).run.run halved).1 =
      .ok [49, 49] := by decide +kernel
  have parts : halved.policy.parts = ["a", "free"] := by decide +kernel
  have answers := (reports ["a", "free"] (by rw [parts])).symm.trans last
  have swapped : ["free", "a"].Perm halved.policy.parts := by
    rw [parts]
    exact List.Perm.swap _ _ _
  have answers' := (reports ["free", "a"] swapped).symm.trans first
  simp only [List.map_cons, List.map_nil, Except.ok.injEq, List.cons.injEq, and_true]
    at answers answers'
  norm_num [answers.2] at answers'

end SplitterBattery

end BatteryOS.V1
