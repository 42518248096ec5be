import BatteryOS.V2.Schedule

/-! The splitter policy. It keeps the requests of its children in one queue, each event marked
with the number of its child, and forwards every request to the source as one total: the target
of the child and what the others have at the start of the request. What a refresh works out for
the children is an argument. -/

namespace BatteryOS.V2

structure BatteryStatus where
  voltageMV : ℤ
  currentMA : ℤ
  capacityMAh : ℤ
  maxCapacityMAh : ℤ
  maxChargingCurrentMA : ℤ
  maxDischargingCurrentMA : ℤ
  timestamp : ℤ
deriving DecidableEq, Repr

/-- What a splitter knows about its children besides the currents they asked for: the fields that
a refresh writes. -/
structure Estimates (n : ℕ) where
  childrenLastChargeEstimateTimepoint : Fin n → ℤ
  childrenEstimatedChargeNow : Fin n → ℚ
  childrenStatusNow : Fin n → BatteryStatus

structure BALSplitter (n : ℕ) where
  battery : Battery
  childNames : Fin n → String
  childrenCurrentNow : Fin n → ℤ
  estimates : Estimates n

/-- A preview of the children's currents, over the events of all of them. -/
def previewEvent {n : ℕ} (currentUpToNow : Fin n → ℤ) (event : Event) : Fin n → ℤ :=
  fun i => if event.otherData = i then event.currentMA else currentUpToNow i

/-- Both preview loops of `schedule_set_current_of`, up to their different bounds: the currents
previewed, the events to remove, and what the iterator has not reached. -/
def previewOf {n : ℕ} (childId : Fin n) (whenToSet untilWhen bound : ℤ) (currentUpToNow : Fin n → ℤ) :
    List Event → (Fin n → ℤ) × List Event × List Event
  | [] => (currentUpToNow, [], [])
  | event :: rest =>
    if event.timepoint > bound then (currentUpToNow, [], event :: rest)
    else if event.func = .refresh then
      previewOf childId whenToSet untilWhen bound currentUpToNow rest
    else
      let (current, removed, left) := previewOf childId whenToSet untilWhen bound
        (previewEvent currentUpToNow event) rest
      if event.otherData = childId ∧ whenToSet ≤ event.timepoint ∧ event.timepoint ≤ untilWhen then
        (current, event :: removed, left)
      else (current, removed, left)

namespace BALSplitter

variable {n : ℕ}

def new (childNames : Fin n → String) (estimates : Estimates n) (maxStaleness : ℤ) :
    BALSplitter n :=
  ⟨.new maxStaleness, childNames, fun _ => 0, estimates⟩

/-- `name_lookup`: of two children of one name the later is found. -/
def nameLookup (sp : BALSplitter n) (childName : String) : Option (Fin n) :=
  (List.finRange n).reverse.find? fun i => sp.childNames i = childName

theorem nameLookup_of_injective {sp : BALSplitter n} (distinct : sp.childNames.Injective)
    (i : Fin n) : sp.nameLookup (sp.childNames i) = some i := by
  have listed : i ∈ (List.finRange n).reverse := List.mem_reverse.mpr (List.mem_finRange i)
  have found : (sp.nameLookup (sp.childNames i)).isSome = true :=
    List.find?_isSome.mpr ⟨i, listed, decide_eq_true rfl⟩
  obtain ⟨j, hj⟩ := Option.isSome_iff_exists.mp found
  have same : sp.childNames j = sp.childNames i := of_decide_eq_true (List.find?_some hj :)
  rw [hj, distinct same]

def tooHigh (status : BatteryStatus) (targetCurrentMA : ℤ) : Bool :=
  (targetCurrentMA ≥ 0 && targetCurrentMA > status.maxDischargingCurrentMA) ||
    (targetCurrentMA < 0 && -targetCurrentMA > status.maxChargingCurrentMA)

/-- What a request of a child makes of the splitter, and the request that is forwarded. -/
def prepare (sp : BALSplitter n) (timeAdded timeAdded' : ℤ) (childId : Fin n) (r : Request) :
    BALSplitter n × Request :=
  let (upToSet, removed, left) := previewOf childId r.whenToSet r.untilWhen r.whenToSet
    sp.childrenCurrentNow sp.battery.eventQueue.elems
  let totalCurrentsToSet := ∑ i, if i = childId then r.targetCurrentMA else upToSet i
  let (upToNow, removed', _) := previewOf childId r.whenToSet r.untilWhen r.untilWhen upToSet left
  let b := sp.battery.remove (removed ++ removed')
  let b := b.emplace timeAdded r.whenToSet .setCurrent
    ⟨r.targetCurrentMA, r.isGreaterThanTarget⟩ childId
  let b := b.emplace timeAdded' r.untilWhen .setCurrentEnd
    ⟨upToNow childId, r.isGreaterThanTarget⟩ childId
  ({ sp with battery := b }, { r with targetCurrentMA := totalCurrentsToSet })

/-- `schedule_set_current_of`. `forward` is the source's `schedule_set_current` and the state that
it leaves the source in. -/
def scheduleSetCurrentOf {S : Type*} (forward : Request → Bool × S) (source : S)
    (now timeAdded timeAdded' : ℤ) (childName : String) (r : Request) (sp : BALSplitter n) :
    Bool × BALSplitter n × S :=
  if r.whenToSet < now then (false, sp, source)
  else match sp.nameLookup childName with
    | none => (false, sp, source)
    | some childId =>
      if tooHigh (sp.estimates.childrenStatusNow childId) r.targetCurrentMA then
        (false, sp, source)
      else
        let (sp, forwarded) := sp.prepare timeAdded timeAdded' childId r
        let (success, source) := forward forwarded
        (success, sp, source)

/-- `set_current`, on the child whose number the event carries. -/
def setCurrent (sp : BALSplitter n) (now : ℤ) (event : Event) : BALSplitter n :=
  let e := sp.estimates
  let hoursElapsed (i : Fin n) : ℚ :=
    (now - e.childrenLastChargeEstimateTimepoint i : ℤ) / (milliseconds 3600000 : ℤ)
  { sp with
    childrenCurrentNow := fun i =>
      if event.otherData = i then event.currentMA else sp.childrenCurrentNow i
    estimates := { e with
      childrenEstimatedChargeNow := fun i =>
        if event.otherData = i then
          e.childrenEstimatedChargeNow i - sp.childrenCurrentNow i * hoursElapsed i
        else e.childrenEstimatedChargeNow i
      childrenLastChargeEstimateTimepoint := fun i =>
        if event.otherData = i then now else e.childrenLastChargeEstimateTimepoint i } }

/-- The rule for splitters: all due events are carried out, each at its own reading of the clock. -/
def setAll (sp : BALSplitter n) : ℤ → List ℤ → List Event → BALSplitter n
  | _, _, [] => sp
  | now, readings, event :: rest =>
    setAll (sp.setCurrent now event) (readings.head?.getD now) readings.tail rest

/-- One round of `background_func` on a splitter. A refresh that is due leaves `refreshed`. -/
def backgroundFunc (now : ℤ) (readings : List ℤ) (setAt : ℤ) (settings : List ℤ)
    (refreshedAt timeAdded : ℤ) (refreshed : Estimates n) (sp : BALSplitter n) : BALSplitter n :=
  let (events, b) := sp.battery.takeDue now readings
  let sp := { sp with battery := b }.setAll setAt settings (events.filter Event.setsCurrent)
  let sp := if events.any (fun e => e.func = .refresh) ∧ sp.battery.refreshMode = .active then
      { sp with estimates := refreshed }
    else sp
  { sp with battery := sp.battery.requeueRefresh refreshedAt timeAdded events }

end BALSplitter

section Preview

variable {n : ℕ} (childId : Fin n) {whenToSet untilWhen bound : ℤ} {events : List Event}

theorem previewOf_resume (ordered : whenToSet ≤ untilWhen) (currentUpToNow : Fin n → ℤ)
    (events : List Event) :
    let first := previewOf childId whenToSet untilWhen whenToSet currentUpToNow events
    let second := previewOf childId whenToSet untilWhen untilWhen first.1 first.2.2
    previewOf childId whenToSet untilWhen untilWhen currentUpToNow events =
      (second.1, first.2.1 ++ second.2.1, second.2.2) := by
  induction events generalizing currentUpToNow with
  | nil => rfl
  | cons event rest ih =>
      by_cases stop : event.timepoint > whenToSet
      · simp only [previewOf, if_pos stop, List.nil_append]
      · have go : ¬ event.timepoint > untilWhen := by omega
        by_cases refresh : event.func = .refresh
        · simp only [previewOf, if_neg stop, if_neg go, if_pos refresh]
          exact ih currentUpToNow
        · have ih := ih (previewEvent currentUpToNow event)
          simp only at ih
          simp only [previewOf, if_neg stop, if_neg go, if_neg refresh, ih]
          split_ifs <;> simp

theorem beyond_of_sorted {event : Event} {rest : List Event}
    (sorted : (event :: rest).Pairwise fun x y => x.timepoint ≤ y.timepoint)
    (stop : event.timepoint > bound) : ∀ e ∈ event :: rest, decide (e.timepoint ≤ bound) = false := by
  intro e he
  rcases List.mem_cons.mp he with rfl | he
  · exact decide_eq_false (by omega)
  · have := (List.pairwise_cons.mp sorted).1 e he
    exact decide_eq_false (by omega)

theorem previewOf_current (sorted : events.Pairwise fun x y => x.timepoint ≤ y.timepoint)
    (currentUpToNow : Fin n → ℤ) (i : Fin n) :
    (previewOf childId whenToSet untilWhen bound currentUpToNow events).1 i =
      ((events.filter fun e => (e.previewed && e.otherData = (i : ℕ)) && decide
        (e.timepoint ≤ bound)).getLast?.map Event.currentMA).getD (currentUpToNow i) := by
  induction events generalizing currentUpToNow with
  | nil => rfl
  | cons event rest ih =>
      have tail := (List.pairwise_cons.mp sorted).2
      by_cases stop : event.timepoint > bound
      · have beyond := beyond_of_sorted sorted stop
        rw [previewOf, if_pos stop, List.filter_eq_nil_iff.mpr fun e he => by simp [beyond e he]]
        rfl
      by_cases refresh : event.func = .refresh
      · have skipped : event.previewed = false := by simp [Event.previewed, refresh]
        rw [previewOf, if_neg stop, if_pos refresh, ih tail, List.filter_cons_of_neg (by simp [skipped])]
      · have taken : event.previewed = true := by simp [Event.previewed, refresh]
        have onward : (previewOf childId whenToSet untilWhen bound currentUpToNow (event :: rest)).1 i =
            (previewOf childId whenToSet untilWhen bound (previewEvent currentUpToNow event) rest).1
              i := by
          rw [previewOf, if_neg stop, if_neg refresh]
          dsimp only
          split_ifs <;> rfl
        have within : event.timepoint ≤ bound := by omega
        rw [onward, ih tail, previewEvent]
        split_ifs with own
        · rw [List.filter_cons_of_pos (by simp [taken, own, within])]
          exact (OrderedSet.getD_getLast?_cons Event.currentMA _).symm
        · rw [List.filter_cons_of_neg (by simp [own])]

theorem previewOf_removed (sorted : events.Pairwise fun x y => x.timepoint ≤ y.timepoint)
    (currentUpToNow : Fin n → ℤ) :
    (previewOf childId whenToSet untilWhen bound currentUpToNow events).2.1 =
      events.filter fun e => (e.previewed && e.otherData = (childId : ℕ)) && decide
        (e.timepoint ≤ bound) && decide (whenToSet ≤ e.timepoint ∧ e.timepoint ≤ untilWhen) := by
  induction events generalizing currentUpToNow with
  | nil => rfl
  | cons event rest ih =>
      have tail := (List.pairwise_cons.mp sorted).2
      by_cases stop : event.timepoint > bound
      · have beyond := beyond_of_sorted sorted stop
        rw [previewOf, if_pos stop, List.filter_eq_nil_iff.mpr fun e he => by simp [beyond e he]]
      by_cases refresh : event.func = .refresh
      · have skipped : event.previewed = false := by simp [Event.previewed, refresh]
        rw [previewOf, if_neg stop, if_pos refresh, ih tail, List.filter_cons_of_neg (by simp [skipped])]
      · have taken : event.previewed = true := by simp [Event.previewed, refresh]
        have within : event.timepoint ≤ bound := by omega
        rw [previewOf, if_neg stop, if_neg refresh]
        dsimp only
        split_ifs with own
        · rw [List.filter_cons_of_pos (by simp [taken, own, within]), ih tail]
        · rw [List.filter_cons_of_neg (by simpa [taken, within] using own), ih tail]

end Preview

namespace BALSplitter

variable {n : ℕ} {sp sp' : BALSplitter n} {childId : Fin n} {r : Request}
  {now timeAdded timeAdded' t : ℤ}

def ofChild (i : Fin n) (e : Event) : Bool := e.setsCurrent && e.otherData = (i : ℕ)

def scheduledOf (sp : BALSplitter n) (i : Fin n) (t : ℤ) : ℤ :=
  sp.battery.eventQueue.valueAt Event.timepoint Event.currentMA (ofChild i)
    (sp.childrenCurrentNow i) t

def others (sp : BALSplitter n) (childId : Fin n) (t : ℤ) : ℤ :=
  ∑ i ∈ Finset.univ.erase childId, sp.scheduledOf i t

theorem sum_replaced (childId : Fin n) (target : ℤ) (current : Fin n → ℤ) :
    (∑ i, if i = childId then target else current i) =
      target + ∑ i ∈ Finset.univ.erase childId, current i := by
  rw [← Finset.add_sum_erase _ _ (Finset.mem_univ childId), if_pos rfl]
  exact congrArg _ (Finset.sum_congr rfl fun i hi => if_neg (Finset.ne_of_mem_erase hi))

theorem previewed_eq_scheduledOf (childId : Fin n) (h : sp.battery.Queued)
    (whenToSet untilWhen bound : ℤ) (i : Fin n) :
    (previewOf childId whenToSet untilWhen bound sp.childrenCurrentNow
      sp.battery.eventQueue.elems).1 i = sp.scheduledOf i bound := by
  rw [previewOf_current childId sp.battery.eventQueue.sorted_timepoint, scheduledOf, OrderedSet.valueAt,
    OrderedSet.lastWhere]
  congr 3
  refine List.filter_congr fun e he => ?_
  rw [ofChild, h.setsCurrent_iff he]

def superseded (childId : Fin n) (r : Request) (e : Event) : Bool :=
  (e.previewed && e.otherData = (childId : ℕ)) && decide (e.timepoint ≤ r.untilWhen) &&
    decide (r.whenToSet ≤ e.timepoint ∧ e.timepoint ≤ r.untilWhen)

def afterRequest (sp : BALSplitter n) (timeAdded timeAdded' : ℤ) (childId : Fin n) (r : Request) :
    BALSplitter n :=
  { sp with
    battery := sp.battery.replaced (superseded childId r) timeAdded timeAdded' r.whenToSet
      r.untilWhen ⟨r.targetCurrentMA, r.isGreaterThanTarget⟩
      ⟨sp.scheduledOf childId r.untilWhen, r.isGreaterThanTarget⟩ childId }

def forwarded (sp : BALSplitter n) (childId : Fin n) (r : Request) : Request :=
  { r with targetCurrentMA := r.targetCurrentMA + sp.others childId r.whenToSet }

theorem prepare_eq (h : sp.battery.Queued) (ordered : r.whenToSet ≤ r.untilWhen) :
    sp.prepare timeAdded timeAdded' childId r = (sp.afterRequest timeAdded timeAdded' childId r,
      sp.forwarded childId r) := by
  have resume := previewOf_resume childId ordered sp.childrenCurrentNow sp.battery.eventQueue.elems
  have upToSet := previewed_eq_scheduledOf childId h r.whenToSet r.untilWhen r.whenToSet
  have upToNow := (congrFun (congrArg Prod.fst resume) childId).symm.trans
    (previewed_eq_scheduledOf childId h r.whenToSet r.untilWhen r.untilWhen childId)
  have removed := (congrArg (fun preview => preview.2.1) resume).symm.trans
    (previewOf_removed childId sp.battery.eventQueue.sorted_timepoint sp.childrenCurrentNow)
  dsimp only at upToNow removed
  simp only [prepare, removed, upToNow, upToSet, sum_replaced]
  rfl

theorem mem_afterRequest_other (h : sp.battery.Queued) {i : Fin n} (other : i ≠ childId) {e : Event}
    (kind : ofChild i e = true) :
    e ∈ (sp.afterRequest timeAdded timeAdded' childId r).battery.eventQueue ↔
      e ∈ sp.battery.eventQueue := by
  obtain ⟨-, data⟩ := Bool.and_eq_true_iff.mp kind
  have data : e.otherData = (i : ℕ) := of_decide_eq_true data
  have other : e.otherData ≠ (childId : ℕ) := fun same => other (Fin.ext (data.symm.trans same))
  rw [afterRequest, h.mem_replaced]
  simp only [superseded, decide_eq_false other, Bool.and_false, Bool.false_and, and_true, or_assoc]
  refine or_iff_left ?_
  rintro (rfl | rfl) <;> exact other rfl

theorem scheduledOf_afterRequest (h : sp.battery.Queued) (ordered : r.whenToSet ≤ r.untilWhen)
    (clock : timeAdded ≤ timeAdded') (i : Fin n) (t : ℤ) :
    (sp.afterRequest timeAdded timeAdded' childId r).scheduledOf i t =
      if i = childId ∧ r.whenToSet ≤ t ∧ t < r.untilWhen then r.targetCurrentMA
      else sp.scheduledOf i t := by
  by_cases own : i = childId
  · subst own
    rw [if_congr (and_iff_right rfl) rfl rfl]
    refine (h.overrides (q := ofChild i) _ _ _ ordered clock (by simp [ofChild, Event.setsCurrent])
      fun e he kind => ?_).valueAt Event.timepoint_le_of_key_le rfl t
    rw [ofChild, h.setsCurrent_iff he] at kind
    simp [superseded, kind]
  · rw [if_neg fun both => own both.1]
    exact OrderedSet.valueAt_congr fun e kind => mem_afterRequest_other h own kind

/-- A request is accepted only when its child is known and the source accepts what is forwarded. -/
theorem scheduleSetCurrentOf_spec {S : Type*} {forward : Request → Bool × S} {source : S}
    {childName : String} (h : sp.battery.Queued) (ordered : r.whenToSet ≤ r.untilWhen)
    (accepted : (sp.scheduleSetCurrentOf forward source now timeAdded timeAdded' childName r).1) :
    ∃ childId ∈ sp.nameLookup childName, (forward (sp.forwarded childId r)).1 = true ∧
      (sp.scheduleSetCurrentOf forward source now timeAdded timeAdded' childName r).2 =
        (sp.afterRequest timeAdded timeAdded' childId r, (forward (sp.forwarded childId r)).2) := by
  unfold scheduleSetCurrentOf at accepted ⊢
  split_ifs at accepted ⊢ with late
  cases known : sp.nameLookup childName with
  | none =>
      rw [known] at accepted
      cases accepted
  | some childId =>
      rw [known] at accepted
      dsimp only at accepted ⊢
      split_ifs at accepted ⊢ with high
      rw [prepare_eq h ordered] at accepted ⊢
      exact ⟨childId, rfl, accepted, rfl⟩

theorem setAll_battery (now : ℤ) (readings : List ℤ) (events : List Event) :
    (sp.setAll now readings events).battery = sp.battery := by
  induction events generalizing sp now readings with
  | nil => rfl
  | cons event rest ih => exact ih _ _

theorem setAll_current (now : ℤ) (readings : List ℤ) (events : List Event) (i : Fin n) :
    (sp.setAll now readings events).childrenCurrentNow i =
      ((events.filter fun e => e.otherData = (i : ℕ)).getLast?.map Event.currentMA).getD
        (sp.childrenCurrentNow i) := by
  induction events generalizing sp now readings with
  | nil => rfl
  | cons event rest ih =>
      rw [setAll, ih, setCurrent]
      dsimp only
      split_ifs with own
      · rw [List.filter_cons_of_pos (by simp [own])]
        exact (OrderedSet.getD_getLast?_cons Event.currentMA _).symm
      · rw [List.filter_cons_of_neg (by simp [own])]

theorem queued_backgroundFunc (h : sp.battery.Queued) (now : ℤ) (readings : List ℤ) (setAt : ℤ)
    (settings : List ℤ) (refreshedAt timeAdded : ℤ) (refreshed : Estimates n) :
    (sp.backgroundFunc now readings setAt settings refreshedAt timeAdded
      refreshed).battery.Queued := by
  have taken := h.remove_prefix (dueEvents_spec now readings _).1
  unfold backgroundFunc
  dsimp only [Battery.takeDue]
  refine Battery.Queued.requeueRefresh ?_ refreshedAt timeAdded _
  split_ifs <;>
  · rw [setAll_battery]
    exact taken

theorem scheduledOf_setAll {events : List Event} (front : events <+: sp.battery.eventQueue.elems)
    (past : ∀ e ∈ events, e.timepoint ≤ t) (setAt : ℤ) (settings : List ℤ) (i : Fin n) :
    ({ sp with battery := sp.battery.remove events }.setAll setAt settings
      (events.filter Event.setsCurrent)).scheduledOf i t = sp.scheduledOf i t := by
  have ofEach : (events.filter Event.setsCurrent).filter (fun e => e.otherData = (i : ℕ)) =
      events.filter (ofChild i) := by
    rw [List.filter_filter]
    exact List.filter_congr fun e _ => Bool.and_comm _ _
  rw [scheduledOf, setAll_battery, setAll_current, ofEach]
  exact OrderedSet.valueAt_of_due (Battery.remove_prefix front) past le_rfl

theorem ofChild_ne_refresh (i : Fin n) (e : Event) (kind : ofChild i e = true) :
    e.func ≠ .refresh :=
  Battery.setsCurrent_ne_refresh e (Bool.and_eq_true_iff.mp kind).1

theorem scheduledOf_backgroundFunc {readings : List ℤ} (hnow : now ≤ t)
    (hreadings : ∀ x ∈ readings, x ≤ t) (setAt : ℤ) (settings : List ℤ)
    (refreshedAt timeAdded : ℤ) (refreshed : Estimates n) (i : Fin n) :
    (sp.backgroundFunc now readings setAt settings refreshedAt timeAdded refreshed).scheduledOf i t =
      sp.scheduledOf i t := by
  obtain ⟨front, past⟩ := dueEvents_spec now readings sp.battery.eventQueue.elems
  have taken := scheduledOf_setAll front (past t hnow hreadings) setAt settings i
  unfold backgroundFunc
  dsimp only [Battery.takeDue]
  split_ifs <;>
  exact (Battery.valueAt_requeueRefresh (ofChild_ne_refresh i) refreshedAt timeAdded _ t).trans taken

end BALSplitter

end BatteryOS.V2
