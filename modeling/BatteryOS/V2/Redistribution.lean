import BatteryOS.Library.Spill
import BatteryOS.Library.Truncation
import BatteryOS.V2.Splitter

/-! The refreshes of the policies that reserve. Every child is first given what it was promised,
and the source is charged for it. What the source then has too much or too little goes from child
to child, one field after the other. -/

namespace BatteryOS.V2

inductive Field
  | current
  | capacity
  | maxCapacity
  | maxChargingCurrent
  | maxDischargingCurrent
deriving DecidableEq

namespace Field

def get : Field → BatteryStatus → ℤ
  | current => BatteryStatus.currentMA
  | capacity => BatteryStatus.capacityMAh
  | maxCapacity => BatteryStatus.maxCapacityMAh
  | maxChargingCurrent => BatteryStatus.maxChargingCurrentMA
  | maxDischargingCurrent => BatteryStatus.maxDischargingCurrentMA

def set (f : Field) (status : BatteryStatus) (value : ℤ) : BatteryStatus :=
  match f with
  | current => { status with currentMA := value }
  | capacity => { status with capacityMAh := value }
  | maxCapacity => { status with maxCapacityMAh := value }
  | maxChargingCurrent => { status with maxChargingCurrentMA := value }
  | maxDischargingCurrent => { status with maxDischargingCurrentMA := value }

variable {f g : Field} {status : BatteryStatus} {value : ℤ}

@[simp] theorem get_set : f.get (f.set status value) = value := by
  cases f <;> rfl

theorem get_set_of_ne (h : g ≠ f) : g.get (f.set status value) = g.get status := by
  cases f <;> cases g <;> first | rfl | exact absurd rfl h

end Field

/-- The children of a policy in the directory, by their numbers, where each is attached once. -/
structure Children (n : ℕ) where
  ids : List (Fin n)
  nodup : ids.Nodup
  complete : ∀ i, i ∈ ids

/-- What a refresh works on: the statuses of the children, and its copy of the source's, of which
it takes away what it gives out. -/
structure Distribution (n : ℕ) where
  childrenStatusNow : Fin n → BatteryStatus
  sourceStatus : BatteryStatus

namespace Distribution

variable {n : ℕ}

/-- The children are given a field of the source, each as far as it `exceeds` nothing and otherwise
its bound. -/
def rule (f : Field) (exceeds : BatteryStatus → ℤ → Bool) (bound : BatteryStatus → ℤ) :
    Spill.Rule BatteryStatus ℤ :=
  ⟨f.get, f.set, exceeds, bound, fun _ _ => f.get_set⟩

def pour (f : Field) (exceeds : BatteryStatus → ℤ → Bool) (bound : BatteryStatus → ℤ)
    (order : List (Fin n)) (d : Distribution n) : Spill.Poured (Fin n) BatteryStatus ℤ :=
  Spill.pour (rule f exceeds bound) order d.childrenStatusNow (f.get d.sourceStatus)

def upward (f : Field) (exceeds : BatteryStatus → ℤ → Bool) (bound : BatteryStatus → ℤ)
    (d : Distribution n) : Distribution n :=
  let poured := d.pour f exceeds bound (List.finRange n)
  ⟨poured.slots, f.set d.sourceStatus poured.left⟩

/-- A loop from the last child down. Its index is unsigned, so that it does not stop below the
first: it is in range only when it breaks. -/
def downward (f : Field) (exceeds : BatteryStatus → ℤ → Bool) (bound : BatteryStatus → ℤ)
    (d : Distribution n) : Option (Distribution n) :=
  let poured := d.pour f exceeds bound (List.finRange n).reverse
  if poured.settled then some ⟨poured.slots, f.set d.sourceStatus poured.left⟩ else none

/-- `DISTRIBUTE_MAX_STATUS`. A surplus is given to one child, and stays in the copy. -/
def distributeMaxStatus (f : Field) (benefit : Fin n) (d : Distribution n) :
    Option (Distribution n) :=
  if 0 ≤ f.get d.sourceStatus then
    let status := d.childrenStatusNow benefit
    let given := f.set status (f.get status + f.get d.sourceStatus)
    some { d with childrenStatusNow := Function.update d.childrenStatusNow benefit given }
  else d.downward f (fun _ held => held < 0) fun _ => 1

def exceedsDischarging (status : BatteryStatus) (currentMA : ℤ) : Bool :=
  if 0 ≤ status.currentMA then status.maxDischargingCurrentMA < currentMA else 0 < currentMA

def boundDischarging (status : BatteryStatus) : ℤ :=
  if 0 ≤ status.currentMA then status.maxDischargingCurrentMA else 0

def exceedsCharging (status : BatteryStatus) (currentMA : ℤ) : Bool :=
  if 0 ≤ status.currentMA then currentMA < 0 else status.maxChargingCurrentMA < -currentMA

def boundCharging (status : BatteryStatus) : ℤ :=
  if 0 ≤ status.currentMA then 0 else -status.maxChargingCurrentMA

def exceedsCapacity (status : BatteryStatus) (capacityMAh : ℤ) : Bool :=
  status.maxCapacityMAh < capacityMAh

def exhausted (_ : BatteryStatus) (capacityMAh : ℤ) : Bool := capacityMAh ≤ 0

def distributeCurrentTranche (d : Distribution n) : Option (Distribution n) :=
  if 0 ≤ d.sourceStatus.currentMA then d.downward .current exceedsDischarging boundDischarging
  else some (d.upward .current exceedsCharging boundCharging)

def distributeCurrentReservation (d : Distribution n) : Option (Distribution n) :=
  if 0 ≤ d.sourceStatus.currentMA then d.downward .current exceedsDischarging boundDischarging
  else d.downward .current exceedsCharging boundCharging

def distributeCapacityTranche (d : Distribution n) : Option (Distribution n) :=
  if 0 ≤ d.sourceStatus.capacityMAh then
    some (d.upward .capacity exceedsCapacity BatteryStatus.maxCapacityMAh)
  else d.downward .capacity exhausted fun _ => 1

def distributeCapacityReservation (d : Distribution n) : Option (Distribution n) :=
  if 0 ≤ d.sourceStatus.capacityMAh then
    d.downward .capacity exceedsCapacity BatteryStatus.maxCapacityMAh
  else d.downward .capacity exhausted fun _ => 1

/-- The first child gets what the source can do more than was promised. -/
def distributeTranche (d : Distribution (n + 1)) : Option (Distribution (n + 1)) := do
  let d ← d.distributeMaxStatus .maxChargingCurrent 0
  let d ← d.distributeMaxStatus .maxDischargingCurrent 0
  let d ← d.distributeMaxStatus .maxCapacity 0
  let d ← d.distributeCurrentTranche
  d.distributeCapacityTranche

def distributeReservation (d : Distribution (n + 1)) : Option (Distribution (n + 1)) := do
  let d ← d.distributeMaxStatus .maxChargingCurrent (Fin.last n)
  let d ← d.distributeMaxStatus .maxDischargingCurrent (Fin.last n)
  let d ← d.distributeMaxStatus .maxCapacity (Fin.last n)
  let d ← d.distributeCurrentReservation
  d.distributeCapacityReservation

end Distribution

namespace BALSplitter

variable {n : ℕ}

/-- The first loop of a refresh: the charge of each child up to now. -/
def estimateCharge (sp : BALSplitter n) (now : ℤ) : BALSplitter n :=
  let e := sp.estimates
  let hoursElapsed (i : Fin n) : ℚ :=
    (now - e.childrenLastChargeEstimateTimepoint i : ℤ) / (milliseconds 3600000 : ℤ)
  { sp with
    estimates := { e with
      childrenEstimatedChargeNow := fun i =>
        e.childrenEstimatedChargeNow i - sp.childrenCurrentNow i * hoursElapsed i
      childrenLastChargeEstimateTimepoint := fun _ => now } }

/-- What a child was promised: what it asked for, the charge that it should have and the limits of
its original status. -/
def promised (sp : BALSplitter n) (childOriginalStatus : Fin n → BatteryStatus)
    (sourceStatus : BatteryStatus) (cid : Fin n) : BatteryStatus where
  voltageMV := sourceStatus.voltageMV
  currentMA := sp.childrenCurrentNow cid
  capacityMAh := Truncation.truncate (sp.estimates.childrenEstimatedChargeNow cid)
  maxCapacityMAh := (childOriginalStatus cid).maxCapacityMAh
  maxChargingCurrentMA := (childOriginalStatus cid).maxChargingCurrentMA
  maxDischargingCurrentMA := (childOriginalStatus cid).maxDischargingCurrentMA
  timestamp := sourceStatus.timestamp

/-- The second loop, over the children in the directory. -/
def reserve (sp : BALSplitter n) (childOriginalStatus : Fin n → BatteryStatus) :
    List (Fin n) → Distribution n → Distribution n
  | [], d => d
  | cid :: rest, d =>
    let source := d.sourceStatus
    let cstatus := sp.promised childOriginalStatus source cid
    sp.reserve childOriginalStatus rest
      { childrenStatusNow := Function.update d.childrenStatusNow cid cstatus
        sourceStatus := { source with
          currentMA := source.currentMA - cstatus.currentMA
          capacityMAh := source.capacityMAh - cstatus.capacityMAh
          maxCapacityMAh := source.maxCapacityMAh - cstatus.maxCapacityMAh
          maxChargingCurrentMA := source.maxChargingCurrentMA - cstatus.maxChargingCurrentMA
          maxDischargingCurrentMA :=
            source.maxDischargingCurrentMA - cstatus.maxDischargingCurrentMA } }

def reserved (sp : BALSplitter n) (ids : List (Fin n)) (childOriginalStatus : Fin n → BatteryStatus)
    (sourceStatus : BatteryStatus) : Distribution n :=
  sp.reserve childOriginalStatus ids ⟨sp.estimates.childrenStatusNow, sourceStatus⟩

/-- The splitter with the statuses that a refresh has worked out, and what it has not given out of
the source's. -/
def report (sp : BALSplitter n) (d : Distribution n) : BALSplitter n × BatteryStatus :=
  ({ sp with estimates := { sp.estimates with childrenStatusNow := d.childrenStatusNow } },
    d.sourceStatus)

/-- `refresh_tranche`, on the children that the directory has; `none` when one of its loops runs out
of range. -/
def refreshTranche (ids : List (Fin (n + 1))) (childOriginalStatus : Fin (n + 1) → BatteryStatus)
    (sourceStatus : BatteryStatus) (now : ℤ) (sp : BALSplitter (n + 1)) :
    Option (BALSplitter (n + 1) × BatteryStatus) :=
  let sp := sp.estimateCharge now
  (sp.reserved ids childOriginalStatus sourceStatus).distributeTranche.map sp.report

def refreshReservation (ids : List (Fin (n + 1)))
    (childOriginalStatus : Fin (n + 1) → BatteryStatus) (sourceStatus : BatteryStatus) (now : ℤ)
    (sp : BALSplitter (n + 1)) : Option (BALSplitter (n + 1) × BatteryStatus) :=
  let sp := sp.estimateCharge now
  (sp.reserved ids childOriginalStatus sourceStatus).distributeReservation.map sp.report

/-- What a child has once those in the list are given what they were promised. -/
def held (sp : BALSplitter n) (ids : List (Fin n)) (childOriginalStatus : Fin n → BatteryStatus)
    (sourceStatus : BatteryStatus) (i : Fin n) : BatteryStatus :=
  if i ∈ ids then sp.promised childOriginalStatus sourceStatus i
  else sp.estimates.childrenStatusNow i

/-- What the source is charged for them. -/
def charged (sp : BALSplitter n) (ids : List (Fin n)) (childOriginalStatus : Fin n → BatteryStatus)
    (sourceStatus : BatteryStatus) (f : Field) : ℤ :=
  (ids.map fun i => f.get (sp.promised childOriginalStatus sourceStatus i)).sum

/-- What there is to divide: what the source has, and what the children have without a charge. -/
def supply (sp : BALSplitter n) (ids : List (Fin n)) (childOriginalStatus : Fin n → BatteryStatus)
    (sourceStatus : BatteryStatus) (f : Field) : ℤ :=
  f.get sourceStatus + (∑ i, f.get (sp.held ids childOriginalStatus sourceStatus i) -
    sp.charged ids childOriginalStatus sourceStatus f)

end BALSplitter

/-! ### Nothing is lost -/

/-- What has not been given to a child. The surplus of a maximum has, though it stays in the copy
of the source's status. -/
def undistributed (sourceStatus : BatteryStatus) : Field → ℤ
  | .current => sourceStatus.currentMA
  | .capacity => sourceStatus.capacityMAh
  | .maxCapacity => min sourceStatus.maxCapacityMAh 0
  | .maxChargingCurrent => min sourceStatus.maxChargingCurrentMA 0
  | .maxDischargingCurrent => min sourceStatus.maxDischargingCurrentMA 0

theorem undistributed_congr {f : Field} {status status' : BatteryStatus}
    (same : f.get status = f.get status') : undistributed status f = undistributed status' f := by
  cases f <;> simp_all [undistributed, Field.get]

theorem undistributed_of_eq_zero {f : Field} {status : BatteryStatus} (zero : f.get status = 0) :
    undistributed status f = 0 := by
  cases f <;> simp_all [undistributed, Field.get]

theorem undistributed_maximum {f : Field} {status : BatteryStatus}
    (maximum : f ≠ .current ∧ f ≠ .capacity) (surplus : 0 ≤ f.get status) :
    undistributed status f = 0 := by
  cases f <;> simp_all [undistributed, Field.get]

namespace Distribution

variable {n : ℕ} {d d' d'' : Distribution n} {f : Field}
  {exceeds : BatteryStatus → ℤ → Bool} {bound : BatteryStatus → ℤ}

def total (d : Distribution n) (f : Field) : ℤ := ∑ i, f.get (d.childrenStatusNow i)

structure Redistributes (f : Field) (d d' : Distribution n) : Prop where
  conserves : d'.total f + undistributed d'.sourceStatus f = d.total f + f.get d.sourceStatus
  children : ∀ g ≠ f, ∀ i, g.get (d'.childrenStatusNow i) = g.get (d.childrenStatusNow i)
  source : ∀ g ≠ f, g.get d'.sourceStatus = g.get d.sourceStatus

theorem Redistributes.total {g : Field} (h : Redistributes g d d') (ne : f ≠ g) :
    d'.total f = d.total f :=
  Finset.sum_congr rfl fun i _ => h.children f ne i

theorem redistributes_pour {order : List (Fin n)}
    (left : undistributed (f.set d.sourceStatus (d.pour f exceeds bound order).left) f =
      (d.pour f exceeds bound order).left) :
    Redistributes f d ⟨(d.pour f exceeds bound order).slots,
      f.set d.sourceStatus (d.pour f exceeds bound order).left⟩ where
  conserves := by
    rw [left]
    exact Spill.sum_pour (rule f exceeds bound) order d.childrenStatusNow _
  children g ne i := Spill.slots_congr (fun _ _ => Field.get_set_of_ne ne) i
  source _ ne := Field.get_set_of_ne ne

theorem redistributes_upward_current :
    Redistributes .current d (d.upward .current exceeds bound) :=
  redistributes_pour rfl

theorem redistributes_upward_capacity :
    Redistributes .capacity d (d.upward .capacity exceeds bound) :=
  redistributes_pour rfl

theorem redistributes_downward (h : d.downward f exceeds bound = some d') :
    Redistributes f d d' := by
  obtain ⟨settled, after⟩ := Option.ite_none_right_eq_some.mp h
  obtain rfl := Option.some.inj after
  have zero : (d.pour f exceeds bound (List.finRange n).reverse).left = 0 :=
    Spill.left_of_settled settled
  exact redistributes_pour (by rw [undistributed_of_eq_zero (Field.get_set.trans zero), zero])

theorem redistributes_distributeMaxStatus {benefit : Fin n}
    (maximum : f ≠ .current ∧ f ≠ .capacity)
    (h : d.distributeMaxStatus f benefit = some d') : Redistributes f d d' := by
  unfold distributeMaxStatus at h
  split_ifs at h with surplus
  · obtain rfl := Option.some.inj h
    refine ⟨?_, fun g ne i => ?_, fun _ _ => rfl⟩
    · rw [undistributed_maximum maximum surplus, add_zero]
      have given := Spill.sum_update f.get d.childrenStatusNow benefit
      simp only [total, given, Field.get_set, add_sub_cancel_left]
    · dsimp only
      rw [Function.update_apply]
      split_ifs with same
      · rw [Field.get_set_of_ne ne, same]
      · rfl
  · exact redistributes_downward h

inductive Passes : List Field → Distribution n → Distribution n → Prop
  | nil (start : Distribution n) : Passes [] start start
  | cons {field : Field} {fields : List Field} {start next finish : Distribution n}
    (first : Redistributes field start next) (rest : Passes fields next finish) :
    Passes (field :: fields) start finish

theorem Passes.unchanged {fields : List Field} (h : Passes fields d d') (other : f ∉ fields) :
    d'.total f = d.total f ∧ f.get d'.sourceStatus = f.get d.sourceStatus := by
  induction h with
  | nil => exact ⟨rfl, rfl⟩
  | cons first rest ih =>
      obtain ⟨ne, later⟩ := not_or.mp (List.mem_cons.not.mp other)
      obtain ⟨children, source⟩ := ih later
      exact ⟨children.trans (first.total ne), source.trans (first.source f ne)⟩

theorem Passes.conserves {fields : List Field} (h : Passes fields d d') (distinct : fields.Nodup)
    (passed : f ∈ fields) :
    d'.total f + undistributed d'.sourceStatus f = d.total f + f.get d.sourceStatus := by
  induction h with
  | nil => cases passed
  | @cons g _ _ _ _ first rest ih =>
      obtain ⟨apart, distinct⟩ := List.nodup_cons.mp distinct
      rcases List.mem_cons.mp passed with rfl | later
      · obtain ⟨children, source⟩ := rest.unchanged apart
        rw [children, undistributed_congr source, first.conserves]
      · have ne : f ≠ g := fun same => apart (same ▸ later)
        rw [ih distinct later, first.source f ne, first.total ne]

def fieldOrder : List Field :=
  [.maxChargingCurrent, .maxDischargingCurrent, .maxCapacity, .current, .capacity]

theorem mem_fieldOrder (f : Field) : f ∈ fieldOrder := by
  cases f <;> decide

theorem nodup_fieldOrder : fieldOrder.Nodup := by decide

/-- Both refreshes: the maxima first, then the current and the charge, each in its own way. -/
theorem passes_of_steps {benefit : Fin n}
    {currentStep capacityStep : Distribution n → Option (Distribution n)}
    (current : ∀ {d d'}, currentStep d = some d' → Redistributes .current d d')
    (capacity : ∀ {d d'}, capacityStep d = some d' → Redistributes .capacity d d')
    (h : ((d.distributeMaxStatus .maxChargingCurrent benefit).bind fun d =>
      (d.distributeMaxStatus .maxDischargingCurrent benefit).bind fun d =>
        (d.distributeMaxStatus .maxCapacity benefit).bind fun d =>
          (currentStep d).bind capacityStep) = some d') :
    Passes fieldOrder d d' := by
  obtain ⟨d₁, charging, h⟩ := Option.bind_eq_some_iff.mp h
  obtain ⟨d₂, discharging, h⟩ := Option.bind_eq_some_iff.mp h
  obtain ⟨d₃, maxCapacity, h⟩ := Option.bind_eq_some_iff.mp h
  obtain ⟨d₄, currentRun, capacityRun⟩ := Option.bind_eq_some_iff.mp h
  have maximum := redistributes_distributeMaxStatus (by decide) charging
  have maximum' := redistributes_distributeMaxStatus (by decide) discharging
  have maximum'' := redistributes_distributeMaxStatus (by decide) maxCapacity
  exact .cons maximum (.cons maximum' (.cons maximum''
    (.cons (current currentRun) (.cons (capacity capacityRun) (.nil d')))))

theorem redistributes_currentTranche (h : d.distributeCurrentTranche = some d') :
    Redistributes .current d d' := by
  unfold distributeCurrentTranche at h
  split_ifs at h
  · exact redistributes_downward h
  · obtain rfl := Option.some.inj h
    exact redistributes_upward_current

theorem redistributes_currentReservation (h : d.distributeCurrentReservation = some d') :
    Redistributes .current d d' := by
  unfold distributeCurrentReservation at h
  split_ifs at h <;> exact redistributes_downward h

theorem redistributes_capacityTranche (h : d.distributeCapacityTranche = some d') :
    Redistributes .capacity d d' := by
  unfold distributeCapacityTranche at h
  split_ifs at h
  · obtain rfl := Option.some.inj h
    exact redistributes_upward_capacity
  · exact redistributes_downward h

theorem redistributes_capacityReservation (h : d.distributeCapacityReservation = some d') :
    Redistributes .capacity d d' := by
  unfold distributeCapacityReservation at h
  split_ifs at h <;> exact redistributes_downward h

theorem passes_tranche {d d' : Distribution (n + 1)} (h : d.distributeTranche = some d') :
    Passes fieldOrder d d' :=
  passes_of_steps redistributes_currentTranche redistributes_capacityTranche h

theorem passes_reservation {d d' : Distribution (n + 1)}
    (h : d.distributeReservation = some d') : Passes fieldOrder d d' :=
  passes_of_steps redistributes_currentReservation redistributes_capacityReservation h

end Distribution

namespace BALSplitter

variable {n : ℕ} {sp : BALSplitter n} {childOriginalStatus : Fin n → BatteryStatus}
  {ids : List (Fin n)} {d : Distribution n} {f : Field}

theorem get_promised (f : Field) (sourceStatus sourceStatus' : BatteryStatus) (cid : Fin n) :
    f.get (sp.promised childOriginalStatus sourceStatus cid) =
      f.get (sp.promised childOriginalStatus sourceStatus' cid) := by
  cases f <;> rfl

theorem reserve_child (sourceStatus : BatteryStatus) (i : Fin n) :
    f.get ((sp.reserve childOriginalStatus ids d).childrenStatusNow i) =
      if i ∈ ids then f.get (sp.promised childOriginalStatus sourceStatus i)
      else f.get (d.childrenStatusNow i) := by
  induction ids generalizing d with
  | nil => rfl
  | cons cid rest ih =>
      rw [reserve, ih]
      exact Spill.ite_mem_cons_update
        (fun i => f.get (sp.promised childOriginalStatus sourceStatus i)) (get_promised f _ _ cid)

theorem reserve_source (sourceStatus : BatteryStatus) :
    f.get (sp.reserve childOriginalStatus ids d).sourceStatus =
      f.get d.sourceStatus - sp.charged ids childOriginalStatus sourceStatus f := by
  induction ids generalizing d with
  | nil => simp [reserve, charged]
  | cons cid rest ih =>
      rw [reserve, ih, charged, charged, List.map_cons, List.sum_cons, ← sub_sub]
      congr 1
      rw [get_promised f sourceStatus d.sourceStatus]
      cases f <;> rfl

variable (sp ids childOriginalStatus)

theorem reserved_child (sourceStatus : BatteryStatus) (i : Fin n) :
    f.get ((sp.reserved ids childOriginalStatus sourceStatus).childrenStatusNow i) =
      f.get (sp.held ids childOriginalStatus sourceStatus i) := by
  rw [reserved, reserve_child sourceStatus, held, apply_ite f.get]

theorem reserved_source (sourceStatus : BatteryStatus) :
    f.get (sp.reserved ids childOriginalStatus sourceStatus).sourceStatus =
      sp.supply ids childOriginalStatus sourceStatus f -
        ∑ i, f.get (sp.held ids childOriginalStatus sourceStatus i) := by
  rw [reserved, reserve_source sourceStatus, supply]
  ring

theorem total_reserved (sourceStatus : BatteryStatus) :
    (sp.reserved ids childOriginalStatus sourceStatus).total f +
      f.get (sp.reserved ids childOriginalStatus sourceStatus).sourceStatus =
        sp.supply ids childOriginalStatus sourceStatus f := by
  rw [reserved_source, Distribution.total, Finset.sum_congr rfl fun i _ =>
    reserved_child sp childOriginalStatus ids sourceStatus i, add_sub_cancel]

variable {sp ids childOriginalStatus}

theorem supply_of_passes {sourceStatus : BatteryStatus}
    (h : Distribution.Passes Distribution.fieldOrder
      (sp.reserved ids childOriginalStatus sourceStatus) d) (f : Field) :
    d.total f + undistributed d.sourceStatus f =
      sp.supply ids childOriginalStatus sourceStatus f := by
  rw [h.conserves Distribution.nodup_fieldOrder (Distribution.mem_fieldOrder f), total_reserved]

theorem supply_of_refresh {ids : List (Fin (n + 1))}
    {childOriginalStatus : Fin (n + 1) → BatteryStatus} {sourceStatus left : BatteryStatus} {now : ℤ}
    {sp sp' : BALSplitter (n + 1)}
    (inRange : sp.refreshTranche ids childOriginalStatus sourceStatus now = some (sp', left) ∨
      sp.refreshReservation ids childOriginalStatus sourceStatus now = some (sp', left))
    (f : Field) :
    ∑ i, f.get (sp'.estimates.childrenStatusNow i) + undistributed left f =
      (sp.estimateCharge now).supply ids childOriginalStatus sourceStatus f := by
  rcases inRange with tranche | reservation
  · obtain ⟨d, run, result⟩ := Option.map_eq_some_iff.mp tranche
    obtain ⟨rfl, rfl⟩ := Prod.mk.inj result
    exact supply_of_passes (Distribution.passes_tranche run) f
  · obtain ⟨d, run, result⟩ := Option.map_eq_some_iff.mp reservation
    obtain ⟨rfl, rfl⟩ := Prod.mk.inj result
    exact supply_of_passes (Distribution.passes_reservation run) f

theorem supply_eq_iff {sourceStatus : BatteryStatus} :
    sp.supply ids childOriginalStatus sourceStatus f = f.get sourceStatus ↔
      ∑ i, f.get (sp.held ids childOriginalStatus sourceStatus i) =
        sp.charged ids childOriginalStatus sourceStatus f := by
  rw [supply, add_eq_left, sub_eq_zero]

/-- Whenever a refresh stays in range, the children and what is left undistributed are together
what the source has, in every field, exactly when the source is charged for all that the children
start with. -/
theorem redistribution_conserves_iff (ids : List (Fin (n + 1)))
    (childOriginalStatus : Fin (n + 1) → BatteryStatus) (sourceStatus : BatteryStatus) (now : ℤ)
    (sp sp' : BALSplitter (n + 1)) (left : BatteryStatus)
    (inRange : sp.refreshTranche ids childOriginalStatus sourceStatus now = some (sp', left) ∨
      sp.refreshReservation ids childOriginalStatus sourceStatus now = some (sp', left)) :
    (∀ f : Field, ∑ i, f.get (sp'.estimates.childrenStatusNow i) + undistributed left f =
        f.get sourceStatus) ↔
      ∀ f : Field,
        ∑ i, f.get ((sp.estimateCharge now).held ids childOriginalStatus sourceStatus i) =
          (sp.estimateCharge now).charged ids childOriginalStatus sourceStatus f := by
  refine forall_congr' fun f => ?_
  rw [supply_of_refresh inRange]
  exact supply_eq_iff

def half : BatteryStatus := ⟨12, 0, 500, 500, 100, 100, 0⟩

def dischargingAndCharging : BALSplitter 2 :=
  { new (fun i => if i.val = 0 then "a" else "b") ⟨fun _ => 0, fun _ => 500, fun _ => half⟩ 0 with
    childrenCurrentNow := fun i => if i.val = 0 then 20 else -30 }

/-- After an hour the source has less charge and a higher current than the two should have. -/
theorem redistribution_conserves_hour : ∃ sp' left,
    dischargingAndCharging.refreshTranche [0, 1] (fun _ => half)
      ⟨12, 40, 900, 1100, 190, 200, 0⟩ (milliseconds 3600000) = some (sp', left) ∧
    ∀ f : Field, ∑ i, f.get (sp'.estimates.childrenStatusNow i) + undistributed left f =
      f.get ⟨12, 40, 900, 1100, 190, 200, 0⟩ := by
  have inRange : (dischargingAndCharging.refreshTranche [0, 1] (fun _ => half)
      ⟨12, 40, 900, 1100, 190, 200, 0⟩ (milliseconds 3600000)).isSome = true := by decide +kernel
  obtain ⟨⟨sp', left⟩, run⟩ := Option.isSome_iff_exists.mp inRange
  refine ⟨sp', left, run, (redistribution_conserves_iff _ _ _ _ _ sp' left (.inl run)).mpr ?_⟩
  intro f
  cases f <;> decide +kernel

def idleHalves : BALSplitter 2 :=
  new (fun i => if i.val = 0 then "a" else "b") ⟨fun _ => 0, fun _ => 500, fun _ => half⟩ 0

/-- Only the first of them is in the directory, and it is given what the second has as well. -/
theorem unlisted_child_not_conserved : ∃ sp' left,
    idleHalves.refreshTranche [0] (fun _ => half) ⟨12, 0, 1000, 1000, 200, 200, 0⟩ 0 =
      some (sp', left) ∧
    ¬ ∀ f : Field, ∑ i, f.get (sp'.estimates.childrenStatusNow i) + undistributed left f =
      f.get ⟨12, 0, 1000, 1000, 200, 200, 0⟩ := by
  have inRange : (idleHalves.refreshTranche [0] (fun _ => half)
      ⟨12, 0, 1000, 1000, 200, 200, 0⟩ 0).isSome = true := by decide +kernel
  obtain ⟨⟨sp', left⟩, run⟩ := Option.isSome_iff_exists.mp inRange
  refine ⟨sp', left, run, fun conserved => ?_⟩
  have capacity := conserved .capacity
  rw [supply_of_refresh (.inl run)] at capacity
  exact absurd capacity (by decide +kernel)

/-! ### Complete lists -/

section Children

variable (children : Children n) (sourceStatus : BatteryStatus)

theorem held_of_complete (i : Fin n) :
    sp.held children.ids childOriginalStatus sourceStatus i =
      sp.promised childOriginalStatus sourceStatus i :=
  if_pos (children.complete i)

theorem charged_of_complete :
    sp.charged children.ids childOriginalStatus sourceStatus f =
      ∑ i, f.get (sp.held children.ids childOriginalStatus sourceStatus i) := by
  have all : children.ids.toFinset = Finset.univ :=
    Finset.eq_univ_of_forall fun i => List.mem_toFinset.mpr (children.complete i)
  rw [charged, ← List.sum_toFinset _ children.nodup, all]
  exact Finset.sum_congr rfl fun i _ => by rw [held_of_complete]

theorem supply_of_complete :
    sp.supply children.ids childOriginalStatus sourceStatus f = f.get sourceStatus :=
  supply_eq_iff.mpr (charged_of_complete children sourceStatus).symm

end Children

theorem conserves_of_complete (children : Children (n + 1))
    {childOriginalStatus : Fin (n + 1) → BatteryStatus} {sourceStatus left : BatteryStatus} {now : ℤ}
    {sp sp' : BALSplitter (n + 1)}
    (inRange : sp.refreshTranche children.ids childOriginalStatus sourceStatus now =
        some (sp', left) ∨
      sp.refreshReservation children.ids childOriginalStatus sourceStatus now = some (sp', left))
    (f : Field) :
    ∑ i, f.get (sp'.estimates.childrenStatusNow i) + undistributed left f = f.get sourceStatus :=
  (supply_of_refresh inRange f).trans (supply_of_complete children sourceStatus)

def inOrder (n : ℕ) : Children n := ⟨List.finRange n, List.nodup_finRange n, List.mem_finRange⟩

end BALSplitter

end BatteryOS.V2
