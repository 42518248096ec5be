import BatteryOS.V2.Redistribution

/-! The loops down over the children stop only where a child can take all that is to be
distributed. When that is so can be read off what the children start with and what there is to
divide. -/

namespace BatteryOS.V2

section Conditions

variable {n : ℕ} (held : Fin n → BatteryStatus) (supply : Field → ℤ)

def Fits (f : Field) (i : Fin n) : Prop :=
  ∑ j ∈ Finset.Iio i, f.get (held j) + (Finset.Ioi i).card ≤ supply f

instance (f : Field) (i : Fin n) : Decidable (Fits held supply f i) :=
  inferInstanceAs (Decidable (_ ≤ _))

/-- There is what the children start with, or what fits one of them. -/
def MaximumInRange (f : Field) : Prop :=
  supply f < ∑ j, f.get (held j) → ∃ i, Fits held supply f i

def redistributedMaximum (benefit : Fin n) (f : Field) (i : Fin n) : ℤ :=
  if ∑ j, f.get (held j) ≤ supply f then
    f.get (held i) + if i = benefit then supply f - ∑ j, f.get (held j) else 0
  else if ∃ k, i < k ∧ Fits held supply f k then f.get (held i)
  else if Fits held supply f i then
    supply f - ∑ j ∈ Finset.Iio i, f.get (held j) - (Finset.Ioi i).card
  else 1

/-- A current above what the children start with is not above what those before some `i` do and
those from it on may discharge, if they do not charge. -/
def DischargingInRange (benefit : Fin n) : Prop :=
  ∑ j, (held j).currentMA ≤ supply .current → ∃ i, supply .current ≤
    ∑ j ∈ Finset.Iio i, (held j).currentMA + ∑ j ∈ Finset.Ici i,
      if 0 ≤ (held j).currentMA then
        redistributedMaximum held supply benefit .maxDischargingCurrent j
      else 0

/-- A current below what the children start with is as far above what those before some `i` do and
those from it on may charge, if they do. -/
def ChargingInRange (benefit : Fin n) : Prop :=
  supply .current < ∑ j, (held j).currentMA → ∃ i,
    ∑ j ∈ Finset.Iio i, (held j).currentMA + (∑ j ∈ Finset.Ici i,
      if 0 ≤ (held j).currentMA then 0
      else -redistributedMaximum held supply benefit .maxChargingCurrent j) ≤ supply .current

/-- A charge above what the children start with is not above what those before some `i` do and
those from it on may have. -/
def SurplusInRange (benefit : Fin n) : Prop :=
  ∑ j, (held j).capacityMAh ≤ supply .capacity → ∃ i, supply .capacity ≤
    ∑ j ∈ Finset.Iio i, (held j).capacityMAh +
      ∑ j ∈ Finset.Ici i, redistributedMaximum held supply benefit .maxCapacity j

/-- A charge below what the children start with is enough for those before some `i` and one each
for the others. -/
def CapacityInRange : Prop :=
  supply .capacity < ∑ j, (held j).capacityMAh → ∃ i,
    ∑ j ∈ Finset.Iio i, (held j).capacityMAh + (Finset.Ici i).card ≤ supply .capacity

structure MaximaInRange : Prop where
  charging : MaximumInRange held supply .maxChargingCurrent
  discharging : MaximumInRange held supply .maxDischargingCurrent
  capacity : MaximumInRange held supply .maxCapacity

structure TrancheInRange (held : Fin (n + 1) → BatteryStatus) (supply : Field → ℤ) : Prop where
  maxima : MaximaInRange held supply
  discharging : DischargingInRange held supply 0
  capacity : CapacityInRange held supply

structure ReservationInRange (held : Fin (n + 1) → BatteryStatus) (supply : Field → ℤ) : Prop where
  maxima : MaximaInRange held supply
  discharging : DischargingInRange held supply (Fin.last n)
  charging : ChargingInRange held supply (Fin.last n)
  surplus : SurplusInRange held supply (Fin.last n)
  capacity : CapacityInRange held supply

end Conditions

namespace Distribution

variable {n : ℕ} {held : Fin n → BatteryStatus} {supply : Field → ℤ}
  {d d' : Distribution n} {f g : Field} {exceeds : BatteryStatus → ℤ → Bool}
  {bound : BatteryStatus → ℤ} {benefit i : Fin n}

/-- A field of the children is as they start, and that of the source is what is left of the
supply. -/
structure Pending (held : Fin n → BatteryStatus) (supply : Field → ℤ) (f : Field)
    (d : Distribution n) : Prop where
  child : ∀ i, f.get (d.childrenStatusNow i) = f.get (held i)
  source : f.get d.sourceStatus = supply f - ∑ i, f.get (held i)

theorem Pending.after (h : Pending held supply f d) (other : Redistributes g d d')
    (ne : f ≠ g) : Pending held supply f d' :=
  ⟨fun i => (other.children f ne i).trans (h.child i), (other.source f ne).trans h.source⟩

theorem Pending.total (h : Pending held supply f d) :
    d.total f + f.get d.sourceStatus = supply f := by
  rw [Distribution.total, h.source, Finset.sum_congr rfl fun i _ => h.child i, add_sub_cancel]

theorem Pending.surplus_iff (h : Pending held supply f d) :
    0 ≤ f.get d.sourceStatus ↔ ∑ i, f.get (held i) ≤ supply f := by
  rw [h.source, sub_nonneg]

theorem Pending.isSome_downward_iff (h : Pending held supply f d) :
    (d.downward f exceeds bound).isSome = true ↔
      ∃ i, Spill.Room (rule f exceeds bound) d.childrenStatusNow (supply f) i := by
  rw [← (Spill.descending_finRange n).settled_iff (rule f exceeds bound) h.total]
  exact Option.isSome_ite

theorem Pending.fits_iff (h : Pending held supply f d) (i : Fin n) :
    Spill.Room (rule f (fun _ held => held < 0) fun _ => 1) d.childrenStatusNow (supply f) i ↔
      Fits held supply f i := by
  simp only [Spill.Room, Spill.remaining, rule, h.child, Finset.sum_const, mul_one, nsmul_eq_mul,
    decide_eq_false_iff_not, Fits]
  omega

theorem Pending.isSome_distributeMaxStatus_iff (h : Pending held supply f d) :
    (d.distributeMaxStatus f benefit).isSome = true ↔ MaximumInRange held supply f := by
  unfold distributeMaxStatus MaximumInRange
  rw [← not_le, ← h.surplus_iff]
  split_ifs with surplus
  · exact iff_of_true rfl fun deficit => absurd surplus deficit
  · rw [h.isSome_downward_iff, exists_congr h.fits_iff]
    exact ⟨fun fits _ => fits, fun fits => fits surplus⟩

theorem Pending.get_distributeMaxStatus (h : Pending held supply f d)
    (run : d.distributeMaxStatus f benefit = some d') (i : Fin n) :
    f.get (d'.childrenStatusNow i) = redistributedMaximum held supply benefit f i := by
  unfold distributeMaxStatus at run
  rw [redistributedMaximum, if_congr h.surplus_iff.symm rfl rfl]
  split_ifs at run with surplus
  · obtain rfl := Option.some.inj run
    rw [if_pos surplus]
    dsimp only
    rw [Function.update_apply]
    split_ifs with same
    · rw [Field.get_set, h.source, same, h.child]
    · rw [h.child, add_zero]
  · obtain ⟨-, after⟩ := Option.ite_none_right_eq_some.mp run
    obtain rfl := Option.some.inj after
    rw [if_neg surplus]
    refine ((Spill.descending_finRange n).amount_pour
      (rule f (fun _ held => held < 0) fun _ => 1) h.total i).trans ?_
    simp only [h.fits_iff]
    simp only [Spill.remaining, rule, h.child, Finset.sum_const, mul_one, nsmul_eq_mul]

theorem exceedsDischarging_eq (status : BatteryStatus) (held : ℤ) :
    exceedsDischarging status held = decide (boundDischarging status < held) := by
  unfold exceedsDischarging boundDischarging
  split_ifs <;> rfl

theorem exceedsCharging_eq (status : BatteryStatus) (held : ℤ) :
    exceedsCharging status held = decide (held < boundCharging status) := by
  unfold exceedsCharging boundCharging
  split_ifs
  · rfl
  · exact decide_eq_decide.mpr lt_neg

theorem exhausted_eq (status : BatteryStatus) (held : ℤ) :
    exhausted status held = decide (held < 1) :=
  decide_eq_decide.mpr (by omega)

theorem Pending.isSome_discharging_iff (h : Pending held supply .current d)
    (limits : ∀ i, (d.childrenStatusNow i).maxDischargingCurrentMA =
      redistributedMaximum held supply benefit .maxDischargingCurrent i) :
    (0 ≤ d.sourceStatus.currentMA →
      (d.downward .current exceedsDischarging boundDischarging).isSome = true) ↔
      DischargingInRange held supply benefit := by
  have current (j : Fin n) : (d.childrenStatusNow j).currentMA = (held j).currentMA := h.child j
  refine imp_congr h.surplus_iff (h.isSome_downward_iff.trans (exists_congr fun i => ?_))
  rw [Spill.room_iff_le exceedsDischarging_eq]
  simp only [rule, boundDischarging, Field.get, current, limits]

theorem Pending.isSome_charging_iff (h : Pending held supply .current d)
    (limits : ∀ i, (d.childrenStatusNow i).maxChargingCurrentMA =
      redistributedMaximum held supply benefit .maxChargingCurrent i) :
    (¬ 0 ≤ d.sourceStatus.currentMA →
      (d.downward .current exceedsCharging boundCharging).isSome = true) ↔
      ChargingInRange held supply benefit := by
  have current (j : Fin n) : (d.childrenStatusNow j).currentMA = (held j).currentMA := h.child j
  have deficit := (not_congr h.surplus_iff).trans not_le
  refine imp_congr deficit (h.isSome_downward_iff.trans (exists_congr fun i => ?_))
  rw [Spill.room_iff_ge exceedsCharging_eq]
  simp only [rule, boundCharging, Field.get, current, limits]

theorem Pending.isSome_exhausted_iff (h : Pending held supply .capacity d) :
    (¬ 0 ≤ d.sourceStatus.capacityMAh →
      (d.downward .capacity exhausted fun _ => 1).isSome = true) ↔
      CapacityInRange held supply := by
  have capacity (j : Fin n) : (d.childrenStatusNow j).capacityMAh = (held j).capacityMAh :=
    h.child j
  have deficit := (not_congr h.surplus_iff).trans not_le
  refine imp_congr deficit (h.isSome_downward_iff.trans (exists_congr fun i => ?_))
  rw [Spill.room_iff_ge exhausted_eq]
  simp only [rule, Field.get, capacity, Finset.sum_const, nsmul_eq_mul, mul_one]

theorem Pending.isSome_surplus_iff (h : Pending held supply .capacity d)
    (limits : ∀ i, (d.childrenStatusNow i).maxCapacityMAh =
      redistributedMaximum held supply benefit .maxCapacity i) :
    (0 ≤ d.sourceStatus.capacityMAh →
      (d.downward .capacity exceedsCapacity BatteryStatus.maxCapacityMAh).isSome = true) ↔
      SurplusInRange held supply benefit := by
  have capacity (j : Fin n) : (d.childrenStatusNow j).capacityMAh = (held j).capacityMAh :=
    h.child j
  refine imp_congr h.surplus_iff (h.isSome_downward_iff.trans (exists_congr fun i => ?_))
  rw [Spill.room_iff_le fun _ _ => rfl]
  simp only [rule, Field.get, capacity, limits]

/-! ### One loop after the other -/

theorem isSome_bind_iff {α β : Type} {x : Option α} {next : α → Option β} {Q : Prop}
    (h : ∀ a, x = some a → ((next a).isSome = true ↔ Q)) :
    (x.bind next).isSome = true ↔ x.isSome = true ∧ Q := by
  cases x with
  | none => simp
  | some a => simpa using h a rfl

structure Limited (held : Fin n → BatteryStatus) (supply : Field → ℤ) (benefit : Fin n)
    (d : Distribution n) : Prop where
  charging : ∀ i, (d.childrenStatusNow i).maxChargingCurrentMA =
    redistributedMaximum held supply benefit .maxChargingCurrent i
  discharging : ∀ i, (d.childrenStatusNow i).maxDischargingCurrentMA =
    redistributedMaximum held supply benefit .maxDischargingCurrent i
  maxCapacity : ∀ i, (d.childrenStatusNow i).maxCapacityMAh =
    redistributedMaximum held supply benefit .maxCapacity i
  current : Pending held supply .current d
  capacity : Pending held supply .capacity d

theorem isSome_maxima_iff {rest : Distribution n → Option (Distribution n)} {Q : Prop}
    (h : ∀ f, Pending held supply f d)
    (onward : ∀ d', Limited held supply benefit d' → ((rest d').isSome = true ↔ Q)) :
    ((d.distributeMaxStatus .maxChargingCurrent benefit).bind fun d =>
      (d.distributeMaxStatus .maxDischargingCurrent benefit).bind fun d =>
        (d.distributeMaxStatus .maxCapacity benefit).bind rest).isSome = true ↔
      MaximaInRange held supply ∧ Q := by
  have all : MaximaInRange held supply ∧ Q ↔
      MaximumInRange held supply .maxChargingCurrent ∧
        MaximumInRange held supply .maxDischargingCurrent ∧
          MaximumInRange held supply .maxCapacity ∧ Q :=
    ⟨fun h => ⟨h.1.1, h.1.2, h.1.3, h.2⟩, fun h => ⟨⟨h.1, h.2.1, h.2.2.1⟩, h.2.2.2⟩⟩
  rw [all, ← (h _).isSome_distributeMaxStatus_iff]
  refine isSome_bind_iff fun d₁ charging => ?_
  have first := redistributes_distributeMaxStatus (by decide) charging
  rw [← ((h _).after first (by decide)).isSome_distributeMaxStatus_iff]
  refine isSome_bind_iff fun d₂ discharging => ?_
  have second := redistributes_distributeMaxStatus (by decide) discharging
  have pending (f : Field) (ne : f ≠ .maxChargingCurrent) (ne' : f ≠ .maxDischargingCurrent) :
      Pending held supply f d₂ := ((h f).after first ne).after second ne'
  rw [← (pending _ (by decide) (by decide)).isSome_distributeMaxStatus_iff]
  refine isSome_bind_iff fun d₃ maxCapacity => onward d₃ ?_
  have third := redistributes_distributeMaxStatus (by decide) maxCapacity
  constructor
  · intro i
    exact (third.children _ (by decide) i).trans ((second.children .maxChargingCurrent
      (by decide) i).trans ((h _).get_distributeMaxStatus charging i))
  · intro i
    exact (third.children .maxDischargingCurrent (by decide) i).trans
      (((h _).after first (by decide)).get_distributeMaxStatus discharging i)
  · exact (pending .maxCapacity (by decide) (by decide)).get_distributeMaxStatus maxCapacity
  · exact (pending _ (by decide) (by decide)).after third (by decide)
  · exact (pending _ (by decide) (by decide)).after third (by decide)

theorem isSome_distributeTranche_iff {held : Fin (n + 1) → BatteryStatus}
    {d : Distribution (n + 1)} (h : ∀ f, Pending held supply f d) :
    d.distributeTranche.isSome = true ↔ TrancheInRange held supply := by
  have all : TrancheInRange held supply ↔ MaximaInRange held supply ∧
      DischargingInRange held supply 0 ∧ CapacityInRange held supply :=
    ⟨fun h => ⟨h.1, h.2, h.3⟩, fun h => ⟨h.1, h.2.1, h.2.2⟩⟩
  rw [all]
  refine isSome_maxima_iff h fun d' limited => ?_
  have loop : d'.distributeCurrentTranche.isSome = true ↔ DischargingInRange held supply 0 := by
    rw [← limited.current.isSome_discharging_iff limited.discharging, distributeCurrentTranche]
    split_ifs with surplus <;> simp [surplus]
  rw [← loop]
  refine isSome_bind_iff fun d'' run => ?_
  have capacity := limited.capacity.after (redistributes_currentTranche run) (by decide)
  rw [← capacity.isSome_exhausted_iff, distributeCapacityTranche]
  split_ifs with surplus <;> simp [surplus]

theorem isSome_distributeReservation_iff {held : Fin (n + 1) → BatteryStatus}
    {d : Distribution (n + 1)} (h : ∀ f, Pending held supply f d) :
    d.distributeReservation.isSome = true ↔ ReservationInRange held supply := by
  have all : ReservationInRange held supply ↔ MaximaInRange held supply ∧
      (DischargingInRange held supply (Fin.last n) ∧ ChargingInRange held supply (Fin.last n)) ∧
        SurplusInRange held supply (Fin.last n) ∧ CapacityInRange held supply :=
    ⟨fun h => ⟨h.1, ⟨h.2, h.3⟩, h.4, h.5⟩, fun h => ⟨h.1, h.2.1.1, h.2.1.2, h.2.2.1, h.2.2.2⟩⟩
  rw [all]
  refine isSome_maxima_iff h fun d' limited => ?_
  have loop : d'.distributeCurrentReservation.isSome = true ↔
      DischargingInRange held supply (Fin.last n) ∧ ChargingInRange held supply (Fin.last n) := by
    rw [← limited.current.isSome_discharging_iff limited.discharging,
      ← limited.current.isSome_charging_iff limited.charging, distributeCurrentReservation]
    split_ifs with surplus <;> simp [surplus]
  rw [← loop]
  refine isSome_bind_iff fun d'' run => ?_
  have moved := redistributes_currentReservation run
  have capacity := limited.capacity.after moved (by decide)
  have limits (i : Fin (n + 1)) : (d''.childrenStatusNow i).maxCapacityMAh =
      redistributedMaximum held supply (Fin.last n) .maxCapacity i :=
    (moved.children .maxCapacity (by decide) i).trans (limited.maxCapacity i)
  rw [← capacity.isSome_surplus_iff limits, ← capacity.isSome_exhausted_iff,
    distributeCapacityReservation]
  split_ifs with surplus <;> simp [surplus]

/-! ### A charge that the source may have -/

theorem undistributed_nonpos {status : BatteryStatus} (maximum : f ≠ .current ∧ f ≠ .capacity) :
    undistributed status f ≤ 0 := by
  cases f <;> simp_all [undistributed]

theorem le_sum_redistributedMaximum (maximum : f ≠ .current ∧ f ≠ .capacity) (benefit : Fin n)
    (inRange : MaximumInRange held supply f) :
    supply f ≤ ∑ i, redistributedMaximum held supply benefit f i := by
  let d : Distribution n :=
    ⟨held, f.set ⟨0, 0, 0, 0, 0, 0, 0⟩ (supply f - ∑ i, f.get (held i))⟩
  have pending : Pending held supply f d := ⟨fun _ => rfl, Field.get_set⟩
  have runs : (d.distributeMaxStatus f benefit).isSome = true :=
    pending.isSome_distributeMaxStatus_iff.mpr inRange
  obtain ⟨d', run⟩ := Option.isSome_iff_exists.mp runs
  have conserved := (redistributes_distributeMaxStatus maximum run).conserves.trans pending.total
  have left : undistributed d'.sourceStatus f ≤ 0 := undistributed_nonpos maximum
  rw [← Finset.sum_congr rfl fun i _ => pending.get_distributeMaxStatus run i]
  rw [total] at conserved
  omega

theorem surplusInRange_of_le {held : Fin (n + 1) → BatteryStatus} (benefit : Fin (n + 1))
    (maxima : MaximumInRange held supply .maxCapacity)
    (within : supply .capacity ≤ supply .maxCapacity) : SurplusInRange held supply benefit := by
  intro _
  have none : (Finset.Iio 0 : Finset (Fin (n + 1))) = ∅ := Finset.Iio_bot
  have all : (Finset.Ici 0 : Finset (Fin (n + 1))) = Finset.univ := Finset.Ici_bot
  refine ⟨0, ?_⟩
  rw [none, all, Finset.sum_empty, zero_add]
  exact within.trans (le_sum_redistributedMaximum (by decide) benefit maxima)

end Distribution

namespace BALSplitter

variable {n : ℕ}

theorem pending_reserved (sp : BALSplitter n) (ids : List (Fin n))
    (childOriginalStatus : Fin n → BatteryStatus) (sourceStatus : BatteryStatus) (f : Field) :
    Distribution.Pending (sp.held ids childOriginalStatus sourceStatus)
      (sp.supply ids childOriginalStatus sourceStatus) f
      (sp.reserved ids childOriginalStatus sourceStatus) :=
  ⟨reserved_child sp childOriginalStatus ids sourceStatus,
    reserved_source sp childOriginalStatus ids sourceStatus⟩

/-- All loops of a refresh stay in range exactly when what there is to divide can be divided among
the children as they start, field by field. -/
theorem refresh_in_range_iff (ids : List (Fin (n + 1)))
    (childOriginalStatus : Fin (n + 1) → BatteryStatus) (sourceStatus : BatteryStatus) (now : ℤ)
    (sp : BALSplitter (n + 1)) :
    let held := (sp.estimateCharge now).held ids childOriginalStatus sourceStatus
    let supply := (sp.estimateCharge now).supply ids childOriginalStatus sourceStatus
    ((sp.refreshTranche ids childOriginalStatus sourceStatus now).isSome = true ↔
        TrancheInRange held supply) ∧
      ((sp.refreshReservation ids childOriginalStatus sourceStatus now).isSome = true ↔
        ReservationInRange held supply) := by
  intro held supply
  have pending := pending_reserved (sp.estimateCharge now) ids childOriginalStatus sourceStatus
  rw [refreshTranche, refreshReservation, Option.isSome_map, Option.isSome_map]
  exact ⟨Distribution.isSome_distributeTranche_iff pending,
    Distribution.isSome_distributeReservation_iff pending⟩

def oneChild (currentMA : ℤ) : BALSplitter 1 :=
  { new (fun _ => "a") ⟨fun _ => 0, fun _ => 500, fun _ => half⟩ 0 with
    childrenCurrentNow := fun _ => currentMA }

/-- The child is idle, and the source is measured at a little below zero. -/
theorem idle_not_in_range :
    let source : BatteryStatus := ⟨12, -1, 500, 500, 100, 100, 0⟩
    (0 ≤ source.capacityMAh ∧ source.capacityMAh ≤ source.maxCapacityMAh ∧
      -source.maxChargingCurrentMA ≤ source.currentMA ∧
      source.currentMA ≤ source.maxDischargingCurrentMA) ∧
    ¬ (((oneChild 0).refreshTranche [0] (fun _ => half) source 0).isSome = true ∧
      ((oneChild 0).refreshReservation [0] (fun _ => half) source 0).isSome = true) := by
  decide +kernel

/-- Where the directory has every child once, and the source is not charged beyond what it may
hold, a surplus of charge is in range whenever the maxima are. -/
theorem surplusInRange_of_complete (children : Children (n + 1))
    {childOriginalStatus : Fin (n + 1) → BatteryStatus} {sourceStatus : BatteryStatus}
    {sp : BALSplitter (n + 1)} (benefit : Fin (n + 1))
    (within : sourceStatus.capacityMAh ≤ sourceStatus.maxCapacityMAh)
    (maxima : MaximaInRange (sp.held children.ids childOriginalStatus sourceStatus)
      (sp.supply children.ids childOriginalStatus sourceStatus)) :
    SurplusInRange (sp.held children.ids childOriginalStatus sourceStatus)
      (sp.supply children.ids childOriginalStatus sourceStatus) benefit := by
  refine Distribution.surplusInRange_of_le benefit maxima.capacity ?_
  rw [supply_of_complete, supply_of_complete]
  exact within

end BALSplitter

end BatteryOS.V2
