import BatteryOS.V2.InRange
import BatteryOS.V2.RefreshProportional

/-! The status that a policy gives for a child. The policy is constructed from one status of its
source; whenever it is asked and is old enough, it is refreshed from another, for the children
that the directory has by then. -/

namespace BatteryOS.V2

open Truncation

def BatteryStatus.scaled (sourceStatus : BatteryStatus) (scale : Scale) : BatteryStatus where
  voltageMV := sourceStatus.voltageMV
  currentMA := 0
  capacityMAh := truncate (sourceStatus.capacityMAh * scale.capacity)
  maxCapacityMAh := truncate (sourceStatus.maxCapacityMAh * scale.maxCapacity)
  maxChargingCurrentMA := truncate (sourceStatus.maxChargingCurrentMA * scale.maxChargeRate)
  maxDischargingCurrentMA := truncate (sourceStatus.maxDischargingCurrentMA * scale.maxDischargeRate)
  timestamp := sourceStatus.timestamp

/-- What `get_status_of` reads: the clock and, if the policy is refreshed, the status of the source,
where it answers, and the clock again. -/
structure Reading where
  checkedAt : ℤ
  sourceStatus : Option BatteryStatus
  refreshedAt : ℤ

namespace BALSplitter

variable {n : ℕ}

/-- The constructor, on the status of the source and what the clock shows for each child. -/
def ofSource (childNames : Fin n → String) (childScales : Fin n → Scale)
    (sourceStatus : BatteryStatus) (constructedAt : Fin n → ℤ) (maxStaleness : ℤ) : BALSplitter n :=
  new childNames
    { childrenLastChargeEstimateTimepoint := constructedAt
      childrenEstimatedChargeNow := fun i => sourceStatus.capacityMAh * (childScales i).capacity
      childrenStatusNow := fun i => sourceStatus.scaled (childScales i) }
    maxStaleness

/-- What a policy never changes after its construction. -/
structure Terms (n : ℕ) where
  policyType : ℤ
  childScales : Fin n → Scale
  childOriginalStatus : Fin n → BatteryStatus

variable (terms : Terms (n + 1)) (names : List String) (reading : Reading)
  (sp : BALSplitter (n + 1))

/-- The children that the directory has, by their numbers. A name that `name_lookup` does not have is
entered there as 0. -/
def lookup : List (Fin (n + 1)) := names.map fun name => (sp.nameLookup name).getD ⟨0, n.succ_pos⟩

/-- `refresh`; `none` where the source does not answer, or a loop runs out of range. -/
def refresh (sourceStatus : Option BatteryStatus) (now : ℤ) : Option (BALSplitter (n + 1)) :=
  match terms.policyType with
  | 0 => sourceStatus.map fun sourceStatus =>
    sp.refreshProportional (sp.lookup names) terms.childScales sourceStatus now
  | 1 => sourceStatus.bind fun sourceStatus =>
    (sp.refreshTranche (sp.lookup names) terms.childOriginalStatus sourceStatus now).map Prod.fst
  | 2 => sourceStatus.bind fun sourceStatus =>
    (sp.refreshReservation (sp.lookup names) terms.childOriginalStatus sourceStatus now).map Prod.fst
  | _ => some sp

/-- `get_status_of`, for what it does to the policy. No refresh writes the status of the policy
itself, so that this is as old as the clock shows. -/
def getStatusOf (childName : String) : Option (BALSplitter (n + 1)) :=
  match sp.nameLookup childName, sp.battery.refreshMode with
  | some _, .lazy =>
    if reading.checkedAt ≥ sp.battery.maxStaleness then
      sp.refresh terms names reading.sourceStatus reading.refreshedAt
    else some sp
  | none, _ | some _, .active => some sp

/-- The source answers, and the loops of the policy that reserve stay in range. -/
def RefreshInRange (sourceStatus : Option BatteryStatus) (now : ℤ) : Prop :=
  ∃ status, sourceStatus = some status ∧
    let held := (sp.estimateCharge now).held (sp.lookup names) terms.childOriginalStatus status
    let supply := (sp.estimateCharge now).supply (sp.lookup names) terms.childOriginalStatus status
    (terms.policyType = 1 → TrancheInRange held supply) ∧
      (terms.policyType = 2 → ReservationInRange held supply)

def StatusInRange (childName : String) : Prop :=
  (sp.nameLookup childName).isSome = true → sp.battery.refreshMode = .lazy →
    reading.checkedAt ≥ sp.battery.maxStaleness →
      (terms.policyType = 0 ∨ terms.policyType = 1 ∨ terms.policyType = 2) →
        sp.RefreshInRange terms names reading.sourceStatus reading.refreshedAt

theorem isSome_refresh_iff (sourceStatus : Option BatteryStatus) (now : ℤ) :
    (sp.refresh terms names sourceStatus now).isSome = true ↔
      ((terms.policyType = 0 ∨ terms.policyType = 1 ∨ terms.policyType = 2) →
        sp.RefreshInRange terms names sourceStatus now) := by
  have loops (status : BatteryStatus) :=
    refresh_in_range_iff (sp.lookup names) terms.childOriginalStatus status now sp
  unfold refresh RefreshInRange
  split
  case h_1 proportional => cases sourceStatus <;> simp [proportional]
  case h_2 tranche =>
    cases sourceStatus with
    | none => simp [tranche]
    | some status => simpa [tranche] using (loops status).1
  case h_3 reservation =>
    cases sourceStatus with
    | none => simp [reservation]
    | some status => simpa [reservation] using (loops status).2
  case h_4 zero one two =>
    refine iff_of_true rfl fun known => ?_
    rcases known with known | known | known
    · exact absurd known zero
    · exact absurd known one
    · exact absurd known two

theorem isSome_getStatusOf_iff (childName : String) :
    (sp.getStatusOf terms names reading childName).isSome = true ↔
      sp.StatusInRange terms names reading childName := by
  unfold getStatusOf StatusInRange
  cases sp.nameLookup childName with
  | none => simp
  | some childId =>
      cases sp.battery.refreshMode with
      | active => simp
      | lazy =>
          dsimp only
          split_ifs with old
          · simpa [old] using
              sp.isSome_refresh_iff terms names reading.sourceStatus reading.refreshedAt
          · simp [old]

end BALSplitter

end BatteryOS.V2
