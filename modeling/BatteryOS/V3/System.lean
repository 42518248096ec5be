import BatteryOS.V3.Aggregate
import BatteryOS.V3.Merge

/-! Batteries that stand on batteries. The objects of a program are the nodes of a world, and
a pointer to one is its index. `getStatus` and `schedule_set_current` are virtual and recurse
from a battery to its sources, so here they dispatch on the kind of the node and take fuel;
`none` is a call that ran out of it or followed a pointer to nothing. -/

namespace BatteryOS.V3

structure Scale where
  chargeProportion : ℚ
  capacityProportion : ℚ
deriving DecidableEq, Repr

inductive PolicyType
  | reserved
  | tranched
  | proportional
deriving DecidableEq, Repr

/-- The class of a battery, with the members that the class adds. -/
inductive Kind
  | physical
  | aggregate (parents : List ℕ)
  | partition (source : ℕ)
  | partitionManager (policyType : PolicyType) (source : ℕ) (children : List ℕ)
      (childProportions : List Scale)
deriving DecidableEq, Repr

/-- The batteries a battery calls: its sources. -/
def Kind.sources : Kind → List ℕ
  | .physical => []
  | .aggregate parents => parents
  | .partition source => [source]
  | .partitionManager _ source _ _ => [source]

structure Node where
  battery : Battery
  kind : Kind

abbrev World := List Node

namespace World

def setBattery (w : World) (i : ℕ) (f : Battery → Battery) : World :=
  w.modify i fun node => { node with battery := f node.battery }

def setStatus (w : World) (i : ℕ) (status : BatteryStatus) : World :=
  w.setBattery i fun b => { b with status := status }

/-- `setMaxChargingCurrent` and `setMaxDischargingCurrent` on a child. -/
def setLimits (w : World) (i : ℕ) (maxChargingCurrentMA maxDischargingCurrentMA : ℚ) : World :=
  w.setBattery i fun b => { b with
    status := { b.status with
      maxChargingCurrentMA := maxChargingCurrentMA
      maxDischargingCurrentMA := maxDischargingCurrentMA } }

/-- `checkMergeAndInsertEvents` on the battery at `i`. -/
def insertEvents (w : World) (i : ℕ) (name : String) (currentMA : ℚ) (startTime endTime : ℤ)
    (sequenceNumber : ℕ) : World :=
  w.setBattery i fun b => b.checkMergeAndInsertEvents name currentMA startTime endTime sequenceNumber

end World

/-- `PartitionManager::refreshProportional`. -/
def refreshProportional (pStatus : BatteryStatus) (w : World) (children : List ℕ)
    (childProportions : List Scale) : World :=
  (children.zip childProportions).foldl (fun w child => w.setLimits child.1
    (pStatus.maxChargingCurrentMA * child.2.chargeProportion)
    (pStatus.maxDischargingCurrentMA * child.2.chargeProportion)) w

def getStatuses (get : World → ℕ → Option (BatteryStatus × World)) :
    World → List ℕ → Option (List BatteryStatus × World)
  | w, [] => some ([], w)
  | w, i :: rest => do
    let (status, w) ← get w i
    let (statuses, w) ← getStatuses get w rest
    return (status :: statuses, w)

/-- The overrides of `refresh`. `calcStatusVals` asks its parents twice, in `set_c_rate` and
again for the sums. -/
def refresh (get : World → ℕ → Option (BatteryStatus × World)) (now : ℤ) (w : World)
    (node : Node) : Option (BatteryStatus × World) :=
  match node.kind with
  | .physical => some (node.battery.status, w)
  | .aggregate parents => do
    let (rated, w) ← getStatuses get w parents
    let (summed, w) ← getStatuses get w parents
    return (sumStatus (setCRate rated) now summed, w)
  | .partition _ => some ({ node.battery.status with time := now }, w)
  | .partitionManager policyType source children childProportions => do
    let (pStatus, w) ← get w source
    let w := if policyType = .proportional then
        refreshProportional pStatus w children childProportions
      else w
    return ({ node.battery.status with time := now }, w)

/-- `getStatus`, and the assignment of `checkAndRefresh` to the status: a LAZY status that is
too old is refreshed first. -/
def getStatus (now : ℤ) : ℕ → World → ℕ → Option (BatteryStatus × World)
  | 0, _, _ => none
  | fuel + 1, w, i => do
    let node ← w[i]?
    let b := node.battery
    if b.refreshMode = .lazy ∧ now - b.status.time > b.maxStaleness then
      let (status, w) ← refresh (getStatus now fuel) now w node
      return (status, w.setStatus i status)
    else return (b.status, w)

/-- The loop of `AggregateBattery::schedule_set_current`: each parent is asked for its status
and sent its share, until one refuses. -/
def dispatch (get : World → ℕ → Option (BatteryStatus × World))
    (send : World → ℕ → ℚ → Option (Bool × World)) (capacityMAh currentMA : ℚ) :
    World → List ℕ → Option (Bool × World)
  | w, [] => some (true, w)
  | w, i :: rest => do
    let (pStatus, w) ← get w i
    let (accepted, w) ← send w i (targetCurrent capacityMAh currentMA pStatus)
    if accepted then dispatch get send capacityMAh currentMA w rest else return (false, w)

/-- `schedule_set_current` with its overrides. A battery checks requests under its own name only. -/
def scheduleSetCurrent (now startTime endTime : ℤ) (name : String) (sequenceNumber : ℕ) :
    ℕ → World → ℕ → ℚ → Option (Bool × World)
  | 0, _, _, _ => none
  | fuel + 1, w, i, currentMA => do
    let node ← w[i]?
    let send := scheduleSetCurrent now startTime endTime name sequenceNumber fuel
    match node.kind with
    | .physical =>
      let (accepted, b) :=
        node.battery.scheduleSetCurrent now currentMA startTime endTime name sequenceNumber
      return (accepted, w.setBattery i fun _ => b)
    | .aggregate parents =>
      let (status, w) ← getStatus now (fuel + 1) w i
      let b : Battery := { node.battery with status := status }
      if name = b.batteryName ∧ b.refuses now currentMA startTime then return (false, w)
      else dispatch (getStatus now fuel) send status.capacityMAh currentMA w parents
    | .partition source =>
      if name = node.battery.batteryName ∧ node.battery.refuses now currentMA startTime then
        return (false, w)
      else
        let (accepted, w) ← send w source currentMA
        if accepted then
          return (true, w.insertEvents i name currentMA startTime endTime sequenceNumber)
        else return (false, w)
    | .partitionManager _ source _ _ =>
      let (accepted, w) ← send w source currentMA
      if accepted then
        return (true, w.insertEvents i name currentMA startTime endTime sequenceNumber)
      else return (false, w)

namespace World

def kind? (w : World) (i : ℕ) : Option Kind := w[i]?.map Node.kind

/-- The battery at an index; a blank one past the end. -/
def battery (w : World) (i : ℕ) : Battery :=
  (w[i]?.map Node.battery).getD (Battery.new "" 0 .lazy)

theorem getElem?_of_kind {w : World} {i : ℕ} {kind : Kind} (h : w.kind? i = some kind) :
    w[i]? = some ⟨w.battery i, kind⟩ := by
  obtain ⟨node, hnode, rfl⟩ := Option.map_eq_some_iff.mp h
  simp [battery, hnode]

variable (w : World) (i j : ℕ) (f : Battery → Battery)

theorem getElem?_setBattery : (w.setBattery i f)[j]? =
    if i = j then w[j]?.map fun node => { node with battery := f node.battery } else w[j]? := by
  unfold setBattery
  rw [List.getElem?_modify]
  split_ifs
  · rfl
  · simp

@[simp] theorem kind?_setBattery : (w.setBattery i f).kind? j = w.kind? j := by
  unfold kind?
  rw [getElem?_setBattery]
  split_ifs
  · rw [Option.map_map]
    rfl
  · rfl

theorem battery_setBattery_of_ne {i j : ℕ} (h : i ≠ j) :
    (w.setBattery i f).battery j = w.battery j := by
  unfold battery
  rw [getElem?_setBattery, if_neg h]

theorem battery_setBattery_self {i : ℕ} {kind : Kind} (h : w.kind? i = some kind) :
    (w.setBattery i f).battery i = f (w.battery i) := by
  have node := getElem?_of_kind h
  conv_lhs => unfold battery
  rw [getElem?_setBattery, if_pos rfl, node]
  rfl

theorem setBattery_id {w : World} {i : ℕ} {f : Battery → Battery}
    (h : ∀ node, w[i]? = some node → f node.battery = node.battery) : w.setBattery i f = w := by
  refine List.ext_getElem? fun j => ?_
  rw [getElem?_setBattery]
  split_ifs with same
  · subst same
    cases hnode : w[i]? with
    | none => rfl
    | some node => rw [Option.map_some, h node hnode]
  · rfl

structure SameNodes (w w' : World) : Prop where
  kind : ∀ i, w'.kind? i = w.kind? i
  name : ∀ i, (w'.battery i).batteryName = (w.battery i).batteryName

theorem SameNodes.refl (w : World) : SameNodes w w := ⟨fun _ => rfl, fun _ => rfl⟩

theorem SameNodes.trans {w w' w'' : World} (h : SameNodes w w') (h' : SameNodes w' w'') :
    SameNodes w w'' :=
  ⟨fun i => (h'.kind i).trans (h.kind i), fun i => (h'.name i).trans (h.name i)⟩

theorem battery_setBattery :
    (w.setBattery i f).battery j =
      if i = j ∧ (w.kind? i).isSome then f (w.battery j) else w.battery j := by
  split_ifs with h
  · obtain ⟨rfl, some⟩ := h
    obtain ⟨kind, hkind⟩ := Option.isSome_iff_exists.mp some
    exact battery_setBattery_self w f hkind
  · by_cases same : i = j
    · subst same
      have none : w[i]? = none := by simpa [kind?] using h
      rw [setBattery_id fun node hnode => by rw [none] at hnode; cases hnode]
    · exact battery_setBattery_of_ne w f same

theorem sameNodes_setBattery {f : Battery → Battery}
    (h : ∀ b, (f b).batteryName = b.batteryName) : SameNodes w (w.setBattery i f) where
  kind j := kind?_setBattery w i j f
  name j := by
    rw [battery_setBattery]
    split_ifs
    · exact h _
    · rfl

end World

section Dispatch

variable {now startTime endTime : ℤ} {name : String} {sequenceNumber fuel : ℕ} {w : World}
  {i : ℕ} {currentMA : ℚ}

theorem scheduleSetCurrent_physical (h : w.kind? i = some .physical) :
    scheduleSetCurrent now startTime endTime name sequenceNumber (fuel + 1) w i currentMA =
      if name = (w.battery i).batteryName ∧ (w.battery i).refuses now currentMA startTime then
        some (false, w)
      else some (true, w.insertEvents i name currentMA startTime endTime sequenceNumber) := by
  have node := World.getElem?_of_kind h
  simp only [scheduleSetCurrent, node, Option.bind_eq_bind, Option.bind_some, Option.pure_def,
    Battery.scheduleSetCurrent]
  split_ifs
  · rw [World.setBattery_id fun node' h' => by rw [node, Option.some_inj] at h'; rw [← h']]
  · refine congrArg some (Prod.ext rfl (List.ext_getElem? fun j => ?_))
    rw [World.insertEvents, World.getElem?_setBattery, World.getElem?_setBattery]
    split_ifs with same
    · rw [← same, node]
      rfl
    · rfl

theorem scheduleSetCurrent_partition {source : ℕ} (h : w.kind? i = some (.partition source)) :
    scheduleSetCurrent now startTime endTime name sequenceNumber (fuel + 1) w i currentMA =
      if name = (w.battery i).batteryName ∧ (w.battery i).refuses now currentMA startTime then
        some (false, w)
      else
        (scheduleSetCurrent now startTime endTime name sequenceNumber fuel w source currentMA).map
          fun result => if result.1 then
              (true, result.2.insertEvents i name currentMA startTime endTime sequenceNumber)
            else (false, result.2) := by
  have node := World.getElem?_of_kind h
  simp only [scheduleSetCurrent, node, Option.bind_eq_bind, Option.bind_some, Option.pure_def]
  split_ifs
  · rfl
  · cases scheduleSetCurrent now startTime endTime name sequenceNumber fuel w source currentMA with
    | none => rfl
    | some result =>
        rw [Option.bind_some, Option.map_some]
        split_ifs <;> rfl

theorem scheduleSetCurrent_partitionManager {policyType : PolicyType} {source : ℕ}
    {children : List ℕ} {childProportions : List Scale}
    (h : w.kind? i = some (.partitionManager policyType source children childProportions)) :
    scheduleSetCurrent now startTime endTime name sequenceNumber (fuel + 1) w i currentMA =
      (scheduleSetCurrent now startTime endTime name sequenceNumber fuel w source currentMA).map
        fun result => if result.1 then
            (true, result.2.insertEvents i name currentMA startTime endTime sequenceNumber)
          else (false, result.2) := by
  have node := World.getElem?_of_kind h
  simp only [scheduleSetCurrent, node, Option.bind_eq_bind, Option.bind_some, Option.pure_def]
  cases scheduleSetCurrent now startTime endTime name sequenceNumber fuel w source currentMA with
  | none => rfl
  | some result =>
      rw [Option.bind_some, Option.map_some]
      split_ifs <;> rfl

theorem scheduleSetCurrent_aggregate {parents : List ℕ}
    (h : w.kind? i = some (.aggregate parents)) :
    scheduleSetCurrent now startTime endTime name sequenceNumber (fuel + 1) w i currentMA =
      (getStatus now (fuel + 1) w i).bind fun result =>
        if name = (w.battery i).batteryName ∧
            { w.battery i with status := result.1 }.refuses now currentMA startTime then
          some (false, result.2)
        else dispatch (getStatus now fuel)
          (scheduleSetCurrent now startTime endTime name sequenceNumber fuel)
          result.1.capacityMAh currentMA result.2 parents := by
  have node := World.getElem?_of_kind h
  simp only [scheduleSetCurrent, node, Option.bind_eq_bind, Option.bind_some, Option.pure_def]

end Dispatch

end BatteryOS.V3
