import BatteryOS.Library.Fallible
import BatteryOS.V1.Aggregator
import BatteryOS.V1.Policy

/-! A V1 node: the directory with everything that has been made, and the calls of `BOS`. A battery
finds the batteries that it is made of by name, each time it is asked. The clock is read anew for
every meter that is brought up to date. How deep calls may be nested is an argument. -/

namespace BatteryOS.V1

inductive Failure
  | raised (error : Error)
  | noBattery
  | voltageMismatch
  | notImplemented
  | attributeError
  | typeError
deriving DecidableEq, Repr

inductive Kind
  | null (voltage : ℚ)
  | pseudo (status : BatteryStatus)
  | aggregator (voltage voltageTolerance : ℚ) (srcnames : List String)
  | splitter (policyname : String)
deriving DecidableEq

inductive BOSNode
  | battery (metered : Metered) (kind : Kind)
  | policy (srcname : String) (policy : ProportionalPolicy)

/-- The charge of a pseudo battery goes the way of its meter. -/
def BatteryStatus.drain (status : BatteryStatus) (now : ℚ) (metered : Metered) : BatteryStatus :=
  let newMeter := (metered.updateMeter now status.current status.current).meter
  { status with stateOfCharge := status.stateOfCharge + (newMeter - metered.meter) }

namespace BOSNode

/-- The names that the node itself looks up to be asked or set. -/
def sources : BOSNode → List String
  | battery _ (.aggregator _ _ srcnames) => srcnames
  | battery _ (.splitter policyname) => [policyname]
  | battery _ (.null _) => []
  | battery _ (.pseudo _) => []
  | policy srcname _ => [srcname]

def onMeter (f : Metered → Metered) : BOSNode → BOSNode
  | battery metered kind => battery (f metered) kind
  | policy srcname p => policy srcname p

def onPolicy (f : ProportionalPolicy → ProportionalPolicy) : BOSNode → BOSNode
  | battery metered kind => battery metered kind
  | policy srcname p => policy srcname (f p)

def readPseudo (now : ℚ) : BOSNode → BOSNode
  | battery metered (.pseudo status) =>
      battery (metered.updateMeter now status.current status.current)
        (.pseudo (status.drain now metered))
  | battery metered kind => battery metered kind
  | policy srcname p => policy srcname p

def onStatus (f : BatteryStatus → BatteryStatus) : BOSNode → BOSNode
  | battery metered (.pseudo status) => battery metered (.pseudo (f status))
  | battery metered kind => battery metered kind
  | policy srcname p => policy srcname p

end BOSNode

structure Entry where
  node : BOSNode
  parents : Finset String

/-- A dictionary from names, in the order in which they have been added. -/
structure BOSDirectory where
  map : List (String × Entry)
  nodup : (map.map Prod.fst).Nodup

namespace BOSDirectory

def empty : BOSDirectory := ⟨[], List.nodup_nil⟩

def keys (d : BOSDirectory) : List String := d.map.map Prod.fst

def find? (d : BOSDirectory) (name : String) : Option Entry := d.map.lookup name

def addNode (d : BOSDirectory) (name : String) (node : BOSNode) (parents : Finset String) :
    Option BOSDirectory :=
  if taken : name ∈ d.map.map Prod.fst then none
  else some ⟨d.map ++ [(name, ⟨node, parents⟩)], by
    rw [List.map_append]
    exact d.nodup.append (List.nodup_singleton _) (by simpa using taken)⟩

def modify (d : BOSDirectory) (name : String) (f : BOSNode → BOSNode) : BOSDirectory :=
  ⟨d.map.map fun p => (p.1, if p.1 = name then { p.2 with node := f p.2.node } else p.2), by
    rw [List.map_map]
    exact d.nodup⟩

def getParents (d : BOSDirectory) (name : String) : Option (Finset String) :=
  (d.find? name).map Entry.parents

def getChildren (d : BOSDirectory) (name : String) : Finset String :=
  ((d.map.filter fun p => name ∈ p.2.parents).map Prod.fst).toFinset

def isfree (d : BOSDirectory) (name : String) : Bool := (d.getChildren name).card == 0

variable {d d' : BOSDirectory} {name n : String} {node : BOSNode} {parents : Finset String}
  {entry : Entry}

theorem mem_of_find? (h : d.find? name = some entry) : (name, entry) ∈ d.map := by
  obtain ⟨before, after, split, -⟩ := List.lookup_eq_some_iff.mp h
  rw [split]
  exact List.mem_append_right _ List.mem_cons_self

theorem find?_of_mem (h : (name, entry) ∈ d.map) : d.find? name = some entry := by
  obtain ⟨before, after, split⟩ := List.append_of_mem h
  refine List.lookup_eq_some_iff.mpr ⟨before, after, split, fun p hp => ?_⟩
  have nodup := d.nodup
  rw [split, List.map_append, List.map_cons, List.nodup_append] at nodup
  have apart := nodup.2.2 p.1 (List.mem_map_of_mem hp) name List.mem_cons_self
  simpa using Ne.symm apart

theorem find?_eq_none : d.find? name = none ↔ name ∉ d.keys := by
  rw [find?, List.lookup_eq_none_iff, keys, List.mem_map]
  constructor
  · rintro h ⟨p, hp, rfl⟩
    simpa using h p hp
  · intro h p hp
    have other : name ≠ p.1 := fun same => h ⟨p, hp, same.symm⟩
    simpa using other

@[simp] theorem keys_modify (d : BOSDirectory) (name : String) (f : BOSNode → BOSNode) :
    (d.modify name f).keys = d.keys := by
  simp only [keys, modify, List.map_map]
  rfl

theorem find?_modify (d : BOSDirectory) (name n : String) (f : BOSNode → BOSNode) :
    (d.modify name f).find? n =
      (d.find? n).map fun e => if n = name then { e with node := f e.node } else e := by
  cases found : d.find? n with
  | none =>
      rw [find?_eq_none, ← keys_modify d name f, ← find?_eq_none] at found
      exact found
  | some entry =>
      exact find?_of_mem (List.mem_map.mpr ⟨(n, entry), mem_of_find? found, rfl⟩)

theorem find?_modify_of_ne (f : BOSNode → BOSNode) (ne : n ≠ name) :
    (d.modify name f).find? n = d.find? n := by
  rw [find?_modify]
  simp [ne]

theorem addNode_eq_none : d.addNode name node parents = none ↔ name ∈ d.keys := by
  unfold addNode
  split_ifs with taken
  · exact iff_of_true rfl taken
  · exact iff_of_false (fun h => by cases h) taken

theorem addNode_eq_some (h : d.addNode name node parents = some d') :
    name ∉ d.keys ∧ d'.map = d.map ++ [(name, ⟨node, parents⟩)] := by
  unfold addNode at h
  split_ifs at h with taken
  cases h
  exact ⟨taken, rfl⟩

end BOSDirectory

/-- The node, and how often its clock has been read. -/
structure BOS where
  directory : BOSDirectory
  readings : ℕ

abbrev NodeCall (α : Type) := Fallible Failure BOS α

namespace BOS

def init : BOS := ⟨.empty, 0⟩

section Parts

variable (clock : ℕ → ℚ)

def value {α : Type} : Except Error α → NodeCall α
  | .ok a => pure a
  | .error e => throw (.raised e)

def bosTime : NodeCall ℚ := do
  let s ← get
  modify fun s => { s with readings := s.readings + 1 }
  return clock s.readings

def lookup (name : String) : NodeCall BOSNode := do
  let s ← get
  match s.directory.find? name with
  | none => throw (.raised .badName)
  | some entry => return entry.node

def modifyNode (name : String) (f : BOSNode → BOSNode) : NodeCall Unit :=
  modify fun s => { s with directory := s.directory.modify name f }

def addNode (name : String) (node : BOSNode) (parents : Finset String) : NodeCall Unit := do
  let s ← get
  match s.directory.addNode name node parents with
  | none => throw (.raised .nameTaken)
  | some directory => modify fun s => { s with directory := directory }

def newBattery : NodeCall Metered := do
  let now ← bosTime clock
  return .new now

def updateMeter (name : String) (endcurrent newcurrent : ℚ) : NodeCall Unit := do
  let now ← bosTime clock
  modifyNode name (.onMeter fun m => m.updateMeter now endcurrent newcurrent)

def lookupBattery (name : String) : NodeCall Metered := do
  match ← lookup name with
  | .policy _ _ => throw .attributeError
  | .battery metered _ => return metered

def getMeter (name : String) : NodeCall ℚ := do
  let metered ← lookupBattery name
  return metered.meter

def setMeter (name : String) (newvalue : ℚ) : NodeCall Unit := do
  let _ ← lookupBattery name
  modifyNode name (.onMeter fun m => m.setMeter newvalue)

/-- The policy that a splitter battery belongs to. What is not a policy cannot be called with the
arguments of one. -/
def lookupPolicy (policyname : String) (otherwise : Failure) :
    NodeCall (String × ProportionalPolicy) := do
  match ← lookup policyname with
  | .battery _ _ => throw otherwise
  | .policy srcname p => return (srcname, p)

end Parts

/-! The calls that a battery makes to others go through the status and the current of these, which
are arguments here. -/

section Methods

variable (clock : ℕ → ℚ) (ask : String → NodeCall BatteryStatus)
  (set : String → ℚ → NodeCall Unit)

def pseudoStatus (name : String) (metered : Metered) (status : BatteryStatus) :
    NodeCall BatteryStatus := do
  let now ← bosTime clock
  modifyNode name (.readPseudo now)
  return status.drain now metered

/-- The body of the loop of `get_status` of an aggregator, which asks the source for one thing after
the other. -/
def tally (s : AggregatorBattery.Totals) (srcname : String) :
    NodeCall AggregatorBattery.Totals := do
  let _ ← lookupBattery srcname
  let maximum ← ask srcname
  let charge ← ask srcname
  let range ← ask srcname
  let remaining ← ask srcname
  let dischargeTime ← value (div remaining.stateOfCharge range.maxDischargingCurrent)
  let capacity ← ask srcname
  let used ← ask srcname
  let chargeTime ← value
    (div (capacity.maxCapacity - used.stateOfCharge) range.maxChargingCurrent)
  let drawn ← ask srcname
  return {
    maxCapacity := s.maxCapacity + maximum.maxCapacity
    curCapacity := s.curCapacity + charge.stateOfCharge
    maxDischargeTime := max s.maxDischargeTime dischargeTime
    maxChargeTime := max s.maxChargeTime chargeTime
    current := s.current + drawn.current }

def aggregate (voltage : ℚ) (srcnames : List String) : NodeCall BatteryStatus := do
  let s ← srcnames.foldlM (tally ask) ⟨0, 0, 0, 0, 0⟩
  let maxDischargeRate ← value (div s.curCapacity s.maxDischargeTime)
  let maxChargeRate ← value (div (s.maxCapacity - s.curCapacity) s.maxChargeTime)
  return ⟨voltage, s.current, s.curCapacity, s.maxCapacity, maxDischargeRate, maxChargeRate⟩

def policyStatus (policyname dstname : String) : NodeCall BatteryStatus := do
  let found ← lookupPolicy policyname .typeError
  let status ← ask found.1
  let scale ← value (item found.2.scales dstname)
  let expectedSoc ← getMeter dstname
  let meters ← found.2.parts.mapM getMeter
  let again ← ask found.1
  let share ← value (div expectedSoc meters.sum)
  let current ← value (item found.2.currents dstname)
  return {
    voltage := status.voltage
    current := current
    stateOfCharge := share * again.stateOfCharge
    maxCapacity := status.maxCapacity * scale.maxCapacity
    maxDischargingCurrent := status.maxDischargingCurrent * scale.maxDischargeRate
    maxChargingCurrent := status.maxChargingCurrent * scale.maxChargeRate }

def setNull (targetCurrent : ℚ) : NodeCall Unit :=
  if targetCurrent ≠ 0 then throw (.raised .currentOutOfRange) else pure ()

def setPseudo (own : NodeCall BatteryStatus) (name : String) (targetCurrent : ℚ) :
    NodeCall Unit := do
  let status ← own
  if ¬ (targetCurrent ≥ -status.maxChargingCurrent ∧
      targetCurrent ≤ status.maxDischargingCurrent) then throw (.raised .currentOutOfRange)
  else
    modifyNode name (.onStatus fun status => { status with current := targetCurrent })
    let after ← own
    updateMeter clock name status.current after.current

def setSources (share : String → NodeCall ℚ) (srcnames : List String) : NodeCall Unit :=
  forM srcnames fun srcname => do
    let current ← share srcname
    set srcname current

def chargeOf (srcname : String) : NodeCall ℚ := do
  let _ ← lookupBattery srcname
  let status ← ask srcname
  return status.stateOfCharge

def roomOf (srcname : String) : NodeCall ℚ := do
  let _ ← lookupBattery srcname
  let capacity ← ask srcname
  let charge ← ask srcname
  return capacity.maxCapacity - charge.stateOfCharge

def shareOf (weight : String → NodeCall ℚ) (time : ℚ) (srcname : String) : NodeCall ℚ := do
  let amount ← weight srcname
  value (div amount time)

def distribute (own : NodeCall BatteryStatus) (srcnames : List String) (targetCurrent : ℚ) :
    NodeCall Unit :=
  if targetCurrent > 0 then do
    let status ← own
    let time ← value (div status.stateOfCharge targetCurrent)
    setSources set (shareOf (chargeOf ask) time) srcnames
  else if targetCurrent < 0 then do
    let capacity ← own
    let charge ← own
    let time ← value (div (capacity.maxCapacity - charge.stateOfCharge) (-targetCurrent))
    setSources set (shareOf (roomOf ask) time) srcnames
  else setSources set (fun _ => pure 0) srcnames

def setAggregator (own : NodeCall BatteryStatus) (name : String) (srcnames : List String)
    (targetCurrent : ℚ) : NodeCall Unit := do
  let status ← own
  let range ← own
  if ¬ (targetCurrent ≥ -range.maxChargingCurrent ∧
      targetCurrent ≤ range.maxDischargingCurrent) then throw (.raised .currentOutOfRange)
  else
    forM srcnames fun srcname => do
      let _ ← lookup srcname
    distribute ask set own srcnames targetCurrent
    let after ← own
    updateMeter clock name status.current after.current

def setPolicy (policyname dstname : String) (targetCurrent : ℚ) : NodeCall Unit := do
  let found ← lookupPolicy policyname .typeError
  let scale ← value (item found.2.scales dstname)
  let status ← ask found.1
  if targetCurrent > status.maxDischargingCurrent * scale.maxDischargeRate then
    throw (.raised .noResources)
  else if -targetCurrent > status.maxChargingCurrent * scale.maxChargeRate then
    throw (.raised .noResources)
  else
    modifyNode policyname (.onPolicy fun p => p.assignCurrent dstname targetCurrent)
    let assigned ← lookupPolicy policyname .typeError
    set found.1 assigned.2.netCurrent

def setSplitter (own : NodeCall BatteryStatus) (name policyname : String) (targetCurrent : ℚ) :
    NodeCall Unit := do
  let status ← own
  setPolicy ask set policyname name targetCurrent
  let after ← own
  updateMeter clock name status.current after.current

def policyResetMeter (policyname name : String) : NodeCall Unit := do
  let found ← lookupPolicy policyname .typeError
  let total ← ask found.1
  let scale ← value (item found.2.scales name)
  setMeter name (total.stateOfCharge * scale.stateOfCharge)

def resetMeter (name : String) : NodeCall Unit := do
  match ← lookup name with
  | .policy _ _ => throw .typeError
  | .battery _ (.splitter policyname) => policyResetMeter ask policyname name
  | .battery _ _ => do
      let status ← ask name
      setMeter name status.stateOfCharge

def actualStatus (targetStatus fromStatus : BatteryStatus) : BatteryStatus where
  voltage := fromStatus.voltage
  current := 0
  stateOfCharge := min targetStatus.stateOfCharge fromStatus.stateOfCharge
  maxCapacity := min targetStatus.maxCapacity fromStatus.maxCapacity
  maxDischargingCurrent := min targetStatus.maxDischargingCurrent fromStatus.maxDischargingCurrent
  maxChargingCurrent := min targetStatus.maxChargingCurrent fromStatus.maxChargingCurrent

def scaleOf (actual total : BatteryStatus) : Except Error Scale := do
  let charge ← div actual.stateOfCharge total.stateOfCharge
  let capacity ← div actual.maxCapacity total.maxCapacity
  let discharge ← div actual.maxDischargingCurrent total.maxDischargingCurrent
  let rate ← div actual.maxChargingCurrent total.maxChargingCurrent
  Scale.new charge capacity discharge rate

/-- `add_child`. The child is inserted before its scale is taken from the donor. -/
def addChild (policyname name : String) (targetStatus : BatteryStatus) (fromName : String) :
    NodeCall Unit := do
  let found ← lookupPolicy policyname .attributeError
  if name ∈ found.2.parts then throw (.raised .invalidArgument)
  else if fromName ∉ found.2.parts then throw (.raised .invalidArgument)
  else
    let fromStatus ← ask fromName
    if fromStatus.current ≠ 0 then throw (.raised .batteryInUse)
    else
      let total ← ask found.1
      let scale ← value (scaleOf (actualStatus targetStatus fromStatus) total)
      modifyNode policyname (.onPolicy fun p => p.insertChild name scale)
      let inserted ← lookupPolicy policyname .attributeError
      let donor ← value (item inserted.2.scales fromName)
      let rest ← value (donor.sub scale)
      modifyNode policyname (.onPolicy fun p => { p with scales := p.scales.set fromName rest })
      resetMeter ask fromName

def checkVoltages (voltage voltageTolerance : ℚ) (srcnames : List String) : NodeCall Unit :=
  forM srcnames fun srcname => do
    let _ ← lookupBattery srcname
    let status ← ask srcname
    if ¬ (status.voltage ≥ voltage - voltageTolerance ∧
        status.voltage ≤ voltage + voltageTolerance) then throw .voltageMismatch
    else pure ()

end Methods

section Calls

variable (clock : ℕ → ℚ)

def getStatus : ℕ → String → NodeCall BatteryStatus
  | 0, _ => Fallible.diverge
  | limit + 1, name => do
      match ← lookup name with
      | .policy _ _ => throw .typeError
      | .battery _ (.null voltage) => return ⟨voltage, 0, 0, 0, 0, 0⟩
      | .battery metered (.pseudo status) => pseudoStatus clock name metered status
      | .battery _ (.aggregator voltage _ srcnames) => do
          let status ← aggregate (getStatus limit) voltage srcnames
          updateMeter clock name status.current status.current
          return status
      | .battery _ (.splitter policyname) => do
          let status ← policyStatus (getStatus limit) policyname name
          updateMeter clock name status.current status.current
          return status

def setCurrent : ℕ → String → ℚ → NodeCall Unit
  | 0, _, _ => Fallible.diverge
  | limit + 1, name, targetCurrent => do
      match ← lookup name with
      | .policy _ _ => throw .typeError
      | .battery _ (.null _) => setNull targetCurrent
      | .battery _ (.pseudo _) =>
          setPseudo clock (getStatus clock (limit + 1) name) name targetCurrent
      | .battery _ (.aggregator _ _ srcnames) =>
          setAggregator clock (getStatus clock limit) (setCurrent limit)
            (getStatus clock (limit + 1) name) name srcnames targetCurrent
      | .battery _ (.splitter policyname) =>
          setSplitter clock (getStatus clock limit) (setCurrent limit)
            (getStatus clock (limit + 1) name) name policyname targetCurrent

/-- Physical batteries come without a `refresh` of their own unless their driver has one. -/
def refresh : ℕ → String → NodeCall Unit
  | 0, _ => Fallible.diverge
  | limit + 1, name => do
      match ← lookup name with
      | .policy _ _ => pure ()
      | .battery _ (.null _) => pure ()
      | .battery _ (.pseudo _) => throw .notImplemented
      | .battery _ (.aggregator _ _ _) => do
          let status ← getStatus clock (limit + 1) name
          updateMeter clock name status.current status.current
      | .battery _ (.splitter policyname) => do
          refresh limit policyname
          let status ← getStatus clock (limit + 1) name
          updateMeter clock name status.current status.current

def setStatus (name : String) (status : BatteryStatus) : NodeCall Unit := do
  match ← lookup name with
  | .battery _ (.pseudo old) => do
      updateMeter clock name old.current status.current
      modifyNode name (.onStatus fun _ => status)
  | _ => throw .attributeError

def makeNull (name : String) (voltage : ℚ) : NodeCall Unit := do
  let metered ← newBattery clock
  addNode name (.battery (metered.setMeter 0) (.null voltage)) ∅

def makePseudo (name : String) (status : BatteryStatus) : NodeCall Unit := do
  let metered ← newBattery clock
  let now ← bosTime clock
  let metered := metered.setMeter status.stateOfCharge
  let read := status.drain now metered
  let metered := metered.updateMeter now status.current status.current
  addNode name (.battery (metered.setMeter read.stateOfCharge) (.pseudo read)) ∅

/-- `make_aggregator`. The constructor asks the sources, and the battery itself is asked before it
is in the directory. -/
def makeAggregator (limit : ℕ) (name : String) (sources : List String)
    (voltage voltageTolerance : ℚ) : NodeCall Unit := do
  let metered ← newBattery clock
  if sources = [] then throw .noBattery
  else
    checkVoltages (getStatus clock limit) voltage voltageTolerance sources
    let status ← aggregate (getStatus clock limit) voltage sources
    let now ← bosTime clock
    let metered := metered.updateMeter now status.current status.current
    addNode name (.battery (metered.setMeter status.stateOfCharge)
      (.aggregator voltage voltageTolerance sources)) sources.toFinset

def makeSplitterPolicy (limit : ℕ) (policyname parent initname : String) : NodeCall Unit := do
  addNode policyname (.policy parent (.init initname)) {parent}
  let metered ← newBattery clock
  addNode initname (.battery metered (.splitter policyname)) {policyname}
  resetMeter (getStatus clock limit) initname

def makeSplitterBattery (limit : ℕ) (batteryname policyname : String)
    (tgtStatus : BatteryStatus) (fromName : String) : NodeCall Unit := do
  let metered ← newBattery clock
  addNode batteryname (.battery metered (.splitter policyname)) {policyname}
  addChild (getStatus clock limit) policyname batteryname tgtStatus fromName
  resetMeter (getStatus clock limit) batteryname

inductive Operation
  | makeNull (name : String) (voltage : ℚ)
  | makePseudo (name : String) (status : BatteryStatus)
  | makeAggregator (name : String) (sources : List String) (voltage voltageTolerance : ℚ)
  | makeSplitterPolicy (policyname parent initname : String)
  | makeSplitterBattery (batteryname policyname : String) (tgtStatus : BatteryStatus)
    (fromName : String)
  | getStatus (name : String)
  | setCurrent (name : String) (current : ℚ)
  | refresh (name : String)
  | setStatus (name : String) (status : BatteryStatus)

def call (limit : ℕ) : Operation → NodeCall Unit
  | .makeNull name voltage => makeNull clock name voltage
  | .makePseudo name status => makePseudo clock name status
  | .makeAggregator name sources voltage voltageTolerance =>
      makeAggregator clock limit name sources voltage voltageTolerance
  | .makeSplitterPolicy policyname parent initname =>
      makeSplitterPolicy clock limit policyname parent initname
  | .makeSplitterBattery batteryname policyname tgtStatus fromName =>
      makeSplitterBattery clock limit batteryname policyname tgtStatus fromName
  | .getStatus name => do
      let _ ← getStatus clock limit name
  | .setCurrent name current => setCurrent clock limit name current
  | .refresh name => refresh clock limit name
  | .setStatus name status => setStatus clock name status

/-- A call from outside; it leaves no state if its calls nest deeper than the limit. -/
def step (limit : ℕ) (s : BOS) (op : Operation) : Option BOS :=
  ((call clock limit op).outcome s).map Prod.snd

end Calls

end BOS

end BatteryOS.V1
