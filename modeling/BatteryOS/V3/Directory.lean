import BatteryOS.Library.Multigraph
import BatteryOS.V3.System

/-! The directory of batteries and its manager. A `shared_ptr` is an index into the world, which
only grows: what a failed call has built and dropped again stays in it, under no name. The map
and the two graphs go by names. Dynamic and secure batteries enter the directory as physical
ones do. `getBatteryType` of a physical or dynamic battery reads a member that no constructor
sets: `removeBatteryReading` is given what is read there, and `removeBattery` is the removal where
that is not the type of a partition. -/

namespace BatteryOS.V3

structure BatteryDirectory where
  childGraph : Adjacency String
  parentGraph : Adjacency String
  batteryMap : OrderedMap String ℕ

namespace BatteryDirectory

def empty : BatteryDirectory := ⟨∅, ∅, ∅⟩

def nameExists (d : BatteryDirectory) (name : String) : Bool := (d.batteryMap.find? name).isSome

/-- `none` is the result `false`. -/
def addBattery (d : BatteryDirectory) (name : String) (battery : ℕ) : Option BatteryDirectory :=
  if d.nameExists name then none
  else some { d with batteryMap := d.batteryMap.insert name battery }

def canBeSource (d : BatteryDirectory) (batteryName : String) : Bool :=
  d.nameExists batteryName && (d.parentGraph.find? batteryName).isNone

/-- Without both names nothing changes. No caller looks at the result. -/
def addEdge (d : BatteryDirectory) (parentName childName : String) : BatteryDirectory :=
  if d.nameExists parentName && d.nameExists childName then
    { d with
      childGraph := d.childGraph.push childName parentName
      parentGraph := d.parentGraph.push parentName childName }
  else d

/-- The loop of `removeBattery` over the children, until one is not removed. -/
def removeChildren (remove : BatteryDirectory → String → Option (Bool × BatteryDirectory)) :
    BatteryDirectory → List String → Option (Bool × BatteryDirectory)
  | d, [] => some (true, d)
  | d, child :: rest => do
    let (removed, d) ← remove d child
    if removed then removeChildren remove d rest else return (false, d)

/-- The second half of `removeBattery`: the edges from the parents and the battery itself. -/
def unlink (d : BatteryDirectory) (batteryName : String) : BatteryDirectory where
  parentGraph := (d.childGraph.neighbours batteryName).foldl
    (fun parentGraph parent => parentGraph.drop parent batteryName) d.parentGraph
  childGraph := OrderedMap.erase d.childGraph batteryName
  batteryMap := d.batteryMap.erase batteryName

/-- `removeBattery`, with fuel for its recursion into the children. -/
def removeBattery : ℕ → BatteryDirectory → String → Option (Bool × BatteryDirectory)
  | 0, _, _ => none
  | fuel + 1, d, batteryName =>
    if ¬ d.nameExists batteryName then some (false, d)
    else match d.parentGraph.find? batteryName with
      | none => some (true, d.unlink batteryName)
      | some childNames => do
        let (removed, d) ← removeChildren (removeBattery fuel) d childNames
        if removed then
          return (true, { d with
            parentGraph := OrderedMap.erase d.parentGraph batteryName }.unlink batteryName)
        else return (false, d)

end BatteryDirectory

def aggregateBattery (batteryName : String) (maxStaleness : ℤ) (refreshMode : RefreshMode)
    (now : ℤ) (sequenceNumber : ℕ) : Battery :=
  { Battery.new batteryName maxStaleness refreshMode with
    eventSet := OrderedSet.insert ∅ ⟨.refresh, 0, now, batteryName, sequenceNumber⟩ }

def partitionManagerBattery (batteryName : String) (status : BatteryStatus) (now : ℤ)
    (sequenceNumber : ℕ) : Battery :=
  { Battery.new batteryName 60000 .active with
    status := status
    eventSet := OrderedSet.insert ∅ ⟨.refresh, 0, now + 60000, batteryName, sequenceNumber⟩ }

structure PartitionArgs where
  now : ℤ
  sourceName : String
  policyType : PolicyType
  names : List String
  childProportions : List Scale
  maxStalenesses : List ℤ
  refreshModes : List RefreshMode

/-- `PartitionManager::initBatteryStatus`: a child is looked up by its name, and two children
of one name both find the first. -/
def PartitionArgs.initBatteryStatus (args : PartitionArgs) (status : BatteryStatus)
    (childName : String) : BatteryStatus :=
  let scale := args.childProportions.getD (args.names.idxOf childName) ⟨0, 0⟩
  { voltageMV := status.voltageMV
    currentMA := status.currentMA
    capacityMAh := status.capacityMAh * scale.capacityProportion
    maxCapacityMAh := status.maxCapacityMAh * scale.capacityProportion
    maxChargingCurrentMA := status.maxChargingCurrentMA * scale.chargeProportion
    maxDischargingCurrentMA := status.maxDischargingCurrentMA * scale.chargeProportion
    time := args.now }

/-- The constructor of `PartitionBattery` and `setSourceBattery`, for one child after the other.
The sequence number is the next that `getSequenceNumber` gives. -/
def PartitionArgs.partitionBatteries (args : PartitionArgs) (status : BatteryStatus) :
    ℕ → List (String × ℤ × RefreshMode) → List Battery × ℕ
  | sequenceNumber, [] => ([], sequenceNumber)
  | sequenceNumber, (name, maxStaleness, refreshMode) :: rest =>
    let b := { Battery.new name maxStaleness refreshMode with
      status := args.initBatteryStatus status name }
    if refreshMode = .active then
      let refreshEvent : Event := ⟨.refresh, 0, args.now + maxStaleness, name, sequenceNumber⟩
      let (batteries, last) := args.partitionBatteries status (sequenceNumber + 1) rest
      ({ b with eventSet := b.eventSet.insert refreshEvent } :: batteries, last)
    else
      let (batteries, last) := args.partitionBatteries status sequenceNumber rest
      (b :: batteries, last)

/-- An `int` in memory may be none of the enumeration. -/
inductive BatteryType
  | physical
  | aggregate
  | partition
  | partitionManager
  | secure
  | other (value : ℤ)
deriving DecidableEq

/-- What is read as the type is `unset` where no constructor has set it. -/
def World.getBatteryType (w : World) (unset : BatteryType) (i : ℕ) : BatteryType :=
  match w.kind? i with
  | some .physical | none => unset
  | some (.aggregate _) => .aggregate
  | some (.partition _) => .partition
  | some (.partitionManager _ _ _ _) => .partitionManager

/-- `getSourceName`, which reads the source of a partition; of no other class is there one. -/
def World.getSourceName (w : World) (i : ℕ) : Option String :=
  match w.kind? i with
  | some (.partition source) => some (w.battery source).batteryName
  | some .physical | some (.aggregate _) | some (.partitionManager _ _ _ _) | none => none

structure BatteryDirectoryManager where
  directory : BatteryDirectory
  pManagerCounter : ℕ
  world : World
  sequenceNumber : ℕ

namespace BatteryDirectoryManager

def empty : BatteryDirectoryManager := ⟨.empty, 1, [], 1⟩

def getBattery (m : BatteryDirectoryManager) (name : String) : Option ℕ :=
  m.directory.batteryMap.find? name

def createPartitionManagerName (m : BatteryDirectoryManager) : String :=
  "pManager" ++ toString m.pManagerCounter

/-- A removal of a partition goes to its manager. -/
def removalTarget (m : BatteryDirectoryManager) (name : String) (battery : ℕ) : String :=
  match m.world.kind? battery with
  | some (.partition source) => (m.world.battery source).batteryName
  | some .physical | some (.aggregate _) | some (.partitionManager _ _ _ _) | none => name

def removeBattery (m : BatteryDirectoryManager) (name : String) :
    Option (Bool × BatteryDirectoryManager) :=
  match m.getBattery name with
  | none => some (false, m)
  | some battery =>
    (m.directory.removeBattery (m.world.length + 1) (m.removalTarget name battery)).map
      fun result => (result.1, { m with directory := result.2 })

/-- The name that a removal goes to, given what is read as a type that is not set. -/
def targetReading (m : BatteryDirectoryManager) (unset : BatteryType) (name : String)
    (battery : ℕ) : Option String :=
  if m.world.getBatteryType unset battery = .partition then m.world.getSourceName battery
  else some name

def removeBatteryReading (m : BatteryDirectoryManager) (unset : BatteryType) (name : String) :
    Option (Bool × BatteryDirectoryManager) :=
  match m.getBattery name with
  | none => some (false, m)
  | some battery => do
    let target ← m.targetReading unset name battery
    let (removed, directory) ← m.directory.removeBattery (m.world.length + 1) target
    return (removed, { m with directory := directory })

def createPhysicalBattery (m : BatteryDirectoryManager) (name : String) (maxStaleness : ℤ)
    (refreshMode : RefreshMode) : Option ℕ × BatteryDirectoryManager :=
  let battery := m.world.length
  let m := { m with
    world := m.world ++ [⟨Battery.new name maxStaleness refreshMode, .physical⟩] }
  match m.directory.addBattery name battery with
  | none => (none, m)
  | some directory => (some battery, { m with directory := directory })

def sourceBattery (m : BatteryDirectoryManager) (name : String) : Option ℕ :=
  match m.getBattery name with
  | none => none
  | some battery =>
    if (m.world.battery battery).status.currentMA ≠ 0 then none
    else if m.directory.canBeSource name then some battery
    else none

def createAggregateBattery (m : BatteryDirectoryManager) (now : ℤ) (name : String)
    (parentNames : List String) (maxStaleness : ℤ) (refreshMode : RefreshMode) :
    Option ℕ × BatteryDirectoryManager :=
  match parentNames.mapM m.sourceBattery with
  | none | some [] => (none, m)
  | some parents =>
    let battery := m.world.length
    let m := { m with
      world := m.world ++
        [⟨aggregateBattery name maxStaleness refreshMode now m.sequenceNumber, .aggregate parents⟩]
      sequenceNumber := m.sequenceNumber + 1 }
    match m.directory.addBattery name battery with
    | none => (none, m)
    | some directory =>
      (some battery, { m with
        directory := parentNames.foldl (fun d parentName => d.addEdge parentName name) directory })

/-- The tests of `createPartitionBattery` that come before anything is kept. -/
def refusesPartition (m : BatteryDirectoryManager) (args : PartitionArgs) : Bool :=
  (args.childProportions.map Scale.chargeProportion).sum ≠ 1 ||
    (args.childProportions.map Scale.capacityProportion).sum ≠ 1 ||
    !(args.names.length = args.childProportions.length &&
      args.childProportions.length = args.maxStalenesses.length &&
      args.maxStalenesses.length = args.refreshModes.length) ||
    !m.directory.canBeSource args.sourceName ||
    (m.getBattery args.sourceName).any fun source =>
      (m.world.battery source).status.currentMA ≠ 0

/-- The last loop of `createPartitionBattery`. It stops at a name that is taken. -/
def addPartitions (pManager : String) :
    BatteryDirectory → List (String × ℕ) → Bool × BatteryDirectory
  | d, [] => (true, d)
  | d, (name, battery) :: rest =>
    match d.addBattery name battery with
    | none => (false, d)
    | some d => addPartitions pManager (d.addEdge pManager name) rest

/-- `none` is the exit of the program, when the generated name is taken. -/
def createPartitionBattery (m : BatteryDirectoryManager) (args : PartitionArgs) :
    Option (List ℕ × BatteryDirectoryManager) :=
  if m.refusesPartition args then some ([], m)
  else match m.getBattery args.sourceName with
    | none => some ([], m)
    | some source => do
      let pManager := m.createPartitionManagerName
      let (status, world) ← getStatus args.now (m.world.length + 1) m.world source
      let manager := world.length
      let children := List.range' (manager + 1) args.names.length
      let (batteries, sequenceNumber) := args.partitionBatteries status (m.sequenceNumber + 1)
        (args.names.zip (args.maxStalenesses.zip args.refreshModes))
      let directory ← m.directory.addBattery pManager manager
      let (added, directory) := addPartitions pManager
        (directory.addEdge args.sourceName pManager) (args.names.zip children)
      return (if added then children else [],
        { directory := directory
          pManagerCounter := m.pManagerCounter + 1
          world := world ++
            ⟨partitionManagerBattery pManager status args.now m.sequenceNumber,
              .partitionManager args.policyType source children args.childProportions⟩ ::
            batteries.map fun b => ⟨b, .partition manager⟩
          sequenceNumber := sequenceNumber })

/-- The calls on a manager, and whatever happens to a battery in between. -/
inductive Call
  | createPhysicalBattery (name : String) (maxStaleness : ℤ) (refreshMode : RefreshMode)
  | createAggregateBattery (now : ℤ) (name : String) (parentNames : List String)
      (maxStaleness : ℤ) (refreshMode : RefreshMode)
  | createPartitionBattery (args : PartitionArgs)
  | removeBattery (name : String)
  | update (battery : ℕ) (content : Battery)

def update (m : BatteryDirectoryManager) (battery : ℕ) (content : Battery) :
    BatteryDirectoryManager :=
  { m with
    world := m.world.setBattery battery fun b => { content with batteryName := b.batteryName } }

/-- The state after a call; `none` when it does not return. -/
def step (m : BatteryDirectoryManager) : Call → Option BatteryDirectoryManager
  | .createPhysicalBattery name maxStaleness refreshMode =>
    some (m.createPhysicalBattery name maxStaleness refreshMode).2
  | .createAggregateBattery now name parentNames maxStaleness refreshMode =>
    some (m.createAggregateBattery now name parentNames maxStaleness refreshMode).2
  | .createPartitionBattery args => (m.createPartitionBattery args).map Prod.snd
  | .removeBattery name => (m.removeBattery name).map Prod.snd
  | .update battery content => some (m.update battery content)

def exec (m : BatteryDirectoryManager) (calls : List Call) : Option BatteryDirectoryManager :=
  calls.foldlM step m

end BatteryDirectoryManager

end BatteryOS.V3
