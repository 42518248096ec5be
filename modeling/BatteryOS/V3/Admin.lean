import BatteryOS.V3.Remote
import BatteryOS.V3.WakeUp

/-! Administration over a connection. `Admin` puts a call into a command, BOS parses it, calls the
directory manager and answers with a return code, and `Admin` makes a boolean of the answer. A
session of such calls is one of direct calls, but for a partition without stalenesses and refresh
modes, which the server fills in. -/

namespace BatteryOS.V3

/-! The messages of `battery_manager.proto`. A field of an enumeration may hold a number that the
enumeration does not have. -/

namespace Bosproto

inductive Refresh
  | lazy
  | active
  | unrecognized (value : Int32)
deriving DecidableEq

inductive Policy
  | proportional
  | tranched
  | reserved
  | unrecognized (value : Int32)
deriving DecidableEq

inductive CommandOptions
  | createPhysical
  | createAggregate
  | createPartition
  | createDynamic
  | shutdown
  | createSecure
  | unrecognized (value : Int32)
deriving DecidableEq

structure Scale where
  chargeProportion : ℚ
  capacityProportion : ℚ
deriving DecidableEq, Repr

structure PhysicalBattery where
  batteryName : String
  maxStaleness : Option UInt64
  refreshMode : Option Refresh
deriving DecidableEq

structure DynamicBattery where
  batteryName : String
  refreshFunc : String
  destructorFunc : String
  constructorFunc : String
  setCurrentFunc : String
  maxStaleness : Option UInt64
  refreshMode : Option Refresh
deriving DecidableEq

structure AggregateBattery where
  batteryName : String
  parentNames : List String
  maxStaleness : Option UInt64
  refreshMode : Option Refresh
deriving DecidableEq

structure PartitionBattery where
  sourceName : String
  policy : Policy
  names : List String
  scales : List Scale
  maxStalenesses : List UInt64
  refreshModes : List Refresh
deriving DecidableEq

structure SecureBattery where
  batteryName : String
deriving DecidableEq

inductive CommandParameters where
  | physicalBattery (battery : PhysicalBattery)
  | aggregateBattery (battery : AggregateBattery)
  | partitionBattery (battery : PartitionBattery)
  | dynamicBattery (battery : DynamicBattery)
  | secureBattery (battery : SecureBattery)
deriving DecidableEq

structure AdminCommand where
  commandOptions : CommandOptions
  commandParameters : Option CommandParameters
deriving DecidableEq

structure AdminResponse where
  returnCode : ℤ
  returnValue : ReturnValue
deriving DecidableEq, Repr

end Bosproto

open Bosproto (AdminCommand AdminResponse)

/-! The parameters that the server takes out of a message. -/

def Scale.new (capacity charge : ℚ) : Scale :=
  let ABS (x : ℚ) := if x < 0 then x * -1 else x
  ⟨ABS charge, ABS capacity⟩

structure ParamsPhysical where
  name : String
  refresh : RefreshMode
  staleness : ℤ

structure ParamsAggregate where
  name : String
  refresh : RefreshMode
  staleness : ℤ
  parents : List String

structure ParamsPartition where
  policy : PolicyType
  source : String
  proportions : List Scale
  childNames : List String
  refreshModes : List RefreshMode
  stalenesses : List ℤ

structure ParamsDynamic where
  name : String
  refresh : RefreshMode
  staleness : ℤ
  destructor : String
  constructor : String
  refreshFunc : String
  setCurrentFunc : String

def parseRefreshMode (refreshMode : Bosproto.Refresh) : RefreshMode :=
  if refreshMode = .lazy then .lazy else .active

def parseRefresh (refreshMode : Option Bosproto.Refresh) : RefreshMode :=
  (refreshMode.map parseRefreshMode).getD .lazy

def parsePhysicalBattery (battery : Bosproto.PhysicalBattery) : ParamsPhysical :=
  ⟨battery.batteryName, parseRefresh battery.refreshMode,
    parseStaleness (battery.maxStaleness.map UInt64.toBitVec)⟩

def parseAggregateBattery (battery : Bosproto.AggregateBattery) : ParamsAggregate :=
  ⟨battery.batteryName, parseRefresh battery.refreshMode,
    parseStaleness (battery.maxStaleness.map UInt64.toBitVec), battery.parentNames⟩

def parsePolicy (policy : Bosproto.Policy) : PolicyType :=
  if policy = .proportional then .proportional
  else if policy = .tranched then .tranched
  else .reserved

def parsePartitionBattery (battery : Bosproto.PartitionBattery) : ParamsPartition where
  policy := parsePolicy battery.policy
  source := battery.sourceName
  proportions := battery.scales.map fun scale =>
    Scale.new scale.capacityProportion scale.chargeProportion
  childNames := battery.names
  refreshModes := battery.refreshModes.map parseRefreshMode
  stalenesses := battery.maxStalenesses.map timepoint

def parseDynamicBattery (battery : Bosproto.DynamicBattery) : ParamsDynamic where
  name := battery.batteryName
  refresh := parseRefresh battery.refreshMode
  staleness := parseStaleness (battery.maxStaleness.map UInt64.toBitVec)
  destructor := battery.destructorFunc
  constructor := battery.constructorFunc
  refreshFunc := battery.refreshFunc
  setCurrentFunc := battery.setCurrentFunc

namespace BatteryDirectoryManager

/-- The overload with four arguments: LAZY and one second for every child. -/
def createPartitionBatteryDefault (m : BatteryDirectoryManager) (now : ℤ) (sourceName : String)
    (policyType : PolicyType) (names : List String) (childProportions : List Scale) :
    Option (List ℕ × BatteryDirectoryManager) :=
  m.createPartitionBattery ⟨now, sourceName, policyType, names, childProportions,
    names.map fun _ => 1000, names.map fun _ => .lazy⟩

/-- A dynamic battery enters the directory as a physical one does. -/
def createDynamicBattery (m : BatteryDirectoryManager) (name : String) (maxStaleness : ℤ)
    (refreshMode : RefreshMode) : Option ℕ × BatteryDirectoryManager :=
  m.createPhysicalBattery name maxStaleness refreshMode

/-- Its constructor asks for a second and LAZY; the number of clients is not used. -/
def createSecureBattery (m : BatteryDirectoryManager) (name : String) :
    Option ℕ × BatteryDirectoryManager :=
  m.createPhysicalBattery name 1000 .lazy

end BatteryDirectoryManager

inductive BOSMode
  | network
  | fifo
deriving DecidableEq, Repr

/-- What the server is given from outside as it serves a command: the time, the symbols of its
dynamic library, the batteries that `mkfifo` makes a pair of FIFOs for, and whether the aggregator
takes the connection of a new `SecureBattery`. -/
structure Machine where
  now : ℤ
  library : String → Bool
  mkfifo : String → Bool
  aggregator : Bool

/-- A FIFO is new. Those of the administrator are there from the start. -/
def Machine.makesFifos (machine : Machine) (batteryName : String) : Bool :=
  batteryName ≠ "admin" && machine.mkfifo batteryName

/-- How serving a message can end the program, or the sense of it. -/
inductive Fault
  | nullPointer
  /-- a schedule for a battery that is no `SecureBattery` -/
  | wrongClass
  | exit
  /-- the exception of a FIFO that cannot be made, which nothing catches -/
  | runtimeError
  /-- a call that does not come to its end -/
  | diverges
deriving DecidableEq

/-- The server: its directory, the batteries that have FIFOs and those that connections are for. -/
structure BOS where
  mode : BOSMode
  quitPoll : Bool
  directoryManager : BatteryDirectoryManager
  fifos : List String
  connections : List String
  secureBatteries : List String

namespace BOS

def start (mode : BOSMode) : BOS := ⟨mode, false, .empty, [], [], []⟩

def createBatteryFifos (machine : Machine) (bos : BOS) (batteryName : String) : Except Fault BOS :=
  match bos.mode with
  | .network => .ok bos
  | .fifo =>
    if machine.makesFifos batteryName then .ok { bos with fifos := bos.fifos ++ [batteryName] }
    else .error .runtimeError

def failed (message : String) : AdminResponse := ⟨-1, .failureMessage message⟩

def registered (machine : Machine) (bos : BOS) (made : Option ℕ × BatteryDirectoryManager)
    (name failure : String) : Except Fault (AdminResponse × BOS) :=
  let bos := { bos with directoryManager := made.2 }
  match made.1 with
  | none => .ok (failed failure, bos)
  | some _ => (bos.createBatteryFifos machine name).map fun bos =>
    (⟨0, .successMessage ("successfully created battery: " ++ name)⟩, bos)

def createPhysicalBattery (machine : Machine) (bos : BOS) (command : AdminCommand) :
    Except Fault (AdminResponse × BOS) :=
  match command.commandParameters with
  | some (.physicalBattery battery) =>
    let b := parsePhysicalBattery battery
    bos.registered machine (bos.directoryManager.createPhysicalBattery b.name b.staleness b.refresh)
      b.name ("battery name: " ++ b.name ++ " already exists")
  | _ => .ok (failed "Physical_Battery parameters not set!", bos)

def createAggregateBattery (machine : Machine) (bos : BOS) (command : AdminCommand) :
    Except Fault (AdminResponse × BOS) :=
  match command.commandParameters with
  | some (.aggregateBattery battery) =>
    let b := parseAggregateBattery battery
    bos.registered machine
      (bos.directoryManager.createAggregateBattery machine.now b.name b.parents b.staleness
        b.refresh)
      b.name "error creating aggregate battery!"
  | _ => .ok (failed "Aggregate_Battery parameters not set!", bos)

/-- What the handler of partitions does with the result of the directory; `none` is its exit. -/
def partitioned (machine : Machine) (bos : BOS) (names : List String) :
    Option (List ℕ × BatteryDirectoryManager) → Except Fault (AdminResponse × BOS)
  | none => .error .exit
  | some made =>
    let bos := { bos with directoryManager := made.2 }
    if made.1.length = 0 then .ok (failed "error creating partition batteries!", bos)
    else (names.foldlM (createBatteryFifos machine) bos).map fun bos =>
      (⟨0, .successMessage "successfully created batteries!"⟩, bos)

def createPartitionBattery (machine : Machine) (bos : BOS) (command : AdminCommand) :
    Except Fault (AdminResponse × BOS) :=
  match command.commandParameters with
  | some (.partitionBattery battery) =>
    let b := parsePartitionBattery battery
    if b.refreshModes.length = 0 ∧ b.stalenesses.length = 0 then
      bos.partitioned machine b.childNames
        (bos.directoryManager.createPartitionBatteryDefault machine.now b.source b.policy
          b.childNames b.proportions)
    else if b.refreshModes.length = 0 ∨ b.stalenesses.length = 0 then
      .ok (failed ("refresh modes and stalenesses both need to be included or excluded: " ++
        "cannot choose one"), bos)
    else
      bos.partitioned machine b.childNames (bos.directoryManager.createPartitionBattery
        ⟨machine.now, b.source, b.policy, b.childNames, b.proportions, b.stalenesses,
          b.refreshModes⟩)
  | _ => .ok (failed "Partition_Battery parameters not set!", bos)

def createDynamicBattery (machine : Machine) (bos : BOS) (command : AdminCommand) :
    Except Fault (AdminResponse × BOS) :=
  match command.commandParameters with
  | some (.dynamicBattery battery) =>
    let b := parseDynamicBattery battery
    if !machine.library b.constructor || !machine.library b.destructor ||
        !machine.library b.refreshFunc || !machine.library b.setCurrentFunc then
      .ok (failed "function names not found in dynamic library file", bos)
    else
      bos.registered machine
        (bos.directoryManager.createDynamicBattery b.name b.staleness b.refresh)
        b.name ("battery name: " ++ b.name ++ " already exists")
  | _ => .ok (failed "Dynamic_Battery parameters not set!", bos)

/-- The constructor of the battery connects to the aggregator, whether or not the name is free. -/
def createSecureBattery (machine : Machine) (bos : BOS) (command : AdminCommand) :
    Except Fault (AdminResponse × BOS) :=
  match command.commandParameters with
  | some (.secureBattery battery) =>
    if !machine.aggregator then .error .exit
    else
      let made := bos.directoryManager.createSecureBattery battery.batteryName
      let secure := if made.1.isSome then [battery.batteryName] else []
      ({ bos with secureBatteries := bos.secureBatteries ++ secure }).registered machine made
        battery.batteryName ("battery name: " ++ battery.batteryName ++ " already exists")
  | _ => .ok (failed "Secure_Battery parameters not set!", bos)

/-- `destroyDirectory` forgets the batteries; the graphs stay. -/
def shutdown (bos : BOS) : BOS :=
  { bos with
    quitPoll := true
    directoryManager := { bos.directoryManager with
      directory := { bos.directoryManager.directory with batteryMap := ∅ } } }

/-- A shutdown is not answered. -/
def handleAdminCommand (machine : Machine) (bos : BOS) (command : AdminCommand) :
    Except Fault (Option AdminResponse × BOS) :=
  let answer (result : AdminResponse × BOS) : Option AdminResponse × BOS :=
    (some result.1, result.2)
  match command.commandOptions with
  | .createPhysical => (bos.createPhysicalBattery machine command).map answer
  | .createAggregate => (bos.createAggregateBattery machine command).map answer
  | .createPartition => (bos.createPartitionBattery machine command).map answer
  | .createDynamic => (bos.createDynamicBattery machine command).map answer
  | .createSecure => (bos.createSecureBattery machine command).map answer
  | .shutdown => .ok (none, bos.shutdown)
  | .unrecognized _ => .ok (some (failed "Invalid admin command!"), bos)

end BOS

/-- What `read` parses at one end of a connection from what was written at the other. -/
structure Channel (M R : Type*) where
  request : M → Option M
  response : R → Option R

structure Channel.Faithful {M R : Type*} (channel : Channel M R) : Prop where
  request : ∀ message, channel.request message = some message
  response : ∀ message, channel.response message = some message

theorem Channel.faithful_of_streams {M R : Type*} {requests : Stream M} {responses : Stream R}
    (toServer : requests.Sound) (toClient : responses.Sound) :
    Channel.Faithful ⟨requests.carry, responses.carry⟩ :=
  ⟨toServer.carry, toClient.carry⟩

/-- The calls of `Admin`, with the arguments that a caller gives. The overload for partitions with
four arguments passes empty lists on to the other. -/
inductive AdminCall
  | createPhysicalBattery (name : String) (maxStaleness : Int64) (refreshMode : RefreshMode)
  | createAggregateBattery (name : String) (parentNames : List String) (maxStaleness : Int64)
      (refreshMode : RefreshMode)
  | createPartitionBattery (sourceName : String) (policyType : PolicyType) (names : List String)
      (childProportions : List Scale) (maxStalenesses : List Int64)
      (refreshModes : List RefreshMode)
  | createPartitionBatteryDefault (sourceName : String) (policyType : PolicyType)
      (names : List String) (childProportions : List Scale)
  | createSecureBattery (name : String)

namespace Admin

def refresh (refreshMode : RefreshMode) : Bosproto.Refresh :=
  if refreshMode = .lazy then .lazy else .active

def policy (policyType : PolicyType) : Bosproto.Policy :=
  if policyType = .proportional then .proportional
  else if policyType = .tranched then .tranched
  else .reserved

def partitionCommand (sourceName : String) (policyType : PolicyType) (names : List String)
    (childProportions : List Scale) (maxStalenesses : List Int64)
    (refreshModes : List RefreshMode) : AdminCommand where
  commandOptions := .createPartition
  commandParameters := some (.partitionBattery
    { sourceName := sourceName
      policy := policy policyType
      names := names
      scales := childProportions.map fun scale =>
        ⟨scale.chargeProportion, scale.capacityProportion⟩
      maxStalenesses := maxStalenesses.map Int64.toUInt64
      refreshModes := refreshModes.map refresh })

def command : AdminCall → AdminCommand
  | .createPhysicalBattery name maxStaleness refreshMode =>
    ⟨.createPhysical, some (.physicalBattery
      ⟨name, some maxStaleness.toUInt64, some (refresh refreshMode)⟩)⟩
  | .createAggregateBattery name parentNames maxStaleness refreshMode =>
    ⟨.createAggregate, some (.aggregateBattery
      ⟨name, parentNames, some maxStaleness.toUInt64, some (refresh refreshMode)⟩)⟩
  | .createPartitionBattery sourceName policyType names childProportions maxStalenesses
      refreshModes =>
    partitionCommand sourceName policyType names childProportions maxStalenesses refreshModes
  | .createPartitionBatteryDefault sourceName policyType names childProportions =>
    partitionCommand sourceName policyType names childProportions [] []
  | .createSecureBattery name => ⟨.createSecure, some (.secureBattery ⟨name⟩)⟩

def returned : Option AdminResponse → Bool
  | none => false
  | some response => if response.returnCode = -1 then false else true

/-- A call, with what BOS does on its command. Where BOS ends or sends no response, the call does
not return. -/
def call (channel : Channel AdminCommand AdminResponse) (machine : Machine) (bos : BOS)
    (call : AdminCall) : Option (Bool × BOS) := do
  let command ← channel.request (command call)
  let (response, bos) ← (bos.handleAdminCommand machine command).toOption
  let response ← response
  return (returned (channel.response response), bos)

end Admin

namespace AdminCall

/-- The call on the manager. A partition has been made when its batteries are returned. -/
def direct (machine : Machine) (m : BatteryDirectoryManager) :
    AdminCall → Option (Bool × BatteryDirectoryManager)
  | .createPhysicalBattery name maxStaleness refreshMode =>
    let made := m.createPhysicalBattery name maxStaleness.toInt refreshMode
    some (made.1.isSome, made.2)
  | .createAggregateBattery name parentNames maxStaleness refreshMode =>
    let made := m.createAggregateBattery machine.now name parentNames maxStaleness.toInt refreshMode
    some (made.1.isSome, made.2)
  | .createPartitionBattery sourceName policyType names childProportions maxStalenesses
      refreshModes =>
    (m.createPartitionBattery ⟨machine.now, sourceName, policyType, names, childProportions,
      maxStalenesses.map Int64.toInt, refreshModes⟩).map fun made => (!made.1.isEmpty, made.2)
  | .createPartitionBatteryDefault sourceName policyType names childProportions =>
    (m.createPartitionBatteryDefault machine.now sourceName policyType names childProportions).map
      fun made => (!made.1.isEmpty, made.2)
  | .createSecureBattery name =>
    if !machine.aggregator then none
    else
      let made := m.createSecureBattery name
      some (made.1.isSome, made.2)

def names : AdminCall → List String
  | .createPhysicalBattery name _ _ | .createAggregateBattery name _ _ _
  | .createSecureBattery name => [name]
  | .createPartitionBattery _ _ names _ _ _ | .createPartitionBatteryDefault _ _ names _ => names

end AdminCall

def session {σ : Type*} (call : Machine → σ → AdminCall → Option (Bool × σ)) :
    σ → List (Machine × AdminCall) → Option (List Bool × σ)
  | s, [] => some ([], s)
  | s, (machine, next) :: rest => do
    let (accepted, s) ← call machine s next
    let (others, s) ← session call s rest
    return (accepted :: others, s)

def Machine.Lacks (machine : Machine) (mode : BOSMode) (names : List String) : Prop :=
  mode = .fifo ∧ ∃ name ∈ names, machine.makesFifos name = false

instance (machine : Machine) (mode : BOSMode) (names : List String) :
    Decidable (machine.Lacks mode names) :=
  inferInstanceAs (Decidable (_ ∧ _))

namespace BOS

theorem foldlM_createBatteryFifos (machine : Machine) (bos : BOS) (names : List String) :
    names.foldlM (createBatteryFifos machine) bos =
      if machine.Lacks bos.mode names then .error .runtimeError
      else .ok { bos with fifos := bos.fifos ++ if bos.mode = .fifo then names else [] } := by
  obtain ⟨mode, quitPoll, directoryManager, fifos, connections, secureBatteries⟩ := bos
  induction names generalizing fifos with
  | nil => simp [Machine.Lacks, pure, Except.pure]
  | cons name rest ih =>
      rw [List.foldlM_cons]
      cases mode with
      | network =>
          refine (ih fifos).trans ?_
          simp [Machine.Lacks]
      | fifo =>
          cases makes : machine.makesFifos name with
          | false => simp [createBatteryFifos, makes, Machine.Lacks, bind, Except.bind]
          | true =>
              simp only [createBatteryFifos, makes, if_true]
              refine (ih (fifos ++ [name])).trans ?_
              simp [Machine.Lacks, makes]

end BOS

section Conversions

end Conversions

section Agreement

variable {channel : Channel AdminCommand AdminResponse} {machine : Machine}

theorem BOS.createBatteryFifos_eq (machine : Machine) (bos : BOS) (batteryName : String) :
    bos.createBatteryFifos machine batteryName =
      if machine.Lacks bos.mode [batteryName] then .error .runtimeError
      else .ok { bos with
        fifos := bos.fifos ++ if bos.mode = .fifo then [batteryName] else [] } := by
  rw [← BOS.foldlM_createBatteryFifos, List.foldlM_cons]
  cases bos.createBatteryFifos machine batteryName <;> rfl

end Agreement

def Machine.willing (now : ℤ) : Machine := ⟨now, fun _ => true, fun _ => true, true⟩

/-- There are FIFOs for the administrator already. -/
example : (session (Admin.call ⟨some, some⟩) (BOS.start .fifo)
    [(.willing 0, .createPhysicalBattery "admin" 1000 .lazy)]).isNone = true := by
  decide +kernel

end BatteryOS.V3
