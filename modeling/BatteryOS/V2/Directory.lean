import BatteryOS.Library.Multigraph
import BatteryOS.Library.StepRun
import BatteryOS.V2.StatusOf

/-! The directory of batteries and its manager. No battery leaves a directory and no name is given
twice, so that a pointer to a stored battery is its name. A dynamic battery is stored as a physical
one: neither has a lock that `addEdge` takes, and its type, which no constructor sets, is taken to
be theirs. `none` stands for a call that does not return, with the program ended or its thread
waiting for itself. -/

namespace BatteryOS.V2

inductive BatteryType
  | physical
  | aggregate
  | balSplitter
  | splitted
deriving DecidableEq, Repr

/-- What the constructor of `BALSplitter` keeps of its arguments. -/
structure SplitterPolicy where
  srcName : String
  childNames : List String
  childScales : List Scale
  policyType : ℤ

/-- The class of a stored battery; a child goes with the policy that it is attached to. -/
inductive BatteryKind
  | physical
  | aggregate
  | balSplitter (policy : SplitterPolicy)
  | splitted (policyName : Option String)

def BatteryKind.type : BatteryKind → BatteryType
  | .physical => .physical
  | .aggregate => .aggregate
  | .balSplitter _ => .balSplitter
  | .splitted _ => .splitted

structure StoredBattery where
  maxStalenessMS : ℤ
  kind : BatteryKind

structure BOSDirectory where
  nameStorageMap : OrderedMap String StoredBattery
  parentMap : Adjacency String
  childrenMap : Adjacency String

/-- What `make_splitter` reads: the status of the source for the constructor of the policy, if it
answers, the clock for each child there, and what is read while each child is attached. -/
structure SplitterReadings where
  sourceStatus : Option BatteryStatus
  constructedAt : ℕ → ℤ
  attaching : ℕ → Reading

structure SplitterArgs where
  name : String
  srcName : String
  childNames : List String
  childScales : List Scale
  childMaxStalenessesMS : List ℤ
  policyType : ℤ
  maxStalenessMS : ℤ
  readings : SplitterReadings

namespace SplitterArgs

def policy (args : SplitterArgs) : SplitterPolicy where
  srcName := args.srcName
  childNames := args.childNames
  childScales := args.childScales
  policyType := args.policyType

/-- The number of the last child. A request that passes the tests has one. -/
def lastChild (args : SplitterArgs) : ℕ := args.childNames.length - 1

def childScale (args : SplitterArgs) (i : Fin (args.lastChild + 1)) : Scale :=
  args.childScales.getD i (.ofProportion 0)

def construct (args : SplitterArgs) (sourceStatus : BatteryStatus) :
    BALSplitter (args.lastChild + 1) :=
  .ofSource (fun i => args.childNames.getD i "") args.childScale sourceStatus
    (fun i => args.readings.constructedAt i) (milliseconds args.maxStalenessMS)

def terms (args : SplitterArgs) (sourceStatus : BatteryStatus) :
    BALSplitter.Terms (args.lastChild + 1) where
  policyType := args.policyType
  childScales := args.childScale
  childOriginalStatus := fun i => sourceStatus.scaled (args.childScale i)

/-- `get_status_of` on the policy that is constructed from a status, in the `k`-th attachment. -/
def getStatusOf (args : SplitterArgs) (sourceStatus : BatteryStatus) (k : ℕ) (names : List String)
    (childName : String) (sp : BALSplitter (args.lastChild + 1)) :
    Option (BALSplitter (args.lastChild + 1)) :=
  sp.getStatusOf (args.terms sourceStatus) names (args.readings.attaching k) childName

end SplitterArgs

namespace BOSDirectory

def empty : BOSDirectory := ⟨∅, ∅, ∅⟩

def nameExists (d : BOSDirectory) (name : String) : Bool := (d.nameStorageMap.find? name).isSome

def getBattery (d : BOSDirectory) (name : String) : Option StoredBattery :=
  d.nameStorageMap.find? name

def getBatteryType (d : BOSDirectory) (name : String) : Option BatteryType :=
  (d.getBattery name).map fun battery => battery.kind.type

def getChildren (d : BOSDirectory) (name : String) : List String := d.childrenMap.neighbours name

def getParents (d : BOSDirectory) (name : String) : List String := d.parentMap.neighbours name

/-- The result is the null pointer where the name is taken. -/
def addBattery (d : BOSDirectory) (name : String) (battery : StoredBattery) :
    Option String × BOSDirectory :=
  if d.nameExists name then (none, d)
  else
    (some name,
      { nameStorageMap := d.nameStorageMap.insert name battery
        parentMap := d.parentMap.insert name []
        childrenMap := d.childrenMap.insert name [] })

/-- It locks both ends if they are virtual, and a mutex that is locked twice is not got. -/
def addEdge (d : BOSDirectory) (fromName toName : String) : Option (Bool × BOSDirectory) :=
  if ¬ d.nameExists fromName || ¬ d.nameExists toName then some (false, d)
  else if fromName = toName ∧ d.getBatteryType fromName ≠ some .physical then none
  else
    some (true,
      { d with
        childrenMap := d.childrenMap.push fromName toName
        parentMap := d.parentMap.push toName fromName })

/-- What all factories of physical batteries do, behind `BATTERY_FACTORY_NAME_CHECK`. -/
def makePhysical (d : BOSDirectory) (name : String) (maxStalenessMS : ℤ) :
    Option String × BOSDirectory :=
  if d.nameExists name then (none, d) else d.addBattery name ⟨maxStalenessMS, .physical⟩

def makeNull (d : BOSDirectory) (name : String) (maxStalenessMS : ℤ) :
    Option String × BOSDirectory :=
  d.makePhysical name maxStalenessMS

def makePseudo (d : BOSDirectory) (name : String) (maxStalenessMS : ℤ) :
    Option String × BOSDirectory :=
  d.makePhysical name maxStalenessMS

/-- The constructor of `JBDBMS` writes to the connection that it has just moved from, and does not
return; the battery is here as if it did. -/
def makeJBDBMS (d : BOSDirectory) (name : String) (maxStalenessMS : ℤ) :
    Option String × BOSDirectory :=
  d.makePhysical name maxStalenessMS

def makeNetworkedBattery (d : BOSDirectory) (name : String) (maxStalenessMS : ℤ) :
    Option String × BOSDirectory :=
  d.makePhysical name maxStalenessMS

/-- It does not look at the name first. Whether the library and what it needs of it are found, and
are initialised, is an argument. -/
def makeDynamic (d : BOSDirectory) (name : String) (maxStalenessMS : ℤ) (initialized : Bool) :
    Option String × BOSDirectory :=
  if initialized then d.addBattery name ⟨maxStalenessMS, .physical⟩ else (none, d)

def addSources (name : String) : BOSDirectory → List String → Option BOSDirectory
  | d, [] => some d
  | d, src :: rest => do
    let (_, d) ← d.addEdge src name
    addSources name d rest

def makeAggregator (d : BOSDirectory) (name : String) (srcNames : List String)
    (maxStalenessMS : ℤ) : Option (Option String × BOSDirectory) :=
  if d.nameExists name then some (none, d)
  else do
    let (agg, d) := d.addBattery name ⟨maxStalenessMS, .aggregate⟩
    let d ← d.addSources name srcNames
    return (agg, d)

/-- The call on a child that is found by its name; `none` where that is no child. The policy is asked
for the status of the child, which is refreshed for the children that it has in the directory. -/
def attachToPolicy {σ : Type} (getStatusOf : List String → String → σ → Option σ) (d : BOSDirectory)
    (sp : σ) (childName policyName : String) : Option (Bool × BOSDirectory × σ) :=
  if d.getBatteryType childName ≠ some .splitted then none
  else if d.getBatteryType policyName ≠ some .balSplitter then some (false, d, sp)
  else (getStatusOf (d.getChildren policyName) childName sp).map fun sp =>
    (true,
      { d with
        nameStorageMap := d.nameStorageMap.modify childName fun child =>
          { child with kind := .splitted (some policyName) } }, sp)

/-- The tests of `make_splitter`, after which nothing has been added. -/
def refusesSplitter (d : BOSDirectory) (args : SplitterArgs) : Bool :=
  d.nameExists args.name || !d.nameExists args.srcName ||
    !(args.childNames.length = args.childScales.length &&
      args.childNames.length = args.childMaxStalenessesMS.length) ||
    args.childNames.any d.nameExists || !acceptsScales args.childScales

def addChildren : BOSDirectory → List (String × ℤ) → List (Option String) × BOSDirectory
  | d, [] => ([], d)
  | d, (name, maxStalenessMS) :: rest =>
    let (child, d) := d.addBattery name ⟨maxStalenessMS, .splitted none⟩
    let (children, d) := addChildren d rest
    (child :: children, d)

/-- The loop of `make_splitter` over the children once the policy is stored, from the `k`-th on. -/
def attachChildren {σ : Type} (getStatusOf : ℕ → List String → String → σ → Option σ)
    (policyName : String) : ℕ → BOSDirectory → σ → List String → Option BOSDirectory
  | _, d, _, [] => some d
  | k, d, sp, name :: rest => do
    let (_, d) ← d.addEdge policyName name
    let (_, d, sp) ← d.attachToPolicy (getStatusOf k) sp name policyName
    attachChildren getStatusOf policyName (k + 1) d sp rest

/-- The constructor of the policy reads the status of the source, which a policy does not give. -/
def makeSplitter (d : BOSDirectory) (args : SplitterArgs) :
    Option (List (Option String) × BOSDirectory) :=
  if d.refusesSplitter args then some ([], d)
  else
    let (children, d) := d.addChildren (args.childNames.zip args.childMaxStalenessesMS)
    if d.getBatteryType args.srcName = some .balSplitter then none
    else do
      let sourceStatus ← args.readings.sourceStatus
      let (_, d) := d.addBattery args.name ⟨args.maxStalenessMS, .balSplitter args.policy⟩
      let (_, d) ← d.addEdge args.srcName args.name
      let d ← attachChildren (args.getStatusOf sourceStatus) args.name 0 d
        (args.construct sourceStatus) args.childNames
      return (children, d)

/-- The removal itself is not implemented, and ends the program. -/
def removeBattery (d : BOSDirectory) (name : String) : Option (ℤ × BOSDirectory) :=
  if ¬ d.nameExists name || d.getBatteryType name = some .splitted then some (0, d) else none

inductive Call
  | makeNull (name : String) (maxStalenessMS : ℤ)
  | makePseudo (name : String) (maxStalenessMS : ℤ)
  | makeJBDBMS (name : String) (maxStalenessMS : ℤ)
  | makeNetworkedBattery (name : String) (maxStalenessMS : ℤ)
  | makeDynamic (name : String) (maxStalenessMS : ℤ) (initialized : Bool)
  | makeAggregator (name : String) (srcNames : List String) (maxStalenessMS : ℤ)
  | makeSplitter (args : SplitterArgs)
  | removeBattery (name : String)

def step (d : BOSDirectory) : Call → Option BOSDirectory
  | .makeNull name maxStalenessMS => some (d.makeNull name maxStalenessMS).2
  | .makePseudo name maxStalenessMS => some (d.makePseudo name maxStalenessMS).2
  | .makeJBDBMS name maxStalenessMS => some (d.makeJBDBMS name maxStalenessMS).2
  | .makeNetworkedBattery name maxStalenessMS =>
    some (d.makeNetworkedBattery name maxStalenessMS).2
  | .makeDynamic name maxStalenessMS initialized =>
    some (d.makeDynamic name maxStalenessMS initialized).2
  | .makeAggregator name srcNames maxStalenessMS =>
    (d.makeAggregator name srcNames maxStalenessMS).map Prod.snd
  | .makeSplitter args => (d.makeSplitter args).map Prod.snd
  | .removeBattery name => (d.removeBattery name).map Prod.snd

end BOSDirectory

end BatteryOS.V2
