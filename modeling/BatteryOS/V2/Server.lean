import BatteryOS.V2.Graph
import BatteryOS.V2.Session

/-! The server of a directory, which administrators and clients reach through messages: by FIFOs in
a directory that it makes for itself, or by a socket. It serves one message at a time. Messages
arrive as they were sent; what the batteries behind do is an argument. -/

namespace BatteryOS.V2

open Wire (RemoteNode NetworkCall Returned session timepointToCTime cTimeToTimepoint)

namespace Bosproto

structure Scale where
  remainingCharge : ℚ
  fullChargeCapacity : ℚ
  maxDischarge : ℚ
  maxCharge : ℚ

structure MakeSplitter where
  name : String
  maxStalenessMS : ℤ
  srcName : String
  childNames : List String
  childScales : List Scale
  childMaxStalenessMS : List ℤ
  policyType : ℤ

inductive AdminMsg
  | makeNull (name : String) (maxStalenessMS : ℤ)
  | makePseudo (name : String) (maxStalenessMS : ℤ)
  | makeJBDBMS (name : String) (maxStalenessMS : ℤ)
  | makeNetworked (name : String) (maxStalenessMS : ℤ)
  | makeAggregator (name : String) (srcNames : List String) (maxStalenessMS : ℤ)
  | makeSplitter (msg : MakeSplitter)
  | makeDynamic (name : String) (maxStalenessMS : ℤ)
  | removeBattery (name : String)
  | listBattery
  | getBatteryInfo (name : String)
  | shutdown

inductive AdminRetval
  | success (value : ℤ)
  | failreason (text : String)
deriving DecidableEq

structure AdminResp where
  retcode : ℤ
  retval : Option AdminRetval
deriving DecidableEq

inductive BatteryMsg
  | getStatus
  | scheduleSetCurrent (targetCurrentMA : Int64) (whenToSet untilWhen : Wire.CTimestamp)
  | getInfo

inductive BatteryRetval
  | status (status : Wire.BatteryStatus)
  | setCurrentResponse (value : Int64)
  | failreason (text : String)
deriving DecidableEq

structure BatteryResp where
  retcode : ℤ
  retval : Option BatteryRetval
deriving DecidableEq

end Bosproto

open Bosproto (AdminMsg AdminResp BatteryMsg BatteryResp)

/-! ### Scales of messages -/

structure RawScale where
  capacity : ℚ
  maxCapacity : ℚ
  maxDischargeRate : ℚ
  maxChargeRate : ℚ

namespace RawScale

def ofScale (scale : Scale) : RawScale :=
  ⟨scale.capacity, scale.maxCapacity, scale.maxDischargeRate, scale.maxChargeRate⟩

/-- The maximal capacity is assigned twice, and the discharge rate is left as it is. -/
def deserialize (scale : RawScale) (msg : Bosproto.Scale) : RawScale :=
  let scale := { scale with capacity := msg.remainingCharge }
  let scale := { scale with maxCapacity := msg.fullChargeCapacity }
  let scale := { scale with maxChargeRate := msg.maxCharge }
  { scale with maxCapacity := msg.maxDischarge }

def toScale (scale : RawScale) : Option Scale :=
  if h : (within01Range scale.capacity && within01Range scale.maxCapacity &&
      within01Range scale.maxDischargeRate && within01Range scale.maxChargeRate) = true then
    some ⟨scale.capacity, scale.maxCapacity, scale.maxDischargeRate, scale.maxChargeRate, h⟩
  else none

end RawScale

namespace Scale

/-- `operator+` with a scale whose fields may be anything; see `Scale.add`. -/
def addRaw (scale : Scale) (other : RawScale) : Scale :=
  if within01Range (scale.capacity + other.capacity) &&
      within01Range (scale.maxCapacity + other.maxCapacity) &&
      within01Range (scale.maxDischargeRate + other.maxDischargeRate) &&
      within01Range (if scale.maxChargeRate ≥ other.maxChargeRate then 1 else 0) then
    new (scale.capacity + other.capacity) (scale.maxCapacity + other.maxCapacity)
      (scale.maxDischargeRate + other.maxDischargeRate)
      (scale.maxChargeRate + other.maxChargeRate)
  else ofProportion 0

def sumsToOneRaw (totalSum : Scale) : List RawScale → Bool
  | [] => totalSum.isOne
  | scale :: rest =>
    let totalSum := totalSum.addRaw scale
    if totalSum.isZero then false else sumsToOneRaw totalSum rest

end Scale

/-! ### The server -/

/-- `BatteryOS`: the directory, the batteries behind it, whether there is a FIFO of the administrator,
and the names whose FIFOs are polled. -/
structure BOS (σ : Type) where
  dir : BOSDirectory
  batteries : σ
  adminFifo : Bool
  batteryIfds : Finset String
  shouldQuit : Bool

/-- What a call of the administrator meets outside: whether a dynamic library is found and
initialized, and what a splitter reads. -/
structure Surroundings where
  initialized : Bool
  readings : SplitterReadings

namespace BOS

variable {σ : Type}

/-- The FIFO of a battery, which cannot be made where its path exists; whether the file system
takes the name otherwise is an argument. -/
def singleBatteryFifoInit (mkfifo : String → Bool) (bos : BOS σ) (batteryName : String) :
    BOS σ :=
  if batteryName = "admin" ∧ bos.adminFifo ∨ batteryName ∈ bos.batteryIfds ∨ ¬ mkfifo batteryName
  then bos
  else { bos with batteryIfds := insert batteryName bos.batteryIfds }

def batteryPostCreation (mkfifo : String → Bool) (bos : BOS σ) (batteryName : String) :
    BOS σ :=
  bos.singleBatteryFifoInit mkfifo batteryName

/-- What all cases that make one battery do with the result. -/
def replyMade (mkfifo : String → Bool) (bos : BOS σ) (name : String)
    (made : Option String × BOSDirectory) : AdminResp × BOS σ :=
  let bos := { bos with dir := made.2 }
  match made.1 with
  | none => (⟨-1, some (.failreason "failed to create battery")⟩, bos)
  | some _ => (⟨0, some (.success 1)⟩, bos.batteryPostCreation mkfifo name)

/-- `make_splitter` with the scales of a message. Scales that pass the tests are between 0 and 1. -/
def makeSplitter (d : BOSDirectory) (msg : Bosproto.MakeSplitter) (readings : SplitterReadings) :
    Option (List (Option String) × BOSDirectory) :=
  let childScales := msg.childScales.map (RawScale.ofScale (.ofProportion 0)).deserialize
  if d.nameExists msg.name || !d.nameExists msg.srcName ||
      !(msg.childNames.length = childScales.length &&
        msg.childNames.length = msg.childMaxStalenessMS.length) ||
      msg.childNames.any d.nameExists || !(Scale.ofProportion 0).sumsToOneRaw childScales then
    some ([], d)
  else do
    let childScales ← childScales.mapM RawScale.toScale
    d.makeSplitter ⟨msg.name, msg.srcName, msg.childNames, childScales, msg.childMaxStalenessMS,
      msg.policyType, msg.maxStalenessMS, readings⟩

/-- `none` is a message whose function is not set. -/
def handleAdminMsg (mkfifo : String → Bool) (surroundings : Surroundings) (bos : BOS σ) :
    Option AdminMsg → Option (AdminResp × BOS σ)
  | some (.makeNull name maxStalenessMS) =>
    some (bos.replyMade mkfifo name (bos.dir.makeNull name maxStalenessMS))
  | some (.makePseudo name maxStalenessMS) =>
    some (bos.replyMade mkfifo name (bos.dir.makePseudo name maxStalenessMS))
  | some (.makeJBDBMS name maxStalenessMS) =>
    some (bos.replyMade mkfifo name (bos.dir.makeJBDBMS name maxStalenessMS))
  | some (.makeNetworked name maxStalenessMS) =>
    some (bos.replyMade mkfifo name (bos.dir.makeNetworkedBattery name maxStalenessMS))
  | some (.makeAggregator name srcNames maxStalenessMS) =>
    (bos.dir.makeAggregator name srcNames maxStalenessMS).map (bos.replyMade mkfifo name)
  | some (.makeSplitter msg) =>
    if ¬ (msg.childNames.length = msg.childScales.length ∧
        msg.childScales.length = msg.childMaxStalenessMS.length) then
      some (⟨-2, some (.failreason ("number of children is not equal to the number of scales " ++
        "or the number of max_staleness"))⟩, bos)
    else (makeSplitter bos.dir msg surroundings.readings).map fun made =>
      let bos := { bos with dir := made.2 }
      if made.1.length = 0 then
        (⟨-1, some (.failreason "failed to create partitioner")⟩, bos)
      else (⟨0, some (.success 1)⟩, msg.childNames.foldl (batteryPostCreation mkfifo) bos)
  | some (.makeDynamic name maxStalenessMS) =>
    some (bos.replyMade mkfifo name
      (bos.dir.makeDynamic name maxStalenessMS surroundings.initialized))
  | some (.removeBattery name) => (bos.dir.removeBattery name).map fun removed =>
    (⟨removed.1, some (.success 1)⟩, { bos with dir := removed.2 })
  | some .listBattery | some (.getBatteryInfo _) =>
    some (⟨-2, some (.failreason "Function not supported!")⟩, bos)
  | some .shutdown => some (⟨0, some (.success 1)⟩, { bos with shouldQuit := true })
  | none => some (⟨-1, some (.failreason "Function type not set!")⟩, bos)

def handleBatteryMsg (bat : RemoteNode σ) (batteries : σ) : Option BatteryMsg → BatteryResp × σ
  | some .getInfo | some .getStatus =>
    let (status, batteries) := bat.getStatus batteries
    (⟨0, some (.status status)⟩, batteries)
  | some (.scheduleSetCurrent targetCurrentMA whenToSet untilWhen) =>
    let (ret, batteries) := bat.scheduleSetCurrent
      ⟨targetCurrentMA, false, cTimeToTimepoint whenToSet, cTimeToTimepoint untilWhen⟩ batteries
    (⟨0, some (.setCurrentResponse (.ofBitVec (ret.toBitVec.setWidth 64)))⟩, batteries)
  | none => (⟨-1, some (.failreason "Function type not set!")⟩, batteries)

def handleSocket (nodes : String → RemoteNode σ) (bos : BOS σ) (name : String)
    (msg : Option BatteryMsg) : BatteryResp × BOS σ :=
  if bos.dir.nameExists name then
    let (resp, batteries) := handleBatteryMsg (nodes name) bos.batteries msg
    (resp, { bos with batteries := batteries })
  else (⟨-1, some (.failreason "no such battery")⟩, bos)

end BOS

/-- A message that the server finds: of an administrator, or for the battery that has the FIFO or
that is named in what comes by the socket. -/
inductive ServerMsg
  | admin (surroundings : Surroundings) (msg : Option AdminMsg)
  | fifo (name : String) (msg : Option BatteryMsg)
  | socket (name : String) (msg : Option BatteryMsg)

inductive ServerResp
  | admin (resp : AdminResp)
  | battery (resp : BatteryResp)
deriving DecidableEq

namespace BOS

variable {σ : Type}

/-- One message with its reply; `none` where it cannot be served: the loop has ended, there is no
such FIFO, or the program ends. A FIFO whose battery is gone would get no reply. -/
def serve (mkfifo : String → Bool) (nodes : String → RemoteNode σ) (bos : BOS σ)
    (msg : ServerMsg) : Option (ServerResp × BOS σ) :=
  if bos.shouldQuit then none
  else match msg with
  | .admin surroundings msg =>
    (bos.handleAdminMsg mkfifo surroundings msg).map fun served => (.admin served.1, served.2)
  | .fifo name msg =>
    if name ∈ bos.batteryIfds ∧ bos.dir.nameExists name then
      let (resp, batteries) := handleBatteryMsg (nodes name) bos.batteries msg
      some (.battery resp, { bos with batteries := batteries })
    else none
  | .socket name msg =>
    let served := bos.handleSocket nodes name msg
    some (.battery served.1, served.2)

def booted (adminFifo : Bool) (batteries : σ) : BOS σ := ⟨.empty, batteries, adminFifo, ∅, false⟩

end BOS

/-! ### Splitters -/

namespace Scale

theorem maxDischargeRate_addRaw {scale : Scale} {other : RawScale}
    (zero : scale.maxDischargeRate = 0) (zero' : other.maxDischargeRate = 0) :
    (scale.addRaw other).maxDischargeRate = 0 := by
  unfold addRaw new ofProportion
  split_ifs <;> simp [zero, zero']

theorem sumsToOneRaw_of_zero {totalSum : Scale} {scales : List RawScale}
    (zero : totalSum.maxDischargeRate = 0) (each : ∀ scale ∈ scales, scale.maxDischargeRate = 0) :
    totalSum.sumsToOneRaw scales = false := by
  cases scales with
  | nil =>
      have far : dblEqual 0 1 = false := by decide +kernel
      simp [sumsToOneRaw, isOne, zero, far]
  | cons scale rest =>
      have near : dblEqual 0 0 = true := by decide +kernel
      have sum := maxDischargeRate_addRaw zero (each scale List.mem_cons_self)
      simp [sumsToOneRaw, isZero, sum, near]

end Scale

namespace BOS

variable {σ : Type} {mkfifo : String → Bool} {nodes : String → RemoteNode σ}
  {bos bos' : BOS σ}

theorem makeSplitter_refused (d : BOSDirectory) (msg : Bosproto.MakeSplitter)
    (readings : SplitterReadings) :
    makeSplitter d msg readings = some ([], d) := by
  have zero : ∀ scale ∈ msg.childScales.map (RawScale.ofScale (.ofProportion 0)).deserialize,
      scale.maxDischargeRate = 0 := by
    intro scale hscale
    obtain ⟨sent, -, rfl⟩ := List.mem_map.mp hscale
    rfl
  have refused := @Scale.sumsToOneRaw_of_zero (.ofProportion 0) _ rfl zero
  unfold makeSplitter
  simp [refused]

/-- A splitter is refused whatever the state is, and nothing changes. -/
theorem handleAdminMsg_makeSplitter (surroundings : Surroundings) (msg : Bosproto.MakeSplitter) :
    ∃ retcode text, retcode < 0 ∧
      bos.handleAdminMsg mkfifo surroundings (some (.makeSplitter msg)) =
        some (⟨retcode, some (.failreason text)⟩, bos) := by
  simp only [handleAdminMsg]
  by_cases sizes : msg.childNames.length = msg.childScales.length ∧
      msg.childScales.length = msg.childMaxStalenessMS.length
  · rw [if_neg (not_not.mpr sizes), makeSplitter_refused]
    exact ⟨-1, _, by decide, rfl⟩
  · rw [if_pos sizes]
    exact ⟨-2, _, by decide, rfl⟩

end BOS

/-! ### What a message makes -/

namespace Bosproto

def AdminMsg.names : AdminMsg → List String
  | .makeNull name _ | .makePseudo name _ | .makeJBDBMS name _ | .makeNetworked name _ |
    .makeAggregator name _ _ | .makeDynamic name _ => [name]
  | .makeSplitter msg => msg.name :: msg.childNames
  | .removeBattery _ | .listBattery | .getBatteryInfo _ | .shutdown => []

end Bosproto

/-- The names that an exchange has made, as who reads the reply can tell. -/
def madeBy : ServerMsg × ServerResp → List String
  | (.admin _ (some msg), .admin resp) => if resp.retcode = 0 then msg.names else []
  | _ => []

structure Makes (d d' : BOSDirectory) (names : List String) : Prop where
  free : ∀ name ∈ names, d.nameExists name = false
  nodup : names.Nodup
  old : ∀ name, name ∉ names → d'.getBatteryType name = d.getBatteryType name
  new : ∀ name ∈ names, d'.getBatteryType name = some .physical ∨
    d'.getBatteryType name = some .aggregate

namespace Makes

variable {d d₁ d' : BOSDirectory} {names others : List String}

theorem of_types (same : d'.getBatteryType = d.getBatteryType) : Makes d d' [] where
  free name h := by cases h
  nodup := List.nodup_nil
  old name _ := congrFun same name
  new name h := by cases h

theorem nameExists_iff (h : Makes d d' names) (name : String) :
    d'.nameExists name = true ↔ d.nameExists name = true ∨ name ∈ names := by
  rw [BOSDirectory.nameExists_eq_isSome_type, BOSDirectory.nameExists_eq_isSome_type]
  by_cases made : name ∈ names
  · rcases h.new name made with type | type <;> simp [type, made]
  · simp [h.old name made, made]

theorem trans (first : Makes d d₁ names) (second : Makes d₁ d' others) :
    Makes d d' (names ++ others) where
  free name hname := by
    rcases List.mem_append.mp hname with h | h
    · exact first.free name h
    · have free := second.free name h
      rw [Bool.eq_false_iff, ne_eq, first.nameExists_iff, not_or] at free
      exact Bool.eq_false_iff.mpr free.1
  nodup := by
    refine List.nodup_append.mpr ⟨first.nodup, second.nodup, fun name h other h' same => ?_⟩
    have free := second.free other h'
    rw [Bool.eq_false_iff, ne_eq, first.nameExists_iff, not_or] at free
    exact free.2 (same ▸ h)
  old name hname := by
    rw [List.mem_append, not_or] at hname
    rw [second.old name hname.2, first.old name hname.1]
  new name hname := by
    by_cases later : name ∈ others
    · exact second.new name later
    · rw [second.old name later]
      exact first.new name ((List.mem_append.mp hname).resolve_right later)

theorem addBattery {name : String} {battery : StoredBattery} (free : d.nameExists name = false)
    (plain : battery.kind = .physical ∨ battery.kind = .aggregate) :
    Makes d (d.addBattery name battery).2 [name] := by
  have stored : (d.addBattery name battery).2.getBatteryType name = some battery.kind.type := by
    rw [BOSDirectory.getBatteryType_addBattery, if_pos rfl, BOSDirectory.getBatteryType,
      BOSDirectory.getBattery_of_free free]
    rfl
  refine ⟨fun other h => ?_, List.nodup_singleton name, fun other h => ?_, fun other h => ?_⟩
  · rw [List.mem_singleton.mp h]
    exact free
  · rw [BOSDirectory.getBatteryType_addBattery, if_neg (List.mem_singleton.not.mp h)]
  · rw [List.mem_singleton.mp h, stored]
    rcases plain with kind | kind <;> simp [kind, BatteryKind.type]

theorem makePhysical (d : BOSDirectory) (name : String) (maxStalenessMS : ℤ) :
    Makes d (d.makePhysical name maxStalenessMS).2
      (if (d.makePhysical name maxStalenessMS).1.isSome then [name] else []) := by
  unfold BOSDirectory.makePhysical
  cases taken : d.nameExists name with
  | true => exact of_types rfl
  | false =>
      have made := @addBattery d name ⟨maxStalenessMS, .physical⟩ taken (.inl rfl)
      simpa [BOSDirectory.addBattery, taken] using made

theorem makeDynamic (d : BOSDirectory) (name : String) (maxStalenessMS : ℤ) (initialized : Bool) :
    Makes d (d.makeDynamic name maxStalenessMS initialized).2
      (if (d.makeDynamic name maxStalenessMS initialized).1.isSome then [name] else []) := by
  unfold BOSDirectory.makeDynamic
  cases initialized with
  | false => exact of_types rfl
  | true =>
      cases taken : d.nameExists name with
      | true => simpa [BOSDirectory.addBattery, taken] using of_types rfl
      | false =>
          have made := @addBattery d name ⟨maxStalenessMS, .physical⟩ taken (.inl rfl)
          simpa [BOSDirectory.addBattery, taken] using made

theorem makeAggregator {name : String} {srcNames : List String} {maxStalenessMS : ℤ}
    {made : Option String × BOSDirectory}
    (run : d.makeAggregator name srcNames maxStalenessMS = some made) :
    Makes d made.2 (if made.1.isSome then [name] else []) := by
  unfold BOSDirectory.makeAggregator at run
  split_ifs at run with taken
  · obtain rfl := Option.some.inj run
    exact of_types rfl
  · simp only [Option.bind_eq_bind, Option.bind_eq_some_iff] at run
    obtain ⟨d₁, sources, last⟩ := run
    obtain rfl := Option.some.inj last
    have free : d.nameExists name = false := Bool.eq_false_iff.mpr taken
    have added := @addBattery d name ⟨maxStalenessMS, .aggregate⟩ free (.inr rfl)
    have linked : d₁.getBatteryType =
        (d.addBattery name ⟨maxStalenessMS, .aggregate⟩).2.getBatteryType := by
      funext other
      rw [BOSDirectory.getBatteryType, BOSDirectory.getBattery_addSources sources]
      rfl
    have both := added.trans (of_types linked)
    simpa [BOSDirectory.addBattery, free] using both

end Makes

def Polled (mkfifo : String → Bool) (adminFifo : Bool) (name : String) : Prop :=
  mkfifo name = true ∧ ¬ (name = "admin" ∧ adminFifo = true)

def BOS.Known {σ : Type} (bos : BOS σ) : Prop :=
  ∀ name ∈ bos.batteryIfds, bos.dir.nameExists name = true

structure Serves {σ : Type} (mkfifo : String → Bool) (bos bos' : BOS σ) (names : List String) :
    Prop where
  makes : Makes bos.dir bos'.dir names
  adminFifo : bos'.adminFifo = bos.adminFifo
  polls : bos.Known → ∀ name, name ∈ bos'.batteryIfds ↔
    name ∈ bos.batteryIfds ∨ name ∈ names ∧ Polled mkfifo bos.adminFifo name

namespace Serves

variable {σ : Type} {mkfifo : String → Bool} {nodes : String → RemoteNode σ}
  {bos bos₁ bos' : BOS σ} {names others : List String}

theorem known (h : Serves mkfifo bos bos' names) (known : bos.Known) : bos'.Known := by
  intro name hname
  rw [h.makes.nameExists_iff]
  exact ((h.polls known name).mp hname).imp (known name) And.left

theorem of_eq (dir : bos'.dir = bos.dir) (adminFifo : bos'.adminFifo = bos.adminFifo)
    (ifds : bos'.batteryIfds = bos.batteryIfds) : Serves mkfifo bos bos' [] where
  makes := .of_types (by rw [dir])
  adminFifo := adminFifo
  polls _ name := by simp [ifds]

theorem trans (first : Serves mkfifo bos bos₁ names) (second : Serves mkfifo bos₁ bos' others) :
    Serves mkfifo bos bos' (names ++ others) where
  makes := first.makes.trans second.makes
  adminFifo := second.adminFifo.trans first.adminFifo
  polls known name := by
    rw [second.polls (first.known known), first.polls known, first.adminFifo, List.mem_append,
      or_and_right, or_assoc]

theorem mem_batteryPostCreation {name other : String} (free : name ∉ bos.batteryIfds) :
    other ∈ (bos.batteryPostCreation mkfifo name).batteryIfds ↔
      other ∈ bos.batteryIfds ∨ other = name ∧ Polled mkfifo bos.adminFifo name := by
  unfold BOS.batteryPostCreation BOS.singleBatteryFifoInit Polled
  split_ifs with refused
  · refine ⟨.inl, fun h => h.resolve_right fun made => ?_⟩
    obtain ⟨-, takes, admin⟩ := made
    rcases refused with reserved | again | fails
    · exact admin reserved
    · exact free again
    · exact fails takes
  · obtain ⟨admin, -, takes⟩ := not_or.mp refused |>.imp_right not_or.mp
    rw [Finset.mem_insert, or_comm]
    exact or_congr_right (and_iff_left ⟨not_not.mp takes, admin⟩).symm

theorem replyMade {name : String} {made : Option String × BOSDirectory}
    {resp : AdminResp} (makes : Makes bos.dir made.2 (if made.1.isSome then [name] else []))
    (reply : bos.replyMade mkfifo name made = (resp, bos')) :
    Serves mkfifo bos bos' (if resp.retcode = 0 then [name] else []) := by
  obtain ⟨made, d⟩ := made
  cases made with
  | none =>
      simp only [BOS.replyMade, Prod.mk.injEq] at reply
      obtain ⟨rfl, rfl⟩ := reply
      exact ⟨makes, rfl, fun known other => by simp⟩
  | some bat =>
      simp only [BOS.replyMade, Prod.mk.injEq] at reply
      obtain ⟨rfl, rfl⟩ := reply
      have same : (BOS.batteryPostCreation mkfifo { bos with dir := d } name).dir = d ∧
          (BOS.batteryPostCreation mkfifo { bos with dir := d } name).adminFifo =
            bos.adminFifo := by
        simp only [BOS.batteryPostCreation, BOS.singleBatteryFifoInit]
        split_ifs <;> exact ⟨rfl, rfl⟩
      refine ⟨by rw [same.1]; exact makes, same.2, fun known other => ?_⟩
      have free : name ∉ ({ bos with dir := d } : BOS _).batteryIfds := by
        intro polls
        have taken := known name polls
        rw [makes.free name List.mem_cons_self] at taken
        cases taken
      rw [if_pos rfl, List.mem_singleton]
      refine (mem_batteryPostCreation free).trans ?_
      refine or_congr_right (and_congr_right fun same => ?_)
      rw [same]

theorem handleAdminMsg {surroundings : Surroundings} {msg : Option AdminMsg} {resp : AdminResp}
    (run : bos.handleAdminMsg mkfifo surroundings msg = some (resp, bos')) :
    Serves mkfifo bos bos' (madeBy (.admin surroundings msg, .admin resp)) := by
  cases msg with
  | none =>
      cases run
      exact of_eq rfl rfl rfl
  | some msg =>
    cases msg with
    | makeNull name maxStalenessMS =>
        exact replyMade (.makePhysical bos.dir name maxStalenessMS) (Option.some.inj run)
    | makePseudo name maxStalenessMS =>
        exact replyMade (.makePhysical bos.dir name maxStalenessMS) (Option.some.inj run)
    | makeJBDBMS name maxStalenessMS =>
        exact replyMade (.makePhysical bos.dir name maxStalenessMS) (Option.some.inj run)
    | makeNetworked name maxStalenessMS =>
        exact replyMade (.makePhysical bos.dir name maxStalenessMS) (Option.some.inj run)
    | makeDynamic name maxStalenessMS =>
        exact replyMade (.makeDynamic bos.dir name maxStalenessMS surroundings.initialized)
          (Option.some.inj run)
    | makeAggregator name srcNames maxStalenessMS =>
        obtain ⟨made, hmade, served⟩ := Option.map_eq_some_iff.mp run
        exact replyMade (.makeAggregator hmade) served
    | makeSplitter msg =>
        obtain ⟨retcode, text, negative, refused⟩ :=
          @BOS.handleAdminMsg_makeSplitter σ mkfifo bos surroundings msg
        rw [refused] at run
        cases run
        rw [madeBy, if_neg negative.ne]
        exact of_eq rfl rfl rfl
    | removeBattery name =>
        obtain ⟨removed, hremoved, served⟩ := Option.map_eq_some_iff.mp run
        unfold BOSDirectory.removeBattery at hremoved
        split_ifs at hremoved
        cases hremoved
        cases served
        exact of_eq rfl rfl rfl
    | listBattery =>
        cases run
        exact of_eq rfl rfl rfl
    | getBatteryInfo name =>
        cases run
        exact of_eq rfl rfl rfl
    | shutdown =>
        cases run
        exact of_eq rfl rfl rfl

theorem serve {msg : ServerMsg} {resp : ServerResp}
    (run : bos.serve mkfifo nodes msg = some (resp, bos')) :
    Serves mkfifo bos bos' (madeBy (msg, resp)) := by
  unfold BOS.serve at run
  split_ifs at run with quit
  cases msg with
  | admin surroundings msg =>
      obtain ⟨served, handled, same⟩ := Option.map_eq_some_iff.mp run
      cases same
      exact handleAdminMsg handled
  | fifo name msg =>
      simp only at run
      split_ifs at run
      cases run
      exact of_eq rfl rfl rfl
  | socket name msg =>
      cases run
      unfold BOS.handleSocket
      split_ifs <;> exact of_eq rfl rfl rfl

theorem session {msgs : List ServerMsg} {resps : List ServerResp}
    (run : Wire.session (BOS.serve mkfifo nodes) bos msgs = some (resps, bos')) :
    Serves mkfifo bos bos' ((msgs.zip resps).flatMap madeBy) := by
  induction msgs generalizing bos resps with
  | nil =>
      cases run
      exact of_eq rfl rfl rfl
  | cons msg rest ih =>
      simp only [Wire.session, Option.bind_eq_bind, Option.bind_eq_some_iff, Option.pure_def,
        Prod.exists] at run
      obtain ⟨resp, bos₁, first, others, last, later, same⟩ := run
      cases same
      rw [List.zip_cons_cons, List.flatMap_cons]
      exact (serve first).trans (ih later)

end Serves

namespace BOS

variable {σ : Type} {mkfifo : String → Bool} {nodes : String → RemoteNode σ}
  {bos bos' : BOS σ} {msgs : List ServerMsg} {resps : List ServerResp}

/-- What the administrators have been told tells what there is: the batteries that a reply has
confirmed, each of them once, with a FIFO for each that can have one. -/
theorem session_made {adminFifo : Bool} {batteries : σ}
    (run : session (serve mkfifo nodes) (booted adminFifo batteries) msgs = some (resps, bos)) :
    ((msgs.zip resps).flatMap madeBy).Nodup ∧
      (∀ name, bos.dir.nameExists name = true ↔ name ∈ (msgs.zip resps).flatMap madeBy) ∧
      ∀ name, name ∈ bos.batteryIfds ↔
        name ∈ (msgs.zip resps).flatMap madeBy ∧ Polled mkfifo adminFifo name := by
  have served := Serves.session run
  refine ⟨served.makes.nodup, fun name => ?_, fun name => ?_⟩
  · have none : (booted adminFifo batteries).dir.nameExists name = false := rfl
    rw [served.makes.nameExists_iff, none]
    simp
  · have ifds := served.polls (fun name h => absurd h (Finset.notMem_empty name)) name
    simpa [booted] using ifds

def administration : List ServerMsg :=
  [.admin ⟨true, BOSDirectory.halfFull⟩ (some (.makeNull "a" 1000)),
    .admin ⟨true, BOSDirectory.halfFull⟩ (some (.makeAggregator "admin" ["a"] 1000)),
    .admin ⟨true, BOSDirectory.halfFull⟩ (some (.makePseudo "a" 1000)),
    .admin ⟨true, BOSDirectory.halfFull⟩
      (some (.makeSplitter ⟨"p", 1000, "a", ["b"], [⟨1, 1, 1, 1⟩], [1000], 0⟩)),
    .fifo "a" (some .getStatus)]

theorem session_made_administration :
    ∃ resps bos, session (serve (fun _ => true) fun _ => Wire.tally) (booted true 0)
        administration = some (resps, bos) ∧
      ((administration.zip resps).flatMap madeBy).Nodup ∧
      (∀ name, bos.dir.nameExists name = true ↔
        name ∈ (administration.zip resps).flatMap madeBy) ∧
      ∀ name, name ∈ bos.batteryIfds ↔
        name ∈ (administration.zip resps).flatMap madeBy ∧ Polled (fun _ => true) true name := by
  obtain ⟨⟨resps, bos⟩, run⟩ := Option.isSome_iff_exists.mp
    (show (session (serve (fun _ => true) fun _ => Wire.tally) (booted true 0)
      administration).isSome = true by decide +kernel)
  exact ⟨resps, bos, run, session_made run⟩

theorem reply_makeSplitter
    (run : session (serve mkfifo nodes) bos msgs = some (resps, bos')) {surroundings : Surroundings}
    {msg : Bosproto.MakeSplitter} {resp : ServerResp}
    (exchanged : (.admin surroundings (some (.makeSplitter msg)), resp) ∈ msgs.zip resps) :
    ∃ retcode text, retcode < 0 ∧ resp = .admin ⟨retcode, some (.failreason text)⟩ := by
  induction msgs generalizing bos resps with
  | nil => cases exchanged
  | cons first rest ih =>
      simp only [session, Option.bind_eq_bind, Option.bind_eq_some_iff, Option.pure_def,
        Prod.exists] at run
      obtain ⟨reply, bos₁, served, others, last, later, same⟩ := run
      cases same
      rcases List.mem_cons.mp exchanged with now | after
      · cases now
        unfold serve at served
        split_ifs at served
        obtain ⟨retcode, text, negative, refused⟩ :=
          @handleAdminMsg_makeSplitter σ mkfifo bos surroundings msg
        simp only [refused, Option.map_some, Option.some.injEq, Prod.mk.injEq] at served
        exact ⟨retcode, text, negative, served.1.symm⟩
      · exact ih later after

/-- No splitter comes about through messages: each request for one is answered with a failure, and
the policies and children are those that there were before the server was started. -/
theorem session_splitters
    (run : session (serve mkfifo nodes) bos msgs = some (resps, bos')) :
    (∀ exchange ∈ msgs.zip resps, ∀ surroundings msg,
      exchange.1 = .admin surroundings (some (.makeSplitter msg)) →
        ∃ retcode text, retcode < 0 ∧ exchange.2 = .admin ⟨retcode, some (.failreason text)⟩) ∧
      ∀ name type, type = .balSplitter ∨ type = .splitted →
        (bos'.dir.getBatteryType name = some type ↔ bos.dir.getBatteryType name = some type) := by
  refine ⟨fun exchange exchanged surroundings msg same => ?_, fun name type part => ?_⟩
  · obtain ⟨_, resp⟩ := exchange
    cases same
    exact reply_makeSplitter run exchanged
  · have makes := (Serves.session run).makes
    by_cases made : name ∈ (msgs.zip resps).flatMap madeBy
    · have free := makes.free name made
      rw [BOSDirectory.nameExists_eq_isSome_type, Option.isSome_eq_false_iff,
        Option.isNone_iff_eq_none] at free
      rcases makes.new name made with type' | type' <;> rcases part with rfl | rfl <;>
        simp [type', free]
    · rw [makes.old name made]

theorem session_splitters_administration :
    ∃ resps bos, session (serve (fun _ => true) fun _ => Wire.tally) (booted true 0) administration =
        some (resps, bos) ∧
      (∀ exchange ∈ administration.zip resps, ∀ surroundings msg,
        exchange.1 = .admin surroundings (some (.makeSplitter msg)) →
          ∃ retcode text, retcode < 0 ∧ exchange.2 = .admin ⟨retcode, some (.failreason text)⟩) ∧
      ∀ name type, type = .balSplitter ∨ type = .splitted →
        (bos.dir.getBatteryType name = some type ↔
          (booted true 0).dir.getBatteryType name = some type) := by
  obtain ⟨⟨resps, bos⟩, run⟩ := Option.isSome_iff_exists.mp
    (show (session (serve (fun _ => true) fun _ => Wire.tally) (booted true 0) administration).isSome =
      true by decide +kernel)
  exact ⟨resps, bos, run, session_splitters run⟩

end BOS

end BatteryOS.V2
