import BatteryOS.V3.Admin
import BatteryOS.V3.Whole

/-! The server over its connections. It serves what is ready round by round and tests between two
rounds whether it has been shut down. A connection is for a battery by name, and a handler follows
the pointer that the directory has for the name. A shutdown empties the directory, and the rest of
the round is still served. Connections are made and messages arrive in full, and a call waits for
no lock: event threads give theirs back. -/

namespace BatteryOS.V3

namespace Bosproto

inductive Command
  | scheduleSetCurrent
  | getStatus
  | removeBattery
  | setStatus
  | setSchedule
  | unrecognized (value : Int32)
deriving DecidableEq

inductive ScheduleParameters
  | status (status : BatteryStatus)
  | scheduleSetCurrent (params : ScheduleSetCurrent)
  | setSchedule (mySchedule : List UInt8)
deriving DecidableEq

structure BatteryCommand where
  command : Command
  scheduleParameters : Option ScheduleParameters
deriving DecidableEq

inductive ConnectStatusCode
  | success
  | genericError
  | doesNotExist
deriving DecidableEq

inductive Response
  | admin (response : AdminResponse)
  | connect (statusCode : ConnectStatusCode)
  | batteryStatus (returnCode : ℤ) (status : BatteryStatus)
  | setStatus (returnCode : ℤ) (reason : String)
  | scheduleSetCurrent (response : ScheduleSetCurrentResponse)
deriving DecidableEq

end Bosproto

open Bosproto (Response AdminResponse)

namespace BOS

def battery (bos : BOS) (batteryName : String) : Except Fault ℕ :=
  match bos.directoryManager.getBattery batteryName with
  | none => .error .nullPointer
  | some battery => .ok battery

def getStatus (now : ℤ) (bos : BOS) (batteryName : String) : Except Fault (Response × BOS) := do
  let bat ← bos.battery batteryName
  let m := bos.directoryManager
  match V3.getStatus now (m.world.length + 1) m.world bat with
  | none => .error .diverges
  | some (status, world) =>
    return (.batteryStatus 0 status, { bos with directoryManager := { m with world := world } })

def setStatus (bos : BOS) (batteryName : String) (command : Bosproto.BatteryCommand) :
    Response × BOS :=
  match command.scheduleParameters with
  | some (.status status) =>
    let m := bos.directoryManager
    match m.getBattery batteryName with
    | none => (.setStatus (-1) "battery does not exist in directory!", bos)
    | some battery =>
      (.setStatus 0 "successfully set status!",
        { bos with directoryManager := { m with world := m.world.setStatus battery status } })
  | _ => (.setStatus (-1) "status needs to be set!", bos)

/-- `BOS::scheduleSetCurrent` on the server; see `BOS.scheduleSetCurrent`. -/
def handleScheduleSetCurrent (now : ℤ) (bos : BOS) (batteryName : String)
    (command : Bosproto.BatteryCommand) : Except Fault (Response × BOS) :=
  let params := match command.scheduleParameters with
    | some (.scheduleSetCurrent params) => some params
    | _ => none
  match BOS.scheduleSetCurrent now bos.directoryManager ⟨params⟩ batteryName with
  | some (response, m) => .ok (.scheduleSetCurrent response, { bos with directoryManager := m })
  | none => bos.battery batteryName >>= fun _ => .error .diverges

/-- `set_schedule` aggregates for others and leaves the directory as it is. -/
def setSchedule (bos : BOS) (batteryName : String) : Except Fault BOS := do
  let _ ← bos.battery batteryName
  if batteryName ∈ bos.secureBatteries then return bos else .error .wrongClass

/-- `none` is a message that could not be parsed. -/
def handleBatteryCommand (now : ℤ) (bos : BOS) (batteryName : String) :
    Option Bosproto.BatteryCommand → Except Fault (Option Response × BOS)
  | none => .ok (none, bos)
  | some command =>
    let answer (result : Response × BOS) : Option Response × BOS := (some result.1, result.2)
    match command.command with
    | .getStatus => (bos.getStatus now batteryName).map answer
    | .setStatus => .ok (answer (bos.setStatus batteryName command))
    | .scheduleSetCurrent => (bos.handleScheduleSetCurrent now batteryName command).map answer
    | .setSchedule => (bos.setSchedule batteryName).map fun bos => (none, bos)
    | .removeBattery | .unrecognized _ => .ok (none, bos)

/-- The handler of new connections. Whether the message could be parsed is compared with -1,
which `read` does not return, so the name is what the message holds. -/
def batteryConnect (bos : BOS) (batteryName : String) : Response × BOS :=
  match bos.directoryManager.getBattery batteryName with
  | none => (.connect .doesNotExist, bos)
  | some _ => (.connect .success, { bos with connections := bos.connections ++ [batteryName] })

end BOS

/-- What a round of the server finds to serve, and the test before the next round. -/
inductive ServerEvent
  | adminCommand (machine : Machine) (command : Option Bosproto.AdminCommand)
  | batteryConnect (batteryName : String)
  | fifoConnect (fifo : ℕ)
  | batteryCommand (now : ℤ) (connection : ℕ) (command : Option Bosproto.BatteryCommand)
  | poll

namespace ServerEvent

/-- One event; `none` where it cannot occur: there is no such connection, or the loop has
ended. There is one connection of the administrator, which is served once in a round, so nothing
of it comes after a shutdown. -/
def serve (bos : BOS) : ServerEvent → Option (Except Fault (Option Response × BOS))
  | .adminCommand machine command =>
    if bos.quitPoll then none
    else match command with
      | none => some (.ok (none, bos))
      | some command => some ((bos.handleAdminCommand machine command).map fun result =>
        (result.1.map .admin, result.2))
  | .batteryConnect batteryName =>
    if bos.mode = .network then
      let result := bos.batteryConnect batteryName
      some (.ok (some result.1, result.2))
    else none
  | .fifoConnect fifo => bos.fifos[fifo]?.map fun batteryName =>
    .ok (none, { bos with connections := bos.connections ++ [batteryName] })
  | .batteryCommand now connection command => bos.connections[connection]?.map fun batteryName =>
    bos.handleBatteryCommand now batteryName command
  | .poll => if bos.quitPoll then none else some (.ok (none, bos))

def step (bos : BOS) (event : ServerEvent) : Option BOS :=
  match event.serve bos with
  | some (.ok (_, bos)) => some bos
  | some (.error _) | none => none

end ServerEvent

namespace BatteryDirectoryManager

variable {m m' : BatteryDirectoryManager}

structure Registers (m m' : BatteryDirectoryManager) (names : List String) : Prop where
  sound : m'.Sound
  kept : ∀ name i, m.getBattery name = some i → m'.getBattery name = some i
  fresh : ∀ name ∈ names, m.getBattery name = none
  registered : ∀ name ∈ names, ∃ i, m'.getBattery name = some i
  nodup : names.Nodup

theorem Idles.registers (h : Idles m m') (sound : m.Sound) : Registers m m' [] where
  sound := h.sound sound
  kept name i stored := by rw [getBattery, h.directory]; exact stored
  fresh name hname := by cases hname
  registered name hname := by cases hname
  nodup := List.nodup_nil

theorem BatteryMade.registers {name : String} (made : BatteryMade m m' name) :
    Registers m m' [name] where
  sound := made.sound
  kept other i stored := (made.battery other i).mpr (.inl stored)
  fresh other hother := by rw [List.mem_singleton.mp hother]; exact made.fresh
  registered other hother :=
    ⟨_, (made.battery other _).mpr (.inr ⟨List.mem_singleton.mp hother, rfl⟩)⟩
  nodup := List.nodup_singleton name

theorem createPhysicalBattery_registers (sound : m.Sound) (name : String) (maxStaleness : ℤ)
    (refreshMode : RefreshMode) :
    let made := m.createPhysicalBattery name maxStaleness refreshMode
    Registers m made.2 (if made.1.isSome then [name] else []) := by
  intro made
  rcases createPhysicalBattery_cases sound name maxStaleness refreshMode with
    ⟨idles, taken⟩ | ⟨new, -⟩
  · have none : made.1 = none := by
      simp only [made, createPhysicalBattery, BatteryDirectory.addBattery, taken, if_true]
    rw [none]
    exact idles.registers sound
  · have some : made.1.isSome = true := by
      have free : m.directory.nameExists name = false := by
        rw [BatteryDirectory.nameExists,
          show m.directory.batteryMap.find? name = none from new.fresh]
        rfl
      simp [made, createPhysicalBattery, BatteryDirectory.addBattery, free]
    rw [if_pos some]
    exact new.registers

theorem isSome_mapM {α β : Type*} {f : α → Option β} {xs : List α}
    (each : ∀ x ∈ xs, (f x).isSome = true) : (xs.mapM f).isSome = true := by
  induction xs with
  | nil => rfl
  | cons x rest ih =>
      obtain ⟨y, hy⟩ := Option.isSome_iff_exists.mp (each x List.mem_cons_self)
      obtain ⟨ys, hys⟩ := Option.isSome_iff_exists.mp
        (ih fun x hx => each x (List.mem_cons_of_mem _ hx))
      simp [List.mapM_cons, hy, hys]

theorem createAggregateBattery_isSome (sound : m.Sound) (now : ℤ) (name : String)
    (parentNames : List String) (maxStaleness : ℤ) (refreshMode : RefreshMode) :
    (m.createAggregateBattery now name parentNames maxStaleness refreshMode).1.isSome =
      !m.refusesAggregate name parentNames := by
  cases mapped : parentNames.mapM m.sourceBattery with
  | none =>
      have missing : parentNames.any (fun p => (m.sourceBattery p).isNone) = true := by
        by_contra found
        have each : ∀ p ∈ parentNames, (m.sourceBattery p).isSome = true := by
          simpa [List.any_eq_true, Option.isSome_iff_ne_none] using found
        have := isSome_mapM each
        rw [mapped] at this
        cases this
      simp [createAggregateBattery, mapped, refusesAggregate, missing]
  | some parents =>
      cases parents with
      | nil =>
          have none : parentNames = [] := by simpa using mapM_eq_some.mp mapped
          simp [createAggregateBattery, refusesAggregate, none]
      | cons i rest =>
          have nonempty : parentNames ≠ [] := by
            rintro rfl
            cases mapM_eq_some.mp mapped
          cases added : m.directory.addBattery name m.world.length with
          | none =>
              simp [createAggregateBattery, mapped, added, refusesAggregate,
                BatteryDirectory.addBattery_eq_none.mp added]
          | some d =>
              have accepted := refusesAggregate_eq_false nonempty (sources_of_mapM sound mapped).1
                (BatteryDirectory.addBattery_eq_some.mp added).1
              simp [createAggregateBattery, mapped, added, accepted]

theorem createAggregateBattery_registers (sound : m.Sound) (now : ℤ) (name : String)
    (parentNames : List String) (maxStaleness : ℤ) (refreshMode : RefreshMode) :
    let made := m.createAggregateBattery now name parentNames maxStaleness refreshMode
    Registers m made.2 (if made.1.isSome then [name] else []) := by
  intro made
  rw [createAggregateBattery_isSome sound]
  rcases createAggregateBattery_cases sound now name parentNames maxStaleness refreshMode with
    ⟨idles, refused⟩ | ⟨new, accepted⟩
  · rw [refused]
    exact idles.registers sound
  · rw [accepted]
    exact new.toBatteryMade.registers

theorem createPartitionBattery_registersAll (sound : m.Sound) {args : PartitionArgs}
    {made : List ℕ × BatteryDirectoryManager} (create : m.createPartitionBattery args = some made) :
    Registers m made.2 (if made.1.length = 0 then [] else args.names) := by
  rcases createPartitionBattery_cases sound args with
    ⟨-, refused⟩ | ⟨-, -, exits⟩ | ⟨accepted, added, m', kept, result, partition, complete, free⟩
  · obtain rfl := Option.some.inj (refused.symm.trans create)
    exact (Idles.refl sound).registers sound
  · rw [exits] at create
    cases create
  · obtain rfl := Option.some.inj (result.symm.trans create)
    have keeps : ∀ name i, m.getBattery name = some i → m'.getBattery name = some i :=
      fun name i stored => (partition.battery name i).mpr (.inl stored)
    cases added with
    | false =>
        exact ⟨partition.sound, keeps, fun name hname => (by cases hname),
          fun name hname => (by cases hname), List.nodup_nil⟩
    | true =>
        obtain ⟨nodup, unused⟩ := free.mp rfl
        have some : (List.range' (m.world.length + 1) args.names.length).length ≠ 0 := by
          rw [List.length_range']
          exact fun none => names_ne_nil accepted (List.length_eq_zero_iff.mp none)
        rw [if_pos rfl, if_neg some]
        refine ⟨partition.sound, keeps, fun name hname => (unused name hname).1,
          fun name hname => ?_, nodup⟩
        rw [← partitionEntries_names m args] at hname
        obtain ⟨q, hq, rfl⟩ := List.mem_map.mp hname
        refine ⟨q.2, (partition.battery q.1 q.2).mpr (.inr (List.mem_cons_of_mem _ ?_))⟩
        rw [complete rfl]
        exact hq

theorem not_exits_of_createPartitionBattery (sound : m.Sound) {args : PartitionArgs}
    {made : List ℕ × BatteryDirectoryManager} (create : m.createPartitionBattery args = some made) :
    ¬ m.Exits (.createPartitionBattery args) := by
  rintro ⟨accepted, taken⟩
  rcases createPartitionBattery_cases sound args with
    ⟨refused, -⟩ | ⟨-, -, exits⟩ | ⟨-, added, m', kept, -, partition, -⟩
  · rw [accepted] at refused
    cases refused
  · rw [exits] at create
    cases create
  · obtain ⟨i, stored⟩ := BatteryDirectory.nameExists_iff.mp taken
    rw [show m.directory.batteryMap.find? _ = none from partition.managerFresh] at stored
    cases stored

end BatteryDirectoryManager

/-- The commands for which a handler follows the pointer to its battery. -/
def Bosproto.BatteryCommand.followsPointer (command : Bosproto.BatteryCommand) : Bool :=
  match command.command with
  | .getStatus | .setSchedule => true
  | .scheduleSetCurrent =>
    match command.scheduleParameters with
    | some (.scheduleSetCurrent _) => true
    | _ => false
  | .setStatus | .removeBattery | .unrecognized _ => false

namespace BOS

variable {bos bos' : BOS} {machine : Machine} {now : ℤ}

def partitionArgs (now : ℤ) (command : Bosproto.AdminCommand) : Option PartitionArgs :=
  match command.commandParameters with
  | some (.partitionBattery battery) =>
    let b := parsePartitionBattery battery
    if b.refreshModes.length = 0 ∧ b.stalenesses.length = 0 then
      some ⟨now, b.source, b.policy, b.childNames, b.proportions, b.childNames.map fun _ => 1000,
        b.childNames.map fun _ => .lazy⟩
    else if b.refreshModes.length = 0 ∨ b.stalenesses.length = 0 then none
    else some ⟨now, b.source, b.policy, b.childNames, b.proportions, b.stalenesses, b.refreshModes⟩
  | _ => none

theorem createPartitionBattery_of_args {command : Bosproto.AdminCommand} {args : PartitionArgs}
    (given : partitionArgs machine.now command = some args) :
    bos.createPartitionBattery machine command =
      bos.partitioned machine args.names (bos.directoryManager.createPartitionBattery args) := by
  obtain ⟨options, _ | parameters⟩ := command
  · cases given
  · cases parameters with
    | partitionBattery battery =>
        simp only [partitionArgs, createPartitionBattery] at given ⊢
        split_ifs at given ⊢
        · obtain rfl := Option.some.inj given
          rfl
        · obtain rfl := Option.some.inj given
          rfl
    | physicalBattery battery | aggregateBattery battery | dynamicBattery battery
    | secureBattery battery => cases given

theorem createPartitionBattery_of_none (bos : BOS) {command : Bosproto.AdminCommand}
    (absent : partitionArgs machine.now command = none) :
    ∃ response, bos.createPartitionBattery machine command = .ok (response, bos) := by
  obtain ⟨options, _ | parameters⟩ := command
  · exact ⟨_, rfl⟩
  · cases parameters with
    | partitionBattery battery =>
        simp only [partitionArgs, createPartitionBattery] at absent ⊢
        split_ifs at absent ⊢
        exact ⟨_, rfl⟩
    | physicalBattery battery | aggregateBattery battery | dynamicBattery battery
    | secureBattery battery => exact ⟨_, rfl⟩

/-- A battery that a FIFO or a connection is for is registered, and no FIFO is made twice. -/
structure Running (bos : BOS) : Prop where
  sound : bos.directoryManager.Sound
  bound : ∀ name ∈ bos.fifos ++ bos.connections,
    ∃ i, bos.directoryManager.getBattery name = some i
  nodup : bos.fifos.Nodup

/-- What serving an event does to a server that goes on. -/
structure Created (bos bos' : BOS) (names : List String) : Prop where
  quitPoll : bos'.quitPoll = bos.quitPoll
  registers : bos.directoryManager.Registers bos'.directoryManager names
  fifos : bos'.fifos = bos.fifos ++ if bos.mode = .fifo then names else []
  connections : bos'.connections = bos.connections

theorem Created.running (h : Created bos bos' names) (running : Running bos) : Running bos' where
  sound := h.registers.sound
  bound name hname := by
    have kept : ∀ {name}, (∃ i, bos.directoryManager.getBattery name = some i) →
        ∃ i, bos'.directoryManager.getBattery name = some i :=
      fun ⟨i, stored⟩ => ⟨i, h.registers.kept _ i stored⟩
    rw [h.fifos, h.connections] at hname
    rcases List.mem_append.mp hname with made | bound
    · rcases List.mem_append.mp made with old | new
      · exact kept (running.bound name (List.mem_append_left _ old))
      · split_ifs at new
        · exact h.registers.registered name new
        · cases new
    · exact kept (running.bound name (List.mem_append_right _ bound))
  nodup := by
    rw [h.fifos]
    refine List.nodup_append.mpr ⟨running.nodup, ?_, ?_⟩
    · split_ifs
      · exact h.registers.nodup
      · exact List.nodup_nil
    · rintro name old _ new rfl
      split_ifs at new
      · obtain ⟨i, stored⟩ := running.bound name (List.mem_append_left _ old)
        rw [h.registers.fresh name new] at stored
        cases stored
      · cases new

theorem created_of_idle {m : BatteryDirectoryManager}
    (registers : bos.directoryManager.Registers m []) :
    Created bos { bos with directoryManager := m } [] :=
  ⟨rfl, registers, by simp, rfl⟩

theorem created_refl (sound : bos.directoryManager.Sound) : Created bos bos [] :=
  created_of_idle ((BatteryDirectoryManager.Idles.refl sound).registers sound)

def newName (made : Option ℕ × BatteryDirectoryManager) (name : String) : List String :=
  if made.1.isSome then [name] else []

def newNames (machine : Machine) (bos : BOS) (command : Bosproto.AdminCommand) : List String :=
  let m := bos.directoryManager
  match command.commandOptions, command.commandParameters with
  | .createPhysical, some (.physicalBattery battery) =>
    let b := parsePhysicalBattery battery
    newName (m.createPhysicalBattery b.name b.staleness b.refresh) b.name
  | .createAggregate, some (.aggregateBattery battery) =>
    let b := parseAggregateBattery battery
    newName (m.createAggregateBattery machine.now b.name b.parents b.staleness b.refresh) b.name
  | .createPartition, _ =>
    match (partitionArgs machine.now command).bind fun args =>
      (m.createPartitionBattery args).map fun made => (args.names, made.1) with
    | none => []
    | some (names, made) => if made.length = 0 then [] else names
  | .createDynamic, some (.dynamicBattery battery) =>
    let b := parseDynamicBattery battery
    if !machine.library b.constructor || !machine.library b.destructor ||
        !machine.library b.refreshFunc || !machine.library b.setCurrentFunc then []
    else newName (m.createDynamicBattery b.name b.staleness b.refresh) b.name
  | .createSecure, some (.secureBattery battery) =>
    if !machine.aggregator then []
    else newName (m.createSecureBattery battery.batteryName) battery.batteryName
  | _, _ => []

/-- The commands that exit the program: a partition for which no manager can be made, and a
`SecureBattery` whose connection the aggregator does not take. -/
def Exits (machine : Machine) (bos : BOS) (command : Bosproto.AdminCommand) : Prop :=
  command.commandOptions = .createPartition ∧
      (∃ args, partitionArgs machine.now command = some args ∧
        bos.directoryManager.Exits (.createPartitionBattery args)) ∨
    command.commandOptions = .createSecure ∧
      (∃ battery, command.commandParameters = some (.secureBattery battery)) ∧
        machine.aggregator = false

def Handled (machine : Machine) (bos : BOS) (names : List String)
    (result : Except Fault (AdminResponse × BOS)) : Prop :=
  if machine.Lacks bos.mode names then result = .error .runtimeError
  else ∃ response bos', result = .ok (response, bos') ∧ ∃ names, Created bos bos' names

theorem handled_idle (sound : bos.directoryManager.Sound) (response : AdminResponse) :
    bos.Handled machine [] (.ok (response, bos)) := by
  rw [Handled, if_neg (by simp [Machine.Lacks])]
  exact ⟨response, bos, rfl, [], created_refl sound⟩

theorem handled_fifos {m : BatteryDirectoryManager} {names : List String}
    (registers : bos.directoryManager.Registers m names) (secureBatteries : List String)
    (response : AdminResponse) {made : Except Fault BOS}
    (fifos : made = if machine.Lacks bos.mode names then .error .runtimeError
      else .ok { bos with
        directoryManager := m
        fifos := bos.fifos ++ if bos.mode = .fifo then names else []
        secureBatteries := secureBatteries }) :
    bos.Handled machine names (made.map fun bos => (response, bos)) := by
  subst fifos
  by_cases lacks : machine.Lacks bos.mode names
  · rw [Handled, if_pos lacks, if_pos lacks]
    rfl
  · rw [Handled, if_neg lacks, if_neg lacks]
    exact ⟨response, _, rfl, names, rfl, registers, rfl, rfl⟩

theorem handled_registered {made : Option ℕ × BatteryDirectoryManager} {name : String}
    (registers : bos.directoryManager.Registers made.2 (newName made name))
    (secureBatteries : List String) (failure : String) :
    bos.Handled machine (newName made name)
      (({ bos with secureBatteries := secureBatteries }).registered machine made name failure) := by
  obtain ⟨result, m⟩ := made
  cases result with
  | none =>
      rw [Handled, if_neg (by simp [Machine.Lacks, newName])]
      exact ⟨_, _, rfl, [], rfl, registers, by simp, rfl⟩
  | some battery => exact handled_fifos registers secureBatteries _ (createBatteryFifos_eq ..)

theorem handled_partitioned {made : List ℕ × BatteryDirectoryManager} {names : List String}
    (registers : bos.directoryManager.Registers made.2
      (if made.1.length = 0 then [] else names)) :
    bos.Handled machine (if made.1.length = 0 then [] else names)
      (bos.partitioned machine names (some made)) := by
  unfold partitioned
  dsimp only
  split_ifs at registers ⊢
  · rw [Handled, if_neg (by simp [Machine.Lacks])]
    exact ⟨_, _, rfl, [], created_of_idle registers⟩
  · exact handled_fifos registers bos.secureBatteries _ (foldlM_createBatteryFifos ..)

section Handlers

variable {command : Bosproto.AdminCommand}

theorem handled_physical (sound : bos.directoryManager.Sound)
    (options : command.commandOptions = .createPhysical) :
    bos.Handled machine (bos.newNames machine command)
      (bos.createPhysicalBattery machine command) := by
  obtain ⟨_, parameters⟩ := command
  subst options
  rcases parameters with _ | battery | battery | battery | battery | battery
  case some.physicalBattery =>
    exact handled_registered (BatteryDirectoryManager.createPhysicalBattery_registers sound _ _ _)
      bos.secureBatteries _
  all_goals exact handled_idle sound _

theorem handled_aggregate (sound : bos.directoryManager.Sound)
    (options : command.commandOptions = .createAggregate) :
    bos.Handled machine (bos.newNames machine command)
      (bos.createAggregateBattery machine command) := by
  obtain ⟨_, parameters⟩ := command
  subst options
  rcases parameters with _ | battery | battery | battery | battery | battery
  case some.aggregateBattery =>
    exact handled_registered
      (BatteryDirectoryManager.createAggregateBattery_registers sound _ _ _ _ _)
        bos.secureBatteries _
  all_goals exact handled_idle sound _

theorem handled_dynamic (sound : bos.directoryManager.Sound)
    (options : command.commandOptions = .createDynamic) :
    bos.Handled machine (bos.newNames machine command)
      (bos.createDynamicBattery machine command) := by
  obtain ⟨_, parameters⟩ := command
  subst options
  rcases parameters with _ | battery | battery | battery | battery | battery
  case some.dynamicBattery =>
    simp only [newNames, createDynamicBattery]
    split_ifs
    · exact handled_idle sound _
    · exact handled_registered
        (BatteryDirectoryManager.createPhysicalBattery_registers sound _ _ _)
          bos.secureBatteries _
  all_goals exact handled_idle sound _

theorem handled_secure (sound : bos.directoryManager.Sound)
    (options : command.commandOptions = .createSecure) (stays : ¬ bos.Exits machine command) :
    bos.Handled machine (bos.newNames machine command)
      (bos.createSecureBattery machine command) := by
  obtain ⟨_, parameters⟩ := command
  subst options
  rcases parameters with _ | battery | battery | battery | battery | battery
  case some.secureBattery =>
    have connected : machine.aggregator = true := by
      by_contra refused
      exact stays (.inr ⟨rfl, ⟨battery, rfl⟩, by simpa using refused⟩)
    simp only [newNames, createSecureBattery, connected, Bool.not_true, Bool.false_eq_true,
      if_false]
    exact handled_registered
      (BatteryDirectoryManager.createPhysicalBattery_registers sound battery.batteryName 1000 .lazy)
      _ _
  all_goals exact handled_idle sound _

theorem handled_partition (sound : bos.directoryManager.Sound)
    (options : command.commandOptions = .createPartition) (stays : ¬ bos.Exits machine command) :
    bos.Handled machine (bos.newNames machine command)
      (bos.createPartitionBattery machine command) := by
  have names : bos.newNames machine command =
      match (partitionArgs machine.now command).bind fun args =>
        (bos.directoryManager.createPartitionBattery args).map fun made => (args.names, made.1) with
      | none => []
      | some (names, made) => if made.length = 0 then [] else names := by
    simp only [newNames, options]
  rw [names]
  cases given : partitionArgs machine.now command with
  | none =>
      obtain ⟨response, same⟩ := createPartitionBattery_of_none bos given
      rw [same]
      exact handled_idle sound response
  | some args =>
      rw [createPartitionBattery_of_args given]
      cases create : bos.directoryManager.createPartitionBattery args with
      | none =>
          refine absurd (.inl ⟨options, args, given, BatteryDirectoryManager.step_eq_none sound ?_⟩)
            stays
          rw [BatteryDirectoryManager.step, create]
          rfl
      | some made =>
          simp only [Option.bind_some, create, Option.map_some]
          exact handled_partitioned
            (BatteryDirectoryManager.createPartitionBattery_registersAll sound create)

theorem handleAdminCommand_exits (sound : bos.directoryManager.Sound)
    (exits : bos.Exits machine command) :
    bos.handleAdminCommand machine command = .error .exit ∧
      ¬ machine.Lacks bos.mode (bos.newNames machine command) := by
  rcases exits with ⟨options, args, given, exits⟩ | ⟨options, ⟨battery, parameters⟩, refused⟩
  · have left : bos.directoryManager.createPartitionBattery args = none := by
      cases create : bos.directoryManager.createPartitionBattery args with
      | none => rfl
      | some made =>
          exact absurd exits
            (BatteryDirectoryManager.not_exits_of_createPartitionBattery sound create)
    constructor
    · simp only [handleAdminCommand, options, createPartitionBattery_of_args given, left]
      rfl
    · simp [newNames, options, given, left, Machine.Lacks]
  · constructor
    · simp [handleAdminCommand, options, createSecureBattery, parameters, refused, Except.map]
    · simp [newNames, options, parameters, refused, Machine.Lacks]

def Answers (machine : Machine) (bos : BOS) (command : Bosproto.AdminCommand) : Prop :=
  if machine.Lacks bos.mode (bos.newNames machine command) then
    bos.handleAdminCommand machine command = .error .runtimeError
  else ∃ response bos', bos.handleAdminCommand machine command = .ok (response, bos') ∧
    if command.commandOptions = .shutdown then bos' = bos.shutdown
    else ∃ names, Created bos bos' names

theorem Handled.answers {result : Except Fault (AdminResponse × BOS)}
    (handled : bos.Handled machine (bos.newNames machine command) result)
    (stays : command.commandOptions ≠ .shutdown)
    (answer : bos.handleAdminCommand machine command =
      result.map fun result => (some result.1, result.2)) : bos.Answers machine command := by
  unfold Handled at handled
  unfold Answers
  split_ifs at handled ⊢
  · rw [answer, handled]
    rfl
  · obtain ⟨response, bos', made, created⟩ := handled
    exact ⟨some response, bos', by rw [answer, made]; rfl, created⟩

theorem handleAdminCommand_answers (sound : bos.directoryManager.Sound)
    (stays : ¬ bos.Exits machine command) : bos.Answers machine command := by
  cases options : command.commandOptions with
  | createPhysical =>
      exact (handled_physical sound options).answers (by simp [options])
        (by simp only [handleAdminCommand, options])
  | createAggregate =>
      exact (handled_aggregate sound options).answers (by simp [options])
        (by simp only [handleAdminCommand, options])
  | createPartition =>
      exact (handled_partition sound options stays).answers (by simp [options])
        (by simp only [handleAdminCommand, options])
  | createDynamic =>
      exact (handled_dynamic sound options).answers (by simp [options])
        (by simp only [handleAdminCommand, options])
  | createSecure =>
      exact (handled_secure sound options stays).answers (by simp [options])
        (by simp only [handleAdminCommand, options])
  | shutdown =>
      have none : bos.newNames machine command = [] := by simp only [newNames, options]
      rw [Answers, none, if_neg (by simp [Machine.Lacks])]
      exact ⟨Option.none, bos.shutdown, by simp only [handleAdminCommand, options],
        by rw [if_pos options]⟩
  | unrecognized value =>
      have none : bos.newNames machine command = [] := by simp only [newNames, options]
      rw [Answers, none, if_neg (by simp [Machine.Lacks])]
      refine ⟨some (failed "Invalid admin command!"), bos, ?_, ?_⟩
      · simp only [handleAdminCommand, options]
      · rw [if_neg (by simp [options])]
        exact ⟨[], created_refl sound⟩

end Handlers

theorem created_of_sameNodes (sound : bos.directoryManager.Sound) {w : World}
    (same : World.SameNodes bos.directoryManager.world w) (sequenceNumber : ℕ) :
    Created bos { bos with directoryManager := { bos.directoryManager with
      world := w
      sequenceNumber := sequenceNumber } } [] :=
  created_of_idle
    { sound := sound.sameNodes same sequenceNumber
      kept := fun _ _ stored => stored
      fresh := fun _ hname => (by cases hname)
      registered := fun _ hname => (by cases hname)
      nodup := List.nodup_nil }

section BatteryCommands

variable {batteryName : String} {battery : ℕ} {command : Bosproto.BatteryCommand}

theorem battery_of_registered
    (registered : bos.directoryManager.getBattery batteryName = some battery) :
    bos.battery batteryName = .ok battery := by
  simp only [BOS.battery, registered]

theorem battery_of_absent (absent : bos.directoryManager.getBattery batteryName = none) :
    bos.battery batteryName = .error .nullPointer := by
  simp only [BOS.battery, absent]

theorem getStatus_created (now : ℤ) (sound : bos.directoryManager.Sound)
    (registered : bos.directoryManager.getBattery batteryName = some battery) :
    ∃ response bos', bos.getStatus now batteryName = .ok (response, bos') ∧
      Created bos bos' [] := by
  have hw := (sound.registered _ _ registered).1
  obtain ⟨status, w, got, refreshed, -⟩ :=
    getStatus_spec now sound.layered (Nat.lt_succ_of_lt hw) hw
  refine ⟨.batteryStatus 0 status, _, ?_, created_of_sameNodes sound refreshed.sameNodes
    bos.directoryManager.sequenceNumber⟩
  rw [getStatus, battery_of_registered registered]
  show (match V3.getStatus _ _ _ _ with | none => _ | some (_, _) => _) = _
  rw [got]
  rfl

theorem setStatus_created (sound : bos.directoryManager.Sound) (batteryName : String)
    (command : Bosproto.BatteryCommand) :
    Created bos (bos.setStatus batteryName command).2 [] := by
  unfold setStatus
  split
  · rename_i status _
    dsimp only
    split
    · exact created_refl sound
    · rename_i battery _
      exact created_of_sameNodes sound (World.sameNodes_setBattery bos.directoryManager.world
        battery (f := fun b => { b with status := status }) fun _ => rfl)
        bos.directoryManager.sequenceNumber
  · exact created_refl sound

theorem scheduleSetCurrent_registers (now : ℤ) (sound : bos.directoryManager.Sound)
    (registered : bos.directoryManager.getBattery batteryName = some battery)
    (command : BatteryCommand) :
    ∃ response m, BOS.scheduleSetCurrent now bos.directoryManager command batteryName =
        some (response, m) ∧ Created bos { bos with directoryManager := m } [] := by
  have hw := (sound.registered _ _ registered).1
  unfold BOS.scheduleSetCurrent
  cases command.scheduleSetCurrent with
  | none => exact ⟨_, _, rfl, created_refl sound⟩
  | some params =>
      have serves : Serves _ (⟨(bos.directoryManager.world.battery battery).batteryName,
          timepoint params.startTime, timepoint params.endTime,
          bos.directoryManager.sequenceNumber⟩ : RequestKey) bos.directoryManager.world battery :=
        scheduleSetCurrent_touched now sound.layered (Nat.lt_succ_of_lt hw) hw
      obtain ⟨accepted, w, run, touched⟩ := serves params.currentMA
      have created := created_of_sameNodes sound touched.sameNodes
        (bos.directoryManager.sequenceNumber + 1)
      have sent : bos.directoryManager.scheduleSetCurrent now battery params.currentMA
          (.milliseconds params.startTime params.endTime) =
            some (accepted, { bos.directoryManager with
              world := w
              sequenceNumber := bos.directoryManager.sequenceNumber + 1 }) := by
        rw [BatteryDirectoryManager.scheduleSetCurrent]
        exact congrArg (Option.map _) run
      simp only [registered, Option.bind_eq_bind, Option.bind_some, sent]
      cases accepted with
      | true => exact ⟨_, _, rfl, created⟩
      | false => exact ⟨_, _, rfl, created⟩

theorem handleScheduleSetCurrent_created (now : ℤ) (sound : bos.directoryManager.Sound)
    (registered : bos.directoryManager.getBattery batteryName = some battery)
    (command : Bosproto.BatteryCommand) :
    ∃ response bos', bos.handleScheduleSetCurrent now batteryName command = .ok (response, bos') ∧
      Created bos bos' [] := by
  unfold handleScheduleSetCurrent
  dsimp only
  obtain ⟨response, m, run, created⟩ := scheduleSetCurrent_registers now sound registered
    ⟨match command.scheduleParameters with
      | some (.scheduleSetCurrent params) => some params
      | _ => none⟩
  rw [run]
  exact ⟨_, _, rfl, created⟩

/-- Everything that a command to a battery can do before a shutdown. -/
theorem handleBatteryCommand_running (now : ℤ) (sound : bos.directoryManager.Sound)
    (registered : bos.directoryManager.getBattery batteryName = some battery)
    (command : Bosproto.BatteryCommand) :
    (bos.handleBatteryCommand now batteryName (some command) = .error .wrongClass ∧
      command.command = .setSchedule ∧ batteryName ∉ bos.secureBatteries) ∨
    (¬ (command.command = .setSchedule ∧ batteryName ∉ bos.secureBatteries) ∧
      ∃ response bos', bos.handleBatteryCommand now batteryName (some command) =
        .ok (response, bos') ∧ Created bos bos' []) := by
  obtain ⟨kind, parameters⟩ := command
  cases kind with
  | getStatus =>
      obtain ⟨response, bos', got, created⟩ := getStatus_created now sound registered
      exact .inr ⟨by simp, some response, bos', by simp only [handleBatteryCommand, got]; rfl,
        created⟩
  | setStatus =>
      exact .inr ⟨by simp, _, _, rfl, setStatus_created sound batteryName ⟨.setStatus, parameters⟩⟩
  | scheduleSetCurrent =>
      obtain ⟨response, bos', sent, created⟩ := handleScheduleSetCurrent_created now
        sound registered ⟨.scheduleSetCurrent, parameters⟩
      exact .inr ⟨by simp, some response, bos', by simp only [handleBatteryCommand, sent]; rfl,
        created⟩
  | setSchedule =>
      have schedule : bos.setSchedule batteryName =
          if batteryName ∈ bos.secureBatteries then .ok bos else .error .wrongClass := by
        rw [setSchedule, battery_of_registered registered]
        rfl
      by_cases secure : batteryName ∈ bos.secureBatteries
      · rw [if_pos secure] at schedule
        refine .inr ⟨by simp [secure], none, bos, ?_, created_refl sound⟩
        simp only [handleBatteryCommand, schedule]
        rfl
      · rw [if_neg secure] at schedule
        refine .inl ⟨?_, rfl, secure⟩
        simp only [handleBatteryCommand, schedule]
        rfl
  | removeBattery => exact .inr ⟨by simp, _, _, rfl, created_refl sound⟩
  | unrecognized value => exact .inr ⟨by simp, _, _, rfl, created_refl sound⟩

theorem handleBatteryCommand_stopped (now : ℤ)
    (absent : bos.directoryManager.getBattery batteryName = none)
    (command : Bosproto.BatteryCommand) :
    if command.followsPointer then
      bos.handleBatteryCommand now batteryName (some command) = .error .nullPointer
    else ∃ response, bos.handleBatteryCommand now batteryName (some command) =
      .ok (response, bos) := by
  have failed := battery_of_absent absent
  obtain ⟨kind, parameters⟩ := command
  cases kind with
  | getStatus =>
      show bos.handleBatteryCommand now batteryName (some ⟨.getStatus, parameters⟩) = _
      simp only [handleBatteryCommand, getStatus, failed]
      rfl
  | setStatus =>
      have same : (bos.setStatus batteryName ⟨.setStatus, parameters⟩).2 = bos := by
        unfold setStatus
        split
        · simp only [absent]
        · rfl
      exact ⟨_, congrArg (fun after => Except.ok (_, after)) same⟩
  | scheduleSetCurrent =>
      have request (params : Option ScheduleSetCurrent) : BOS.scheduleSetCurrent now
          bos.directoryManager ⟨params⟩ batteryName = if params.isSome then none else
            some (⟨-1, .failureMessage "must set current, start time, and end time"⟩,
              bos.directoryManager) := by
        cases params with
        | none => rfl
        | some params =>
            simp only [BOS.scheduleSetCurrent, absent]
            rfl
      unfold handleBatteryCommand handleScheduleSetCurrent Bosproto.BatteryCommand.followsPointer
      simp only [request]
      rcases parameters with _ | status | params | schedule
      · exact ⟨_, rfl⟩
      · exact ⟨_, rfl⟩
      · simp only [failed]
        rfl
      · exact ⟨_, rfl⟩
  | setSchedule =>
      show bos.handleBatteryCommand now batteryName (some ⟨.setSchedule, parameters⟩) = _
      simp only [handleBatteryCommand, setSchedule, failed]
      rfl
  | removeBattery => exact ⟨_, rfl⟩
  | unrecognized value => exact ⟨_, rfl⟩

end BatteryCommands

/-- The server in a round, and in the rest of the round that follows a shutdown. -/
structure Serving (bos : BOS) : Prop where
  running : bos.quitPoll = false → Running bos
  stopped : bos.quitPoll = true → ∀ name, bos.directoryManager.getBattery name = none

theorem start_serving (mode : BOSMode) : Serving (start mode) where
  running _ := ⟨BatteryDirectoryManager.sound_empty, fun name hname => (by cases hname),
    List.nodup_nil⟩
  stopped quit := by cases quit

theorem Running.serving (h : Running bos) (running : bos.quitPoll = false) : Serving bos :=
  ⟨fun _ => h, fun quit => by rw [running] at quit; cases quit⟩

theorem Running.connect (h : Running bos) {batteryName : String}
    (registered : ∃ i, bos.directoryManager.getBattery batteryName = some i) :
    Running { bos with connections := bos.connections ++ [batteryName] } where
  sound := h.sound
  bound name hname := by
    rw [← List.append_assoc] at hname
    rcases List.mem_append.mp hname with old | new
    · exact h.bound name old
    · rw [List.mem_singleton.mp new]
      exact registered
  nodup := h.nodup

end BOS

namespace ServerEvent

variable {bos bos' : BOS} {event : ServerEvent}

def isShutdown : ServerEvent → Bool
  | .adminCommand _ (some command) => command.commandOptions = .shutdown
  | .adminCommand _ none | .batteryConnect _ | .fifoConnect _ | .batteryCommand _ _ _
  | .poll => false

/-- Which event ends in which fault. -/
def Faults (bos : BOS) : ServerEvent → Fault → Prop
  | .batteryCommand _ connection (some command), .nullPointer =>
    bos.quitPoll = true ∧ connection < bos.connections.length ∧ command.followsPointer = true
  | .batteryCommand _ connection (some command), .wrongClass =>
    bos.quitPoll = false ∧ ∃ batteryName, bos.connections[connection]? = some batteryName ∧
      command.command = .setSchedule ∧ batteryName ∉ bos.secureBatteries
  | .adminCommand machine (some command), .exit =>
    bos.quitPoll = false ∧ bos.Exits machine command
  | .adminCommand machine (some command), .runtimeError =>
    bos.quitPoll = false ∧ machine.Lacks bos.mode (bos.newNames machine command)
  | _, _ => False

structure Served (bos bos' : BOS) (event : ServerEvent) : Prop where
  serving : bos'.Serving
  quitPoll : bos'.quitPoll = (bos.quitPoll || event.isShutdown)
  kept : bos'.quitPoll = false → ∀ name i, bos.directoryManager.getBattery name = some i →
    bos'.directoryManager.getBattery name = some i

theorem served_refl (serving : bos.Serving) (go : event.isShutdown = false) :
    Served bos bos event := ⟨serving, by rw [go, Bool.or_false], fun _ _ _ stored => stored⟩

theorem served_of_created (running : bos.Running) (quit : bos.quitPoll = false)
    {names : List String} (created : bos.Created bos' names) (go : event.isShutdown = false) :
    Served bos bos' event where
  serving := (created.running running).serving (created.quitPoll.trans quit)
  quitPoll := by rw [created.quitPoll, go, Bool.or_false]
  kept _ := created.registers.kept

theorem served_shutdown (stops : event.isShutdown = true) : Served bos bos.shutdown event where
  serving := ⟨fun running => (by cases running), fun _ _ => rfl⟩
  quitPoll := by rw [stops, Bool.or_true]; rfl
  kept running := by cases running

/-- An event cannot occur, or it faults as `Faults` says, or it is served. -/
inductive Outcome (bos : BOS) (event : ServerEvent) : Prop
  | impossible : event.serve bos = none → (∀ fault, ¬ event.Faults bos fault) →
      Outcome bos event
  | fault {f : Fault} : event.serve bos = some (.error f) →
      (∀ fault, event.Faults bos fault ↔ fault = f) → Outcome bos event
  | served (response : Option Response) (bos' : BOS) :
      event.serve bos = some (.ok (response, bos')) →
      (∀ fault, ¬ event.Faults bos fault) → Served bos bos' event → Outcome bos event

theorem outcome_adminCommand (serving : bos.Serving) (machine : Machine)
    (command : Option Bosproto.AdminCommand) : Outcome bos (.adminCommand machine command) := by
  cases quit : bos.quitPoll with
  | true =>
      refine .impossible (by cases command <;> simp [serve, quit]) fun fault faults => ?_
      cases command <;> cases fault <;> simp [Faults, quit] at faults
  | false =>
      have running := serving.running quit
      cases command with
      | none =>
          refine .served none bos (by simp [serve, quit])
            (fun fault faults => ?_) (served_refl serving rfl)
          cases fault <;> exact faults
      | some command =>
          by_cases exits : bos.Exits machine command
          · obtain ⟨handled, makes⟩ := BOS.handleAdminCommand_exits running.sound exits
            refine .fault (f := .exit) (by simp [serve, quit, handled, Except.map]) fun fault => ?_
            cases fault <;> simp [Faults, quit, exits, makes]
          have answers := BOS.handleAdminCommand_answers running.sound exits
          unfold BOS.Answers at answers
          split_ifs at answers with lacks stops
          · refine .fault (f := .runtimeError) (by simp [serve, quit, answers, Except.map])
              fun fault => ?_
            cases fault <;> simp [Faults, quit, exits, lacks]
          · obtain ⟨response, bos', handled, rfl⟩ := answers
            refine .served (response.map .admin) bos.shutdown
              (by simp [serve, quit, handled, Except.map]) (fun fault faults => ?_)
              (served_shutdown (decide_eq_true stops))
            cases fault <;> simp [Faults, exits, lacks] at faults
          · obtain ⟨response, bos', handled, names, created⟩ := answers
            refine .served (response.map .admin) bos'
              (by simp [serve, quit, handled, Except.map]) (fun fault faults => ?_)
              (served_of_created running quit created (decide_eq_false stops))
            cases fault <;> simp [Faults, exits, lacks] at faults

theorem outcome_batteryCommand (serving : bos.Serving) (now : ℤ) (connection : ℕ)
    (command : Option Bosproto.BatteryCommand) :
    Outcome bos (batteryCommand now connection command) := by
  cases bound : bos.connections[connection]? with
  | none =>
      have past : ¬ connection < bos.connections.length := fun h => by
        rw [List.getElem?_eq_getElem h] at bound
        cases bound
      refine .impossible (by rw [serve, bound]; rfl) fun fault faults => ?_
      cases command <;> cases fault <;> simp [Faults, past] at faults
  | some batteryName =>
      have within : connection < bos.connections.length := (List.getElem?_eq_some_iff.mp bound).1
      cases command with
      | none =>
          refine .served none bos
            (by simp [serve, bound, BOS.handleBatteryCommand]) (fun fault faults => ?_)
            (served_refl serving rfl)
          cases fault <;> exact faults
      | some command =>
          cases quit : bos.quitPoll with
          | true =>
              have stopped := BOS.handleBatteryCommand_stopped now
                (serving.stopped quit batteryName) command
              split_ifs at stopped with follows
              · refine .fault (f := .nullPointer) (by simp [serve, bound, stopped]) fun fault => ?_
                cases fault <;> simp [Faults, quit, within, follows]
              · obtain ⟨response, handled⟩ := stopped
                refine .served response bos
                  (by simp [serve, bound, handled]) (fun fault faults => ?_)
                  (served_refl serving rfl)
                cases fault <;> simp [Faults, quit, follows] at faults
          | false =>
              have running := serving.running quit
              obtain ⟨battery, registered⟩ := running.bound batteryName
                (List.mem_append_right _ (List.mem_of_getElem? bound))
              rcases BOS.handleBatteryCommand_running now running.sound registered
                command with ⟨wrong, schedule, insecure⟩ | ⟨right, response, bos', handled, created⟩
              · refine .fault (f := .wrongClass) (by simp [serve, bound, wrong]) fun fault => ?_
                cases fault <;> simp [Faults, quit, bound, schedule, insecure]
              · refine .served response bos'
                  (by simp [serve, bound, handled]) (fun fault faults => ?_)
                  (served_of_created running quit created rfl)
                cases fault with
                | wrongClass =>
                    obtain ⟨-, name, bound', insecure⟩ := faults
                    obtain rfl := Option.some.inj (bound.symm.trans bound')
                    exact right insecure
                | nullPointer => simp [Faults, quit] at faults
                | exit => exact faults
                | runtimeError => exact faults
                | diverges => exact faults

theorem outcome_connect (serving : bos.Serving) {batteryName : String}
    (registered : bos.quitPoll = false → ∃ i, bos.directoryManager.getBattery batteryName = some i)
    (go : event.isShutdown = false) :
    Served bos { bos with connections := bos.connections ++ [batteryName] } event where
  serving := ⟨fun running => (serving.running running).connect (registered running),
    serving.stopped⟩
  quitPoll := by rw [go, Bool.or_false]
  kept _ _ _ stored := stored

theorem outcome (serving : bos.Serving) (event : ServerEvent) : Outcome bos event := by
  cases event with
  | adminCommand now command => exact outcome_adminCommand serving now command
  | batteryConnect batteryName =>
      have none (fault : Fault) : ¬ (batteryConnect batteryName).Faults bos fault := id
      by_cases network : bos.mode = .network
      · cases stored : bos.directoryManager.getBattery batteryName with
        | none =>
            exact .served (some (.connect .doesNotExist)) bos
              (by simp [serve, network, BOS.batteryConnect, stored]) none (served_refl serving rfl)
        | some battery =>
            exact .served (some (.connect .success)) _
              (by simp [serve, network, BOS.batteryConnect, stored]) none
              (outcome_connect serving (fun _ => ⟨battery, stored⟩) rfl)
      · exact .impossible (by rw [serve, if_neg network]) none
  | fifoConnect fifo =>
      have none (fault : Fault) : ¬ (fifoConnect fifo).Faults bos fault := id
      cases made : bos.fifos[fifo]? with
      | none => exact .impossible (by rw [serve, made]; rfl) none
      | some batteryName =>
          exact .served _ _ (by rw [serve, made]; rfl) none (outcome_connect serving
            (fun running => (serving.running running).bound batteryName
              (List.mem_append_left _ (List.mem_of_getElem? made))) rfl)
  | batteryCommand now connection command =>
      exact outcome_batteryCommand serving now connection command
  | poll =>
      have none (fault : Fault) : ¬ poll.Faults bos fault := id
      cases quit : bos.quitPoll with
      | true => exact .impossible (by rw [serve, if_pos quit]) none
      | false =>
          exact .served Option.none bos (by simp [serve, quit]) none
            (served_refl serving rfl)

theorem step_served (serving : bos.Serving) (run : event.step bos = some bos') :
    Served bos bos' event := by
  unfold step at run
  cases (outcome serving event : Outcome bos event) with
  | impossible result _ => simp [result] at run
  | fault result _ => simp [result] at run
  | served _ _ result _ served =>
      simp only [result, Option.some.injEq] at run
      rwa [← run]

theorem exec_serving {mode : BOSMode} {events : List ServerEvent}
    (run : StepRun.exec step (BOS.start mode) events = some bos) : bos.Serving :=
  StepRun.exec_kept (BOS.start_serving mode)
    (fun _ _ _ serving step => (step_served serving step).serving) run

/-- As long as the server runs its graphs are well formed, every FIFO and every connection is for a
battery that is there, no FIFO has been made twice, and a name stays with its battery. -/
theorem exec_bound {mode : BOSMode} {earlier : BOS} {before after : List ServerEvent}
    (first : StepRun.exec step (BOS.start mode) before = some earlier)
    (rest : StepRun.exec step earlier after = some bos) (running : bos.quitPoll = false) :
    bos.directoryManager.directory.WellFormed ∧ bos.fifos.Nodup ∧
      (∀ batteryName ∈ bos.fifos ++ bos.connections,
        ∃ i, bos.directoryManager.getBattery batteryName = some i) ∧
      ∀ batteryName i, earlier.directoryManager.getBattery batteryName = some i →
        bos.directoryManager.getBattery batteryName = some i := by
  have kept : bos.Serving ∧ (bos.quitPoll = false → ∀ batteryName i,
      earlier.directoryManager.getBattery batteryName = some i →
        bos.directoryManager.getBattery batteryName = some i) := by
    refine StepRun.exec_kept (Q := fun s => s.Serving ∧ (s.quitPoll = false → ∀ batteryName i,
      earlier.directoryManager.getBattery batteryName = some i →
        s.directoryManager.getBattery batteryName = some i))
      ⟨exec_serving first, fun _ _ _ stored => stored⟩ (fun s event s' h step => ?_) rest
    have served := step_served h.1 step
    refine ⟨served.serving, fun quit batteryName i stored => ?_⟩
    have before : s.quitPoll = false := by
      rw [served.quitPoll, Bool.or_eq_false_iff] at quit
      exact quit.1
    exact served.kept quit batteryName i (h.2 before batteryName i stored)
  have h := kept.1.running running
  exact ⟨h.sound.directory.wellFormed, h.nodup, h.bound, kept.2 running⟩

section Run

/-- A server in FIFO mode. -/
theorem exec_bound_fifo :
    ∃ earlier bos, StepRun.exec step (BOS.start .fifo)
        [.adminCommand (.willing 0) (some ⟨.createSecure, some (.secureBattery ⟨"s"⟩)⟩)] =
          some earlier ∧
      StepRun.exec step earlier [.poll, .fifoConnect 0, .poll] = some bos ∧
      bos.fifos.Nodup ∧ ∀ batteryName ∈ bos.fifos ++ bos.connections,
        ∃ i, bos.directoryManager.getBattery batteryName = some i := by
  obtain ⟨earlier, first, rest⟩ := Option.bind_eq_some_iff.mp (show (StepRun.exec step
    (BOS.start .fifo) [.adminCommand (.willing 0) (some ⟨.createSecure, some (.secureBattery ⟨"s"⟩)⟩)]).bind
      (fun earlier => (StepRun.exec step earlier
        [.poll, .fifoConnect 0, .poll]).map BOS.quitPoll) = some false by decide +kernel)
  obtain ⟨bos, rest, running⟩ := Option.map_eq_some_iff.mp rest
  obtain ⟨-, nodup, bound, -⟩ := exec_bound first rest running
  exact ⟨earlier, bos, first, rest, nodup, bound⟩

end Run

end ServerEvent

end BatteryOS.V3
