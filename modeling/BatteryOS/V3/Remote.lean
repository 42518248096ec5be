import BatteryOS.V3.Framing
import BatteryOS.V3.Sources

/-! Scheduling over a connection. A client stub puts its request into a command, BOS calls the
battery of that name and answers with a return code, and the stub makes a boolean of the answer.
The connection is a parameter; one that frames messages over byte streams is an instance. -/

namespace BatteryOS.V3

structure ScheduleSetCurrent where
  currentMA : ℚ
  startTime : UInt64
  endTime : UInt64
  deriving DecidableEq, Repr

/-- A command with the parameters that it carries, if they are those of a schedule. -/
structure BatteryCommand where
  scheduleSetCurrent : Option ScheduleSetCurrent
  deriving DecidableEq, Repr

inductive ReturnValue where
  | successMessage (message : String)
  | failureMessage (message : String)
  deriving DecidableEq, Repr

structure ScheduleSetCurrentResponse where
  returnCode : ℤ
  returnValue : ReturnValue
  deriving DecidableEq, Repr

/-- What `read` parses at one end of a connection from what was written at the other. -/
structure Link where
  command : BatteryCommand → Option BatteryCommand
  response : ScheduleSetCurrentResponse → Option ScheduleSetCurrentResponse

structure Link.Faithful (link : Link) : Prop where
  command : ∀ command, link.command command = some command
  response : ∀ response, link.response response = some response

/-- The times of a request, as each of the two overloads takes them. -/
inductive Times where
  | milliseconds (startTime endTime : UInt64)
  | timestamps (startTime endTime : Int64)
  deriving DecidableEq

def timepoint (milliseconds : UInt64) : ℤ := milliseconds.toInt64.toInt

def Times.startTime : Times → ℤ
  | .milliseconds startTime _ => timepoint startTime
  | .timestamps startTime _ => startTime.toInt

def Times.endTime : Times → ℤ
  | .milliseconds _ endTime => timepoint endTime
  | .timestamps _ endTime => endTime.toInt

namespace BatteryDirectoryManager

/-- `Battery::schedule_set_current(current, start, end)`: under the battery's own name and a new
sequence number. -/
def scheduleSetCurrent (m : BatteryDirectoryManager) (now : ℤ) (battery : ℕ) (currentMA : ℚ)
    (times : Times) : Option (Bool × BatteryDirectoryManager) :=
  (V3.scheduleSetCurrent now times.startTime times.endTime (m.world.battery battery).batteryName
    m.sequenceNumber (m.world.length + 1) m.world battery currentMA).map fun result =>
      (result.1, { m with world := result.2, sequenceNumber := m.sequenceNumber + 1 })

end BatteryDirectoryManager

/-- `none` where there is no battery of the name: the server follows a null pointer. -/
def BOS.scheduleSetCurrent (now : ℤ) (m : BatteryDirectoryManager) (command : BatteryCommand)
    (batteryName : String) : Option (ScheduleSetCurrentResponse × BatteryDirectoryManager) :=
  match command.scheduleSetCurrent with
  | none =>
    some (⟨-1, .failureMessage "must set current, start time, and end time"⟩, m)
  | some params => do
    let bat ← m.getBattery batteryName
    let (success, m) ← m.scheduleSetCurrent now bat params.currentMA
      (.milliseconds params.startTime params.endTime)
    if success then
      return (⟨0, .successMessage ("successfully set current for " ++ batteryName)⟩, m)
    else return (⟨-1, .failureMessage ("failure setting current for " ++ batteryName)⟩, m)

section Stubs

variable (link : Link) (now : ℤ) (m : BatteryDirectoryManager) (batteryName : String)
  (currentMA : ℚ)

/-- A stub's command, what BOS does on it, and the response as the stub reads it. A command that
BOS cannot parse is dropped, and no response comes. -/
def exchange (startTime endTime : UInt64) :
    Option (Option ScheduleSetCurrentResponse × BatteryDirectoryManager) := do
  let command ← link.command ⟨some ⟨currentMA, startTime, endTime⟩⟩
  let (response, m) ← BOS.scheduleSetCurrent now m command batteryName
  return (link.response response, m)

/-- The value that `ClientBattery::schedule_set_current` makes of the response. -/
def ClientBattery.returned : Option ScheduleSetCurrentResponse → Bool
  | none => false
  | some _ => true

def FifoBattery.returned : Option ScheduleSetCurrentResponse → Bool
  | none => false
  | some response => if response.returnCode = -1 then false else true

def remote (returned : Option ScheduleSetCurrentResponse → Bool) :
    Times → Option (Bool × BatteryDirectoryManager)
  | .milliseconds startTime endTime =>
    (exchange link now m batteryName currentMA startTime endTime).map fun result =>
      (returned result.1, result.2)
  | .timestamps startTime endTime =>
    (exchange link now m batteryName currentMA startTime.toUInt64 endTime.toUInt64).map
      fun result => (returned result.1, result.2)

def ClientBattery.scheduleSetCurrent : Times → Option (Bool × BatteryDirectoryManager) :=
  remote link now m batteryName currentMA ClientBattery.returned

def FifoBattery.scheduleSetCurrent : Times → Option (Bool × BatteryDirectoryManager) :=
  remote link now m batteryName currentMA FifoBattery.returned

end Stubs

section Agreement

variable {link : Link} {now : ℤ} {m m' : BatteryDirectoryManager} {batteryName : String}
  {currentMA : ℚ} {battery : ℕ} {accepted : Bool}

def responseTo (batteryName : String) (accepted : Bool) : ScheduleSetCurrentResponse :=
  if accepted then ⟨0, .successMessage ("successfully set current for " ++ batteryName)⟩
  else ⟨-1, .failureMessage ("failure setting current for " ++ batteryName)⟩

theorem exchange_eq (faithful : link.Faithful) (registered : m.getBattery batteryName = some battery)
    {startTime endTime : UInt64}
    (direct : m.scheduleSetCurrent now battery currentMA (.milliseconds startTime endTime) =
      some (accepted, m')) :
    exchange link now m batteryName currentMA startTime endTime =
      some (some (responseTo batteryName accepted), m') := by
  simp only [exchange, faithful.command, faithful.response, BOS.scheduleSetCurrent, registered,
    direct, Option.bind_eq_bind, Option.bind_some, Option.pure_def, responseTo]
  cases accepted <;> rfl

/-- A stub has the effect of the direct call, and its value is that made of the response. -/
theorem remote_eq (faithful : link.Faithful) (registered : m.getBattery batteryName = some battery)
    (returned : Option ScheduleSetCurrentResponse → Bool) {times : Times}
    (direct : m.scheduleSetCurrent now battery currentMA times = some (accepted, m')) :
    remote link now m batteryName currentMA returned times =
      some (returned (some (responseTo batteryName accepted)), m') := by
  cases times with
  | milliseconds startTime endTime =>
      rw [remote, exchange_eq faithful registered direct, Option.map_some]
  | timestamps startTime endTime =>
      have converted : m.scheduleSetCurrent now battery currentMA
          (.milliseconds startTime.toUInt64 endTime.toUInt64) = some (accepted, m') := by
        rw [← direct]
        simp only [BatteryDirectoryManager.scheduleSetCurrent, Times.startTime, Times.endTime,
          timepoint, Int64.toInt64_toUInt64]
      rw [remote, exchange_eq faithful registered converted, Option.map_some]

end Agreement

namespace BatteryDirectoryManager

variable {m : BatteryDirectoryManager} {calls : List Call} {name : String} {battery : ℕ}

theorem scheduleSetCurrent_eq (run : empty.exec calls = some m)
    (registered : m.getBattery name = some battery) (now : ℤ) (currentMA : ℚ) (times : Times) :
    ∃ m', m.scheduleSetCurrent now battery currentMA times = some
      (!m.world.refuses now (m.world.length + 1) battery currentMA times.startTime, m') := by
  have sound := exec_sound run
  have hw := (sound.registered name battery registered).1
  have own : ∃ w', V3.scheduleSetCurrent now times.startTime times.endTime
      (m.world.battery battery).batteryName m.sequenceNumber (m.world.length + 1) m.world battery
      currentMA =
        some (!m.world.refuses now (m.world.length + 1) battery currentMA times.startTime, w') :=
    scheduleSetCurrent_own sound.layered (Nat.lt_succ_of_lt hw) hw
      fun j below other => (exec_grounded run).name_ne sound registered below other
  obtain ⟨w', sent⟩ := own
  rw [scheduleSetCurrent, sent]
  exact ⟨_, rfl⟩

/-- A request through a `ClientBattery` has the effect of the direct call. It returns what the
direct call returns and what a `FifoBattery` makes of the same response if and only if the
battery's checks pass: the client stub takes every response for a success. -/
theorem remote_iff (run : empty.exec calls = some m)
    (registered : m.getBattery name = some battery) {link : Link} (faithful : link.Faithful)
    (now : ℤ) (currentMA : ℚ) (times : Times) :
    ∃ accepted m', m.scheduleSetCurrent now battery currentMA times = some (accepted, m') ∧
      (∃ returned, ClientBattery.scheduleSetCurrent link now m name currentMA times =
        some (returned, m')) ∧
      ((ClientBattery.scheduleSetCurrent link now m name currentMA times = some (accepted, m') ∧
          ClientBattery.scheduleSetCurrent link now m name currentMA times =
            FifoBattery.scheduleSetCurrent link now m name currentMA times) ↔
        m.world.refuses now (m.world.length + 1) battery currentMA times.startTime = false) := by
  obtain ⟨m', direct⟩ := scheduleSetCurrent_eq run registered now currentMA times
  have client := remote_eq faithful registered ClientBattery.returned direct
  have fifo := remote_eq faithful registered FifoBattery.returned direct
  refine ⟨_, m', direct, ⟨_, client⟩, ?_⟩
  rw [ClientBattery.scheduleSetCurrent, FifoBattery.scheduleSetCurrent, client, fifo]
  cases m.world.refuses now (m.world.length + 1) battery currentMA times.startTime <;>
    simp [ClientBattery.returned, FifoBattery.returned, responseTo]

/-- A request on an aggregate by time stamps, over a connection that delivers everything. -/
theorem remote_iff_diamond : ∃ m, empty.exec diamond = some m ∧
    ∃ accepted m', m.scheduleSetCurrent 0 4 101 (.timestamps 10 50) = some (accepted, m') ∧
      (∃ returned, ClientBattery.scheduleSetCurrent ⟨some, some⟩ 0 m "g" 101 (.timestamps 10 50) =
        some (returned, m')) ∧
      ((ClientBattery.scheduleSetCurrent ⟨some, some⟩ 0 m "g" 101 (.timestamps 10 50) =
            some (accepted, m') ∧
          ClientBattery.scheduleSetCurrent ⟨some, some⟩ 0 m "g" 101 (.timestamps 10 50) =
            FifoBattery.scheduleSetCurrent ⟨some, some⟩ 0 m "g" 101 (.timestamps 10 50)) ↔
        m.world.refuses 0 (m.world.length + 1) 4 101 (Times.timestamps 10 50).startTime = false) := by
  obtain ⟨m, run, registered⟩ := Option.map_eq_some_iff.mp (show
    (empty.exec diamond).map (fun m => m.getBattery "g") = some (some 4) by decide +kernel)
  exact ⟨m, run, remote_iff run registered ⟨fun _ => rfl, fun _ => rfl⟩ 0 101 (.timestamps 10 50)⟩

/-- A battery without limits of its own refuses 100 mA, and the client stub reports a success. -/
theorem remote_reports_refused : ∃ m m',
    empty.exec [.createPhysicalBattery "p" 1000 .lazy] = some m ∧
    m.scheduleSetCurrent 0 0 100 (.milliseconds 10 20) = some (false, m') ∧
    FifoBattery.scheduleSetCurrent ⟨some, some⟩ 0 m "p" 100 (.milliseconds 10 20) =
      some (false, m') ∧
    ClientBattery.scheduleSetCurrent ⟨some, some⟩ 0 m "p" 100 (.milliseconds 10 20) =
      some (true, m') := by
  obtain ⟨m, run, state⟩ := Option.bind_eq_some_iff.mp (show
    (empty.exec [.createPhysicalBattery "p" 1000 .lazy]).bind (fun m =>
      (m.scheduleSetCurrent 0 0 100 (.milliseconds 10 20)).map fun result =>
        (m.getBattery "p", result.1)) = some (some 0, false) by decide +kernel)
  obtain ⟨⟨accepted, m'⟩, direct, state⟩ := Option.map_eq_some_iff.mp state
  obtain ⟨registered, rfl⟩ := by simpa only [Prod.mk_inj] using state
  have faithful : Link.Faithful ⟨some, some⟩ := ⟨fun _ => rfl, fun _ => rfl⟩
  exact ⟨m, m', run, direct, remote_eq faithful registered FifoBattery.returned direct,
    remote_eq faithful registered ClientBattery.returned direct⟩

end BatteryDirectoryManager

section Streams

/-- One message over a byte stream: what the kernel takes of it is `writes`, and the bytes arrive
in the chunks of `cut`. -/
structure Stream (M : Type*) where
  codec : MessageLite M
  writer : Host
  reader : Host
  writes : M → List WriteResult
  cut : List UInt8 → List ReadResult

namespace Stream

variable {M : Type*} (stream : Stream M)

def carry (message : M) : Option M :=
  match BatteryConnection.write stream.codec stream.writer message [] (stream.writes message) with
  | none => none
  | some (_, wire, _) =>
    (BatteryConnection.read stream.codec stream.reader (stream.cut wire)).bind Prod.fst

structure Sound : Prop where
  inverts : stream.codec.Inverts
  small : ∀ message, stream.codec.byteSizeLong message < MessageLite.sizeLimit
  writesBenign : ∀ message, ∀ result ∈ stream.writes message, result.Benign
  enough : ∀ message,
    4 + stream.codec.byteSizeLong message ≤ WriteResult.acceptances (stream.writes message)
  readsBenign : ∀ wire, ∀ result ∈ stream.cut wire, result.Benign
  delivers : ∀ wire, ReadResult.delivered (stream.cut wire) = wire

variable {stream}

theorem Sound.carry (h : stream.Sound) (message : M) : stream.carry message = some message := by
  obtain ⟨wire, rest, written, -⟩ := BatteryConnection.write_returns stream.writer []
    (h.small message) (h.writesBenign message) (h.enough message)
  have framed := (BatteryConnection.write_wire h.inverts (h.small message)
    (h.writesBenign message) written).1
  rw [List.nil_append] at framed
  have begins : ReadResult.delivered (stream.cut wire) =
      BatteryConnection.frame stream.codec stream.writer message ++ [] := by
    rw [h.delivers, framed, List.append_nil]
  obtain ⟨left, received, -, -⟩ := BatteryConnection.read_spec stream.reader h.inverts
    (h.small message) (h.readsBenign wire) begins
  simp only [Stream.carry, written, received, Option.bind_some]

end Stream

theorem Link.faithful_of_streams {commands : Stream BatteryCommand}
    {responses : Stream ScheduleSetCurrentResponse} (toServer : commands.Sound)
    (toClient : responses.Sound) : Link.Faithful ⟨commands.carry, responses.carry⟩ :=
  ⟨toServer.carry, toClient.carry⟩

end Streams

end BatteryOS.V3
