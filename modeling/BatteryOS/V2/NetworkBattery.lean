import BatteryOS.V2.Codec

/-! A battery behind a network: the request that the client builds, what the handler on the other
side makes of it, and the reply. The link delivers every byte in order; the batteries of the remote
side are an argument. Times are in milliseconds. -/

namespace BatteryOS.V2

open ByteOrder

namespace Wire

/-- A point of time in whole milliseconds from the epoch on. The clock counts nanoseconds in 64
bits. -/
structure Timepoint where
  ms : ℕ
  inRange : ms * 1000000 < 2 ^ 63
deriving DecidableEq, Repr

/-- The cast to seconds truncates. -/
def timepointToCTime (tp : Timepoint) : CTimestamp :=
  let secs := (tp.ms : ℤ).tdiv 1000
  ⟨.ofInt secs, .ofInt (tp.ms - secs * 1000)⟩

def cTimeToTimepoint (timestamp : CTimestamp) : ℤ :=
  timestamp.secsSinceEpoch.toInt * 1000 + timestamp.msec.toInt

inductive RPCFunctionID
  | refresh
  | getStatus
  | setCurrent
deriving DecidableEq, Repr

def RPCFunctionID.toInt64 : RPCFunctionID → Int64
  | .refresh => 1
  | .getStatus => 2
  | .setCurrent => 3

def newRPCHeader (func : RPCFunctionID) (remoteName : List UInt8) : RPCRequestHeader where
  func := func.toInt64
  remoteNameLength := .ofNat remoteName.length
  currentMA := 0
  isGreaterThan := 0
  whenToSet := ⟨0, 0⟩
  untilWhen := ⟨0, 0⟩

structure SetCurrentCall where
  targetCurrentMA : Int64
  isGreaterThanTarget : Bool
  whenToSet : ℤ
  untilWhen : ℤ
deriving DecidableEq, Repr

/-- A battery of the remote side: its status, and what it answers to a call. -/
structure RemoteBattery where
  status : BatteryStatus
  scheduleSetCurrent : SetCurrentCall → UInt32

/-- `Connection::read` of an `int` number of bytes: what is read and what remains. -/
def read (numBytes : ℤ) (stream : List UInt8) : List UInt8 × List UInt8 :=
  if numBytes ≤ 0 then ([], stream)
  else (stream.take numBytes.toNat, stream.drop numBytes.toNat)

def pokeAll : (buffer : List UInt8) → (i : ℕ) → List UInt8 → Option (List UInt8)
  | buffer, _, [] => some buffer
  | buffer, i, byte :: bytes => (poke buffer i byte).bind fun buffer => pokeAll buffer (i + 1) bytes

/-- The bytes of a request: the length, the header, the name and a zero. -/
def requestBytes (remoteName : List UInt8) (header : RPCRequestHeader) :
    Option (ℕ × List UInt8) :=
  let request := List.replicate (4 + 64 + remoteName.length + 1) 0
  (header.serialize (request.drop 4) request.length).bind fun written =>
    (pokeAll written.2 written.1 (remoteName ++ [0])).bind fun body =>
      let dataLength := BitVec.ofNat (8 * 4) (64 + remoteName.length + 1)
      serializeInt false dataLength (request.take 4 ++ body) 4

def sendRecv (serve : List UInt8 → List UInt8) (request : List UInt8) : Option (List UInt8) :=
  let data := read 4 (serve request)
  if data.1.length ≠ 4 then some []
  else (deserializeInt 4 data.1).map fun dataLength => (read dataLength.toInt data.2).1

def setCurrentHeader (remoteName : List UInt8) (targetCurrentMA : Int64)
    (isGreaterThanTarget : Bool) (whenToSet untilWhen : Timepoint) : RPCRequestHeader :=
  { newRPCHeader .setCurrent remoteName with
    currentMA := targetCurrentMA
    isGreaterThan := if isGreaterThanTarget then 1 else 0
    whenToSet := timepointToCTime whenToSet
    untilWhen := timepointToCTime untilWhen }

def scheduleSetCurrent (serve : List UInt8 → List UInt8) (remoteName : List UInt8)
    (targetCurrentMA : Int64) (isGreaterThanTarget : Bool) (whenToSet untilWhen : Timepoint) :
    Option UInt32 :=
  let header := setCurrentHeader remoteName targetCurrentMA isGreaterThanTarget whenToSet untilWhen
  (requestBytes remoteName header).bind fun request =>
    if request.1 ≠ 4 then some 0
    else (sendRecv serve request.2).map fun _ => 1

/-- What the handler does: the value it returns, the call it makes and on which battery, and the
reply. -/
structure Handled where
  result : ℤ
  scheduled : Option (List UInt8 × SetCurrentCall)
  reply : List UInt8

def dropped (result : ℤ) : Handled := ⟨result, none, []⟩

def dispatch (bat : RemoteBattery) (name : List UInt8) (header : RPCRequestHeader) :
    Option Handled :=
  if header.func = RPCFunctionID.refresh.toInt64 ∨
      header.func = RPCFunctionID.getStatus.toInt64 then
    let buf := List.replicate (4 + 64) 0
    (serializeInt false (64#(8 * 4)) buf buf.length).bind fun length =>
      (bat.status.serialize (length.2.drop 4) buf.length).map fun status =>
        ⟨0, none, length.2.take 4 ++ status.2⟩
  else if header.func = RPCFunctionID.setCurrent.toInt64 then
    let call : SetCurrentCall := ⟨header.currentMA, false, cTimeToTimepoint header.whenToSet,
      cTimeToTimepoint header.untilWhen⟩
    let r := bat.scheduleSetCurrent call
    let buf := List.replicate (4 + 4) 0
    -- the length is a `size_t` and fills the buffer
    (serializeInt false (4#(8 * 8)) buf buf.length).bind fun length =>
      (serializeInt (n := 4) false r.toBitVec (length.2.drop 4) buf.length).map fun reply =>
        ⟨0, some (name, call), length.2.take 4 ++ reply.2⟩
  else some (dropped (-4))

def connectionHandler (directory : List UInt8 → Option RemoteBattery) (incoming : List UInt8) :
    Option Handled :=
  let lenBuf := read 4 incoming
  if lenBuf.1.length ≠ 4 then some (dropped (-5))
  else (deserializeInt 4 lenBuf.1).bind fun dataLen =>
    if dataLen = 0 then some (dropped (-2))
    else
      let dataBuf := (read dataLen.toInt lenBuf.2).1
      (RPCRequestHeader.deserialize (newRPCHeader .refresh []) dataBuf dataBuf.length).bind
        fun decoded =>
          if decoded.1 ≠ 64 then some (dropped (-3))
          else
            let name := (dataBuf.take (dataBuf.length - 1)).drop decoded.1
            match directory name with
            | none => some (dropped (-1))
            | some bat => dispatch bat name decoded.2

theorem cTimeToTimepoint_timepointToCTime (tp : Timepoint) :
    cTimeToTimepoint (timepointToCTime tp) = tp.ms := by
  have bound := tp.inRange
  have secs : (tp.ms : ℤ).tdiv 1000 = tp.ms / 1000 := Int.tdiv_eq_ediv_of_nonneg (by omega)
  rw [cTimeToTimepoint, timepointToCTime]
  dsimp only
  rw [secs, Int64.toInt_ofInt_of_le (by omega) (by omega),
    Int64.toInt_ofInt_of_le (by omega) (by omega)]
  omega

theorem pokeAll_eq {buffer bytes : List UInt8} {i : ℕ} (room : i + bytes.length ≤ buffer.length) :
    pokeAll buffer i bytes = some (buffer.take i ++ bytes ++ buffer.drop (i + bytes.length)) := by
  induction bytes generalizing buffer i with
  | nil => simp [pokeAll]
  | cons byte bytes ih =>
      rw [List.length_cons] at room
      have inside : i < buffer.length := by omega
      have front : (buffer.set i byte).take (i + 1) = buffer.take i ++ [byte] := by
        rw [List.take_succ_eq_append_getElem (by rwa [List.length_set]), List.take_set_of_le le_rfl,
          List.getElem_set_self]
      have back : (buffer.set i byte).drop (i + 1 + bytes.length) =
          buffer.drop (i + 1 + bytes.length) := List.drop_set_of_lt (by omega)
      have next : i + 1 + bytes.length = i + (bytes.length + 1) := by omega
      rw [pokeAll, poke, if_pos inside, Option.bind_some, ih (by rw [List.length_set]; omega),
        front,
        back, List.length_cons, next, List.append_assoc (buffer.take i), List.singleton_append]

def requestBody (remoteName : List UInt8) (header : RPCRequestHeader) : List UInt8 :=
  wordBytes (RPCRequestHeader.layout header).toList ++ (remoteName ++ [0])

theorem headerBytes_length (header : RPCRequestHeader) :
    (wordBytes (RPCRequestHeader.layout header).toList).length = 64 := by
  rw [wordBytes_length, List.Vector.toList_length]

theorem requestBody_length (remoteName : List UInt8) (header : RPCRequestHeader) :
    (requestBody remoteName header).length = 65 + remoteName.length := by
  rw [requestBody, List.length_append, headerBytes_length, List.length_append,
    List.length_singleton]
  omega

theorem serialize_eq (header : RPCRequestHeader) (buffer : List UInt8) {bufferSize : ℕ}
    (enough : 64 ≤ bufferSize) (room : 64 ≤ buffer.length) :
    header.serialize buffer bufferSize =
      some (64, wordBytes (RPCRequestHeader.layout header).toList ++ buffer.drop 64) :=
  serializeStruct_eq RPCRequestHeader.layout true header buffer enough room

theorem requestBytes_eq (remoteName : List UInt8) (header : RPCRequestHeader) :
    requestBytes remoteName header =
      some (4, toBytes 4 (BitVec.ofNat (8 * 4) (64 + remoteName.length + 1)).toNat ++
        requestBody remoteName header) := by
  have length := headerBytes_length header
  have buffer (k : ℕ) : (List.replicate (4 + 64 + remoteName.length + 1) (0 : UInt8)).drop k =
      List.replicate (4 + 64 + remoteName.length + 1 - k) 0 := List.drop_replicate ..
  have front : (wordBytes (RPCRequestHeader.layout header).toList ++
      List.replicate (4 + 64 + remoteName.length + 1 - (4 + 64)) 0).take 64 =
      wordBytes (RPCRequestHeader.layout header).toList := List.take_left' length
  have full : (wordBytes (RPCRequestHeader.layout header).toList ++
      List.replicate (4 + 64 + remoteName.length + 1 - (4 + 64)) (0 : UInt8)).drop
        (64 + (remoteName ++ [0]).length) = [] := by
    apply List.drop_eq_nil_of_le
    simp only [List.length_append, length, List.length_replicate, List.length_singleton]
    omega
  have first : (List.replicate (4 + 64 + remoteName.length + 1) (0 : UInt8)).take 4 =
      List.replicate 4 0 := by
    rw [List.take_replicate, Nat.min_eq_left (by omega)]
  rw [requestBytes]
  dsimp only
  rw [serialize_eq header _ (by rw [List.length_replicate]; omega)
    (by rw [buffer, List.length_replicate]; omega), Option.bind_some, List.drop_drop, buffer,
    pokeAll_eq (by simp only [List.length_append, length, List.length_replicate,
      List.length_singleton]; omega), Option.bind_some, front, full, List.append_nil,
    first, serializeInt_eq (n := 4) _ _ _ le_rfl
      (by rw [List.length_append, List.length_replicate]; omega),
    List.drop_left' (List.length_replicate ..)]
  rfl

theorem scheduleSetCurrent_eq (serve : List UInt8 → List UInt8) (remoteName : List UInt8)
    (targetCurrentMA : Int64) (isGreaterThanTarget : Bool) (whenToSet untilWhen : Timepoint) :
    scheduleSetCurrent serve remoteName targetCurrentMA isGreaterThanTarget whenToSet untilWhen =
      some 1 := by
  have received (request : List UInt8) : ∃ data, sendRecv serve request = some data := by
    unfold sendRecv
    dsimp only
    split_ifs with whole
    · exact ⟨_, rfl⟩
    · have four : 4 ≤ (read 4 (serve request)).1.length := (not_not.mp whole).ge
      exact ⟨_, by rw [deserializeInt_eq _ four, Option.map_some]⟩
  rw [scheduleSetCurrent, requestBytes_eq, Option.bind_some, if_neg (by simp)]
  obtain ⟨data, result⟩ := received (toBytes 4
    (BitVec.ofNat (8 * 4) (64 + remoteName.length + 1)).toNat ++ requestBody remoteName
      (setCurrentHeader remoteName targetCurrentMA isGreaterThanTarget whenToSet untilWhen))
  rw [result, Option.map_some]

section Handler

variable {directory : List UInt8 → Option RemoteBattery} {bat : RemoteBattery}
  {remoteName name : List UInt8} {header : RPCRequestHeader} {handled : Handled}
  {call : SetCurrentCall}

theorem dispatch_scheduled (result : dispatch bat remoteName header = some handled)
    (scheduled : handled.scheduled = some (name, call)) :
    name = remoteName ∧ call.isGreaterThanTarget = false := by
  unfold dispatch at result
  dsimp only at result
  split_ifs at result
  · simp only [Option.bind_eq_some_iff, Option.map_eq_some_iff] at result
    obtain ⟨length, -, status, -, rfl⟩ := result
    simp at scheduled
  · simp only [Option.bind_eq_some_iff, Option.map_eq_some_iff] at result
    obtain ⟨length, -, reply, -, rfl⟩ := result
    simp only [Option.some.injEq, Prod.mk.injEq] at scheduled
    exact ⟨scheduled.1.symm, by rw [← scheduled.2]⟩
  · cases result
    simp [dropped] at scheduled

/-- The flag of the request is not looked at. -/
theorem dispatch_setCurrent (bat : RemoteBattery) (remoteName : List UInt8)
    (func : header.func = RPCFunctionID.setCurrent.toInt64) : ∃ handled,
    dispatch bat remoteName header = some handled ∧
      handled.scheduled = some (remoteName, ⟨header.currentMA, false,
        cTimeToTimepoint header.whenToSet, cTimeToTimepoint header.untilWhen⟩) := by
  have other : ¬ (header.func = RPCFunctionID.refresh.toInt64 ∨
      header.func = RPCFunctionID.getStatus.toInt64) := by
    rw [func]
    decide
  have length := serializeInt_eq (n := 8) false (4#(8 * 8)) (List.replicate (4 + 4) 0)
    (show 8 ≤ (List.replicate (4 + 4) (0 : UInt8)).length by simp) (by simp)
  have reply (r : BitVec (8 * 4)) := serializeInt_eq (n := 4) false r
    ((toBytes 8 (4#(8 * 8)).toNat ++ (List.replicate (4 + 4) 0).drop 8).drop 4)
    (show 4 ≤ (List.replicate (4 + 4) (0 : UInt8)).length by simp) (by simp)
  rw [dispatch, if_neg other, if_pos func]
  dsimp only
  rw [length, Option.bind_some, reply]
  exact ⟨_, rfl, rfl⟩

theorem read_length_lt (d : BitVec (8 * 4)) (stream : List UInt8) :
    (read d.toInt stream).1.length < 2 ^ 31 := by
  have bound := d.toInt_lt
  rw [read]
  split_ifs
  · simp
  · rw [List.length_take]
    omega

/-- The name of the battery that is called comes out of one read. -/
theorem connectionHandler_scheduled {incoming : List UInt8}
    (result : connectionHandler directory incoming = some handled)
    (scheduled : handled.scheduled = some (name, call)) :
    name.length + 65 < 2 ^ 31 ∧ call.isGreaterThanTarget = false := by
  unfold connectionHandler at result
  dsimp only at result
  split_ifs at result with whole
  · cases result
    simp [dropped] at scheduled
  simp only [Option.bind_eq_some_iff] at result
  obtain ⟨dataLen, -, result⟩ := result
  have bound := read_length_lt dataLen (read 4 incoming).2
  split_ifs at result
  · cases result
    simp [dropped] at scheduled
  simp only [Option.bind_eq_some_iff] at result
  obtain ⟨decoded, -, result⟩ := result
  split_ifs at result with header
  · cases result
    simp [dropped] at scheduled
  rw [not_not] at header
  cases found : directory (((read dataLen.toInt (read 4 incoming).2).1.take
      ((read dataLen.toInt (read 4 incoming).2).1.length - 1)).drop decoded.1) with
  | none =>
      rw [found] at result
      cases result
      simp [dropped] at scheduled
  | some bat =>
      rw [found] at result
      obtain ⟨same, flag⟩ := dispatch_scheduled result scheduled
      refine ⟨?_, flag⟩
      rw [same, header, List.length_drop, List.length_take]
      omega

theorem read_append {taken : List UInt8} {numBytes : ℤ} (rest : List UInt8)
    (h : numBytes = taken.length) :
    read numBytes (taken ++ rest) = (taken, rest) := by
  subst h
  rw [read]
  split_ifs with empty
  · have nil : taken = [] := List.length_eq_zero_iff.mp (by omega)
    rw [nil, List.nil_append]
  · rw [Int.toNat_natCast, List.take_left, List.drop_left]

theorem connectionHandler_request (registered : directory remoteName = some bat)
    (short : remoteName.length + 65 < 2 ^ 31) :
    connectionHandler directory
      (toBytes 4 (BitVec.ofNat (8 * 4) (64 + remoteName.length + 1)).toNat ++
        requestBody remoteName header) = dispatch bat remoteName header := by
  have length := requestBody_length remoteName header
  have value : (BitVec.ofNat (8 * 4) (64 + remoteName.length + 1)).toNat =
      65 + remoteName.length := by
    rw [BitVec.toNat_ofNat]
    omega
  have signed : (BitVec.ofNat (8 * 4) (64 + remoteName.length + 1)).toInt =
      (requestBody remoteName header).length := by
    rw [BitVec.toInt_eq_toNat_cond, value, length]
    split_ifs <;> omega
  have nonzero : BitVec.ofNat (8 * 4) (64 + remoteName.length + 1) ≠ 0 := by
    intro zero
    rw [zero] at value
    simp at value
    omega
  have dataLen := deserializeInt_toBytes (BitVec.ofNat (8 * 4) (64 + remoteName.length + 1)) []
  have whole := read_append [] signed
  rw [List.append_nil] at dataLen whole
  have decoded (old : RPCRequestHeader) : old.deserialize (requestBody remoteName header)
      (requestBody remoteName header).length = some (64, header) := by
    have words := deserializeWords_wordBytes (RPCRequestHeader.layout header) (remoteName ++ [0])
    rw [RPCRequestHeader.deserialize, deserializeStruct_eq _ _ _ (by rw [length]; omega),
      requestBody, words, Option.map_some, Equiv.symm_apply_apply]
  have name : ((requestBody remoteName header).take
      ((requestBody remoteName header).length - 1)).drop 64 = remoteName := by
    rw [← List.dropLast_eq_take, requestBody, ← List.append_assoc, List.dropLast_concat,
      List.drop_left' (headerBytes_length header)]
  rw [connectionHandler, read_append _ (by rw [toBytes_length]; rfl)]
  dsimp only
  rw [if_neg (by rw [toBytes_length]; simp), dataLen, Option.bind_some, if_neg nonzero, whole]
  dsimp only
  rw [decoded, Option.bind_some, if_neg (by simp)]
  dsimp only
  rw [name, registered]

end Handler

section Fidelity

def serve (directory : List UInt8 → Option RemoteBattery) (request : List UInt8) : List UInt8 :=
  ((connectionHandler directory request).map Handled.reply).getD []

/-- The remote call does on the battery of the name what the local one was asked for, and returns
what it returned there. -/
structure Faithful (directory : List UInt8 → Option RemoteBattery) (bat : RemoteBattery)
    (remoteName : List UInt8) (targetCurrentMA : Int64) (isGreaterThanTarget : Bool)
    (whenToSet untilWhen : Timepoint) : Prop where
  calls : ∃ request handled,
    requestBytes remoteName (setCurrentHeader remoteName targetCurrentMA isGreaterThanTarget
      whenToSet untilWhen) = some (4, request) ∧
    connectionHandler directory request = some handled ∧
    handled.scheduled = some (remoteName,
      ⟨targetCurrentMA, isGreaterThanTarget, whenToSet.ms, untilWhen.ms⟩)
  returns : scheduleSetCurrent (serve directory) remoteName targetCurrentMA isGreaterThanTarget
      whenToSet untilWhen =
    some (bat.scheduleSetCurrent
      ⟨targetCurrentMA, isGreaterThanTarget, whenToSet.ms, untilWhen.ms⟩)

/-- The current and the times arrive. The flag is lost, the answer is taken to be 1, and the
length of the request has to be an `int`. -/
theorem faithful_iff (directory : List UInt8 → Option RemoteBattery) (bat : RemoteBattery)
    (remoteName : List UInt8) (targetCurrentMA : Int64) (isGreaterThanTarget : Bool)
    (whenToSet untilWhen : Timepoint) (registered : directory remoteName = some bat) :
    Faithful directory bat remoteName targetCurrentMA isGreaterThanTarget whenToSet untilWhen ↔
      isGreaterThanTarget = false ∧
      bat.scheduleSetCurrent
        ⟨targetCurrentMA, isGreaterThanTarget, whenToSet.ms, untilWhen.ms⟩ = 1 ∧
      remoteName.length + 65 < 2 ^ 31 := by
  have sent := requestBytes_eq remoteName
    (setCurrentHeader remoteName targetCurrentMA isGreaterThanTarget whenToSet untilWhen)
  have returned := scheduleSetCurrent_eq (serve directory) remoteName targetCurrentMA
    isGreaterThanTarget whenToSet untilWhen
  have func : (setCurrentHeader remoteName targetCurrentMA isGreaterThanTarget whenToSet
    untilWhen).func = RPCFunctionID.setCurrent.toInt64 := rfl
  obtain ⟨handled, dispatched, scheduled⟩ :=
    dispatch_setCurrent bat remoteName func
  constructor
  · intro faithful
    obtain ⟨request, handled', -, result, scheduled'⟩ := faithful.calls
    obtain ⟨short, flag⟩ := connectionHandler_scheduled result scheduled'
    have answer := faithful.returns
    rw [returned, Option.some_inj] at answer
    exact ⟨flag, answer.symm, short⟩
  · rintro ⟨flag, answer, short⟩
    refine ⟨⟨_, handled, sent, ?_, ?_⟩, by rw [returned, answer]⟩
    · rw [connectionHandler_request registered short, dispatched]
    · rw [scheduled, flag]
      have times := cTimeToTimepoint_timepointToCTime
      exact congrArg some (congrArg (Prod.mk remoteName)
        (congrArg₂ (SetCurrentCall.mk targetCurrentMA false) (times whenToSet) (times untilWhen)))

def oneBattery (name : List UInt8) : Option RemoteBattery :=
  if name = [0x62] then some ⟨⟨0, 0, 0, 0, 0, 0, ⟨0, 0⟩⟩, fun _ => 1⟩ else none

theorem faithful_iff_oneBattery :
    Faithful oneBattery ⟨⟨0, 0, 0, 0, 0, 0, ⟨0, 0⟩⟩, fun _ => 1⟩ [0x62] (-500) false
        ⟨1500, by decide⟩ ⟨3000, by decide⟩ ↔
      false = false ∧ (1 : UInt32) = 1 ∧ [(0x62 : UInt8)].length + 65 < 2 ^ 31 :=
  faithful_iff oneBattery _ [0x62] (-500) false ⟨1500, by decide⟩ ⟨3000, by decide⟩ rfl

/-- A call with the flag set arrives without it. -/
theorem not_faithful_flag :
    ¬ Faithful oneBattery ⟨⟨0, 0, 0, 0, 0, 0, ⟨0, 0⟩⟩, fun _ => 1⟩ [0x62] 500 true
      ⟨1500, by decide⟩ ⟨3000, by decide⟩ := by
  intro faithful
  obtain ⟨request, handled, -, result, scheduled⟩ := faithful.calls
  have flag := (connectionHandler_scheduled result scheduled).2
  exact absurd flag (by decide)

end Fidelity

end Wire

end BatteryOS.V2
