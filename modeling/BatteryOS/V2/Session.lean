import BatteryOS.V2.NetworkBattery

/-! A connection to a remote server, over a whole session. The server answers requests one after the
other; a read waits until all its bytes have come. What is left of a request or a reply would be
taken for the beginning of the next. The link takes every write and delivers all bytes in order. -/

namespace BatteryOS.V2

open ByteOrder

namespace Wire

structure RemoteNode (σ : Type) where
  getStatus : σ → BatteryStatus × σ
  scheduleSetCurrent : SetCurrentCall → σ → UInt32 × σ

/-- `TCPConnection::read`; `none` while bytes are missing. -/
def readAll (numBytes : ℤ) (stream : List UInt8) : Option (List UInt8 × List UInt8) :=
  if stream.length < numBytes then none else some (read numBytes stream)

/-- What the server does next: it waits for bytes, it has closed the connection, it works on data
that is not there, or it sends a reply. -/
inductive Served (σ : Type)
  | waits
  | closed
  | undefined
  | replied (reply : List UInt8) (state : σ) (rest : List UInt8)

section Server

variable {σ : Type}

def statusReply (status : BatteryStatus) : Option (List UInt8) :=
  let buf := List.replicate (4 + 64) 0
  (serializeInt false (64#(8 * 4)) buf buf.length).bind fun length =>
    (status.serialize (length.2.drop 4) buf.length).map fun status => length.2.take 4 ++ status.2

/-- The length is a `size_t`, whose last four bytes the value is written over. -/
def setCurrentReply (r : UInt32) : Option (List UInt8) :=
  let buf := List.replicate (4 + 4) 0
  (serializeInt false (4#(8 * 8)) buf buf.length).bind fun length =>
    (serializeInt (n := 4) false r.toBitVec (length.2.drop 4) buf.length).map fun reply =>
      length.2.take 4 ++ reply.2

/-- The switch over the functions. An unknown one gets no reply. -/
def serveFunction (bat : RemoteNode σ) (header : RPCRequestHeader) (state : σ) :
    Option (List UInt8 × σ) :=
  if header.func = RPCFunctionID.refresh.toInt64 ∨
      header.func = RPCFunctionID.getStatus.toInt64 then
    let (status, state) := bat.getStatus state
    (statusReply status).map fun reply => (reply, state)
  else if header.func = RPCFunctionID.setCurrent.toInt64 then
    let (r, state) := bat.scheduleSetCurrent ⟨header.currentMA, false,
      cTimeToTimepoint header.whenToSet, cTimeToTimepoint header.untilWhen⟩ state
    (setCurrentReply r).map fun reply => (reply, state)
  else some ([], state)

/-- The loop of `simple_remote_connection_server`, once round. After its warnings it goes on with a
header that has not been read, or with a null pointer. -/
def serveNext (directory : List UInt8 → Option (RemoteNode σ)) (state : σ)
    (incoming : List UInt8) : Served σ :=
  match readAll 4 incoming with
  | none => .waits
  | some (lenBuf, incoming) =>
    match deserializeInt 4 lenBuf with
    | none => .undefined
    | some dataLen =>
      if dataLen = 0 then .closed
      else match readAll dataLen.toInt incoming with
        | none => .waits
        | some (dataBuf, incoming) =>
          match RPCRequestHeader.deserialize (newRPCHeader .refresh []) dataBuf dataBuf.length with
          | none => .undefined
          | some (headerBytes, header) =>
            if headerBytes ≠ 64 then .undefined
            else match directory ((dataBuf.take (dataBuf.length - 1)).drop headerBytes) with
              | none => .undefined
              | some bat => match serveFunction bat header state with
                | none => .undefined
                | some (reply, state) => .replied reply state incoming

end Server

inductive NetworkCall
  | refresh
  | scheduleSetCurrent (targetCurrentMA : Int64) (isGreaterThanTarget : Bool)
      (whenToSet untilWhen : Timepoint)

inductive Returned
  | status (status : BatteryStatus)
  | value (value : UInt32)
deriving DecidableEq

structure Link (σ : Type) where
  remote : σ
  toServer : List UInt8
  toClient : List UInt8
  status : BatteryStatus

section Client

variable {σ : Type} (directory : List UInt8 → Option (RemoteNode σ)) (remoteName : List UInt8)

def NetworkCall.header (remoteName : List UInt8) : NetworkCall → RPCRequestHeader
  | .refresh => newRPCHeader .getStatus remoteName
  | .scheduleSetCurrent targetCurrentMA isGreaterThanTarget whenToSet untilWhen =>
    setCurrentHeader remoteName targetCurrentMA isGreaterThanTarget whenToSet untilWhen

/-- `send_recv`, with what the server does on the request. `none` where no reply comes. -/
def exchange (request : List UInt8) (link : Link σ) : Option (List UInt8 × Link σ) :=
  match serveNext directory link.remote (link.toServer ++ request) with
  | .waits | .closed | .undefined => none
  | .replied reply remote rest => do
    let (data, toClient) ← readAll 4 (link.toClient ++ reply)
    let dataLength ← deserializeInt 4 data
    let (data, toClient) ← readAll dataLength.toInt toClient
    return (data, { link with remote := remote, toServer := rest, toClient := toClient })

def networkCall (link : Link σ) (call : NetworkCall) : Option (Returned × Link σ) := do
  let (bytesUsed, request) ← requestBytes remoteName (call.header remoteName)
  if bytesUsed ≠ 4 then
    match call with
    | .refresh => return (.status link.status, link)
    | .scheduleSetCurrent _ _ _ _ => return (.value 0, link)
  else
    let (data, link) ← exchange directory request link
    match call with
    | .refresh =>
      let (_, status) ← link.status.deserialize data data.length
      return (.status status, { link with status := status })
    | .scheduleSetCurrent _ _ _ _ => return (.value 1, link)

end Client

def session {α ρ τ : Type} (call : τ → α → Option (ρ × τ)) : τ → List α → Option (List ρ × τ)
  | t, [] => some ([], t)
  | t, next :: rest => do
    let (returned, t) ← call t next
    let (others, t) ← session call t rest
    return (returned :: others, t)

section Session

variable {σ : Type} {directory : List UInt8 → Option (RemoteNode σ)} {bat : RemoteNode σ}
  {remoteName : List UInt8}

/-- The call on the battery itself. The flag does not arrive, and what the battery answers does not
come back. -/
def direct (bat : RemoteNode σ) (state : σ) : NetworkCall → Option (Returned × σ)
  | .refresh =>
    let (status, state) := bat.getStatus state
    some (.status status, state)
  | .scheduleSetCurrent targetCurrentMA _ whenToSet untilWhen =>
    let (_, state) :=
      bat.scheduleSetCurrent ⟨targetCurrentMA, false, whenToSet.ms, untilWhen.ms⟩ state
    some (.value 1, state)

def Link.idle (state : σ) (status : BatteryStatus) : Link σ := ⟨state, [], [], status⟩

theorem readAll_append {taken : List UInt8} {numBytes : ℤ} (rest : List UInt8)
    (h : numBytes = taken.length) : readAll numBytes (taken ++ rest) = some (taken, rest) := by
  rw [readAll, if_neg (by rw [List.length_append]; omega), read_append rest h]

theorem readAll_eq {taken : List UInt8} {numBytes : ℤ} (h : numBytes = taken.length) :
    readAll numBytes taken = some (taken, []) := by
  simpa using readAll_append [] h

theorem statusReply_eq (status : BatteryStatus) : statusReply status =
    some (toBytes 4 64 ++ wordBytes (BatteryStatus.layout status).toList) := by
  have length := serializeInt_eq (n := 4) false (64#(8 * 4)) (List.replicate (4 + 64) 0)
    (show 4 ≤ (List.replicate (4 + 64) (0 : UInt8)).length by simp) (by simp)
  have front : (toBytes 4 64 ++ List.replicate 64 (0 : UInt8)).take 4 = toBytes 4 64 :=
    List.take_left' (toBytes_length ..)
  have back : (toBytes 4 64 ++ List.replicate 64 (0 : UInt8)).drop 4 = List.replicate 64 0 :=
    List.drop_left' (toBytes_length ..)
  have words := serializeStruct_eq BatteryStatus.layout true status (List.replicate 64 0)
    (show 8 * 8 ≤ (List.replicate (4 + 64) (0 : UInt8)).length by simp) (by simp)
  rw [show (64#(8 * 4)).toNat = 64 from rfl,
    show (List.replicate (4 + 64) (0 : UInt8)).drop 4 = List.replicate 64 0 from rfl] at length
  rw [statusReply, length, Option.bind_some, back, front, BatteryStatus.serialize, words,
    Option.map_some, List.drop_replicate]
  simp

theorem setCurrentReply_eq (r : UInt32) :
    setCurrentReply r = some (toBytes 4 4 ++ toBytes 4 r.toBitVec.toNat) := by
  have length := serializeInt_eq (n := 8) false (4#(8 * 8)) (List.replicate (4 + 4) 0)
    (show 8 ≤ (List.replicate (4 + 4) (0 : UInt8)).length by simp) (by simp)
  have reply := serializeInt_eq (n := 4) false r.toBitVec
    ((toBytes 8 (4#(8 * 8)).toNat ++ (List.replicate (4 + 4) 0).drop 8).drop 4)
    (show 4 ≤ (List.replicate (4 + 4) (0 : UInt8)).length by simp) (by simp)
  rw [setCurrentReply, length, Option.bind_some, reply, Option.map_some]
  rfl

theorem serveNext_request (registered : directory remoteName = some bat)
    (short : remoteName.length + 65 < 2 ^ 31) (state : σ) (header : RPCRequestHeader)
    (rest : List UInt8) :
    serveNext directory state (toBytes 4 (BitVec.ofNat (8 * 4) (64 + remoteName.length + 1)).toNat ++
        requestBody remoteName header ++ rest) =
      match serveFunction bat header state with
      | none => .undefined
      | some (reply, state) => .replied reply state rest := by
  have length := requestBody_length remoteName header
  have value : (BitVec.ofNat (8 * 4) (64 + remoteName.length + 1)).toNat =
      65 + remoteName.length := by
    rw [BitVec.toNat_ofNat]
    omega
  have signed : (BitVec.ofNat (8 * 4) (64 + remoteName.length + 1)).toInt =
      (requestBody remoteName header).length := by
    rw [BitVec.toInt_eq_toNat_cond, value, length]
    split_ifs <;> omega
  have nonzero : BitVec.ofNat (8 * 4) (64 + remoteName.length + 1) ≠ 0 := by
    intro zero
    rw [zero] at value
    simp at value
    omega
  have dataLen := deserializeInt_toBytes (BitVec.ofNat (8 * 4) (64 + remoteName.length + 1)) []
  rw [List.append_nil] at dataLen
  have decoded (old : RPCRequestHeader) : old.deserialize (requestBody remoteName header)
      (requestBody remoteName header).length = some (64, header) := by
    have words := deserializeWords_wordBytes (RPCRequestHeader.layout header) (remoteName ++ [0])
    rw [RPCRequestHeader.deserialize, deserializeStruct_eq _ _ _ (by rw [length]; omega),
      requestBody, words, Option.map_some, Equiv.symm_apply_apply]
  have name : ((requestBody remoteName header).take
      ((requestBody remoteName header).length - 1)).drop 64 = remoteName := by
    rw [← List.dropLast_eq_take, requestBody, ← List.append_assoc, List.dropLast_concat,
      List.drop_left' (headerBytes_length header)]
  have first := @readAll_append
    (toBytes 4 (BitVec.ofNat (8 * 4) (64 + remoteName.length + 1)).toNat) 4
    (requestBody remoteName header ++ rest) (by rw [toBytes_length]; rfl)
  rw [← List.append_assoc] at first
  simp only [serveNext, first, dataLen, nonzero, if_false, readAll_append rest signed, decoded,
    name, registered, ne_eq, not_true]

theorem exchange_of_reply {request payload : List UInt8} {state state' : σ} {n : BitVec (8 * 4)}
    (status : BatteryStatus) (whole : n.toInt = payload.length)
    (served : serveNext directory state request = .replied (toBytes 4 n.toNat ++ payload) state' []) :
    exchange directory request (Link.idle state status) =
      some (payload, Link.idle state' status) := by
  have first := @readAll_append (toBytes 4 n.toNat) 4 payload (by rw [toBytes_length]; rfl)
  have length := deserializeInt_toBytes n []
  rw [List.append_nil] at length
  simp only [exchange, Link.idle, List.nil_append, served, first, length, readAll_eq whole,
    Option.bind_eq_bind, Option.bind_some, Option.pure_def]

theorem networkCall_eq (registered : directory remoteName = some bat)
    (short : remoteName.length + 65 < 2 ^ 31) (state : σ) (status : BatteryStatus)
    (call : NetworkCall) :
    ∃ returned state' status', direct bat state call = some (returned, state') ∧
      networkCall directory remoteName (Link.idle state status) call =
        some (returned, Link.idle state' status') := by
  have request := requestBytes_eq remoteName (call.header remoteName)
  have served := serveNext_request registered short state (call.header remoteName) []
  rw [List.append_nil] at served
  cases call with
  | refresh =>
      obtain ⟨read, state', asked⟩ : ∃ read state', bat.getStatus state = (read, state') :=
        ⟨_, _, rfl⟩
      have function : serveFunction bat (newRPCHeader .getStatus remoteName) state =
          some (toBytes 4 64 ++ wordBytes (BatteryStatus.layout read).toList, state') := by
        rw [serveFunction, if_pos (.inr rfl), asked]
        simp only [statusReply_eq, Option.map_some]
      have length : (wordBytes (BatteryStatus.layout read).toList).length = 64 := by
        rw [wordBytes_length, List.Vector.toList_length]
      have decoded (old : BatteryStatus) :
          old.deserialize (wordBytes (BatteryStatus.layout read).toList) 64 = some (64, read) := by
        have words := deserializeWords_wordBytes (BatteryStatus.layout read) []
        rw [List.append_nil] at words
        rw [BatteryStatus.deserialize, deserializeStruct_eq _ _ _ le_rfl, words, Option.map_some,
          Equiv.symm_apply_apply]
      simp only [NetworkCall.header] at request served
      rw [function] at served
      have exchanged := exchange_of_reply (n := 64#(8 * 4)) status
        (by rw [length]; rfl) served
      refine ⟨.status read, state', read, by simp only [direct, asked], ?_⟩
      simp only [networkCall, NetworkCall.header, request, exchanged, length, decoded,
        Option.bind_eq_bind, Option.bind_some, ne_eq, not_true, if_false, Option.pure_def]
      rfl
  | scheduleSetCurrent targetCurrentMA isGreaterThanTarget whenToSet untilWhen =>
      have times := cTimeToTimepoint_timepointToCTime
      obtain ⟨r, state', asked⟩ : ∃ r state', bat.scheduleSetCurrent
          ⟨targetCurrentMA, false, whenToSet.ms, untilWhen.ms⟩ state = (r, state') := ⟨_, _, rfl⟩
      have function : serveFunction bat (setCurrentHeader remoteName targetCurrentMA
          isGreaterThanTarget whenToSet untilWhen) state =
          some (toBytes 4 4 ++ toBytes 4 r.toBitVec.toNat, state') := by
        have func : (setCurrentHeader remoteName targetCurrentMA isGreaterThanTarget whenToSet
            untilWhen).func = RPCFunctionID.setCurrent.toInt64 := rfl
        rw [serveFunction, func, if_neg (by decide), if_pos rfl]
        simp only [setCurrentHeader, times, asked, setCurrentReply_eq, Option.map_some]
      simp only [NetworkCall.header] at request served
      rw [function] at served
      have exchanged := exchange_of_reply (n := 4#(8 * 4)) status
        (by rw [toBytes_length]; rfl) served
      refine ⟨.value 1, state', status, by simp only [direct, asked], ?_⟩
      simp only [networkCall, NetworkCall.header, request, exchanged, Option.bind_eq_bind,
        Option.bind_some, ne_eq, not_true, if_false, Option.pure_def]

/-- However a battery behind a connection is used, every refresh returns what the battery on the
other side returns to the same calls, every request arrives there, and neither stream ever holds
what is left of an earlier message. -/
theorem networkSession_eq (registered : directory remoteName = some bat)
    (short : remoteName.length + 65 < 2 ^ 31) (state : σ) (status : BatteryStatus)
    (calls : List NetworkCall) :
    ∃ returned state' status', session (direct bat) state calls = some (returned, state') ∧
      session (networkCall directory remoteName) (Link.idle state status) calls =
        some (returned, Link.idle state' status') := by
  induction calls generalizing state status with
  | nil => exact ⟨[], state, status, rfl, rfl⟩
  | cons call rest ih =>
      obtain ⟨value, state₁, status₁, directly, remotely⟩ :=
        networkCall_eq registered short state status call
      obtain ⟨values, state₂, status₂, others, others'⟩ := ih state₁ status₁
      refine ⟨value :: values, state₂, status₂, ?_, ?_⟩
      · simp only [session, directly, others, Option.bind_eq_bind, Option.bind_some,
          Option.pure_def]
      · simp only [session, remotely, others', Option.bind_eq_bind, Option.bind_some,
          Option.pure_def]

def tally : RemoteNode ℕ where
  getStatus n := (⟨12000, .ofNat n, 5000, 10000, 1000, 2000, ⟨0, 0⟩⟩, n)
  scheduleSetCurrent _ n := (1, n + 1)

theorem networkSession_eq_tally :
    ([0x62] : List UInt8).length + 65 < 2 ^ 31 ∧
      ∃ returned state' status',
        session (direct tally) 0
            [.refresh, .scheduleSetCurrent 500 true ⟨7100, by decide⟩ ⟨9999, by decide⟩, .refresh] =
          some (returned, state') ∧
        session (networkCall (fun name => if name = [0x62] then some tally else none) [0x62])
            (Link.idle 0 (tally.getStatus 9).1)
            [.refresh, .scheduleSetCurrent 500 true ⟨7100, by decide⟩ ⟨9999, by decide⟩, .refresh] =
          some (returned, Link.idle state' status') :=
  ⟨by decide, networkSession_eq (if_pos rfl) (by decide) 0 (tally.getStatus 9).1 _⟩

end Session

end Wire

end BatteryOS.V2
