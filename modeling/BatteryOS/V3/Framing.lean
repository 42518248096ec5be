import BatteryOS.Library.ByteOrder
import Mathlib.Algebra.Ring.Nat
import Mathlib.Data.Vector.Basic

/-! Messages over a byte stream: `read_exact` and `write_exact` against whatever the kernel
answers, and the connection's frames of a four byte length in network order and a body. Protobuf
is a parameter; the two ends may run on hosts of different byte order. -/

namespace BatteryOS.V3

/-- What the kernel answers to one call of `write`: an error number, or how many of the bytes it
takes at most. -/
inductive WriteResult where
  | error (errno : Nat)
  | accepted (count : Nat)
  deriving DecidableEq, Repr

/-- What has arrived for calls of `read`: an error number, or a chunk of bytes. A call that asks
for less than the chunk leaves the rest of it to the next. -/
inductive ReadResult where
  | error (errno : Nat)
  | bytes (data : List UInt8)
  deriving DecidableEq, Repr

def eagain : Nat := 11

namespace util

/-- The loop of `write_exact` from `bytesWritten` on; `none` while the kernel's answers do not let
it end. The stream already holds `wire`. -/
def writeExact (buffer : List UInt8) (numBytes bytesWritten : Nat) (wire : List UInt8) :
    List WriteResult → Option (Int × List UInt8 × List WriteResult)
  | [] => if bytesWritten < numBytes then none else some (bytesWritten, wire, [])
  | result :: results =>
      if bytesWritten < numBytes then
        match result with
        | .error errno =>
            if errno ≠ eagain then some (-1, wire, results)
            else writeExact buffer numBytes bytesWritten wire results
        | .accepted count =>
            let res := min count (numBytes - bytesWritten)
            writeExact buffer numBytes (bytesWritten + res)
              (wire ++ (buffer.drop bytesWritten).take res) results
      else some (bytesWritten, wire, result :: results)

def overwrite (buffer : List UInt8) (offset : Nat) (data : List UInt8) : List UInt8 :=
  buffer.take offset ++ data ++ buffer.drop (offset + data.length)

/-- The loop of `read_exact` from `bytesRead` on, with the buffer that it leaves. -/
def readExact (numBytes bytesRead : Nat) (buffer : List UInt8) :
    List ReadResult → Option (Int × List UInt8 × List ReadResult)
  | [] => if bytesRead < numBytes then none else some (bytesRead, buffer, [])
  | result :: results =>
      if bytesRead < numBytes then
        match result with
        | .error errno =>
            if errno ≠ eagain then some (-1, buffer, results)
            else readExact numBytes bytesRead buffer results
        | .bytes data =>
            let asked := numBytes - bytesRead
            if asked < data.length then
              -- the chunk ends the loop, and the kernel keeps what was not asked for
              some (numBytes, overwrite buffer bytesRead (data.take asked),
                .bytes (data.drop asked) :: results)
            else readExact numBytes (bytesRead + data.length)
              (overwrite buffer bytesRead data) results
      else some (bytesRead, buffer, result :: results)

end util

/-- What the connection uses of protobuf: `ByteSizeLong`, `SerializeToArray` into a buffer, and
`ParseFromArray`, which may fail. -/
structure MessageLite (M : Type*) where
  byteSizeLong : M → Nat
  serializeToArray : M → List UInt8 → List UInt8
  parseFromArray : List UInt8 → Option M

def MessageLite.sizeLimit : Nat := 2 ^ 31

/-- A message below protobuf's limit fills a buffer of its size, and parses back from it. -/
def MessageLite.Inverts {M : Type*} (codec : MessageLite M) : Prop :=
  ∀ message buffer, codec.byteSizeLong message < sizeLimit →
    buffer.length = codec.byteSizeLong message →
    (codec.serializeToArray message buffer).length = buffer.length ∧
      codec.parseFromArray (codec.serializeToArray message buffer) = some message

/-- The machine at one end: its byte order, and what a new array holds before it is written. -/
structure Host where
  order : ByteOrder.Endian
  newChars : (n : Nat) → List.Vector UInt8 n

namespace BatteryConnection

variable {M : Type*} (codec : MessageLite M) (host : Host)

def write (message : M) (wire : List UInt8) (results : List WriteResult) :
    Option (Int × List UInt8 × List WriteResult) :=
  let numBytes := codec.byteSizeLong message % 2 ^ 32
  let messageLen := host.order.store 4 (host.order.toNetwork 4 numBytes)
  match util.writeExact messageLen 4 0 wire results with
  | none => none
  | some (_, wire, results) =>
      let buffer := codec.serializeToArray message (host.newChars numBytes).toList
      match util.writeExact buffer numBytes 0 wire results with
      | none => none
      | some (_, wire, results) => some (1, wire, results)

/-- The loop that reads the length until `read_exact` does not fail. Each failure uses up an
answer, so `fuel` above their number is never what ends it (`readLength_fuel`). -/
def readLength : Nat → List UInt8 → List ReadResult → Option (List UInt8 × List ReadResult)
  | 0, _, _ => none
  | fuel + 1, messageLenBuf, results =>
      match util.readExact 4 0 messageLenBuf results with
      | none => none
      | some (ret, messageLenBuf, results) =>
          if ret = -1 then readLength fuel messageLenBuf results
          else some (messageLenBuf, results)

/-- The message that `read` parses, `none` where parsing fails. -/
def read (results : List ReadResult) : Option (Option M × List ReadResult) :=
  match readLength (results.length + 1) [0, 0, 0, 0] results with
  | none => none
  | some (messageLenBuf, results) =>
      let messageLen := host.order.ofNetwork 4 (host.order.load messageLenBuf)
      match util.readExact messageLen 0 (host.newChars messageLen).toList results with
      | none => none
      | some (_, buffer, results) => some (codec.parseFromArray buffer, results)

def writeAll (wire : List UInt8) (results : List WriteResult) :
    List M → Option (List UInt8 × List WriteResult)
  | [] => some (wire, results)
  | message :: messages =>
      match write codec host message wire results with
      | none => none
      | some (_, wire, results) => writeAll wire results messages

def readAll : Nat → List ReadResult → Option (List (Option M) × List ReadResult)
  | 0, results => some ([], results)
  | count + 1, results =>
      match read codec host results with
      | none => none
      | some (message, results) =>
          (readAll count results).map fun (messages, results) => (message :: messages, results)

end BatteryConnection

def WriteResult.Benign (result : WriteResult) : Prop := ∀ errno, result = .error errno → errno = eagain

def ReadResult.Benign (result : ReadResult) : Prop := ∀ errno, result = .error errno → errno = eagain

def WriteResult.acceptances (results : List WriteResult) : Nat :=
  results.countP fun result => match result with
    | .error _ => false
    | .accepted count => 0 < count

def ReadResult.delivered (results : List ReadResult) : List UInt8 :=
  results.flatMap fun result => match result with
    | .error _ => []
    | .bytes data => data

theorem ReadResult.delivered_error (errno : Nat) (results : List ReadResult) :
    ReadResult.delivered (.error errno :: results) = ReadResult.delivered results := by
  simp [ReadResult.delivered]

theorem ReadResult.delivered_bytes (data : List UInt8) (results : List ReadResult) :
    ReadResult.delivered (.bytes data :: results) = data ++ ReadResult.delivered results := by
  simp [ReadResult.delivered]

namespace util

variable {buffer wire : List UInt8} {numBytes bytesWritten bytesRead : Nat}

theorem writeExact_done (results : List WriteResult) (h : ¬ bytesWritten < numBytes) :
    writeExact buffer numBytes bytesWritten wire results =
      some ((bytesWritten : Int), wire, results) := by
  cases results <;> simp [writeExact, h]

theorem writeExact_eagain {result : WriteResult} (results : List WriteResult) (benign : result.Benign)
    {errno : Nat} (failed : result = .error errno) (h : bytesWritten < numBytes) :
    writeExact buffer numBytes bytesWritten wire (result :: results) =
      writeExact buffer numBytes bytesWritten wire results := by
  have again := benign errno failed
  subst failed
  simp [writeExact, h, again]

theorem writeExact_wire {results rest : List WriteResult} {ret : Int} {wire' : List UInt8}
    (benign : ∀ result ∈ results, result.Benign) (full : buffer.length = numBytes)
    (within : bytesWritten ≤ numBytes)
    (run : writeExact buffer numBytes bytesWritten wire results = some (ret, wire', rest)) :
    wire' = wire ++ buffer.drop bytesWritten ∧ rest <:+ results := by
  induction results generalizing bytesWritten wire with
  | nil =>
      rcases within.lt_or_eq with h | rfl
      · simp [writeExact, h] at run
      · rw [writeExact_done _ (lt_irrefl _)] at run
        obtain ⟨-, rfl, rfl⟩ : _ ∧ wire = wire' ∧ [] = rest := by simpa using run
        simp [← full]
  | cons result results ih =>
      have later := fun r hr => benign r (List.mem_cons_of_mem result hr)
      rcases within.lt_or_eq with h | rfl
      · cases result with
        | error errno =>
            rw [writeExact_eagain results (benign _ List.mem_cons_self) rfl h] at run
            obtain ⟨added, left⟩ := ih later within run
            exact ⟨added, left.trans (List.suffix_cons _ _)⟩
        | accepted count =>
            rw [writeExact, if_pos h] at run
            obtain ⟨added, left⟩ := ih later (by omega) run
            refine ⟨?_, left.trans (List.suffix_cons _ _)⟩
            rw [added, List.append_assoc, ← List.drop_drop, List.take_append_drop]
      · rw [writeExact_done _ (lt_irrefl _)] at run
        obtain ⟨-, rfl, rfl⟩ : _ ∧ wire = wire' ∧ result :: results = rest := by simpa using run
        simp [← full]

theorem writeExact_returns (buffer : List UInt8) (numBytes bytesWritten : Nat) (wire : List UInt8)
    {results : List WriteResult}
    (benign : ∀ result ∈ results, result.Benign)
    (enough : numBytes - bytesWritten ≤ WriteResult.acceptances results) :
    ∃ ret wire' rest, writeExact buffer numBytes bytesWritten wire results = some (ret, wire', rest) ∧
      WriteResult.acceptances results ≤
        WriteResult.acceptances rest + (numBytes - bytesWritten) := by
  induction results generalizing bytesWritten wire with
  | nil =>
      have h : ¬ bytesWritten < numBytes := by
        simp only [WriteResult.acceptances, List.countP_nil] at enough
        omega
      exact ⟨bytesWritten, wire, _, writeExact_done _ h, by omega⟩
  | cons result results ih =>
      have later := fun r hr => benign r (List.mem_cons_of_mem result hr)
      by_cases h : bytesWritten < numBytes
      · cases result with
        | error errno =>
            have same : WriteResult.acceptances (.error errno :: results) =
                WriteResult.acceptances results := by
              simp [WriteResult.acceptances]
            rw [writeExact_eagain results (benign _ List.mem_cons_self) rfl h]
            rw [same] at enough ⊢
            exact ih bytesWritten wire later enough
        | accepted count =>
            have step : WriteResult.acceptances (.accepted count :: results) =
                WriteResult.acceptances results + if 0 < count then 1 else 0 := by
              simp [WriteResult.acceptances, List.countP_cons]
            rw [step] at enough ⊢
            obtain ⟨ret, wire', rest, run, left⟩ := ih
              (bytesWritten + min count (numBytes - bytesWritten))
              (wire ++ (buffer.drop bytesWritten).take (min count (numBytes - bytesWritten)))
              later (by split at enough <;> omega)
            refine ⟨ret, wire', rest, ?_, by split <;> omega⟩
            rw [writeExact, if_pos h]
            exact run
      · exact ⟨bytesWritten, wire, _, writeExact_done _ h, by omega⟩

theorem readExact_done (results : List ReadResult) (h : ¬ bytesRead < numBytes) :
    readExact numBytes bytesRead buffer results = some ((bytesRead : Int), buffer, results) := by
  cases results <;> simp [readExact, h]

theorem readExact_eagain {result : ReadResult} (results : List ReadResult) (benign : result.Benign)
    {errno : Nat} (failed : result = .error errno) (h : bytesRead < numBytes) :
    readExact numBytes bytesRead buffer (result :: results) =
      readExact numBytes bytesRead buffer results := by
  have again := benign errno failed
  subst failed
  simp [readExact, h, again]

theorem overwrite_length {data : List UInt8} (h : bytesRead + data.length ≤ buffer.length) :
    (overwrite buffer bytesRead data).length = buffer.length := by
  simp only [overwrite, List.length_append, List.length_take, List.length_drop]
  omega

theorem take_overwrite {data : List UInt8} (h : bytesRead ≤ buffer.length) :
    (overwrite buffer bytesRead data).take (bytesRead + data.length) =
      buffer.take bytesRead ++ data := by
  rw [overwrite, List.take_left']
  simp [h]

theorem readExact_chunk {data : List UInt8} (results : List ReadResult) (h : bytesRead < numBytes)
    (long : data.length ≤ numBytes - bytesRead) :
    readExact numBytes bytesRead buffer (.bytes data :: results) =
      readExact numBytes (bytesRead + data.length) (overwrite buffer bytesRead data) results := by
  rw [readExact, if_pos h]
  dsimp only
  rw [if_neg long.not_gt]

theorem readExact_last {data : List UInt8} (results : List ReadResult) (h : bytesRead < numBytes)
    (full : buffer.length = numBytes) (short : numBytes - bytesRead < data.length) :
    readExact numBytes bytesRead buffer (.bytes data :: results) =
      some ((numBytes : Int), buffer.take bytesRead ++ data.take (numBytes - bytesRead),
        .bytes (data.drop (numBytes - bytesRead)) :: results) := by
  have last : bytesRead + (data.take (numBytes - bytesRead)).length = numBytes := by
    rw [List.length_take]
    omega
  rw [readExact, if_pos h]
  dsimp only
  rw [if_pos short, overwrite, last, List.drop_of_length_le full.le, List.append_nil]

/-- However the bytes are cut into chunks, `read_exact` fills the rest of the buffer with the next
bytes of the stream, and leaves the stream right behind them. -/
theorem readExact_spec (buffer : List UInt8) (numBytes bytesRead : Nat) {results : List ReadResult}
    (benign : ∀ result ∈ results, result.Benign) (full : buffer.length = numBytes)
    (within : bytesRead ≤ numBytes)
    (enough : numBytes - bytesRead ≤ (ReadResult.delivered results).length) :
    ∃ rest, readExact numBytes bytesRead buffer results =
        some ((numBytes : Int), buffer.take bytesRead ++
          (ReadResult.delivered results).take (numBytes - bytesRead), rest) ∧
      ReadResult.delivered rest = (ReadResult.delivered results).drop (numBytes - bytesRead) ∧
      ∀ result ∈ rest, result.Benign := by
  induction results generalizing bytesRead buffer with
  | nil =>
      have all : bytesRead = numBytes := by
        simp only [ReadResult.delivered, List.flatMap_nil, List.length_nil] at enough
        omega
      subst all
      refine ⟨[], ?_, by simp [ReadResult.delivered], benign⟩
      rw [readExact_done _ (lt_irrefl _), List.take_of_length_le full.le]
      simp
  | cons result results ih =>
      have later := fun r hr => benign r (List.mem_cons_of_mem result hr)
      rcases within.lt_or_eq with h | rfl
      · cases result with
        | error errno =>
            rw [readExact_eagain results (benign _ List.mem_cons_self) rfl h]
            rw [ReadResult.delivered_error] at enough ⊢
            exact ih buffer bytesRead later full within enough
        | bytes data =>
            rw [ReadResult.delivered_bytes, List.length_append] at enough
            rw [ReadResult.delivered_bytes]
            rcases Nat.lt_or_ge (numBytes - bytesRead) data.length with short | long
            · refine ⟨.bytes (data.drop (numBytes - bytesRead)) :: results, ?_, ?_, ?_⟩
              · rw [readExact_last results h full short, List.take_append_of_le_length short.le]
              · rw [ReadResult.delivered_bytes, List.drop_append_of_le_length short.le]
              · rintro r (_ | ⟨_, hr⟩)
                · exact fun errno h => by cases h
                · exact later r hr
            · obtain ⟨rest, run, left, quiet⟩ := ih (overwrite buffer bytesRead data)
                (bytesRead + data.length) later
                (by rw [overwrite_length (by omega), full]) (by omega) (by omega)
              have amount : numBytes - bytesRead =
                  data.length + (numBytes - (bytesRead + data.length)) := by omega
              refine ⟨rest, ?_, ?_, quiet⟩
              · rw [readExact_chunk results h long, run, take_overwrite (by omega), amount,
                  List.take_length_add_append, List.append_assoc]
              · rw [left, amount, List.drop_length_add_append]
      · refine ⟨result :: results, ?_, by simp, benign⟩
        rw [readExact_done _ (lt_irrefl _), List.take_of_length_le full.le]
        simp

theorem readExact_fails {results rest : List ReadResult} {buffer' : List UInt8}
    (run : readExact numBytes bytesRead buffer results = some (-1, buffer', rest)) :
    rest.length < results.length := by
  induction results generalizing bytesRead buffer with
  | nil =>
      rw [readExact] at run
      split at run
      · cases run
      · have returned : ((bytesRead : Int)) = -1 := congrArg Prod.fst (Option.some.inj run)
        omega
  | cons result results ih =>
      by_cases h : bytesRead < numBytes
      · cases result with
        | error errno =>
            rw [readExact, if_pos h] at run
            split at run
            · obtain ⟨-, rfl⟩ : _ ∧ results = rest := by simpa using run
              exact Nat.lt_succ_self _
            · exact (ih run).trans (Nat.lt_succ_self _)
        | bytes data =>
            rw [readExact, if_pos h] at run
            dsimp only at run
            split at run
            · have returned : ((numBytes : Int)) = -1 := congrArg Prod.fst (Option.some.inj run)
              omega
            · exact (ih run).trans (Nat.lt_succ_self _)
      · rw [readExact_done _ h] at run
        have returned : ((bytesRead : Int)) = -1 := congrArg Prod.fst (Option.some.inj run)
        omega

end util

namespace BatteryConnection

theorem readLength_fuel {fuel : Nat} {messageLenBuf : List UInt8} {results : List ReadResult}
    (h : results.length < fuel) :
    readLength (fuel + 1) messageLenBuf results = readLength fuel messageLenBuf results := by
  induction fuel generalizing messageLenBuf results with
  | zero => omega
  | succ fuel ih =>
      rw [readLength, readLength]
      rcases run : util.readExact 4 0 messageLenBuf results with _ | ⟨ret, buf, rest⟩
      · rfl
      · dsimp only
        split
        · rename_i failed
          subst failed
          have fewer := util.readExact_fails run
          exact ih (by omega)
        · rfl

variable {M : Type*} (codec : MessageLite M)

/-- The frame of a message: its size in four bytes in network order, and its body. -/
def frame (host : Host) (message : M) : List UInt8 :=
  ByteOrder.Endian.big.store 4 (codec.byteSizeLong message) ++
    codec.serializeToArray message (host.newChars (codec.byteSizeLong message)).toList

variable {codec} {host : Host} {message : M}

theorem size_mod (small : codec.byteSizeLong message < MessageLite.sizeLimit) :
    codec.byteSizeLong message % 2 ^ 32 = codec.byteSizeLong message :=
  Nat.mod_eq_of_lt (small.trans (by decide))

theorem body_length (inverts : codec.Inverts)
    (small : codec.byteSizeLong message < MessageLite.sizeLimit) :
    (codec.serializeToArray message (host.newChars (codec.byteSizeLong message)).toList).length =
      codec.byteSizeLong message := by
  have fresh := (host.newChars (codec.byteSizeLong message)).toList_length
  exact (inverts message _ small fresh).1.trans fresh

theorem write_wire {wire wire' : List UInt8} {results rest : List WriteResult} {ret : Int}
    (inverts : codec.Inverts) (small : codec.byteSizeLong message < MessageLite.sizeLimit)
    (benign : ∀ result ∈ results, result.Benign)
    (run : write codec host message wire results = some (ret, wire', rest)) :
    wire' = wire ++ frame codec host message ∧ rest <:+ results := by
  rw [write, size_mod small, ByteOrder.Endian.store_toNetwork] at run
  dsimp only at run
  split at run
  · cases run
  · rename_i first prefixRun
    obtain ⟨added, left⟩ := util.writeExact_wire benign (by simp) (by omega) prefixRun
    split at run
    · cases run
    · rename_i second bodyRun
      have later := fun r hr => benign r (left.subset hr)
      obtain ⟨added', left'⟩ := util.writeExact_wire later (body_length inverts small)
        (by omega) bodyRun
      obtain ⟨-, rfl, rfl⟩ : _ ∧ _ = wire' ∧ _ = rest := by simpa using run
      refine ⟨?_, left'.trans left⟩
      rw [added', added, List.drop_zero, List.drop_zero, List.append_assoc, frame]

theorem write_returns (host : Host) (wire : List UInt8) {results : List WriteResult}
    (small : codec.byteSizeLong message < MessageLite.sizeLimit)
    (benign : ∀ result ∈ results, result.Benign)
    (enough : 4 + codec.byteSizeLong message ≤ WriteResult.acceptances results) :
    ∃ wire' rest, write codec host message wire results = some (1, wire', rest) ∧
      WriteResult.acceptances results ≤
        WriteResult.acceptances rest + (4 + codec.byteSizeLong message) := by
  obtain ⟨_, first, rest, prefixRun, left⟩ := util.writeExact_returns
    (ByteOrder.Endian.big.store 4 (codec.byteSizeLong message)) 4 0 wire benign (by omega)
  have suffix := (util.writeExact_wire benign (by simp) (by omega) prefixRun).2
  obtain ⟨_, second, rest', bodyRun, left'⟩ := util.writeExact_returns
    (codec.serializeToArray message (host.newChars (codec.byteSizeLong message)).toList)
    (codec.byteSizeLong message) 0 first
    (fun r hr => benign r (suffix.subset hr)) (by omega)
  refine ⟨second, rest', ?_, by omega⟩
  rw [write, size_mod small, ByteOrder.Endian.store_toNetwork]
  simp only [prefixRun, bodyRun]

theorem writeAll_wire {messages : List M} {wire wire' : List UInt8} {results rest : List WriteResult}
    (inverts : codec.Inverts)
    (small : ∀ message ∈ messages, codec.byteSizeLong message < MessageLite.sizeLimit)
    (benign : ∀ result ∈ results, result.Benign)
    (run : writeAll codec host wire results messages = some (wire', rest)) :
    wire' = wire ++ messages.flatMap (frame codec host) := by
  induction messages generalizing wire results with
  | nil =>
      obtain ⟨rfl, -⟩ : wire = wire' ∧ results = rest := by simpa [writeAll] using run
      simp
  | cons message messages ih =>
      rw [writeAll] at run
      rcases first : write codec host message wire results with _ | ⟨ret, wire₁, results₁⟩
      · simp [first] at run
      · obtain ⟨added, left⟩ := write_wire inverts (small message List.mem_cons_self) benign first
        rw [first] at run
        rw [ih (fun m hm => small m (List.mem_cons_of_mem message hm))
          (fun r hr => benign r (left.subset hr)) run, added, List.append_assoc, List.flatMap_cons]

theorem writeAll_returns {messages : List M} {wire : List UInt8} {results : List WriteResult}
    (inverts : codec.Inverts)
    (small : ∀ message ∈ messages, codec.byteSizeLong message < MessageLite.sizeLimit)
    (benign : ∀ result ∈ results, result.Benign)
    (enough : (messages.map fun message => 4 + codec.byteSizeLong message).sum ≤
      WriteResult.acceptances results) :
    (writeAll codec host wire results messages).isSome := by
  induction messages generalizing wire results with
  | nil => rfl
  | cons message messages ih =>
      rw [List.map_cons, List.sum_cons] at enough
      have small' := small message List.mem_cons_self
      obtain ⟨wire', rest, first, left⟩ := write_returns host wire small' benign (by omega)
      have kept := (write_wire inverts small' benign first).2
      rw [writeAll, first]
      exact ih (fun m hm => small m (List.mem_cons_of_mem message hm))
        (fun r hr => benign r (kept.subset hr)) (by omega)

theorem read_spec {writer : Host} (reader : Host) {results : List ReadResult} {rest : List UInt8}
    (inverts : codec.Inverts) (small : codec.byteSizeLong message < MessageLite.sizeLimit)
    (benign : ∀ result ∈ results, result.Benign)
    (begins : ReadResult.delivered results = frame codec writer message ++ rest) :
    ∃ left, read codec reader results = some (some message, left) ∧
      ReadResult.delivered left = rest ∧ ∀ result ∈ left, result.Benign := by
  set size := codec.byteSizeLong message with hsize
  set header := ByteOrder.Endian.big.store 4 size with hheader
  set body := codec.serializeToArray message (writer.newChars size).toList with hbody
  have headerLength : header.length = 4 := ByteOrder.Endian.store_length ..
  have bodyLength : body.length = size := body_length inverts small
  have stream : ReadResult.delivered results = header ++ (body ++ rest) := by
    rw [begins, frame, List.append_assoc]
  obtain ⟨results₁, headerRun, left₁, quiet₁⟩ := util.readExact_spec [0, 0, 0, 0] 4 0
    benign rfl (by omega)
    (by rw [stream, List.length_append]; omega)
  rw [stream, Nat.sub_zero, List.take_left' headerLength] at headerRun
  rw [stream, Nat.sub_zero, List.drop_left' headerLength] at left₁
  have received : reader.order.ofNetwork 4 (reader.order.load header) = size := by
    have word := reader.order.ofNetwork_load header
    rw [headerLength] at word
    rw [word, hheader, ByteOrder.Endian.load_store]
    exact size_mod small
  obtain ⟨results₂, bodyRun, left₂, quiet₂⟩ := util.readExact_spec
    (reader.newChars size).toList size 0 quiet₁
    (by simp) (by omega) (by rw [left₁, List.length_append]; omega)
  rw [left₁, Nat.sub_zero, List.take_left' bodyLength] at bodyRun
  rw [left₁, Nat.sub_zero, List.drop_left' bodyLength] at left₂
  refine ⟨results₂, ?_, left₂, quiet₂⟩
  have lengthRun : readLength (results.length + 1) [0, 0, 0, 0] results =
      some (header, results₁) := by
    simp [readLength, headerRun]
  have parsed : codec.parseFromArray body = some message :=
    (inverts message _ small (List.Vector.toList_length _)).2
  rw [read, lengthRun]
  dsimp only
  rw [received, bodyRun]
  simp only [List.take_zero, List.nil_append, parsed]

theorem readAll_spec {writer reader : Host} {messages : List M} {results : List ReadResult}
    {rest : List UInt8} (inverts : codec.Inverts)
    (small : ∀ message ∈ messages, codec.byteSizeLong message < MessageLite.sizeLimit)
    (benign : ∀ result ∈ results, result.Benign)
    (begins : ReadResult.delivered results = messages.flatMap (frame codec writer) ++ rest) :
    ∃ left, readAll codec reader messages.length results = some (messages.map some, left) ∧
      ReadResult.delivered left = rest := by
  induction messages generalizing results with
  | nil => exact ⟨results, rfl, by simpa using begins⟩
  | cons message messages ih =>
      rw [List.flatMap_cons, List.append_assoc] at begins
      obtain ⟨left, first, behind, quiet⟩ := read_spec reader inverts
        (small message List.mem_cons_self) benign begins
      obtain ⟨left', others, behind'⟩ := ih
        (fun m hm => small m (List.mem_cons_of_mem message hm)) quiet behind
      refine ⟨left', ?_, behind'⟩
      rw [List.length_cons, readAll, first]
      simp only [others, Option.map_some, List.map_cons]

/-- Messages written one after another arrive as they were sent, however the kernel cuts the
stream at either end: the writes return once it has taken bytes often enough, and whenever they
return, reading from a stream that begins with what they wrote gives the messages in order and
leaves exactly what follows. -/
theorem framing {codec : MessageLite M} (inverts : codec.Inverts) (writer reader : Host)
    (messages : List M)
    (small : ∀ message ∈ messages, codec.byteSizeLong message < MessageLite.sizeLimit)
    (writes : List WriteResult) (writesBenign : ∀ result ∈ writes, result.Benign) :
    ((messages.map fun message => 4 + codec.byteSizeLong message).sum ≤
        WriteResult.acceptances writes →
      (writeAll codec writer [] writes messages).isSome) ∧
    ∀ wire unused, writeAll codec writer [] writes messages = some (wire, unused) →
      ∀ reads extra, (∀ result ∈ reads, result.Benign) →
        ReadResult.delivered reads = wire ++ extra →
        ∃ left, readAll codec reader messages.length reads = some (messages.map some, left) ∧
          ReadResult.delivered left = extra := by
  refine ⟨fun enough => writeAll_returns inverts small writesBenign enough, ?_⟩
  intro wire unused written reads extra readsBenign begins
  have frames := writeAll_wire inverts small writesBenign written
  rw [List.nil_append] at frames
  rw [frames] at begins
  exact readAll_spec inverts small readsBenign begins

def plain : MessageLite (List UInt8) where
  byteSizeLong := List.length
  serializeToArray message _ := message
  parseFromArray := some

theorem plain_inverts : plain.Inverts := fun _ _ _ full => ⟨full.symm, rfl⟩

/-- A little-endian writer and a big-endian reader, with an empty message among the messages and
both ends interrupted. -/
theorem framing_hosts :
    ∃ left, readAll plain ⟨.big, fun n => List.Vector.replicate n 9⟩ 3
        [.bytes [0, 0], .error 11, .bytes [0], .bytes [2, 7], .error 11,
          .bytes [8, 0, 0, 0, 0, 0, 0, 0, 1, 5]] = some ([some [7, 8], some [], some [5]], left) ∧
      ReadResult.delivered left = [] :=
  (framing plain_inverts ⟨.little, fun n => List.Vector.replicate n 0⟩
    ⟨.big, fun n => List.Vector.replicate n 9⟩ [[7, 8], [], [5]] (by decide)
    [.accepted 3, .error 11, .accepted 100, .error 11, .error 11, .accepted 1, .accepted 1,
      .accepted 4, .accepted 9, .accepted 1]
    (by simp [WriteResult.Benign, eagain])).2
    [0, 0, 0, 2, 7, 8, 0, 0, 0, 0, 0, 0, 0, 1, 5] [] (by decide) _ []
    (by simp [ReadResult.Benign, eagain]) (by decide)

end BatteryConnection

end BatteryOS.V3
