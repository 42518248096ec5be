import BatteryOS.V3.Framing

/-! Streams that end. Once the peer has closed, every call of `read` or `SSL_read` gives no bytes
at once, and the loops that wait for the rest of a message ask again: when `read` of the
connection still ends. -/

namespace BatteryOS.V3

open ByteOrder

namespace util

/-- The loop of `SSL_read_exact`, which does not return on an error: the inner `none` is the
`abort` of the program. -/
def sslReadExact (numBytes bytesRead : Nat) (buffer : List UInt8) :
    List ReadResult → Option (Option (Int × List UInt8 × List ReadResult))
  | [] => if bytesRead < numBytes then none else some (some (bytesRead, buffer, []))
  | result :: results =>
      if bytesRead < numBytes then
        match result with
        | .error _ => some none
        | .bytes data =>
            let asked := numBytes - bytesRead
            if asked < data.length then
              some (some (numBytes, overwrite buffer bytesRead (data.take asked),
                .bytes (data.drop asked) :: results))
            else sslReadExact numBytes (bytesRead + data.length)
              (overwrite buffer bytesRead data) results
      else some (some (bytesRead, buffer, result :: results))

end util

namespace BatteryConnection

variable {M : Type*} (codec : MessageLite M) (host : Host)

/-- `read` of a connection over TLS. The loop for the length runs once, since `SSL_read_exact`
never returns -1. -/
def readTLS (results : List ReadResult) : Option (Option (Option M × List ReadResult)) :=
  match util.sslReadExact 4 0 [0, 0, 0, 0] results with
  | none => none
  | some none => some none
  | some (some (_, messageLenBuf, results)) =>
      let messageLen := host.order.ofNetwork 4 (host.order.load messageLenBuf)
      match util.sslReadExact messageLen 0 (host.newChars messageLen).toList results with
      | none => none
      | some none => some none
      | some (some (_, buffer, results)) => some (some (codec.parseFromArray buffer, results))

end BatteryConnection

/-- The answers, and those to further calls after the peer has closed. -/
def ReadResult.closed (results : List ReadResult) (calls : ℕ) : List ReadResult :=
  results ++ List.replicate calls (.bytes [])

def ReadResult.IsBytes (result : ReadResult) : Prop := ∃ data, result = .bytes data

/-- The stream holds the length of a message and as many bytes after it. -/
def CompleteMessage (stream : List UInt8) : Prop :=
  4 ≤ stream.length ∧ 4 + Endian.big.load (stream.take 4) ≤ stream.length

namespace ReadResult

variable {results : List ReadResult}

theorem delivered_closed (results : List ReadResult) (calls : ℕ) :
    delivered (closed results calls) = delivered results := by
  rw [closed, delivered, List.flatMap_append]
  induction calls with
  | zero => simp [delivered]
  | succ calls ih => simpa [List.replicate_succ] using ih

theorem mem_closed {result : ReadResult} {calls : ℕ} (h : result ∈ closed results calls) :
    result ∈ results ∨ result = .bytes [] := by
  rcases List.mem_append.mp h with stored | zero
  · exact .inl stored
  · exact .inr (List.eq_of_mem_replicate zero)

theorem benign_closed (benign : ∀ result ∈ results, result.Benign) (calls : ℕ) :
    ∀ result ∈ closed results calls, result.Benign := by
  intro result h
  rcases mem_closed h with stored | rfl
  · exact benign result stored
  · exact fun errno h => by cases h

theorem isBytes_closed (chunks : ∀ result ∈ results, result.IsBytes) (calls : ℕ) :
    ∀ result ∈ closed results calls, result.IsBytes := by
  intro result h
  rcases mem_closed h with stored | rfl
  · exact chunks result stored
  · exact ⟨[], rfl⟩

theorem IsBytes.benign {result : ReadResult} (h : result.IsBytes) : result.Benign := by
  obtain ⟨data, rfl⟩ := h
  exact fun errno h => by cases h

end ReadResult

namespace util

variable {results : List ReadResult} {buffer : List UInt8} {numBytes bytesRead : Nat}

theorem readExact_short (benign : ∀ result ∈ results, result.Benign)
    (short : (ReadResult.delivered results).length < numBytes - bytesRead) :
    readExact numBytes bytesRead buffer results = none := by
  induction results generalizing bytesRead buffer with
  | nil =>
      have h : bytesRead < numBytes := by omega
      rw [readExact, if_pos h]
  | cons result results ih =>
      have later := fun r hr => benign r (List.mem_cons_of_mem result hr)
      have h : bytesRead < numBytes := by omega
      cases result with
      | error errno =>
          rw [readExact_eagain results (benign _ List.mem_cons_self) rfl h]
          rw [ReadResult.delivered_error] at short
          exact ih later short
      | bytes data =>
          rw [ReadResult.delivered_bytes, List.length_append] at short
          rw [readExact_chunk results h (by omega)]
          exact ih later (by omega)

theorem readExact_bytes {ret : Int} {buffer' : List UInt8} {rest : List ReadResult}
    (chunks : ∀ result ∈ results, result.IsBytes)
    (run : readExact numBytes bytesRead buffer results = some (ret, buffer', rest)) :
    ret ≠ -1 ∧ ∀ result ∈ rest, result.IsBytes := by
  induction results generalizing bytesRead buffer with
  | nil =>
      rw [readExact] at run
      split_ifs at run
      cases run
      exact ⟨by omega, chunks⟩
  | cons result results ih =>
      have later := fun r hr => chunks r (List.mem_cons_of_mem result hr)
      obtain ⟨data, rfl⟩ := chunks result List.mem_cons_self
      rw [readExact] at run
      dsimp only at run
      split_ifs at run
      · cases run
        exact ⟨by omega, List.forall_mem_cons.mpr ⟨⟨_, rfl⟩, later⟩⟩
      · exact ih later run
      · cases run
        exact ⟨by omega, chunks⟩

theorem sslReadExact_eq (chunks : ∀ result ∈ results, result.IsBytes) :
    sslReadExact numBytes bytesRead buffer results =
      (readExact numBytes bytesRead buffer results).map some := by
  induction results generalizing bytesRead buffer with
  | nil =>
      rw [sslReadExact, readExact]
      split_ifs <;> rfl
  | cons result results ih =>
      obtain ⟨data, rfl⟩ := chunks result List.mem_cons_self
      rw [sslReadExact, readExact]
      dsimp only
      split_ifs
      · rfl
      · exact ih fun r hr => chunks r (List.mem_cons_of_mem _ hr)
      · rfl

end util

namespace BatteryConnection

variable {M : Type*} {codec : MessageLite M} {host : Host} {results : List ReadResult}

theorem messageLen_eq {stream : List UInt8} (h : 4 ≤ stream.length) :
    host.order.ofNetwork 4 (host.order.load (stream.take 4)) =
      Endian.big.load (stream.take 4) := by
  have word := host.order.ofNetwork_load (stream.take 4)
  rwa [List.length_take_of_le h] at word

theorem readExact_length (benign : ∀ result ∈ results, result.Benign)
    (h : 4 ≤ (ReadResult.delivered results).length) :
    ∃ rest, util.readExact 4 0 [0, 0, 0, 0] results =
        some (4, (ReadResult.delivered results).take 4, rest) ∧
      ReadResult.delivered rest = (ReadResult.delivered results).drop 4 ∧
      ∀ result ∈ rest, result.Benign := by
  obtain ⟨rest, run, left, quiet⟩ :=
    util.readExact_spec [0, 0, 0, 0] 4 0 benign rfl (by omega) (by omega)
  exact ⟨rest, by simpa using run, by simpa using left, quiet⟩

theorem read_isSome_iff (codec : MessageLite M) (host : Host)
    (benign : ∀ result ∈ results, result.Benign) :
    (read codec host results).isSome ↔ CompleteMessage (ReadResult.delivered results) := by
  rcases Nat.lt_or_ge (ReadResult.delivered results).length 4 with cut | long
  · have none : util.readExact 4 0 [0, 0, 0, 0] results = none :=
      util.readExact_short benign (by omega)
    simp only [read, readLength, none, CompleteMessage, Option.isSome_none, Bool.false_eq_true,
      false_iff]
    omega
  · obtain ⟨rest, run, left, quiet⟩ := readExact_length benign long
    have length : readLength (results.length + 1) [0, 0, 0, 0] results =
        some ((ReadResult.delivered results).take 4, rest) := by
      simp [readLength, run]
    have size := congrArg List.length left
    rw [List.length_drop] at size
    rw [read, length, CompleteMessage, and_iff_right long]
    dsimp only
    rw [messageLen_eq long]
    rcases Nat.lt_or_ge (ReadResult.delivered rest).length
      (Endian.big.load ((ReadResult.delivered results).take 4)) with cut | whole
    · rw [util.readExact_short quiet (by omega)]
      simp only [Option.isSome_none, Bool.false_eq_true, false_iff]
      omega
    · obtain ⟨rest', run', -⟩ := util.readExact_spec
        (host.newChars (Endian.big.load ((ReadResult.delivered results).take 4))).toList
        (Endian.big.load ((ReadResult.delivered results).take 4)) 0 quiet (by simp) (by omega)
        (by omega)
      rw [run']
      simp only [Option.isSome_some, true_iff]
      omega

theorem readTLS_eq (codec : MessageLite M) (host : Host)
    (chunks : ∀ result ∈ results, result.IsBytes) :
    readTLS codec host results = (read codec host results).map some := by
  rw [readTLS, read, util.sslReadExact_eq chunks]
  rcases run : util.readExact 4 0 [0, 0, 0, 0] results with _ | ⟨ret, messageLenBuf, rest⟩
  · simp [readLength, run]
  · obtain ⟨succeeds, chunks'⟩ := util.readExact_bytes chunks run
    have length : readLength (results.length + 1) [0, 0, 0, 0] results =
        some (messageLenBuf, rest) := by
      simp [readLength, run, succeeds]
    rw [length]
    simp only [Option.map_some]
    rw [util.sslReadExact_eq chunks']
    rcases util.readExact (host.order.ofNetwork 4 (host.order.load messageLenBuf)) 0
      (host.newChars (host.order.ofNetwork 4 (host.order.load messageLenBuf))).toList rest with
      _ | ⟨_, _, _⟩ <;> rfl

end BatteryConnection

/-- On a stream that ends after the answers a call ends too, and fails where the message is cut
off. -/
def EndsWithStream {M : Type*} (read : List ReadResult → Option (Option M × List ReadResult))
    (results : List ReadResult) : Prop :=
  ∃ calls message left, read (ReadResult.closed results calls) = some (message, left) ∧
    (¬ CompleteMessage (ReadResult.delivered results) → message = none)

namespace BatteryConnection

variable {M : Type*} {results : List ReadResult}

theorem endsWithStream_iff {read : List ReadResult → Option (Option M × List ReadResult)}
    (isSome_iff : ∀ calls, (read (ReadResult.closed results calls)).isSome ↔
      CompleteMessage (ReadResult.delivered results)) :
    EndsWithStream read results ↔ CompleteMessage (ReadResult.delivered results) := by
  constructor
  · rintro ⟨calls, message, left, run, -⟩
    exact (isSome_iff calls).mp (by rw [run]; rfl)
  · intro complete
    obtain ⟨⟨message, left⟩, run⟩ := Option.isSome_iff_exists.mp ((isSome_iff 0).mpr complete)
    exact ⟨0, message, left, run, fun cut => absurd complete cut⟩

theorem socket_ends_iff (codec : MessageLite M) (host : Host)
    (benign : ∀ result ∈ results, result.Benign) :
    EndsWithStream (read codec host) results ↔
      CompleteMessage (ReadResult.delivered results) := by
  refine endsWithStream_iff fun calls => ?_
  rw [read_isSome_iff codec host (ReadResult.benign_closed benign calls),
    ReadResult.delivered_closed]

theorem tls_ends_iff (codec : MessageLite M) (host : Host)
    (chunks : ∀ result ∈ results, result.IsBytes) :
    EndsWithStream (fun results => (readTLS codec host results).join) results ↔
      CompleteMessage (ReadResult.delivered results) := by
  rw [← socket_ends_iff codec host fun result h => (chunks result h).benign]
  refine exists_congr fun calls => ?_
  dsimp only
  rw [readTLS_eq codec host (ReadResult.isBytes_closed chunks calls)]
  rcases read codec host (ReadResult.closed results calls) with _ | _ <;> rfl

/-- `read` ends on a stream that ends just when the stream does not end inside a message, over
sockets and pipes and over TLS. -/
theorem read_ends_iff (codec : MessageLite M) (host : Host)
    (benign : ∀ result ∈ results, result.Benign) :
    (EndsWithStream (read codec host) results ↔
        CompleteMessage (ReadResult.delivered results)) ∧
      ((∀ result ∈ results, result.IsBytes) →
        (EndsWithStream (fun results => (readTLS codec host results).join) results ↔
          CompleteMessage (ReadResult.delivered results))) :=
  ⟨socket_ends_iff codec host benign, tls_ends_iff codec host⟩

instance (stream : List UInt8) : Decidable (CompleteMessage stream) :=
  inferInstanceAs (Decidable (_ ∧ _))

/-- A message of two bytes, whole and then cut off. -/
theorem read_ends_iff_plain :
    EndsWithStream (read plain ⟨.little, fun n => List.Vector.replicate n 0⟩)
        [.bytes [0, 0], .error 11, .bytes [0, 2, 7, 8]] ∧
      ¬ EndsWithStream (fun results =>
          (readTLS plain ⟨.little, fun n => List.Vector.replicate n 0⟩ results).join)
        [.bytes [0, 0], .bytes [0, 2, 7]] := by
  constructor
  · exact (read_ends_iff plain _ (by simp [ReadResult.Benign, eagain])).1.mpr (by decide)
  · refine mt ((read_ends_iff plain _ (by simp [ReadResult.Benign])).2 ?_).mp (by decide)
    simp [ReadResult.IsBytes]

/-- The peer closes after half of a length. -/
theorem read_never_ends :
    ¬ EndsWithStream (read plain ⟨.little, fun n => List.Vector.replicate n 0⟩)
        [.bytes [0, 0]] ∧
      ¬ EndsWithStream (fun results =>
          (readTLS plain ⟨.little, fun n => List.Vector.replicate n 0⟩ results).join)
        [.bytes [0, 0]] := by
  have chunks : ∀ result ∈ [ReadResult.bytes [0, 0]], result.IsBytes := by
    simp [ReadResult.IsBytes]
  have cut : ¬ CompleteMessage (ReadResult.delivered [.bytes [0, 0]]) := by decide
  exact ⟨mt (socket_ends_iff _ _ fun result h => (chunks result h).benign).mp cut,
    mt (tls_ends_iff _ _ chunks).mp cut⟩

end BatteryConnection

end BatteryOS.V3
