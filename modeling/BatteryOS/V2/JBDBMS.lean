import BatteryOS.Library.ByteOrder
import BatteryOS.Library.Checksum
import Mathlib.Data.Nat.Find

/-! The driver of a JBD battery management system behind a connection. A query writes a command,
reads a header and as many bytes as it announces, and has three tries; what the connection does in
each try is an argument. -/

namespace BatteryOS.V2

namespace JBDBMS

open ByteOrder Checksum

def starterByte : UInt8 := 0xdd

def readIndicatorByte : UInt8 := 0xa5

def endingByte : UInt8 := 0x77

def computeChecksum (payload : List UInt8) : UInt16 :=
  let sumOfPayload := payload.foldl (fun sum b => sum + b.toUInt16) 0
  ~~~sumOfPayload + 1

def highByte (word : UInt16) : UInt8 := (word >>> 8 &&& 0xFF).toUInt8

def lowByte (word : UInt16) : UInt8 := (word &&& 0xFF).toUInt8

def readRegisterCommand (registerAddress : UInt8) : List UInt8 :=
  let payload := [registerAddress, 0x00]
  let checksum := computeChecksum payload
  [starterByte, readIndicatorByte] ++ payload ++ [highByte checksum, lowByte checksum, endingByte]

def byte (bytes : List UInt8) (i : ℕ) : UInt8 := bytes.getD i 0

def verifyRecvChecksum (header data : List UInt8) (checksum : UInt16) (ending : UInt8) : Bool :=
  if header.length ≠ 4 then false
  else if byte header 0 ≠ 0xDD then false
  else if ending ≠ 0x77 then false
  else if data.length ≠ (byte header 3).toNat then false
  else if computeChecksum ([byte header 2, byte header 3] ++ data) ≠ checksum then false
  else true

def word (x y : UInt8) : UInt16 := x.toUInt16 <<< 8 ||| y.toUInt16 &&& 0xFF

/-- What the connection does in one try: how many bytes it says it has written, and what it
delivers to each of the two reads, should they be made. -/
structure Trial where
  bytesWritten : ℤ
  header : List UInt8
  data : List UInt8

/-- The body of the loop in `query_info`: the data it leaves, and whether it breaks. -/
def attempt (command : List UInt8) (t : Trial) : List UInt8 × Bool :=
  if t.bytesWritten < 0 then ([], false)
  else if t.bytesWritten.toNat ≠ command.length then ([], false)
  else if t.header.length ≠ 4 then ([], false)
  else
    let dataLength := (byte t.header 3).toNat
    if t.data.length ≠ dataLength + 3 then (t.data, false)
    else
      let checksum := word (byte t.data (t.data.length - 3)) (byte t.data (t.data.length - 2))
      let ending := byte t.data (t.data.length - 1)
      let data := t.data.dropLast.dropLast.dropLast
      if verifyRecvChecksum t.header data checksum ending then (data, true) else (data, false)

def maxTries : ℕ := 3

/-- The loop of `query_info` with `remaining` tries left, of which `i` is the first. -/
def queryTries (command : List UInt8) (link : ℕ → Trial) :
    (remaining i : ℕ) → (data : List UInt8) → List UInt8
  | 0, _, data => data
  | remaining + 1, i, _ =>
      let result := attempt command (link i)
      if result.2 then result.1 else queryTries command link remaining (i + 1) result.1

def queryInfo (command : List UInt8) (link : ℕ → Trial) : List UInt8 :=
  queryTries command link maxTries 0 []

structure State where
  voltage10mV : UInt16
  current10mA : Int16
  remainingCharge10mAh : UInt16
  maxCapacity10mAh : UInt16
  cycles : UInt16
  manufacture : UInt16
  balancingBit1 : UInt16
  balancingBit2 : UInt16
  protectionState : UInt16
  version : UInt8
  remainingPercentage : UInt8
  mosfetStatus : UInt8
  numBatteries : UInt8
  numTemperatureSensors : UInt8
deriving DecidableEq, Repr

/-- Two elements of a vector whose size has not been checked; `none` past its end. -/
def wordAt (info : List UInt8) (i : ℕ) : Option UInt16 := do
  let x ← info[i]?
  let y ← info[i + 1]?
  return word x y

def basicInfo (info : List UInt8) : Option State := do
  return {
    voltage10mV := ← wordAt info 0
    current10mA := (← wordAt info 2).toInt16
    remainingCharge10mAh := ← wordAt info 4
    maxCapacity10mAh := ← wordAt info 6
    cycles := ← wordAt info 8
    manufacture := ← wordAt info 10
    balancingBit1 := ← wordAt info 12
    balancingBit2 := ← wordAt info 14
    protectionState := ← wordAt info 16
    version := ← info[18]?
    remainingPercentage := ← info[19]?
    mosfetStatus := ← info[20]?
    numBatteries := ← info[21]?
    numTemperatureSensors := ← info[22]? }

/-- `get_basic_info` as what it does to `basic_state`; `none` when it reads past the end. -/
def getBasicInfo (_basicState : State) (link : ℕ → Trial) : Option State :=
  basicInfo (queryInfo (readRegisterCommand 0x03) link)

section Checksums

theorem word_toNat (x y : UInt8) : (word x y).toNat = 256 * x.toNat + y.toNat := by
  have mask : y.toUInt16 &&& 0xFF = y.toUInt16 := by
    rw [← UInt16.toNat_inj, UInt16.toNat_and, UInt8.toNat_toUInt16]
    change y.toNat &&& 2 ^ 8 - 1 = y.toNat
    rw [Nat.and_two_pow_sub_one_eq_mod, Nat.mod_eq_of_lt y.toNat_lt]
  rw [word, mask, pair_toNat]

theorem word_bytes (v : UInt16) : word (highByte v) (lowByte v) = v := by
  have bound := v.toNat_lt
  have mask : (0xFF : UInt16).toNat = 2 ^ 8 - 1 := rfl
  rw [← UInt16.toNat_inj, word_toNat]
  simp only [highByte, lowByte, UInt16.toNat_toUInt8, UInt16.toNat_and, UInt16.toNat_shiftRight,
    mask, Nat.and_two_pow_sub_one_eq_mod]
  rw [show (8 : UInt16).toNat % 16 = 8 from rfl, Nat.shiftRight_eq_div_pow]
  omega

theorem computeChecksum_eq_iff (payload : List UInt8) (checksum : UInt16) :
    computeChecksum payload = checksum ↔ (total payload + checksum.toNat) % 2 ^ 16 = 0 := by
  have sum := foldl_toNat payload 0
  rw [UInt16.toNat_zero, Nat.zero_add] at sum
  rw [computeChecksum, eq_complement_iff, sum, Nat.mod_add_mod]

structure Frame where
  starter : UInt8
  registerAddress : UInt8
  commandStatus : UInt8
  dataLength : UInt8
  data : List UInt8
  high : UInt8
  low : UInt8
  ending : UInt8
deriving DecidableEq, Repr

namespace Frame

def accepted (f : Frame) : Bool :=
  verifyRecvChecksum [f.starter, f.registerAddress, f.commandStatus, f.dataLength] f.data
    (word f.high f.low) f.ending

def around (registerAddress commandStatus dataLength : UInt8) (data : List UInt8) : Frame :=
  let checksum := computeChecksum ([commandStatus, dataLength] ++ data)
  ⟨starterByte, registerAddress, commandStatus, dataLength, data, highByte checksum,
    lowByte checksum, endingByte⟩

def payload (f : Frame) : List UInt8 := [f.commandStatus, f.dataLength] ++ f.data

def protectedBytes (f : Frame) : List UInt8 := f.payload ++ [f.high, f.low]

/-- Exactly one of the protected bytes is another one. -/
structure Corrupts (f f' : Frame) : Prop where
  starter : f'.starter = f.starter
  registerAddress : f'.registerAddress = f.registerAddress
  ending : f'.ending = f.ending
  one_byte : ∃ (i : ℕ) (h : i < f.protectedBytes.length) (byte : UInt8),
    byte ≠ f.protectedBytes[i] ∧ f'.protectedBytes = f.protectedBytes.set i byte

theorem accepted_iff (f : Frame) : f.accepted = true ↔
    f.starter = 0xDD ∧ f.ending = 0x77 ∧ f.data.length = f.dataLength.toNat ∧
      (total f.payload + (256 * f.high.toNat + f.low.toNat)) % 2 ^ 16 = 0 := by
  rw [← word_toNat, ← computeChecksum_eq_iff, accepted, verifyRecvChecksum]
  simp only [byte, payload]
  split_ifs <;> simp_all

theorem around_accepted (registerAddress commandStatus dataLength : UInt8) (data : List UInt8)
    (size : data.length = dataLength.toNat) :
    (around registerAddress commandStatus dataLength data).accepted = true := by
  have zero : (total ([commandStatus, dataLength] ++ data) +
      (computeChecksum ([commandStatus, dataLength] ++ data)).toNat) % 2 ^ 16 = 0 :=
    (computeChecksum_eq_iff _ _).mp rfl
  rw [accepted_iff]
  refine ⟨rfl, rfl, size, ?_⟩
  rw [around, payload, ← word_toNat, word_bytes]
  exact zero

theorem sum_ne_zero_of_corrupts {f f' : Frame} (corrupts : f.Corrupts f')
    (zero : (total f.payload + (256 * f.high.toNat + f.low.toNat)) % 2 ^ 16 = 0) :
    (total f'.payload + (256 * f'.high.toNat + f'.low.toNat)) % 2 ^ 16 ≠ 0 := by
  obtain ⟨i, h, byte, changed, bytes⟩ := corrupts.one_byte
  have length : f.protectedBytes.length = f.payload.length + 2 := by
    rw [protectedBytes, List.length_append, List.length_cons, List.length_cons, List.length_nil]
  rcases Nat.lt_or_ge i f.payload.length with front | back
  · have old : f.protectedBytes[i] = f.payload[i] := List.getElem_append_left front
    rw [protectedBytes, protectedBytes, List.set_append_left _ _ front] at bytes
    obtain ⟨payload, words⟩ := List.append_inj' bytes rfl
    obtain ⟨high, low, -⟩ : f'.high = f.high ∧ f'.low = f.low ∧ True := by simpa using words
    rw [payload, high, low]
    exact sum_ne_zero_of_set zero front (old ▸ changed)
  · rw [protectedBytes, protectedBytes, List.set_append_right _ _ back] at bytes
    obtain ⟨payload, words⟩ := List.append_inj' bytes (by simp)
    have inside : i - f.payload.length < [f.high, f.low].length := by
      rw [length] at h
      simp only [List.length_cons, List.length_nil]
      omega
    have old : f.protectedBytes[i] = [f.high, f.low][i - f.payload.length] :=
      List.getElem_append_right back
    rw [payload]
    obtain first | second : i - f.payload.length = 0 ∨ i - f.payload.length = 1 := by omega
    · obtain ⟨high, low⟩ : f'.high = byte ∧ f'.low = f.low := by simpa [first] using words
      rw [high, low]
      exact sum_ne_zero_of_high zero (by simpa [old, first] using changed)
    · obtain ⟨high, low⟩ : f'.high = f.high ∧ f'.low = byte := by simpa [second] using words
      rw [high, low]
      exact sum_ne_zero_of_low zero (by simpa [old, second] using changed)

end Frame

/-- Every framed payload whose length byte is right is accepted, and no accepted frame is accepted
any more once one of its protected bytes has changed. -/
theorem verify_detects_corruption :
    (∀ (registerAddress commandStatus dataLength : UInt8) (data : List UInt8),
      data.length = dataLength.toNat →
        (Frame.around registerAddress commandStatus dataLength data).accepted = true) ∧
    ∀ f f' : Frame, f.accepted = true → f.Corrupts f' → f'.accepted = false := by
  refine ⟨Frame.around_accepted, fun f f' accepted corrupts => ?_⟩
  obtain ⟨-, -, -, zero⟩ := f.accepted_iff.mp accepted
  rw [Bool.eq_false_iff, ne_eq, f'.accepted_iff]
  exact fun accepted' => Frame.sum_ne_zero_of_corrupts corrupts zero accepted'.2.2.2

/-- A reply of two bytes, and the same reply with the second of them changed. -/
theorem verify_detects_corruption_reply :
    (Frame.around 0x03 0 2 [0x0A, 0x0B]).accepted = true ∧
      { Frame.around 0x03 0 2 [0x0A, 0x0B] with data := [0x0A, 0x0C] }.accepted = false := by
  obtain ⟨accepts, detects⟩ := verify_detects_corruption
  have accepted := accepts 0x03 0 2 [0x0A, 0x0B] rfl
  exact ⟨accepted, detects _ _ accepted
    ⟨rfl, rfl, rfl, 3, by decide, 0x0C, by decide, by decide⟩⟩

end Checksums

section Queries

variable {command data : List UInt8} {link : ℕ → Trial} {basicState : State}

namespace Trial

def payload (t : Trial) : List UInt8 := t.data.take (t.data.length - 3)

/-- The try has written the whole command and received a frame that passes the test. -/
structure Verified (command : List UInt8) (t : Trial) : Prop where
  written : t.bytesWritten = command.length
  header_length : t.header.length = 4
  data_length : t.data.length = (byte t.header 3).toNat + 3
  verified : verifyRecvChecksum t.header t.payload
    (word (byte t.data (t.data.length - 3)) (byte t.data (t.data.length - 2)))
    (byte t.data (t.data.length - 1)) = true

theorem dropLast_three (t : Trial) : t.data.dropLast.dropLast.dropLast = t.payload := by
  simp only [payload, List.dropLast_eq_take, List.take_take, List.length_take]
  congr 1
  omega

end Trial

theorem attempt_of_verified {t : Trial} (h : t.Verified command) :
    attempt command t = (t.payload, true) := by
  have written := h.written
  have positive : ¬ t.bytesWritten < 0 := by omega
  have whole : t.bytesWritten.toNat = command.length := by omega
  rw [attempt, if_neg positive, if_neg (not_not.mpr whole), if_neg (not_not.mpr h.header_length)]
  dsimp only
  rw [if_neg (not_not.mpr h.data_length), t.dropLast_three, if_pos h.verified]

theorem verified_of_breaks {t : Trial} (breaks : (attempt command t).2 = true) :
    t.Verified command := by
  unfold attempt at breaks
  dsimp only at breaks
  rw [t.dropLast_three] at breaks
  split_ifs at breaks with negative short header body verified
  exact ⟨by omega, not_not.mp header, not_not.mp body, verified⟩

theorem queryTries_of_not_verified {remaining i : ℕ} (h : ¬ (link i).Verified command) :
    queryTries command link (remaining + 1) i data =
      queryTries command link remaining (i + 1) (attempt command (link i)).1 :=
  if_neg fun breaks => h (verified_of_breaks breaks)

theorem queryTries_of_verified {remaining i j : ℕ} (h : (link j).Verified command)
    (first : ∀ k, i ≤ k → k < j → ¬ (link k).Verified command) (start : i ≤ j)
    (within : j < i + remaining) : queryTries command link remaining i data = (link j).payload := by
  induction remaining generalizing i data with
  | zero => omega
  | succ remaining ih =>
      by_cases here : i = j
      · subst here
        rw [queryTries, attempt_of_verified h]
        rfl
      · rw [queryTries_of_not_verified (first i le_rfl (by omega))]
        exact ih (fun k hk => first k (by omega)) (by omega) (by omega)

theorem queryTries_of_none {remaining i : ℕ}
    (none : ∀ k, i ≤ k → k ≤ i + remaining → ¬ (link k).Verified command) :
    queryTries command link (remaining + 1) i data =
      (attempt command (link (i + remaining))).1 := by
  induction remaining generalizing i data with
  | zero => exact queryTries_of_not_verified (none i le_rfl (by omega))
  | succ remaining ih =>
      have next : i + 1 + remaining = i + (remaining + 1) := by omega
      rw [queryTries_of_not_verified (none i le_rfl (by omega)),
        ih fun k hk hk' => none k (by omega) (by omega), next]

def FirstVerified (command : List UInt8) (link : ℕ → Trial) (i : ℕ) : Prop :=
  i < maxTries ∧ (link i).Verified command ∧ ∀ j < i, ¬ (link j).Verified command

theorem exists_firstVerified {i : ℕ} (within : i < maxTries) (h : (link i).Verified command) :
    ∃ j, FirstVerified command link j := by
  classical
  have some : ∃ j, (link j).Verified command := ⟨i, h⟩
  exact ⟨Nat.find some, lt_of_le_of_lt (Nat.find_min' some h) within, Nat.find_spec some,
    fun j hj => Nat.find_min some hj⟩

theorem queryInfo_of_firstVerified {i : ℕ} (h : FirstVerified command link i) :
    queryInfo command link = (link i).payload :=
  queryTries_of_verified h.2.1 (fun k _ => h.2.2 k) (Nat.zero_le i) (by simpa using h.1)

/-- What the query returns is the payload of a verified frame, or empty. -/
def ReturnsVerified (command : List UInt8) (link : ℕ → Trial) : Prop :=
  queryInfo command link = [] ∨
    ∃ i < maxTries, (link i).Verified command ∧ queryInfo command link = (link i).payload

/-- A query is right about its payload when some try is verified, or else the last one leaves no
data. -/
theorem returnsVerified_iff : ReturnsVerified command link ↔
    (∃ i < maxTries, (link i).Verified command) ∨
      (attempt command (link (maxTries - 1))).1 = [] := by
  by_cases some : ∃ i < maxTries, (link i).Verified command
  · obtain ⟨i, within, verified⟩ := some
    obtain ⟨j, first⟩ := exists_firstVerified within verified
    exact iff_of_true (.inr ⟨j, first.1, first.2.1, queryInfo_of_firstVerified first⟩)
      (.inl ⟨i, within, verified⟩)
  · have last : queryTries command link (2 + 1) 0 [] = (attempt command (link 2)).1 :=
      queryTries_of_none fun k _ within verified => some ⟨k, Nat.lt_succ_of_le within, verified⟩
    change queryInfo command link = (attempt command (link (maxTries - 1))).1 at last
    rw [or_iff_right some, ReturnsVerified, last, or_iff_left]
    rintro ⟨i, within, verified, -⟩
    exact some ⟨i, within, verified⟩

theorem basicInfo_isSome_iff (info : List UInt8) :
    (basicInfo info).isSome = true ↔ 23 ≤ info.length := by
  constructor
  · intro read
    by_contra short
    have last : info[22]? = none := List.getElem?_eq_none (by omega)
    have unread : basicInfo info = none := by
      simp only [basicInfo, last, Option.bind_eq_bind, Option.bind_none, Option.bind_fun_none]
    rw [unread] at read
    cases read
  · intro long
    have element (i : ℕ) (h : i < 23) : info[i]? = some (byte info i) := by
      have inside : i < info.length := by omega
      rw [byte, List.getD_eq_getElem?_getD, List.getElem?_eq_getElem inside, Option.getD_some]
    simp [basicInfo, wordAt, element]

/-- `get_basic_info` does not read past the payload, and changes nothing without a verified payload
that is long enough. -/
def ReadsVerified (basicState : State) (link : ℕ → Trial) : Prop :=
  ∃ after, getBasicInfo basicState link = some after ∧
    ((¬ ∃ i, FirstVerified (readRegisterCommand 0x03) link i ∧ 23 ≤ (link i).payload.length) →
      after = basicState)

/-- The driver keeps to verified data exactly when a try is verified and the first such try brings
all the bytes that are read. -/
theorem verified_only_iff (basicState : State) (link : ℕ → Trial) :
    ReturnsVerified (readRegisterCommand 0x03) link ∧ ReadsVerified basicState link ↔
      ∃ i, FirstVerified (readRegisterCommand 0x03) link i ∧ 23 ≤ (link i).payload.length := by
  constructor
  · rintro ⟨returned, after, read, -⟩
    have long : 23 ≤ (queryInfo (readRegisterCommand 0x03) link).length :=
      (basicInfo_isSome_iff _).mp (Option.isSome_of_eq_some read)
    rcases returned with empty | ⟨i, within, verified, -⟩
    · rw [empty] at long
      simp at long
    · obtain ⟨j, first⟩ := exists_firstVerified within verified
      rw [queryInfo_of_firstVerified first] at long
      exact ⟨j, first, long⟩
  · rintro ⟨i, first, long⟩
    have result := queryInfo_of_firstVerified first
    obtain ⟨after, read⟩ := Option.isSome_iff_exists.mp ((basicInfo_isSome_iff _).mpr long)
    refine ⟨.inr ⟨i, first.1, first.2.1, result⟩, after, by rw [getBasicInfo, result, read], ?_⟩
    exact fun none => absurd ⟨i, first, long⟩ none

def garbled : Trial := ⟨7, [0xDD, 0x03, 0x00, 0x01], [0x05, 0x00, 0x00, 0x77]⟩

theorem garbled_not_verified : ¬ garbled.Verified (readRegisterCommand 0x03) :=
  fun h => absurd h.verified (by decide)

/-- The data of the last try is returned, and `get_basic_info` reads past its end. -/
theorem not_verified_only_garbled :
    ¬ (ReturnsVerified (readRegisterCommand 0x03) (fun _ => garbled) ∧
      ReadsVerified ⟨0, 0, 0, 0, 0, 0, 0, 0, 0, 0, 0, 0, 0, 0⟩ fun _ => garbled) := by
  rintro ⟨returned, -⟩
  rcases returned with empty | ⟨i, -, verified, -⟩
  · exact absurd empty (by decide)
  · exact garbled_not_verified verified

end Queries

end JBDBMS

end BatteryOS.V2
