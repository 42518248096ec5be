import BatteryOS.Library.ByteOrder
import BatteryOS.Library.Checksum
import BatteryOS.V3.Battery
import Mathlib.Data.BitVec
import Mathlib.Data.Vector.Basic

/-! The driver of a JBD battery management system: what it makes of the bytes that have arrived on
the serial port, as a status, against the register map of the device. -/

namespace BatteryOS.V3

open ByteOrder

structure JBDBMS where
  maxChargingCurrentMA : ℚ
  maxDischargingCurrentMA : ℚ

namespace JBDBMS

def bmsStartByte : UInt8 := 0xDD

def bmsStopByte : UInt8 := 0x77

def bmsRegBasicSystemInfo : UInt8 := 0x03

def bmsRxBasicInfoSize : ℕ := 34

def checksum (payload : List UInt8) : UInt16 :=
  ~~~payload.foldl (fun c p => c + p.toUInt16) 0 + 1

def validateData (startByte errorByte : UInt8) (payload : List UInt8) (checkSum : UInt16)
    (stopByte : UInt8) : Bool :=
  if startByte ≠ bmsStartByte then false
  else if errorByte = 0x80 then false
  else if checkSum ≠ checksum payload then false
  else if stopByte ≠ bmsStopByte then false
  else true

def u16 (x y : UInt8) : UInt16 := x.toUInt16 <<< 8 ||| y.toUInt16

/-- Both bytes are signed, and the shift and the union are those of `int`. -/
def s16 (x y : Int8) : Int16 := (x.toInt16.toInt32 <<< 8 ||| y.toInt16.toInt32).toInt16

def byte (data : List UInt8) (i : ℕ) : UInt8 := data.getD i 0

/-- What `refresh` assigns to the status once the response is valid. -/
def reading (bms : JBDBMS) (time : ℤ) (data : List UInt8) : BatteryStatus where
  voltageMV := (u16 (byte data 4) (byte data 5)).toNat * 10
  currentMA := (s16 (byte data 6).toInt8 (byte data 7).toInt8).toInt * 10
  capacityMAh := (u16 (byte data 8) (byte data 9)).toNat * 10
  maxCapacityMAh := (u16 (byte data 10) (byte data 11)).toNat * 10
  maxChargingCurrentMA := bms.maxChargingCurrentMA
  maxDischargingCurrentMA := bms.maxDischargingCurrentMA
  time := time

def validResponse (data : List UInt8) : Bool :=
  let startByte := byte data 0
  let errorByte := byte data 2
  let stopByte := byte data 33
  let checkSum := u16 (byte data 31) (byte data 32)
  let payload := (data.take (data.length - 3)).drop 2
  validateData startByte errorByte payload checkSum stopByte

/-- `refresh` on the bytes that are there a second after the request, and the time after that. -/
def refresh (bms : JBDBMS) (time : ℤ) (data : List UInt8) : BatteryStatus :=
  if data.length ≠ bmsRxBasicInfoSize then .zero
  else if !validResponse data then .zero
  else bms.reading time data

def accepts (data : List UInt8) : Bool := data.length = bmsRxBasicInfoSize && validResponse data

/-- The answer to a read of register 0x03 as the register map has it: the four values that the
driver reads and 19 more data bytes. The checksum is over the status, the length and the data. -/
def basicInfoResponse (voltage : UInt16) (current : Int16) (capacity maxCapacity : UInt16)
    (rest : List.Vector UInt8 19) : List UInt8 :=
  let data := Endian.big.store 2 voltage.toNat ++ Endian.big.store 2 current.toUInt16.toNat ++
    Endian.big.store 2 capacity.toNat ++ Endian.big.store 2 maxCapacity.toNat ++ rest.toList
  let payload := [0x00, UInt8.ofNat data.length] ++ data
  [bmsStartByte, bmsRegBasicSystemInfo] ++ payload ++
    Endian.big.store 2 (2 ^ 16 - (payload.map UInt8.toNat).sum) ++ [bmsStopByte]

theorem refresh_eq (bms : JBDBMS) (time : ℤ) (data : List UInt8) :
    bms.refresh time data = if accepts data then bms.reading time data else .zero := by
  unfold refresh accepts
  split_ifs with size invalid valid valid valid <;> simp_all

section Words

theorem u16_toNat (x y : UInt8) : (u16 x y).toNat = 256 * x.toNat + y.toNat := pair_toNat x y

theorem signExtend_union (x y : BitVec 8) :
    (((x.signExtend 16).signExtend 32) <<< 8 ||| (y.signExtend 16).signExtend 32).signExtend 16 =
      (if y.msb then BitVec.allOnes 8 else x) ++ y := by
  ext i hi
  rw [BitVec.getElem_signExtend, BitVec.getElem_append]
  by_cases low : i < 8
  · have narrow : ¬ 16 ≤ i := by omega
    simp [low, narrow, BitVec.getElem_signExtend, show i < 32 by omega]
  · have high : i - 8 < 8 := by omega
    have wide : i < 32 := by omega
    cases msb : y.msb
    · simp [low, high, hi, wide, msb, BitVec.getElem_signExtend, BitVec.msb_signExtend]
      omega
    · have ones : (BitVec.allOnes 8)[i - 8] = true := BitVec.getElem_allOnes ..
      simp [low, high, hi, wide, msb, ones, BitVec.getElem_signExtend, BitVec.msb_signExtend,
        -BitVec.reduceAllOnes]

theorem s16_toBitVec (x y : Int8) : (s16 x y).toBitVec =
    (if y.toBitVec.msb then BitVec.allOnes 8 else x.toBitVec) ++ y.toBitVec := by
  rw [← signExtend_union]
  rfl

theorem toInt8_toInt (x : UInt8) :
    x.toInt8.toInt = if x.toNat < 128 then (x.toNat : ℤ) else x.toNat - 256 := by
  have value : x.toInt8.toInt = x.toBitVec.toInt := rfl
  rw [value, BitVec.toInt_eq_toNat_cond]
  change (if 2 * x.toNat < 2 ^ 8 then (x.toNat : ℤ) else x.toNat - (2 ^ 8 : ℕ)) = _
  split_ifs <;> omega

theorem toInt_eq_toUInt16 (x : Int16) : x.toInt =
    if x.toUInt16.toNat < 32768 then (x.toUInt16.toNat : ℤ) else x.toUInt16.toNat - 65536 := by
  have value : x.toInt = x.toUInt16.toBitVec.toInt := rfl
  rw [value, BitVec.toInt_eq_toNat_cond]
  change (if 2 * x.toUInt16.toNat < 2 ^ 16 then (x.toUInt16.toNat : ℤ)
    else x.toUInt16.toNat - (2 ^ 16 : ℕ)) = _
  split_ifs <;> omega

theorem s16_toInt (x y : UInt8) : (s16 x.toInt8 y.toInt8).toInt =
    if y.toNat < 128 then 256 * x.toInt8.toInt + y.toNat else (y.toNat : ℤ) - 256 := by
  have sign : y.toInt8.toBitVec.msb = decide (128 ≤ y.toNat) := BitVec.msb_eq_decide _
  have low : y.toInt8.toBitVec.toNat = y.toNat := rfl
  have signed : x.toInt8.toBitVec.toInt = x.toInt8.toInt := rfl
  rw [← Int16.toInt_toBitVec, s16_toBitVec, BitVec.toInt_append, sign, low, if_neg (by decide)]
  by_cases small : y.toNat < 128
  · rw [if_neg (by simpa using small), if_pos small, signed]
    norm_num
  · have ones : (BitVec.allOnes 8).toInt = -1 := by decide
    rw [if_pos (by simpa using small), if_neg small, ones]
    omega

def highByte (v : ℕ) : UInt8 := UInt8.ofNat (v / 256 % 256)

def lowByte (v : ℕ) : UInt8 := UInt8.ofNat (v % 256)

theorem big_store_two (v : ℕ) : Endian.big.store 2 v = [highByte v, lowByte v] := rfl

theorem u16_store (v : ℕ) : (u16 (highByte v) (lowByte v)).toNat = v % 2 ^ 16 := by
  simp only [u16_toNat, highByte, lowByte, UInt8.toNat_ofNat']
  omega

theorem s16_store_iff (v : Int16) :
    (s16 (highByte v.toUInt16.toNat).toInt8 (lowByte v.toUInt16.toNat).toInt8).toInt = v.toInt ↔
      v.toInt % 256 < 128 ∨ -128 ≤ v.toInt ∧ v.toInt < 0 := by
  have bound := v.toUInt16.toNat_lt
  simp only [s16_toInt, toInt8_toInt, toInt_eq_toUInt16 v, highByte, lowByte, UInt8.toNat_ofNat']
  split_ifs <;> omega

end Words

section Checksum

theorem checksum_toNat (payload : List UInt8) (small : (payload.map UInt8.toNat).sum ≤ 2 ^ 16) :
    (checksum payload).toNat = (2 ^ 16 - (payload.map UInt8.toNat).sum) % 2 ^ 16 := by
  have sum := Checksum.foldl_toNat payload 0
  rw [Checksum.total] at sum
  rw [checksum, UInt16.toNat_add, UInt16.toNat_not, sum]
  simp only [UInt16.toNat_zero, UInt16.toNat_one, UInt16.size]
  omega

end Checksum

section Response

theorem byte_payload (a b : UInt8) (payload tail : List UInt8) {i : ℕ} (h : i < payload.length) :
    byte ([a, b] ++ payload ++ tail) (i + 2) = byte payload i := by
  rw [byte, byte, List.append_assoc, List.cons_append, List.cons_append, List.nil_append,
    List.getD_cons_succ, List.getD_cons_succ, List.getD_append _ _ _ _ h]

theorem byte_tail (a b : UInt8) {payload : List UInt8} (tail : List UInt8)
    (size : payload.length = 29) (i : ℕ) :
    byte ([a, b] ++ payload ++ tail) (31 + i) = byte tail i := by
  rw [byte, byte, List.getD_append_right _ _ _ _ (by simp [size])]
  simp [size]

theorem validResponse_frame {a b high low stop : UInt8} {payload : List UInt8}
    (size : payload.length = 29) :
    validResponse ([a, b] ++ payload ++ [high, low, stop]) =
      validateData a (byte payload 0) payload (u16 high low) stop := by
  have inner : (([a, b] ++ payload ++ [high, low, stop]).take
      (([a, b] ++ payload ++ [high, low, stop]).length - 3)).drop 2 = payload := by
    rw [List.take_left' (by simp [size])]
    rfl
  have error : byte ([a, b] ++ payload ++ [high, low, stop]) 2 = byte payload 0 :=
    byte_payload a b payload _ (by omega)
  have last := byte_tail a b [high, low, stop] size
  unfold validResponse
  dsimp only
  rw [inner, error, last 0, last 1, last 2]
  rfl

variable (voltage : UInt16) (current : Int16) (capacity maxCapacity : UInt16)
  (rest : List.Vector UInt8 19)

def basicInfoPayload : List UInt8 :=
  [0x00, 27, highByte voltage.toNat, lowByte voltage.toNat, highByte current.toUInt16.toNat,
    lowByte current.toUInt16.toNat, highByte capacity.toNat, lowByte capacity.toNat,
    highByte maxCapacity.toNat, lowByte maxCapacity.toNat] ++ rest.toList

theorem basicInfoPayload_length :
    (basicInfoPayload voltage current capacity maxCapacity rest).length = 29 := by
  simp [basicInfoPayload]

theorem basicInfoResponse_eq :
    basicInfoResponse voltage current capacity maxCapacity rest =
      let payload := basicInfoPayload voltage current capacity maxCapacity rest
      let sum := (payload.map UInt8.toNat).sum
      [bmsStartByte, bmsRegBasicSystemInfo] ++ payload ++
        [highByte (2 ^ 16 - sum), lowByte (2 ^ 16 - sum), bmsStopByte] := by
  simp [basicInfoResponse, basicInfoPayload, big_store_two]

theorem accepts_basicInfoResponse :
    accepts (basicInfoResponse voltage current capacity maxCapacity rest) = true := by
  have size := basicInfoPayload_length voltage current capacity maxCapacity rest
  have bound := Checksum.total_le (basicInfoPayload voltage current capacity maxCapacity rest)
  rw [size, Checksum.total] at bound
  rw [basicInfoResponse_eq]
  dsimp only
  rw [accepts, validResponse_frame size, Bool.and_eq_true]
  refine ⟨by simp [size, bmsRxBasicInfoSize], ?_⟩
  have correct : u16
      (highByte (2 ^ 16 -
        ((basicInfoPayload voltage current capacity maxCapacity rest).map UInt8.toNat).sum))
      (lowByte (2 ^ 16 -
        ((basicInfoPayload voltage current capacity maxCapacity rest).map UInt8.toNat).sum)) =
      checksum (basicInfoPayload voltage current capacity maxCapacity rest) := by
    rw [← UInt16.toNat_inj, u16_store, checksum_toNat _ (by omega)]
  have status : byte (basicInfoPayload voltage current capacity maxCapacity rest) 0 = 0x00 := rfl
  rw [correct, status]
  simp [validateData]

theorem reading_basicInfoResponse (bms : JBDBMS) (time : ℤ) :
    bms.reading time (basicInfoResponse voltage current capacity maxCapacity rest) =
      { voltageMV := voltage.toNat * 10
        currentMA := (s16 (highByte current.toUInt16.toNat).toInt8
          (lowByte current.toUInt16.toNat).toInt8).toInt * 10
        capacityMAh := capacity.toNat * 10
        maxCapacityMAh := maxCapacity.toNat * 10
        maxChargingCurrentMA := bms.maxChargingCurrentMA
        maxDischargingCurrentMA := bms.maxDischargingCurrentMA
        time := time } := by
  have word (v : UInt16) : (u16 (highByte v.toNat) (lowByte v.toNat)).toNat = v.toNat := by
    rw [u16_store, Nat.mod_eq_of_lt v.toNat_lt]
  rw [← word voltage, ← word capacity, ← word maxCapacity]
  rfl

/-- The status holds ten times the four numbers. -/
structure Decodes (status : BatteryStatus) : Prop where
  voltageMV : status.voltageMV = 10 * voltage.toNat
  currentMA : status.currentMA = 10 * current.toInt
  capacityMAh : status.capacityMAh = 10 * capacity.toNat
  maxCapacityMAh : status.maxCapacityMAh = 10 * maxCapacity.toNat

/-- A response is decoded as the register map has it, unless the low byte of the current has its
sign bit set and the high byte is not all ones. -/
theorem refresh_decodes_iff (bms : JBDBMS) (time : ℤ) :
    accepts (basicInfoResponse voltage current capacity maxCapacity rest) = true ∧
        Decodes voltage current capacity maxCapacity
          (bms.refresh time (basicInfoResponse voltage current capacity maxCapacity rest)) ↔
      current.toInt % 256 < 128 ∨ -128 ≤ current.toInt ∧ current.toInt < 0 := by
  have accepted := accepts_basicInfoResponse voltage current capacity maxCapacity rest
  rw [and_iff_right accepted, refresh_eq, if_pos accepted, reading_basicInfoResponse,
    ← s16_store_iff]
  constructor
  · intro decodes
    have same := decodes.currentMA
    dsimp only at same
    rw [mul_comm, mul_right_inj' (by norm_num), Int.cast_inj] at same
    exact same
  · intro same
    rw [same]
    exact ⟨mul_comm _ _, mul_comm _ _, mul_comm _ _, mul_comm _ _⟩

end Response

/-- 1.28 A is read as -1.28 A. -/
theorem not_decodes_low_sign :
    ¬ (accepts (basicInfoResponse 1200 128 500 1000 (List.Vector.replicate 19 0)) = true ∧
      Decodes 1200 128 500 1000 (refresh ⟨200000, 200000⟩ 0
        (basicInfoResponse 1200 128 500 1000 (List.Vector.replicate 19 0)))) := by
  rintro ⟨-, decodes⟩
  have read : (refresh ⟨200000, 200000⟩ 0
      (basicInfoResponse 1200 128 500 1000 (List.Vector.replicate 19 0))).currentMA = -1280 := by
    decide +kernel
  have claimed := read.symm.trans decodes.currentMA
  have value : (128 : Int16).toInt = 128 := rfl
  rw [value] at claimed
  norm_num at claimed

end JBDBMS

end BatteryOS.V3
