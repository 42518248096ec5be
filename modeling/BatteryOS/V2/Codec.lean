import BatteryOS.Library.ByteOrder
import Mathlib.Data.BitVec
import Mathlib.Data.Vector.Basic
import Mathlib.Tactic.FinCases

/-! Integers and structs of integers as bytes on the wire. The encoder shifts each word right and
the decoder puts the bytes together by shifts and unions; a struct is a loop over its words. A
pointer is the memory from there on, and an access outside of it is `none`. -/

namespace BatteryOS.V2

open ByteOrder

section Integers

variable {w n : ℕ}

/-- The operator `>>` on an integer, which keeps the sign of a signed one. -/
def shiftRight (signed : Bool) (number : BitVec w) (k : ℕ) : BitVec w :=
  if signed then number.sshiftRight k else number >>> k

/-- The byte that `serialize_int` makes of a number in step `i`. -/
def wireByte (signed : Bool) (number : BitVec w) (i : ℕ) : UInt8 :=
  UInt8.ofBitVec ((shiftRight signed number (i * 8) &&& 0xFF#_).setWidth 8)

def poke (buffer : List UInt8) (i : ℕ) (byte : UInt8) : Option (List UInt8) :=
  if i < buffer.length then some (buffer.set i byte) else none

/-- `serialize_int` of an integer of `n` bytes: the bytes used, and the buffer. -/
def serializeInt (signed : Bool) (number : BitVec (8 * n)) (buffer : List UInt8)
    (bufferSize : ℕ) : Option (ℕ × List UInt8) :=
  if bufferSize < n then some (0, buffer)
  else ((List.range n).foldlM (fun memory i => poke memory i (wireByte signed number i))
    buffer).map fun memory => (n, memory)

/-- The assignment `result |= ((T)byte) << (i * 8)`. -/
def unionByte (result : BitVec w) (i : ℕ) (byte : UInt8) : BitVec w :=
  result ||| byte.toBitVec.setWidth w <<< (i * 8)

def deserializeInt (n : ℕ) (buffer : List UInt8) : Option (BitVec (8 * n)) :=
  (List.range n).foldlM (fun result i => buffer[i]?.map (unionByte result i)) 0#(8 * n)

theorem getLsbD_shiftRight {k j : ℕ} (signed : Bool) (number : BitVec w) (h : k + j < w) :
    (shiftRight signed number k).getLsbD j = number.getLsbD (k + j) := by
  have inside : j < w := by omega
  unfold shiftRight
  cases signed
  · simp
  · rw [if_pos rfl, BitVec.getLsbD_sshiftRight]
    simp only [h, inside.not_ge, decide_false, Bool.not_false, Bool.true_and, if_true]

theorem wireByte_eq {i : ℕ} (signed : Bool) (number : BitVec (8 * n)) (h : i < n) :
    wireByte signed number i = UInt8.ofNat (number.toNat / 256 ^ i % 256) := by
  apply UInt8.toBitVec_inj.mp
  apply BitVec.eq_of_getLsbD_eq
  intro j hj
  have inside : j < 8 * n := by omega
  have mask : (255).testBit j = true := by
    rw [show (255 : ℕ) = 2 ^ 8 - 1 from rfl, Nat.testBit_two_pow_sub_one]
    simpa using hj
  have bits : (256 : ℕ) ^ i = 2 ^ (i * 8) := by rw [Nat.mul_comm, Nat.pow_mul]
  have small : (256 : ℕ) = 2 ^ 8 := rfl
  have value : (UInt8.ofNat (number.toNat / 256 ^ i % 256)).toBitVec =
      BitVec.ofNat 8 (number.toNat / 256 ^ i % 256) := rfl
  rw [value, bits, wireByte, BitVec.getLsbD_setWidth, BitVec.getLsbD_and,
    getLsbD_shiftRight signed number (by omega), BitVec.getLsbD_ofNat, BitVec.getLsbD_ofNat,
    mask, small, Nat.testBit_mod_two_pow, Nat.testBit_div_two_pow]
  simp [hj, inside, BitVec.getLsbD, Nat.add_comm]

theorem foldlM_range_succ {σ : Type} (f : σ → ℕ → Option σ) (start : σ) (k : ℕ) :
    (List.range (k + 1)).foldlM f start =
      ((List.range k).foldlM f start).bind fun s => f s k := by
  rw [List.range_succ, List.foldlM_append]
  exact Option.bind_congr fun s _ => by cases h : f s k <;> simp [h]

theorem writeBytes (signed : Bool) (number : BitVec (8 * n)) (buffer : List UInt8) {k : ℕ}
    (within : k ≤ n) (room : n ≤ buffer.length) :
    (List.range k).foldlM (fun memory i => poke memory i (wireByte signed number i)) buffer =
      some (toBytes k number.toNat ++ buffer.drop k) := by
  induction k with
  | zero => simp [toBytes]
  | succ k ih =>
      have next : buffer.drop k = buffer[k] :: buffer.drop (k + 1) :=
        List.drop_eq_getElem_cons (by omega)
      have inside : k < (toBytes k number.toNat ++ buffer.drop k).length := by
        rw [List.length_append, toBytes_length, List.length_drop]
        omega
      have written (byte : UInt8) : (toBytes k number.toNat ++ buffer.drop k).set k byte =
          toBytes k number.toNat ++ [byte] ++ buffer.drop (k + 1) := by
        rw [List.set_append_right _ _ (by simp), toBytes_length, Nat.sub_self, next,
          List.set_cons_zero, List.append_assoc, List.singleton_append]
      rw [foldlM_range_succ, ih (by omega), Option.bind_some, poke, if_pos inside, written,
        wireByte_eq signed number (by omega), ← toBytes_concat]

theorem serializeInt_eq (signed : Bool) (number : BitVec (8 * n)) (buffer : List UInt8)
    {bufferSize : ℕ} (enough : n ≤ bufferSize) (room : n ≤ buffer.length) :
    serializeInt signed number buffer bufferSize =
      some (n, toBytes n number.toNat ++ buffer.drop n) := by
  rw [serializeInt, if_neg (by omega), writeBytes signed number buffer le_rfl room,
    Option.map_some]

theorem unionByte_toNat {k v : ℕ} (byte : UInt8) (low : v < 2 ^ (k * 8)) (fits : k < n) :
    (unionByte (BitVec.ofNat (8 * n) v) k byte).toNat = v + 2 ^ (k * 8) * byte.toNat := by
  have small := byte.toNat_lt
  have room : 2 ^ (k * 8) * 2 ^ 8 ≤ 2 ^ (8 * n) := by
    rw [← Nat.pow_add]
    exact Nat.pow_le_pow_right (by omega) (by omega)
  have high : 2 ^ (k * 8) * byte.toNat < 2 ^ (8 * n) :=
    lt_of_lt_of_le (Nat.mul_lt_mul_of_pos_left small (Nat.two_pow_pos _)) room
  have wide : byte.toNat < 2 ^ (8 * n) :=
    lt_of_lt_of_le small (Nat.pow_le_pow_right (by omega) (by omega))
  have below : v < 2 ^ (8 * n) :=
    lt_of_lt_of_le low (Nat.pow_le_pow_right (by omega) (by omega))
  rw [unionByte, BitVec.toNat_or, BitVec.toNat_shiftLeft, BitVec.toNat_setWidth,
    BitVec.toNat_ofNat, UInt8.toNat_toBitVec, Nat.mod_eq_of_lt below, Nat.mod_eq_of_lt wide,
    Nat.shiftLeft_eq, Nat.mul_comm byte.toNat, Nat.mod_eq_of_lt high, Nat.or_comm,
    ← Nat.two_pow_add_eq_or_of_lt low, Nat.add_comm]

theorem readBytes (buffer : List UInt8) {k : ℕ} (within : k ≤ n) (room : k ≤ buffer.length) :
    (List.range k).foldlM (fun result i => buffer[i]?.map (unionByte result i)) 0#(8 * n) =
      some (BitVec.ofNat (8 * n) (ofBytes (buffer.take k))) := by
  induction k with
  | zero => simp [ofBytes]
  | succ k ih =>
      have byte : buffer[k]? = some buffer[k] := List.getElem?_eq_getElem (by omega)
      have next : buffer.take (k + 1) = buffer.take k ++ [buffer[k]] := by
        rw [List.take_add_one, byte, Option.toList_some]
      have length : (buffer.take k).length = k := List.length_take_of_le (by omega)
      have bits : 256 ^ k = 2 ^ (k * 8) := by rw [Nat.mul_comm, Nat.pow_mul]
      have low : ofBytes (buffer.take k) < 2 ^ (k * 8) := by
        have bound := ofBytes_lt (buffer.take k)
        rwa [length, bits] at bound
      have last : ofBytes [buffer[k]] = buffer[k].toNat := by simp [ofBytes]
      have read : unionByte (BitVec.ofNat (8 * n) (ofBytes (buffer.take k))) k buffer[k] =
          BitVec.ofNat (8 * n) (ofBytes (buffer.take (k + 1))) := by
        have value := unionByte_toNat (n := n) buffer[k] low (by omega)
        rw [next, ofBytes_append, length, last, bits, ← value, BitVec.ofNat_toNat,
          BitVec.setWidth_eq]
      rw [foldlM_range_succ, ih (by omega) (by omega), Option.bind_some, byte, Option.map_some,
        read]

theorem deserializeInt_eq (buffer : List UInt8) (room : n ≤ buffer.length) :
    deserializeInt n buffer = some (BitVec.ofNat (8 * n) (ofBytes (buffer.take n))) :=
  readBytes buffer le_rfl room

theorem deserializeInt_toBytes (number : BitVec (8 * n)) (rest : List UInt8) :
    deserializeInt n (toBytes n number.toNat ++ rest) = some number := by
  have value : ofBytes (toBytes n number.toNat) = number.toNat := by
    rw [ofBytes_toBytes, show 256 = 2 ^ 8 from rfl, ← Nat.pow_mul]
    exact Nat.mod_eq_of_lt number.isLt
  rw [deserializeInt_eq _ (by simp), List.take_left' (toBytes_length ..), value,
    BitVec.ofNat_toNat, BitVec.setWidth_eq]

theorem toBytes_deserializeInt {buffer : List UInt8} {number : BitVec (8 * n)}
    (room : n ≤ buffer.length) (read : deserializeInt n buffer = some number) :
    toBytes n number.toNat = buffer.take n := by
  have length : (buffer.take n).length = n := List.length_take_of_le room
  have bound := ofBytes_lt (buffer.take n)
  rw [length, show 256 = 2 ^ 8 from rfl, ← Nat.pow_mul] at bound
  rw [deserializeInt_eq buffer room, Option.some_inj] at read
  rw [← read, BitVec.toNat_ofNat, Nat.mod_eq_of_lt bound]
  have back := toBytes_ofBytes (buffer.take n)
  rwa [length] at back

theorem serializeInt_short (signed : Bool) (number : BitVec (8 * n)) (buffer : List UInt8)
    {bufferSize : ℕ} (short : bufferSize < n) :
    serializeInt signed number buffer bufferSize = some (0, buffer) :=
  if_pos short

end Integers

section Structs

variable {T : Type} {n k : ℕ}

/-- How an object lies in memory, as `k` integers of `n` bytes. -/
abbrev Layout (T : Type) (n k : ℕ) := T ≃ List.Vector (BitVec (8 * n)) k

/-- The loop of `serialize_struct_as_int` over the words of the object: the size that remains, and
the buffer. -/
def serializeWords (signed : Bool) :
    List (BitVec (8 * n)) → List UInt8 → ℕ → Option (ℕ × List UInt8)
  | [], buffer, remaining => some (remaining, buffer)
  | word :: words, buffer, remaining =>
      (serializeInt signed word buffer remaining).bind fun written =>
        let used := if written.1 < n then n else written.1
        (serializeWords signed words (written.2.drop used) (remaining - used)).map fun rest =>
          (rest.1, written.2.take used ++ rest.2)

def serializeStruct (layout : Layout T n k) (signed : Bool) (obj : T) (buffer : List UInt8)
    (bufferSize : ℕ) : Option (ℕ × List UInt8) :=
  if bufferSize < n * k ∨ n * k % n ≠ 0 then some (0, buffer)
  else (serializeWords signed (layout obj).toList buffer bufferSize).map fun result =>
    (bufferSize - result.1, result.2)

def deserializeWords (n : ℕ) : (k : ℕ) → List UInt8 → Option (List.Vector (BitVec (8 * n)) k)
  | 0, _ => some .nil
  | k + 1, buffer =>
      (deserializeInt n buffer).bind fun word =>
        (deserializeWords n k (buffer.drop n)).map (List.Vector.cons word)

def deserializeStruct (layout : Layout T n k) (obj : T) (buffer : List UInt8)
    (bufferSize : ℕ) : Option (ℕ × T) :=
  if bufferSize < n * k ∨ n * k % n ≠ 0 then some (0, obj)
  else (deserializeWords n k buffer).map fun words => (n * k, layout.symm words)

def wordBytes (words : List (BitVec (8 * n))) : List UInt8 :=
  words.flatMap fun word => toBytes n word.toNat

theorem wordBytes_cons (word : BitVec (8 * n)) (words : List (BitVec (8 * n))) :
    wordBytes (word :: words) = toBytes n word.toNat ++ wordBytes words := rfl

theorem wordBytes_length (words : List (BitVec (8 * n))) :
    (wordBytes words).length = n * words.length := by
  induction words with
  | nil => rfl
  | cons word words ih =>
      rw [wordBytes_cons, List.length_append, toBytes_length, ih, List.length_cons, Nat.mul_add_one,
        Nat.add_comm]

theorem serializeWords_eq (signed : Bool) (words : List (BitVec (8 * n))) (buffer : List UInt8)
    {remaining : ℕ} (enough : n * words.length ≤ remaining)
    (room : n * words.length ≤ buffer.length) :
    serializeWords signed words buffer remaining =
      some (remaining - n * words.length,
        wordBytes words ++ buffer.drop (n * words.length)) := by
  induction words generalizing buffer remaining with
  | nil => simp [serializeWords, wordBytes]
  | cons word words ih =>
      rw [List.length_cons, Nat.mul_add_one] at enough room
      have written := serializeInt_eq signed word buffer (show n ≤ remaining by omega)
        (show n ≤ buffer.length by omega)
      have front : (toBytes n word.toNat ++ buffer.drop n).take n = toBytes n word.toNat :=
        List.take_left' (toBytes_length ..)
      have rest : (toBytes n word.toNat ++ buffer.drop n).drop n = buffer.drop n :=
        List.drop_left' (toBytes_length ..)
      have tail := ih (buffer.drop n) (show n * words.length ≤ remaining - n by omega)
        (by rw [List.length_drop]; omega)
      rw [serializeWords, written, Option.bind_some]
      simp only [lt_irrefl, if_false, front, rest, tail, Option.map_some]
      rw [wordBytes_cons, List.length_cons, Nat.mul_add_one, List.drop_drop, List.append_assoc,
        Nat.add_comm n, Nat.sub_sub, Nat.add_comm n]

theorem deserializeWords_wordBytes (words : List.Vector (BitVec (8 * n)) k) (rest : List UInt8) :
    deserializeWords n k (wordBytes words.toList ++ rest) = some words := by
  induction k with
  | zero => rw [deserializeWords, words.eq_nil]
  | succ k ih =>
      obtain ⟨word, tail, rfl⟩ := words.exists_eq_cons
      rw [List.Vector.toList_cons, wordBytes_cons, List.append_assoc, deserializeWords,
        deserializeInt_toBytes, Option.bind_some, List.drop_left' (toBytes_length ..), ih,
        Option.map_some]

theorem wordBytes_deserializeWords {buffer : List UInt8} (room : n * k ≤ buffer.length) :
    ∃ words, deserializeWords n k buffer = some words ∧
      wordBytes words.toList = buffer.take (n * k) := by
  induction k generalizing buffer with
  | zero => exact ⟨.nil, rfl, by simp [wordBytes]⟩
  | succ k ih =>
      rw [Nat.mul_add_one] at room
      have left : n * k ≤ (buffer.drop n).length := by
        rw [List.length_drop]
        omega
      obtain ⟨tail, readTail, tailBytes⟩ := ih left
      have readWord := deserializeInt_eq (n := n) buffer (by omega)
      refine ⟨_, by rw [deserializeWords, readWord, Option.bind_some, readTail, Option.map_some],
        ?_⟩
      rw [List.Vector.toList_cons, wordBytes_cons, tailBytes,
        toBytes_deserializeInt (by omega) readWord, ← List.take_add, Nat.mul_add_one, Nat.add_comm]

/-- What both sides of a codec for objects of `size` bytes promise for a buffer that has the size
its caller states; nothing of a shorter one is looked at. -/
structure RoundTrip (size : ℕ) (serialize : T → List UInt8 → ℕ → Option (ℕ × List UInt8))
    (deserialize : T → List UInt8 → ℕ → Option (ℕ × T)) : Prop where
  decodes : ∀ obj old buffer bufferSize, size ≤ bufferSize → bufferSize ≤ buffer.length →
    ∃ buffer', serialize obj buffer bufferSize = some (size, buffer') ∧
      buffer'.length = buffer.length ∧ buffer'.drop size = buffer.drop size ∧
      deserialize old buffer' bufferSize = some (size, obj)
  reencodes : ∀ old buffer bufferSize, size ≤ bufferSize → bufferSize ≤ buffer.length →
    ∃ obj, deserialize old buffer bufferSize = some (size, obj) ∧
      ∀ target targetSize, size ≤ targetSize → targetSize ≤ target.length →
        serialize obj target targetSize = some (size, buffer.take size ++ target.drop size)
  refuses : ∀ obj buffer bufferSize, bufferSize < size →
    serialize obj buffer bufferSize = some (0, buffer) ∧
      deserialize obj buffer bufferSize = some (0, obj)

section

variable (layout : Layout T n k) (signed : Bool) (obj : T) (buffer : List UInt8)
  {bufferSize : ℕ}

theorem serializeStruct_eq (enough : n * k ≤ bufferSize) (room : n * k ≤ buffer.length) :
    serializeStruct layout signed obj buffer bufferSize =
      some (n * k, wordBytes (layout obj).toList ++ buffer.drop (n * k)) := by
  have fits : n * (layout obj).toList.length ≤ bufferSize := by rwa [List.Vector.toList_length]
  have words := serializeWords_eq signed (layout obj).toList buffer fits
    (by rwa [List.Vector.toList_length])
  rw [List.Vector.toList_length] at words
  rw [serializeStruct, if_neg (by simp [enough]), words, Option.map_some,
    Nat.sub_sub_self enough]

theorem deserializeStruct_eq (enough : n * k ≤ bufferSize) :
    deserializeStruct layout obj buffer bufferSize =
      (deserializeWords n k buffer).map fun words => (n * k, layout.symm words) := by
  rw [deserializeStruct, if_neg (by simp [enough])]

end

theorem struct_roundTrip (layout : Layout T n k) (signed : Bool) :
    RoundTrip (n * k) (serializeStruct layout signed) (deserializeStruct layout) where
  decodes obj old buffer bufferSize enough room := by
    have length : (wordBytes (layout obj).toList).length = n * k := by
      rw [wordBytes_length, List.Vector.toList_length]
    refine ⟨_, serializeStruct_eq layout signed obj buffer enough (enough.trans room), ?_,
      List.drop_left' length, ?_⟩
    · rw [List.length_append, length, List.length_drop]
      omega
    · rw [deserializeStruct_eq layout old _ enough, deserializeWords_wordBytes, Option.map_some,
        Equiv.symm_apply_apply]
  reencodes old buffer bufferSize enough room := by
    obtain ⟨words, read, bytes⟩ := wordBytes_deserializeWords (enough.trans room)
    refine ⟨layout.symm words, by rw [deserializeStruct_eq layout old _ enough, read,
      Option.map_some], fun target targetSize enough' room' => ?_⟩
    rw [serializeStruct_eq layout signed _ target enough' (enough'.trans room'),
      Equiv.apply_symm_apply, bytes]
  refuses obj buffer bufferSize short :=
    ⟨if_pos (.inl short), if_pos (.inl short)⟩

end Structs

namespace Wire

structure CTimestamp where
  secsSinceEpoch : Int64
  msec : Int64
deriving DecidableEq, Repr

structure BatteryStatus where
  voltageMV : Int64
  currentMA : Int64
  capacityMAh : Int64
  maxCapacityMAh : Int64
  maxChargingCurrentMA : Int64
  maxDischargingCurrentMA : Int64
  timestamp : CTimestamp
deriving DecidableEq, Repr

structure RPCRequestHeader where
  func : Int64
  remoteNameLength : Int64
  currentMA : Int64
  isGreaterThan : Int64
  whenToSet : CTimestamp
  untilWhen : CTimestamp
deriving DecidableEq, Repr

theorem eightWords_eta (words : List.Vector (BitVec 64) 8) :
    ⟨[words.get 0, words.get 1, words.get 2, words.get 3, words.get 4, words.get 5, words.get 6,
      words.get 7], rfl⟩ = words := by
  apply List.Vector.ext
  intro i
  fin_cases i <;> rfl

def serializeInt64 (number : Int64) (buffer : List UInt8) (bufferSize : ℕ) :
    Option (ℕ × List UInt8) :=
  serializeInt (n := 8) true number.toBitVec buffer bufferSize

def deserializeInt64 (buffer : List UInt8) : Option Int64 :=
  (deserializeInt 8 buffer).map Int64.ofBitVec

theorem serializeInt64_eq (number : Int64) (buffer : List UInt8) {bufferSize : ℕ}
    (enough : 8 ≤ bufferSize) (room : 8 ≤ buffer.length) :
    serializeInt64 number buffer bufferSize =
      some (8, toBytes 8 number.toBitVec.toNat ++ buffer.drop 8) :=
  serializeInt_eq (n := 8) true number.toBitVec buffer enough room

theorem deserializeInt64_toBytes (number : Int64) (rest : List UInt8) :
    deserializeInt64 (toBytes 8 number.toBitVec.toNat ++ rest) = some number := by
  have word := deserializeInt_toBytes (n := 8) number.toBitVec rest
  rw [deserializeInt64, word, Option.map_some, Int64.ofBitVec_toBitVec]

theorem toBytes_deserializeInt64 {buffer : List UInt8} {number : Int64}
    (room : 8 ≤ buffer.length) (read : deserializeInt64 buffer = some number) :
    toBytes 8 number.toBitVec.toNat = buffer.take 8 := by
  obtain ⟨word, readWord, rfl⟩ := Option.map_eq_some_iff.mp read
  exact toBytes_deserializeInt (n := 8) room readWord

namespace BatteryStatus

def layout : Layout BatteryStatus 8 8 where
  toFun status := ⟨[status.voltageMV.toBitVec, status.currentMA.toBitVec,
    status.capacityMAh.toBitVec, status.maxCapacityMAh.toBitVec,
    status.maxChargingCurrentMA.toBitVec, status.maxDischargingCurrentMA.toBitVec,
    status.timestamp.secsSinceEpoch.toBitVec, status.timestamp.msec.toBitVec], rfl⟩
  invFun words :=
    { voltageMV := .ofBitVec (words.get 0)
      currentMA := .ofBitVec (words.get 1)
      capacityMAh := .ofBitVec (words.get 2)
      maxCapacityMAh := .ofBitVec (words.get 3)
      maxChargingCurrentMA := .ofBitVec (words.get 4)
      maxDischargingCurrentMA := .ofBitVec (words.get 5)
      timestamp := ⟨.ofBitVec (words.get 6), .ofBitVec (words.get 7)⟩ }
  left_inv _ := rfl
  right_inv := eightWords_eta

def serialize (status : BatteryStatus) (buffer : List UInt8) (bufferSize : ℕ) :
    Option (ℕ × List UInt8) :=
  serializeStruct layout true status buffer bufferSize

def deserialize (status : BatteryStatus) (buffer : List UInt8) (bufferSize : ℕ) :
    Option (ℕ × BatteryStatus) :=
  deserializeStruct layout status buffer bufferSize

end BatteryStatus

namespace RPCRequestHeader

def layout : Layout RPCRequestHeader 8 8 where
  toFun header := ⟨[header.func.toBitVec, header.remoteNameLength.toBitVec,
    header.currentMA.toBitVec, header.isGreaterThan.toBitVec,
    header.whenToSet.secsSinceEpoch.toBitVec, header.whenToSet.msec.toBitVec,
    header.untilWhen.secsSinceEpoch.toBitVec, header.untilWhen.msec.toBitVec], rfl⟩
  invFun words :=
    { func := .ofBitVec (words.get 0)
      remoteNameLength := .ofBitVec (words.get 1)
      currentMA := .ofBitVec (words.get 2)
      isGreaterThan := .ofBitVec (words.get 3)
      whenToSet := ⟨.ofBitVec (words.get 4), .ofBitVec (words.get 5)⟩
      untilWhen := ⟨.ofBitVec (words.get 6), .ofBitVec (words.get 7)⟩ }
  left_inv _ := rfl
  right_inv := eightWords_eta

def serialize (header : RPCRequestHeader) (buffer : List UInt8) (bufferSize : ℕ) :
    Option (ℕ × List UInt8) :=
  serializeStruct layout true header buffer bufferSize

def deserialize (header : RPCRequestHeader) (buffer : List UInt8) (bufferSize : ℕ) :
    Option (ℕ × RPCRequestHeader) :=
  deserializeStruct layout header buffer bufferSize

end RPCRequestHeader

/-- The codec of integers and of both structs. -/
theorem codec_roundTrip :
    (∀ (number : Int64) (buffer : List UInt8) (bufferSize : ℕ), 8 ≤ bufferSize →
      bufferSize ≤ buffer.length → ∃ buffer', serializeInt64 number buffer bufferSize =
        some (8, buffer') ∧ deserializeInt64 buffer' = some number) ∧
    (∀ (number : Int64) (buffer target : List UInt8) (targetSize : ℕ), 8 ≤ targetSize →
      targetSize ≤ target.length → 8 ≤ buffer.length → deserializeInt64 buffer = some number →
        serializeInt64 number target targetSize = some (8, buffer.take 8 ++ target.drop 8)) ∧
    (∀ (number : Int64) (buffer : List UInt8) (bufferSize : ℕ), bufferSize < 8 →
      serializeInt64 number buffer bufferSize = some (0, buffer)) ∧
    RoundTrip 64 BatteryStatus.serialize BatteryStatus.deserialize ∧
    RoundTrip 64 RPCRequestHeader.serialize RPCRequestHeader.deserialize := by
  refine ⟨fun number buffer bufferSize enough room => ?_,
    fun number buffer target targetSize enough room length read => ?_,
    fun number buffer bufferSize short => serializeInt_short true _ buffer short,
    struct_roundTrip BatteryStatus.layout true, struct_roundTrip RPCRequestHeader.layout true⟩
  · exact ⟨_, serializeInt64_eq number buffer enough (enough.trans room),
      deserializeInt64_toBytes number _⟩
  · rw [serializeInt64_eq number target enough (enough.trans room),
      toBytes_deserializeInt64 length read]

/-- A status that is charging, through buffers of exactly its size. -/
theorem codec_roundTrip_charging :
    let status : BatteryStatus := ⟨3700, -500, 1000, 2000, 500, 500, ⟨1, 2⟩⟩
    let old : RPCRequestHeader := ⟨1, 2, 3, 4, ⟨5, 6⟩, ⟨7, 8⟩⟩
    let zeros : List UInt8 := List.replicate 64 0
    (∃ buffer', serializeInt64 (-500) (zeros.take 8) 8 = some (8, buffer') ∧
      deserializeInt64 buffer' = some (-500)) ∧
    serializeInt64 0 [1, 2, 3, 4, 5, 6, 7, 8, 9] 9 = some (8, [0, 0, 0, 0, 0, 0, 0, 0, 9]) ∧
    serializeInt64 (-500) [1, 2, 3] 3 = some (0, [1, 2, 3]) ∧
    (∃ buffer', BatteryStatus.serialize status zeros 64 = some (64, buffer') ∧
      buffer'.length = 64 ∧ buffer'.drop 64 = zeros.drop 64 ∧
      BatteryStatus.deserialize status buffer' 64 = some (64, status)) ∧
    ∃ header : RPCRequestHeader, old.deserialize zeros 64 = some (64, header) ∧
      header.serialize zeros 64 = some (64, zeros.take 64 ++ zeros.drop 64) := by
  intro status old zeros
  obtain ⟨written, rewritten, short, statuses, headers⟩ := codec_roundTrip
  have length : 64 ≤ zeros.length := by decide
  refine ⟨written _ _ _ le_rfl (by decide),
    rewritten 0 (zeros.take 8) [1, 2, 3, 4, 5, 6, 7, 8, 9] 9 (by decide) (by decide) (by decide)
      (by decide +kernel),
    short _ _ _ (by decide), statuses.decodes _ _ zeros 64 le_rfl length, ?_⟩
  obtain ⟨header, decoded, encoded⟩ := headers.reencodes old zeros 64 le_rfl length
  exact ⟨header, decoded, encoded zeros 64 le_rfl length⟩

end Wire

end BatteryOS.V2
