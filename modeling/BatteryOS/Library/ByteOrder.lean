import Mathlib.Algebra.Group.Nat.Defs
import Mathlib.Data.List.Basic

/-! Unsigned words as bytes in memory, on hosts of either byte order, and their conversion to
network order. What one host stores from a word in network order, a host of any order loads back
as the same word. -/

namespace ByteOrder

/-- The bytes of the low `n` bytes of a number, least significant first. -/
def toBytes : Nat → Nat → List UInt8
  | 0, _ => []
  | n + 1, v => UInt8.ofNat (v % 256) :: toBytes n (v / 256)

def ofBytes : List UInt8 → Nat
  | [] => 0
  | byte :: rest => byte.toNat + 256 * ofBytes rest

@[simp] theorem toBytes_length (n v : Nat) : (toBytes n v).length = n := by
  induction n generalizing v with
  | zero => rfl
  | succ n ih => simp [toBytes, ih]

theorem ofBytes_toBytes (n v : Nat) : ofBytes (toBytes n v) = v % 256 ^ n := by
  induction n generalizing v with
  | zero => simp [toBytes, ofBytes, Nat.mod_one]
  | succ n ih =>
      have low : (UInt8.ofNat (v % 256)).toNat = v % 256 := by simp
      rw [toBytes, ofBytes, ih, low, Nat.pow_succ, Nat.mul_comm (256 ^ n) 256, Nat.mod_mul]

theorem toBytes_ofBytes (bytes : List UInt8) : toBytes bytes.length (ofBytes bytes) = bytes := by
  induction bytes with
  | nil => rfl
  | cons byte rest ih =>
      have small : byte.toNat < 256 := byte.toNat_lt
      have low : (byte.toNat + 256 * ofBytes rest) % 256 = byte.toNat := by omega
      have high : (byte.toNat + 256 * ofBytes rest) / 256 = ofBytes rest := by omega
      rw [List.length_cons, ofBytes, toBytes, low, high, ih, UInt8.ofNat_toNat]

theorem ofBytes_lt (bytes : List UInt8) : ofBytes bytes < 256 ^ bytes.length := by
  induction bytes with
  | nil => simp [ofBytes]
  | cons byte rest ih =>
      have small := byte.toNat_lt
      rw [ofBytes, List.length_cons, Nat.pow_succ']
      omega

theorem ofBytes_append (low high : List UInt8) :
    ofBytes (low ++ high) = ofBytes low + 256 ^ low.length * ofBytes high := by
  induction low with
  | nil => simp [ofBytes]
  | cons byte rest ih =>
      rw [List.cons_append, ofBytes, ih, ofBytes, List.length_cons, Nat.pow_succ', Nat.mul_add,
        Nat.mul_assoc, Nat.add_assoc]

theorem toBytes_concat (n v : Nat) :
    toBytes (n + 1) v = toBytes n v ++ [UInt8.ofNat (v / 256 ^ n % 256)] := by
  induction n generalizing v with
  | zero => simp [toBytes]
  | succ n ih => rw [toBytes, ih, toBytes, List.cons_append, Nat.div_div_eq_div_mul, Nat.pow_succ']

theorem pair_toNat (x y : UInt8) :
    (x.toUInt16 <<< 8 ||| y.toUInt16).toNat = 256 * x.toNat + y.toNat := by
  have hx := x.toNat_lt
  have hy := y.toNat_lt
  have shift : x.toNat <<< 8 % 2 ^ 16 = 2 ^ 8 * x.toNat := by
    rw [Nat.shiftLeft_eq, Nat.mod_eq_of_lt (by omega), Nat.mul_comm]
  simp only [UInt16.toNat_or, UInt16.toNat_shiftLeft, UInt8.toNat_toUInt16]
  rw [show (8 : UInt16).toNat % 16 = 8 from rfl, shift, ← Nat.two_pow_add_eq_or_of_lt hy]

inductive Endian where
  | little
  | big
  deriving DecidableEq, Repr

namespace Endian

def store (order : Endian) (n v : Nat) : List UInt8 :=
  match order with
  | .little => toBytes n v
  | .big => (toBytes n v).reverse

def load (order : Endian) (bytes : List UInt8) : Nat :=
  match order with
  | .little => ofBytes bytes
  | .big => ofBytes bytes.reverse

/-- A word of the host as the word whose bytes are in network order, and back. -/
def toNetwork (order : Endian) (n v : Nat) : Nat := order.load (Endian.big.store n v)

def ofNetwork (order : Endian) (n v : Nat) : Nat := Endian.big.load (order.store n v)

variable (order : Endian) (n v : Nat) (bytes : List UInt8)

@[simp] theorem store_length : (order.store n v).length = n := by
  cases order <;> simp [store]

theorem load_store : order.load (order.store n v) = v % 256 ^ n := by
  cases order <;> simp [load, store, ofBytes_toBytes]

theorem store_load : order.store bytes.length (order.load bytes) = bytes := by
  cases order with
  | little => exact toBytes_ofBytes bytes
  | big =>
      have h := toBytes_ofBytes bytes.reverse
      rw [List.length_reverse] at h
      rw [store, load, h, List.reverse_reverse]

theorem store_toNetwork : order.store n (order.toNetwork n v) = Endian.big.store n v := by
  have h := order.store_load (Endian.big.store n v)
  rwa [store_length] at h

theorem ofNetwork_load :
    order.ofNetwork bytes.length (order.load bytes) = Endian.big.load bytes := by
  rw [ofNetwork, store_load]

end Endian

end ByteOrder
