import Mathlib.Algebra.BigOperators.Group.List.Basic
import Mathlib.Algebra.Ring.Nat
import Mathlib.Data.List.Basic

/-! Checksums that are the complement of a sum of bytes in 16 bits. One byte of a message, or of
its checksum, moves the sum by less than 2^16, so that no single change goes unseen. -/

namespace Checksum

def total (bytes : List UInt8) : ℕ := (bytes.map UInt8.toNat).sum

@[simp] theorem total_nil : total [] = 0 := rfl

@[simp] theorem total_cons (byte : UInt8) (rest : List UInt8) :
    total (byte :: rest) = byte.toNat + total rest := rfl

theorem total_le (bytes : List UInt8) : total bytes ≤ 255 * bytes.length := by
  induction bytes with
  | nil => simp
  | cons byte rest ih =>
      have bound := byte.toNat_lt
      rw [total_cons, List.length_cons]
      omega

theorem foldl_toNat (bytes : List UInt8) (c : UInt16) :
    (bytes.foldl (fun c byte => c + byte.toUInt16) c).toNat = (c.toNat + total bytes) % 2 ^ 16 := by
  induction bytes generalizing c with
  | nil => simp [Nat.mod_eq_of_lt c.toNat_lt]
  | cons byte rest ih =>
      rw [List.foldl_cons, ih, UInt16.toNat_add, UInt8.toNat_toUInt16, Nat.mod_add_mod,
        total_cons, Nat.add_assoc]

theorem total_set (bytes : List UInt8) {i : ℕ} (h : i < bytes.length) (byte : UInt8) :
    total (bytes.set i byte) + bytes[i].toNat = total bytes + byte.toNat := by
  induction bytes generalizing i with
  | nil => simp at h
  | cons first rest ih =>
      cases i with
      | zero =>
          simp only [List.set_cons_zero, total_cons, List.getElem_cons_zero]
          omega
      | succ i =>
          have tail := ih (i := i) (by simpa using h)
          simp only [List.set_cons_succ, total_cons, List.getElem_cons_succ]
          omega

theorem eq_complement_iff (sum word : UInt16) :
    ~~~sum + 1 = word ↔ (sum.toNat + word.toNat) % 2 ^ 16 = 0 := by
  have hs := sum.toNat_lt
  have hw := word.toNat_lt
  rw [← UInt16.toNat_inj, UInt16.toNat_add, UInt16.toNat_not]
  simp only [UInt16.toNat_one, UInt16.size]
  omega

theorem ne_of_toNat {a b : UInt8} (h : a ≠ b) : a.toNat ≠ b.toNat :=
  fun same => h (UInt8.toNat_inj.mp same)

theorem sum_ne_zero_of_set {bytes : List UInt8} {high low byte : UInt8} {i : ℕ}
    (zero : (total bytes + (256 * high.toNat + low.toNat)) % 2 ^ 16 = 0)
    (h : i < bytes.length) (changed : byte ≠ bytes[i]) :
    (total (bytes.set i byte) + (256 * high.toNat + low.toNat)) % 2 ^ 16 ≠ 0 := by
  have moved := total_set bytes h byte
  have different := ne_of_toNat changed
  have old := bytes[i].toNat_lt
  have new := byte.toNat_lt
  omega

theorem sum_ne_zero_of_high {sum : ℕ} {high high' low : UInt8}
    (zero : (sum + (256 * high.toNat + low.toNat)) % 2 ^ 16 = 0) (changed : high' ≠ high) :
    (sum + (256 * high'.toNat + low.toNat)) % 2 ^ 16 ≠ 0 := by
  have different := ne_of_toNat changed
  have old := high.toNat_lt
  have new := high'.toNat_lt
  omega

theorem sum_ne_zero_of_low {sum : ℕ} {high low low' : UInt8}
    (zero : (sum + (256 * high.toNat + low.toNat)) % 2 ^ 16 = 0) (changed : low' ≠ low) :
    (sum + (256 * high.toNat + low'.toNat)) % 2 ^ 16 ≠ 0 := by
  have different := ne_of_toNat changed
  have old := low.toNat_lt
  have new := low'.toNat_lt
  omega

end Checksum
