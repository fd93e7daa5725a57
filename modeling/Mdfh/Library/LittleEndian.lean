import Mathlib.Data.List.Basic
import Mathlib.Tactic

/-!
# Fixed-width little-endian numbers

A number below `256 ^ n` and its `n` bytes, least significant first, and the
effect of writing a byte string into a buffer one cell at a time.

## Main definitions

* `bytes n v` — the `n` low bytes of `v`.
* `value bs` — the number a byte string denotes.
* `overwrite buf p bs` — store the cells of `bs` at `p, p + 1, …`.
-/

namespace Mdfh.Library.LittleEndian

/-- The `n` low bytes of `v`, least significant first. -/
def bytes : Nat → Nat → List UInt8
  | 0, _ => []
  | n + 1, v => UInt8.ofNat v :: bytes n (v / 256)

/-- The number denoted by a byte string, least significant byte first. -/
def value : List UInt8 → Nat
  | [] => 0
  | b :: bs => b.toNat + 256 * value bs

@[simp] theorem length_bytes (n v : Nat) : (bytes n v).length = n := by
  induction n generalizing v with
  | zero => rfl
  | succ n ih => simp [bytes, ih]

theorem value_bytes (n v : Nat) : value (bytes n v) = v % 256 ^ n := by
  induction n generalizing v with
  | zero => simp [bytes, value, Nat.mod_one]
  | succ n ih =>
    have hsplit : v % 256 ^ (n + 1) = v % 256 + 256 * (v / 256 % 256 ^ n) := by
      rw [pow_succ, Nat.mul_comm, Nat.mod_mul]
    simp [bytes, value, ih, hsplit]

theorem value_bytes_of_lt {n v : Nat} (h : v < 256 ^ n) : value (bytes n v) = v := by
  rw [value_bytes, Nat.mod_eq_of_lt h]

theorem value_lt (bs : List UInt8) : value bs < 256 ^ bs.length := by
  induction bs with
  | nil => simp [value]
  | cons b bs ih =>
    have hb := b.toNat_lt
    simp only [value, List.length_cons, pow_succ]
    omega

/-- Splitting a number into bytes undoes reading the bytes. -/
theorem bytes_value (bs : List UInt8) : bytes bs.length (value bs) = bs := by
  induction bs with
  | nil => rfl
  | cons b bs ih =>
    have hb := b.toNat_lt
    have hdiv : (b.toNat + 256 * value bs) / 256 = value bs := by omega
    have hhead : UInt8.ofNat (b.toNat + 256 * value bs) = b := by
      apply UInt8.toNat_inj.mp
      simp only [UInt8.toNat_ofNat']
      omega
    simp [bytes, value, hdiv, hhead, ih]

theorem value_append (as bs : List UInt8) :
    value (as ++ bs) = value as + 256 ^ as.length * value bs := by
  induction as with
  | nil => simp [value]
  | cons a as ih =>
    simp only [List.cons_append, value, ih, List.length_cons, pow_succ]
    ring

/-! ## Writing into a buffer -/

/-- Store the bytes of a string one after the other, the first one at `p`. -/
def overwrite (buf : List UInt8) (p : Nat) : List UInt8 → List UInt8
  | [] => buf
  | b :: bs => overwrite (buf.set p b) (p + 1) bs

@[simp] theorem overwrite_nil (buf : List UInt8) (p : Nat) : overwrite buf p [] = buf := rfl

/-- Two consecutive strings are written like their concatenation. -/
theorem overwrite_overwrite (buf : List UInt8) (p : Nat) (as bs : List UInt8) :
    overwrite (overwrite buf p as) (p + as.length) bs = overwrite buf p (as ++ bs) := by
  induction as generalizing buf p with
  | nil => rfl
  | cons a as ih =>
    have hp : p + (a :: as).length = p + 1 + as.length := by simp; omega
    rw [hp]
    exact ih (buf.set p a) (p + 1)

@[simp] theorem length_overwrite (buf : List UInt8) (p : Nat) (bs : List UInt8) :
    (overwrite buf p bs).length = buf.length := by
  induction bs generalizing buf p with
  | nil => rfl
  | cons b bs ih => simp [overwrite, ih]

/-- A write that fits replaces exactly the cells it covers. -/
theorem overwrite_eq {buf : List UInt8} {p : Nat} {bs : List UInt8}
    (h : p + bs.length ≤ buf.length) :
    overwrite buf p bs = buf.take p ++ bs ++ buf.drop (p + bs.length) := by
  induction bs generalizing buf p with
  | nil => simp
  | cons b bs ih =>
    have hp : p < buf.length := by simp at h; omega
    rw [overwrite, ih (by simp at h ⊢; omega)]
    have htake : (buf.set p b).take (p + 1) = buf.take p ++ [b] := by
      rw [List.take_add_one, List.take_set_of_le (Nat.le_refl p)]
      simp [hp]
    have hdrop : (buf.set p b).drop (p + 1 + bs.length) = buf.drop (p + (b :: bs).length) := by
      rw [List.drop_set_of_lt (by omega)]
      congr 1
      simp; omega
    rw [htake, hdrop]
    simp

end Mdfh.Library.LittleEndian
