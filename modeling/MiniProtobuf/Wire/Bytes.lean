import Mathlib.Data.List.Basic
import Mathlib.Tactic.Ring

/-!
Byte strings, little-endian words and the C conversions between machine integers.
A length on the wire is a natural number; the conversions say where it wraps.
-/

namespace Wire

abbrev Bytes := List UInt8

/-- The `k` low bytes of `n`, least significant first. -/
def le : Nat → Nat → Bytes
  | 0, _ => []
  | k + 1, n => UInt8.ofNat n :: le k (n / 256)

/-- The number that a little-endian byte string spells. -/
def ofLe : Bytes → Nat
  | [] => 0
  | b :: bs => b.toNat + 256 * ofLe bs

@[simp] theorem length_le (k n : Nat) : (le k n).length = k := by
  induction k generalizing n with
  | zero => rfl
  | succ k ih => simp [le, ih]

theorem ofLe_lt (bs : Bytes) : ofLe bs < 256 ^ bs.length := by
  induction bs with
  | nil => simp [ofLe]
  | cons b bs ih =>
    have byte := b.toNat_lt
    simp only [ofLe, List.length_cons, Nat.pow_succ]
    omega

theorem ofLe_append (low high : Bytes) : ofLe (low ++ high) = ofLe low + 256 ^ low.length * ofLe high := by
  induction low with
  | nil => simp [ofLe]
  | cons b low ih =>
    rw [List.cons_append, ofLe, ih, ofLe, List.length_cons, Nat.pow_succ]
    ring

theorem ofLe_le (k n : Nat) : ofLe (le k n) = n % 256 ^ k := by
  induction k generalizing n with
  | zero => simp [le, ofLe, Nat.mod_one]
  | succ k ih =>
    have split : n % 256 ^ (k + 1) = n % 256 + 256 * (n / 256 % 256 ^ k) := by
      rw [Nat.pow_succ, Nat.mul_comm, Nat.mod_mul]
    rw [le, ofLe, ih, split]
    simp

theorem ofLe_le_of_lt {k n : Nat} (fits : n < 256 ^ k) : ofLe (le k n) = n := by
  rw [ofLe_le, Nat.mod_eq_of_lt fits]

theorem le_ofLe (bs : Bytes) : le bs.length (ofLe bs) = bs := by
  induction bs with
  | nil => rfl
  | cons b bs ih =>
    have byte := b.toNat_lt
    have low : UInt8.ofNat (b.toNat + 256 * ofLe bs) = b := by
      apply UInt8.toNat_inj.mp
      rw [UInt8.toNat_ofNat']
      omega
    have high : (b.toNat + 256 * ofLe bs) / 256 = ofLe bs := by omega
    rw [List.length_cons, ofLe, le, low, high, ih]

def le32 (n : Nat) : Bytes := le 4 n

@[simp] theorem length_le32 (n : Nat) : (le32 n).length = 4 := length_le 4 n

theorem ofLe_le32 {n : Nat} (fits : n < 2 ^ 32) : ofLe (le32 n) = n :=
  ofLe_le_of_lt (by omega)

theorem le32_ofLe {bs : Bytes} (four : bs.length = 4) : le32 (ofLe bs) = bs := by
  rw [le32, ← four, le_ofLe]

theorem ofLe_lt_word {bs : Bytes} (four : bs.length = 4) : ofLe bs < 2 ^ 32 := by
  have bound := ofLe_lt bs
  rw [four] at bound
  omega

theorem le32_inj {m n : Nat} (mfits : m < 2 ^ 32) (nfits : n < 2 ^ 32) (same : le32 m = le32 n) : m = n := by
  rw [← ofLe_le32 mfits, ← ofLe_le32 nfits, same]

/-- `memcpy` of `src` to the start of `dst`. -/
def overwrite (dst src : Bytes) : Bytes := src ++ dst.drop src.length

theorem take_overwrite {dst src : Bytes} {n : Nat} (len : src.length = n) : (overwrite dst src).take n = src := by
  rw [overwrite, ← len, List.take_left']
  rfl

/-! ### Conversions between machine integers -/

/-- Conversion to a 32-bit `int`: the value modulo `2 ^ 32`, read as signed. -/
def toInt32 (n : Int) : Int := n.bmod (2 ^ 32)

def toUInt32 (n : Int) : Nat := (n % 2 ^ 32).toNat

theorem toInt32_of_range {n : Int} (low : -2 ^ 31 ≤ n) (high : n < 2 ^ 31) : toInt32 n = n := by
  unfold toInt32
  rw [Int.bmod_def]
  split <;> omega

theorem toInt32_bounds (n : Int) : -2 ^ 31 ≤ toInt32 n ∧ toInt32 n < 2 ^ 31 := by
  unfold toInt32
  rw [Int.bmod_def]
  split <;> omega

theorem toInt32_of_high {n : Nat} (high : 2 ^ 31 ≤ n) (word : n < 2 ^ 32) : toInt32 n = n - 2 ^ 32 := by
  unfold toInt32
  rw [Int.bmod_def]
  split <;> omega

/-- A word less something small wraps to a negative `int` or not at all. -/
theorem eq_of_toInt32_nonneg {n : Int} (low : -2 ^ 31 ≤ n) (high : n < 2 ^ 32) (nonneg : 0 ≤ toInt32 n) :
    toInt32 n = n := by
  unfold toInt32 at *
  rw [Int.bmod_def] at *
  split at nonneg <;> omega

theorem toUInt32_of_nonneg {n : Int} (low : 0 ≤ n) (high : n < 2 ^ 32) : (toUInt32 n : Int) = n := by
  unfold toUInt32
  omega

theorem toUInt32_lt (n : Int) : toUInt32 n < 2 ^ 32 := by
  unfold toUInt32
  omega

end Wire
