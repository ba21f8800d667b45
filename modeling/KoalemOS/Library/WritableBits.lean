import KoalemOS.Library.ByteMemory
import Mathlib.Data.Nat.Bitwise

/-!
# Memory with read-only bits

Registers of a device look like memory, but a store changes only the bits the device lets it
change. Which bits are writable is a memory of its own.

- `mergeByte`: the writable bits of one byte and the others of another
- `storeWritable`: a store of `n` bytes
- `storeWritable_restore`: storing back what was there undoes a store
- `testBit_loadLE_storeWritable`: what a load sees of a store, bit by bit
-/

namespace KoalemOS.Library

/-- The bits of `new` where `writable` has a one, of `old` elsewhere. -/
def mergeByte (writable old new : UInt8) : UInt8 := (old &&& ~~~writable) ||| (new &&& writable)

theorem testBit_mergeByte (writable old new : UInt8) {i : Nat} (hi : i < 8) :
    (mergeByte writable old new).toNat.testBit i =
      if writable.toNat.testBit i then new.toNat.testBit i else old.toNat.testBit i := by
  unfold mergeByte
  rw [← UInt8.toNat_toBitVec, ← UInt8.toNat_toBitVec, ← UInt8.toNat_toBitVec, ← UInt8.toNat_toBitVec]
  simp only [BitVec.testBit_toNat, UInt8.toBitVec_or, UInt8.toBitVec_and, UInt8.toBitVec_not, BitVec.getLsbD_or,
    BitVec.getLsbD_and, BitVec.getLsbD_not, hi]
  cases writable.toBitVec.getLsbD i <;> simp

/-- Bytes with the same bits are equal. -/
theorem byte_eq_of_testBit {a b : UInt8} (h : ∀ i < 8, a.toNat.testBit i = b.toNat.testBit i) : a = b := by
  apply UInt8.toNat_inj.mp
  apply Nat.eq_of_testBit_eq
  intro i
  by_cases hi : i < 8
  · exact h i hi
  · have hlt : ∀ c : UInt8, c.toNat.testBit i = false := fun c =>
      Nat.testBit_lt_two_pow (Nat.lt_of_lt_of_le c.toNat_lt (Nat.pow_le_pow_right (by decide) (by omega)))
    rw [hlt a, hlt b]

theorem mergeByte_self (writable b : UInt8) : mergeByte writable b b = b := by
  apply byte_eq_of_testBit
  intro i hi
  rw [testBit_mergeByte _ _ _ hi, ite_self]

theorem mergeByte_restore (writable b new : UInt8) : mergeByte writable (mergeByte writable b new) b = b := by
  apply byte_eq_of_testBit
  intro i hi
  rw [testBit_mergeByte _ _ _ hi, testBit_mergeByte _ _ _ hi]
  split_ifs <;> rfl

namespace Mem

/-! ## Bits of a load -/

/-- A bit of a load is a bit of one of its bytes. -/
theorem testBit_loadLE (m : Mem) (a n i : Nat) :
    (loadLE m a n).testBit i = (decide (i < 8 * n) && (m (a + i / 8)).toNat.testBit (i % 8)) := by
  induction n generalizing a i with
  | zero => simp [loadLE]
  | succ n ih =>
    have hbyte : (m a).toNat < 2 ^ 8 := (m a).toNat_lt
    have hform : loadLE m a (n + 1) = 2 ^ 8 * loadLE m (a + 1) n + (m a).toNat := by
      rw [loadLE]
      omega
    rw [hform, Nat.testBit_two_pow_mul_add _ hbyte]
    by_cases hi : i < 8
    · have haddr : a + i / 8 = a := by omega
      have hmod : i % 8 = i := Nat.mod_eq_of_lt hi
      have hlt : i < 8 * (n + 1) := by omega
      rw [if_pos hi, haddr, hmod, decide_eq_true hlt, Bool.true_and]
    · have haddr : a + 1 + (i - 8) / 8 = a + i / 8 := by omega
      have hmod : (i - 8) % 8 = i % 8 := by omega
      have hiff : (i - 8 < 8 * n) = (i < 8 * (n + 1)) := by
        apply propext
        omega
      rw [if_neg hi, ih, haddr, hmod]
      simp only [hiff]

/-! ## Stores -/

/-- Write the `n` low bytes of `v` at `a`, as far as their bits are writable. -/
def storeWritable (m writable : Mem) (a n v : Nat) : Mem := fun x =>
  mergeByte (writable x) (m x) (storeLE m a n v x)

variable {writable m : Mem} {a n v : Nat}

theorem storeWritable_outside {x : Nat} (h : x < a ∨ a + n ≤ x) : storeWritable m writable a n v x = m x := by
  unfold storeWritable
  rw [storeLE_outside h, mergeByte_self]

/-- A store is invisible to a load of other bytes. -/
theorem loadLE_storeWritable_disjoint {b k : Nat} (h : b + k ≤ a ∨ a + n ≤ b) :
    loadLE (storeWritable m writable a n v) b k = loadLE m b k :=
  loadLE_congr fun _ _ _ => storeWritable_outside (by omega)

/-- Storing back what was there undoes a store. -/
theorem storeWritable_restore (writable m : Mem) (a n v : Nat) :
    storeWritable (storeWritable m writable a n v) writable a n (loadLE m a n) = m := by
  funext x
  by_cases hx : a ≤ x ∧ x < a + n
  · have hbyte : storeLE (storeWritable m writable a n v) a n (loadLE m a n) x = m x := by
      have hload : loadLE (storeLE (storeWritable m writable a n v) a n (loadLE m a n)) a n = loadLE m a n := by
        rw [loadLE_storeLE_same, Nat.mod_eq_of_lt (loadLE_lt m a n)]
      exact byte_eq_of_loadLE_eq hload hx.1 hx.2
    have hmerge : storeWritable m writable a n v x = mergeByte (writable x) (m x) (storeLE m a n v x) := rfl
    have houter : storeWritable (storeWritable m writable a n v) writable a n (loadLE m a n) x =
      mergeByte (writable x) (storeWritable m writable a n v x)
        (storeLE (storeWritable m writable a n v) a n (loadLE m a n) x) := rfl
    rw [houter, hbyte, hmerge, mergeByte_restore]
  · rw [storeWritable_outside (by omega), storeWritable_outside (by omega)]

/-- A load sees of a store the bits that are writable, and of the others what was there. -/
theorem testBit_loadLE_storeWritable (writable m : Mem) (a n v i : Nat) :
    (loadLE (storeWritable m writable a n v) a n).testBit i =
      if (loadLE writable a n).testBit i then (v % 256 ^ n).testBit i else (loadLE m a n).testBit i := by
  rw [← loadLE_storeLE_same m a n v]
  simp only [testBit_loadLE]
  by_cases hi : i < 8 * n
  · simp only [hi, decide_true, Bool.true_and]
    exact testBit_mergeByte _ _ _ (Nat.mod_lt _ (by decide))
  · simp [hi]

end Mem

end KoalemOS.Library
