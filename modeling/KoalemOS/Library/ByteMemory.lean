import Mathlib.Data.Nat.ModEq
import Mathlib.Logic.Function.Basic
import Mathlib.Tactic.NormNum

/-!
# Byte-addressed memory with little-endian accesses

A memory is a total function from addresses to bytes. `loadLE` and `storeLE`
read and write `n` consecutive bytes as one little-endian number. What a proof
about a program needs is here:

- a store is read back by the load of the same bytes (`loadLE_storeLE_same`)
- a store is invisible to a load of other bytes (`loadLE_storeLE_disjoint`)
- a load depends on its own bytes only (`loadLE_congr`)
- a load is made up of the loads of its parts (`loadLE_add`)
-/

namespace KoalemOS.Library

/-- A memory: every address holds a byte. -/
abbrev Mem := Nat → UInt8

namespace Mem

/-! ## Loads and stores -/

/-- The little-endian number in the `n` bytes at `a`. -/
def loadLE (m : Mem) (a : Nat) : Nat → Nat
  | 0 => 0
  | n + 1 => (m a).toNat + 256 * loadLE m (a + 1) n

/-- Write the `n` low bytes of `v` at `a`, least significant first. -/
def storeLE (m : Mem) (a n v : Nat) : Mem := fun x =>
  if a ≤ x ∧ x < a + n then UInt8.ofNat (v / 256 ^ (x - a)) else m x

/-- A 64-bit load. -/
abbrev load64 (m : Mem) (a : Nat) : Nat := loadLE m a 8

/-- A 64-bit store. -/
abbrev store64 (m : Mem) (a v : Nat) : Mem := storeLE m a 8 v

/-- Write one byte. -/
def storeByte (m : Mem) (a : Nat) (b : UInt8) : Mem := fun x => if x = a then b else m x

/-! ## What a load sees -/

theorem loadLE_lt (m : Mem) (a n : Nat) : loadLE m a n < 256 ^ n := by
  induction n generalizing a with
  | zero => simp [loadLE]
  | succ n ih =>
    have hb := (m a).toNat_lt
    have ht := ih (a + 1)
    simp only [loadLE, pow_succ]
    omega

theorem load64_lt (m : Mem) (a : Nat) : load64 m a < 2 ^ 64 := by
  have h := loadLE_lt m a 8
  norm_num at h ⊢
  exact h

/-- A load depends only on the bytes it reads. -/
theorem loadLE_congr {m m' : Mem} {a n : Nat} (h : ∀ x, a ≤ x → x < a + n → m' x = m x) :
    loadLE m' a n = loadLE m a n := by
  induction n generalizing a with
  | zero => rfl
  | succ n ih =>
    have hhead := h a le_rfl (by omega)
    have htail := ih (a := a + 1) fun x h1 h2 => h x (by omega) (by omega)
    simp only [loadLE, hhead, htail]

/-- Equal bytes at another address give an equal load. -/
theorem loadLE_shift {m m' : Mem} {a b n : Nat} (h : ∀ i < n, m' (b + i) = m (a + i)) :
    loadLE m' b n = loadLE m a n := by
  induction n generalizing a b with
  | zero => rfl
  | succ n ih =>
    have hhead := h 0 (by omega)
    have htail := ih (a := a + 1) (b := b + 1) fun i hi => by
      have := h (i + 1) (by omega)
      rwa [show b + (i + 1) = b + 1 + i by omega, show a + (i + 1) = a + 1 + i by omega] at this
    simp only [Nat.add_zero] at hhead
    simp only [loadLE, hhead, htail]

/-- Equal loads come from equal bytes. -/
theorem byte_eq_of_loadLE_eq {m m' : Mem} {a n : Nat} (h : loadLE m' a n = loadLE m a n) {x : Nat}
    (h1 : a ≤ x) (h2 : x < a + n) : m' x = m x := by
  induction n generalizing a with
  | zero => omega
  | succ n ih =>
    simp only [loadLE] at h
    have hb := (m a).toNat_lt
    have hb' := (m' a).toNat_lt
    by_cases hx : x = a
    · subst hx
      exact UInt8.toNat_inj.mp (by omega)
    · have htail : loadLE m' (a + 1) n = loadLE m (a + 1) n := by omega
      exact ih htail (by omega) (by omega)

/-- A load is made up of the loads of its two parts. -/
theorem loadLE_add (m : Mem) (a n k : Nat) :
    loadLE m a (n + k) = loadLE m a n + 256 ^ n * loadLE m (a + n) k := by
  induction n generalizing a with
  | zero => simp [loadLE]
  | succ n ih =>
    have hassoc : a + 1 + n = a + (n + 1) := by omega
    rw [Nat.add_right_comm, loadLE, ih (a + 1), loadLE, hassoc, pow_succ', Nat.mul_add, Nat.mul_assoc,
      Nat.add_assoc]

/-- Bytes that are the base-256 digits of `v` load as `v`. -/
theorem loadLE_of_digits {m : Mem} {a n v : Nat}
    (h : ∀ i < n, m (a + i) = UInt8.ofNat (v / 256 ^ i)) : loadLE m a n = v % 256 ^ n := by
  induction n generalizing a v with
  | zero => simp [loadLE, Nat.mod_one]
  | succ n ih =>
    have hhead : (m a).toNat = v % 256 := by
      have := h 0 (by omega)
      simp only [Nat.add_zero, pow_zero, Nat.div_one] at this
      rw [this, UInt8.toNat_ofNat']
    have htail : loadLE m (a + 1) n = v / 256 % 256 ^ n := by
      refine ih fun i hi => ?_
      have := h (i + 1) (by omega)
      rw [show a + (i + 1) = a + 1 + i by omega, pow_succ'] at this
      rw [this, Nat.div_div_eq_div_mul]
    rw [loadLE, hhead, htail, pow_succ', Nat.mod_mul]

/-! ## What a store changes -/

theorem storeLE_outside {m : Mem} {a n v x : Nat} (h : x < a ∨ a + n ≤ x) :
    storeLE m a n v x = m x := by
  unfold storeLE
  rw [if_neg (by omega)]

theorem storeByte_same (m : Mem) (a : Nat) (b : UInt8) : storeByte m a b a = b := by
  simp [storeByte]

theorem storeByte_other {m : Mem} {a x : Nat} (b : UInt8) (h : x ≠ a) :
    storeByte m a b x = m x := by
  simp [storeByte, h]

/-- A store is read back by a load of the same bytes. -/
theorem loadLE_storeLE_same (m : Mem) (a n v : Nat) :
    loadLE (storeLE m a n v) a n = v % 256 ^ n := by
  refine loadLE_of_digits fun i hi => ?_
  unfold storeLE
  rw [if_pos (by omega), Nat.add_sub_cancel_left]

/-- A store is invisible to a load of other bytes. -/
theorem loadLE_storeLE_disjoint {m : Mem} {a n v b k : Nat} (h : b + k ≤ a ∨ a + n ≤ b) :
    loadLE (storeLE m a n v) b k = loadLE m b k :=
  loadLE_congr fun _ _ _ => storeLE_outside (by omega)

theorem load64_store64_same (m : Mem) (a : Nat) {v : Nat} (hv : v < 2 ^ 64) :
    load64 (store64 m a v) a = v := by
  rw [load64, store64, loadLE_storeLE_same]
  exact Nat.mod_eq_of_lt (by norm_num; exact hv)

theorem load64_store64_disjoint {m : Mem} {a v b : Nat} (h : b + 8 ≤ a ∨ a + 8 ≤ b) :
    load64 (store64 m a v) b = load64 m b :=
  loadLE_storeLE_disjoint h

end Mem

end KoalemOS.Library
