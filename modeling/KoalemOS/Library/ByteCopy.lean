import KoalemOS.Library.ByteMemory

/-!
# Copies of bytes

`Moved m dest src lo hi m'`: `m'` is `m` with the bytes `lo` up to `hi` of a copy from `src` to
`dest` written. A copy makes the interval longer at either end, as long as the bytes it reads
have not been overwritten:

- downwards when the destination is above the source (`Moved.down`)
- upwards when it is below (`Moved.up`)
- in both directions when the two do not overlap

`Filled m a lo hi b m'`: the bytes `lo` up to `hi` from `a` on have been set to `b`.
-/

namespace KoalemOS.Library

namespace Mem

variable {m m₀ m' m'' : Mem} {dest src lo hi n : Nat}

/-! ## A word that is copied -/

/-- Equal loads at two addresses come from equal bytes. -/
theorem byte_eq_of_loadLE_shift {a b : Nat} (h : loadLE m' b n = loadLE m a n) {i : Nat} (hi : i < n) :
    m' (b + i) = m (a + i) := by
  induction n generalizing a b i with
  | zero => omega
  | succ n ih =>
    simp only [loadLE] at h
    have hlt := (m a).toNat_lt
    have hlt' := (m' b).toNat_lt
    cases i with
    | zero => exact UInt8.toNat_inj.mp (by simp only [Nat.add_zero]; omega)
    | succ i =>
      have htail := ih (a := a + 1) (b := b + 1) (by omega) (Nat.lt_of_succ_lt_succ hi)
      rwa [show b + 1 + i = b + (i + 1) by omega, show a + 1 + i = a + (i + 1) by omega] at htail

/-- The bytes of a word that is copied. -/
theorem store64_load64 (m : Mem) (a b : Nat) {i : Nat} (hi : i < 8) :
    store64 m a (load64 m b) (a + i) = m (b + i) :=
  byte_eq_of_loadLE_shift (load64_store64_same m a (load64_lt m b)) hi

/-! ## Parts of a copy -/

/-- The bytes `lo` up to `hi` of a copy have been written. -/
structure Moved (m : Mem) (dest src lo hi : Nat) (m' : Mem) : Prop where
  copied : ∀ i, lo ≤ i → i < hi → m' (dest + i) = m (src + i)
  other : ∀ v, v < dest + lo ∨ dest + hi ≤ v → m' v = m v

namespace Moved

theorem refl (m : Mem) (dest src k : Nat) : Moved m dest src k k m :=
  ⟨fun _ h₁ h₂ => by omega, fun _ _ => rfl⟩

/-- `n` bytes before those that are copied. -/
theorem down (h : Moved m dest src (lo + n) hi m') (hle : lo + n ≤ hi)
    (hsafe : src ≤ dest ∨ dest + hi ≤ src)
    (hnew : ∀ i < n, m'' (dest + lo + i) = m' (src + lo + i))
    (hother : ∀ v, v < dest + lo ∨ dest + lo + n ≤ v → m'' v = m' v) : Moved m dest src lo hi m'' := by
  refine ⟨fun i h₁ h₂ => ?_, fun v hv => ?_⟩
  · by_cases hi : i < lo + n
    · have hbyte := hnew (i - lo) (by omega)
      rw [show dest + lo + (i - lo) = dest + i by omega, show src + lo + (i - lo) = src + i by omega] at hbyte
      rw [hbyte]
      -- the byte that is read is none of those written
      exact h.other _ (by omega)
    · rw [hother _ (by omega)]
      exact h.copied i (by omega) h₂
  · rw [hother v (by omega)]
    exact h.other v (by omega)

/-- `n` bytes behind those that are copied. -/
theorem up (h : Moved m dest src lo hi m') (hle : lo ≤ hi)
    (hsafe : dest ≤ src ∨ src + hi + n ≤ dest + lo)
    (hnew : ∀ i < n, m'' (dest + hi + i) = m' (src + hi + i))
    (hother : ∀ v, v < dest + hi ∨ dest + hi + n ≤ v → m'' v = m' v) :
    Moved m dest src lo (hi + n) m'' := by
  refine ⟨fun i h₁ h₂ => ?_, fun v hv => ?_⟩
  · by_cases hi' : i < hi
    · rw [hother _ (by omega)]
      exact h.copied i h₁ hi'
    · have hbyte := hnew (i - hi) (by omega)
      rw [show dest + hi + (i - hi) = dest + i by omega, show src + hi + (i - hi) = src + i by omega] at hbyte
      rw [hbyte]
      exact h.other _ (by omega)
  · rw [hother v (by omega)]
    exact h.other v (by omega)

/-- A word before those that are copied. -/
theorem wordDown (h : Moved m dest src (lo + 8) hi m') (hle : lo + 8 ≤ hi)
    (hsafe : src ≤ dest ∨ dest + hi ≤ src) :
    Moved m dest src lo hi (m'.store64 (dest + lo) (m'.load64 (src + lo))) :=
  h.down hle hsafe (fun _ hi => store64_load64 m' _ _ hi) fun _ hv => storeLE_outside hv

/-- A word behind those that are copied. -/
theorem wordUp (h : Moved m dest src lo hi m') (hle : lo ≤ hi) (hsafe : dest ≤ src ∨ src + hi + 8 ≤ dest + lo) :
    Moved m dest src lo (hi + 8) (m'.store64 (dest + hi) (m'.load64 (src + hi))) :=
  h.up hle hsafe (fun _ hi => store64_load64 m' _ _ hi) fun _ hv => storeLE_outside hv

/-- A byte before those that are copied. -/
theorem byteDown (h : Moved m dest src (lo + 1) hi m') (hle : lo + 1 ≤ hi)
    (hsafe : src ≤ dest ∨ dest + hi ≤ src) :
    Moved m dest src lo hi (m'.storeByte (dest + lo) (m' (src + lo))) := by
  refine h.down hle hsafe (fun i hi => ?_) fun v hv => storeByte_other _ (by omega)
  obtain rfl : i = 0 := by omega
  exact storeByte_same _ _ _

/-- A byte behind those that are copied. -/
theorem byteUp (h : Moved m dest src lo hi m') (hle : lo ≤ hi) (hsafe : dest ≤ src ∨ src + hi + 1 ≤ dest + lo) :
    Moved m dest src lo (hi + 1) (m'.storeByte (dest + hi) (m' (src + hi))) := by
  refine h.up hle hsafe (fun i hi => ?_) fun v hv => storeByte_other _ (by omega)
  obtain rfl : i = 0 := by omega
  exact storeByte_same _ _ _

end Moved

/-! ## Parts of a fill -/

/-- The bytes `lo` up to `hi` have been set to `b`. -/
structure Filled (m : Mem) (a lo hi : Nat) (b : UInt8) (m' : Mem) : Prop where
  filled : ∀ i, lo ≤ i → i < hi → m' (a + i) = b
  other : ∀ v, v < a + lo ∨ a + hi ≤ v → m' v = m v

namespace Filled

variable {a : Nat} {b : UInt8}

theorem refl (m : Mem) (a k : Nat) (b : UInt8) : Filled m a k k b m :=
  ⟨fun _ h₁ h₂ => by omega, fun _ _ => rfl⟩

/-- `n` bytes before those that are set. -/
theorem down (h : Filled m a (lo + n) hi b m') (hle : lo + n ≤ hi)
    (hnew : ∀ i < n, m'' (a + lo + i) = b)
    (hother : ∀ v, v < a + lo ∨ a + lo + n ≤ v → m'' v = m' v) : Filled m a lo hi b m'' := by
  refine ⟨fun i h₁ h₂ => ?_, fun v hv => ?_⟩
  · by_cases hi : i < lo + n
    · have hbyte := hnew (i - lo) (by omega)
      rwa [show a + lo + (i - lo) = a + i by omega] at hbyte
    · rw [hother _ (by omega)]
      exact h.filled i (by omega) h₂
  · rw [hother v (by omega)]
    exact h.other v (by omega)

/-- A word before those that are set, each of whose bytes is `b`. -/
theorem wordDown (h : Filled m a (lo + 8) hi b m') (hle : lo + 8 ≤ hi) {w : Nat}
    (hw : ∀ i < 8, UInt8.ofNat (w / 256 ^ i) = b) : Filled m a lo hi b (m'.store64 (a + lo) w) := by
  refine h.down hle (fun i hi => ?_) fun _ hv => storeLE_outside hv
  rw [← hw i hi, store64, storeLE, if_pos (by omega), Nat.add_sub_cancel_left]

/-- A byte before those that are set. -/
theorem byteDown (h : Filled m a (lo + 1) hi b m') (hle : lo + 1 ≤ hi) :
    Filled m a lo hi b (m'.storeByte (a + lo) b) := by
  refine h.down hle (fun i hi => ?_) fun v hv => storeByte_other _ (by omega)
  obtain rfl : i = 0 := by omega
  exact storeByte_same _ _ _

end Filled

end Mem

end KoalemOS.Library
