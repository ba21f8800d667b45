import Mathlib.Data.Rat.Floor
import Mathlib.Tactic.Linarith
import Mathlib.Tactic.NormNum
import Mathlib.Tactic.IntervalCases

/-!
# The APIC timer (`src/kernel/apic.c`)

`start_apic_timer_rt` picks the least power of two to divide the timer frequency by with which
the count fits in 32 bits, and `start_apic_timer` encodes it for the divide configuration
register. The shift in `div_pow&4 << 1` is done first, so the third bit of the power is dropped
and the timer is exact up to the divisor 16 only (`firesInTime_iff`).

A `double` is the rational number it stands for.
-/

namespace KoalemOS.Interrupts

/-! ## The code -/

/-- What `start_apic_timer` sets: the callback, and the timer registers of the APIC. -/
structure Timer (C : Type) where
  callback : C
  lvtTimer : BitVec 32
  divConf : BitVec 32
  initCnt : Nat

/-- `APIC_LVT_TMR_PERIODIC` -/
def apicLvtTmrPeriodic : BitVec 32 := 0x20000

/-- The divide configuration for a power: `(div_pow&4 << 1) | (div_pow&3)`, where `<<` binds
tighter than `&`. -/
def divideConfiguration (divPow : BitVec 8) : BitVec 32 :=
  let power := (divPow - 1).setWidth 32
  power &&& (4 <<< 1) ||| power &&& 3

variable {C : Type}

/-- `start_apic_timer` -/
def startApicTimer (timerInt : BitVec 8) (count : Nat) (divPow : BitVec 8) (periodic : Bool) (callback : C) :
    Timer C where
  callback := callback
  lvtTimer := if periodic then timerInt.setWidth 32 ||| apicLvtTmrPeriodic else timerInt.setWidth 32
  divConf := divideConfiguration divPow
  initCnt := count

/-- `start_apic_timer_rt`; a conversion to `uint32_t` drops the fraction. -/
def startApicTimerRt (timerInt : BitVec 8) (timerFreq seconds : ℚ) (periodic : Bool) (callback : C) : Timer C :=
  if seconds * timerFreq < 0xFFFFFFFF then
    startApicTimer timerInt ⌊seconds * timerFreq⌋₊ 0 periodic callback
  else if seconds * timerFreq / 2 < 0xFFFFFFFF then
    startApicTimer timerInt ⌊seconds * timerFreq / 2⌋₊ 1 periodic callback
  else if seconds * timerFreq / 4 < 0xFFFFFFFF then
    startApicTimer timerInt ⌊seconds * timerFreq / 4⌋₊ 2 periodic callback
  else if seconds * timerFreq / 8 < 0xFFFFFFFF then
    startApicTimer timerInt ⌊seconds * timerFreq / 8⌋₊ 3 periodic callback
  else if seconds * timerFreq / 16 < 0xFFFFFFFF then
    startApicTimer timerInt ⌊seconds * timerFreq / 16⌋₊ 4 periodic callback
  else if seconds * timerFreq / 32 < 0xFFFFFFFF then
    startApicTimer timerInt ⌊seconds * timerFreq / 32⌋₊ 5 periodic callback
  else if seconds * timerFreq / 64 < 0xFFFFFFFF then
    startApicTimer timerInt ⌊seconds * timerFreq / 64⌋₊ 6 periodic callback
  else
    startApicTimer timerInt ⌊seconds * timerFreq / 128⌋₊ 7 periodic callback

/-! ## The hardware -/

/-- The divisor the APIC reads from bits 3, 1 and 0 of the divide configuration. -/
def hardwareDivisor (divConf : BitVec 32) : Nat :=
  let code := (divConf.extractLsb' 3 1 ++ divConf.extractLsb' 0 2).toNat
  if code = 7 then 1 else 2 ^ (code + 1)

/-- The timer fires after `ticks` ticks, to within one divided tick. -/
structure FiresInTime (t : Timer C) (ticks : ℚ) : Prop where
  fits : t.initCnt < 2 ^ 32
  notLate : 0 ≤ ticks - t.initCnt * hardwareDivisor t.divConf
  notEarly : ticks - t.initCnt * hardwareDivisor t.divConf < hardwareDivisor t.divConf

/-- The divisors up to 16 are the ones that were meant. -/
theorem hardwareDivisor_of_le {k : Nat} (hk : k ≤ 4) : hardwareDivisor (divideConfiguration (.ofNat 8 k)) = 2 ^ k := by
  interval_cases k <;> rfl

/-- The divisors from 32 on come out 16 times too small. -/
theorem hardwareDivisor_of_gt {k : Nat} (hlt : 4 < k) (hk : k ≤ 7) :
    hardwareDivisor (divideConfiguration (.ofNat 8 k)) * 16 = 2 ^ k := by
  interval_cases k <;> rfl

/-! ## The branches -/

variable {timerInt : BitVec 8} {timerFreq seconds ticks : ℚ} {periodic : Bool} {callback : C} {k : Nat}

/-- Every branch divides by a power of two; the count is too large for the power before it, and
not for this one unless it is the last. -/
theorem startApicTimerRt_cases (timerInt : BitVec 8) (timerFreq seconds : ℚ) (periodic : Bool) (callback : C) :
    ∃ k ≤ 7, startApicTimerRt timerInt timerFreq seconds periodic callback =
        startApicTimer timerInt ⌊seconds * timerFreq / 2 ^ k⌋₊ (.ofNat 8 k) periodic callback ∧
      (k < 7 → seconds * timerFreq / 2 ^ k < 0xFFFFFFFF) ∧
      (0 < k → 0xFFFFFFFF ≤ seconds * timerFreq / 2 ^ (k - 1)) := by
  unfold startApicTimerRt
  split_ifs with h₀ h₁ h₂ h₃ h₄ h₅ h₆
  · exact ⟨0, by decide, by norm_num; rfl, by norm_num; exact h₀, by simp⟩
  · exact ⟨1, by decide, by norm_num; rfl, by norm_num; exact h₁, by norm_num; exact not_lt.mp h₀⟩
  · exact ⟨2, by decide, by norm_num; rfl, by norm_num; exact h₂, by norm_num; exact not_lt.mp h₁⟩
  · exact ⟨3, by decide, by norm_num; rfl, by norm_num; exact h₃, by norm_num; exact not_lt.mp h₂⟩
  · exact ⟨4, by decide, by norm_num; rfl, by norm_num; exact h₄, by norm_num; exact not_lt.mp h₃⟩
  · exact ⟨5, by decide, by norm_num; rfl, by norm_num; exact h₅, by norm_num; exact not_lt.mp h₄⟩
  · exact ⟨6, by decide, by norm_num; rfl, by norm_num; exact h₆, by norm_num; exact not_lt.mp h₅⟩
  · exact ⟨7, by decide, by norm_num; rfl, by simp, by norm_num; exact not_lt.mp h₆⟩

/-- A timer with the divisor its count was divided by fires in time. -/
theorem firesInTime_of_divisor (hticks : 0 ≤ ticks) (hdiv : hardwareDivisor (divideConfiguration (.ofNat 8 k)) = 2 ^ k)
    (hfits : ticks / 2 ^ k < 0xFFFFFFFF) :
    FiresInTime (startApicTimer timerInt ⌊ticks / 2 ^ k⌋₊ (.ofNat 8 k) periodic callback) ticks := by
  have hpos : (0 : ℚ) < 2 ^ k := by positivity
  have hle : (⌊ticks / 2 ^ k⌋₊ : ℚ) ≤ ticks / 2 ^ k := Nat.floor_le (by positivity)
  have hlt : ticks / 2 ^ k < ⌊ticks / 2 ^ k⌋₊ + 1 := Nat.lt_floor_add_one _
  have hcount : (⌊ticks / 2 ^ k⌋₊ : ℚ) < 0xFFFFFFFF := lt_of_le_of_lt hle hfits
  rw [le_div_iff₀ hpos] at hle
  rw [div_lt_iff₀ hpos] at hlt
  constructor
  · show ⌊ticks / 2 ^ k⌋₊ < 2 ^ 32
    have : ⌊ticks / 2 ^ k⌋₊ < 0xFFFFFFFF := by exact_mod_cast hcount
    omega
  · show 0 ≤ ticks - (⌊ticks / 2 ^ k⌋₊ : ℚ) * (hardwareDivisor (divideConfiguration (.ofNat 8 k)) : ℚ)
    rw [hdiv]
    push_cast
    linarith
  · show ticks - (⌊ticks / 2 ^ k⌋₊ : ℚ) * (hardwareDivisor (divideConfiguration (.ofNat 8 k)) : ℚ) <
      (hardwareDivisor (divideConfiguration (.ofNat 8 k)) : ℚ)
    rw [hdiv]
    push_cast
    linarith

/-- A timer with a divisor 16 times too small fires when most of the time is still to go. -/
theorem not_firesInTime_of_divisor (hk : k ≤ 7)
    (hdiv : hardwareDivisor (divideConfiguration (.ofNat 8 k)) * 16 = 2 ^ k) (hlarge : 16 * 0xFFFFFFFF ≤ ticks) :
    ¬FiresInTime (startApicTimer timerInt ⌊ticks / 2 ^ k⌋₊ (.ofNat 8 k) periodic callback) ticks := by
  intro h
  have hearly : ticks - (⌊ticks / 2 ^ k⌋₊ : ℚ) * (hardwareDivisor (divideConfiguration (.ofNat 8 k)) : ℚ) <
    (hardwareDivisor (divideConfiguration (.ofNat 8 k)) : ℚ) := h.notEarly
  have hpos : (0 : ℚ) < 2 ^ k := by positivity
  have hle : (⌊ticks / 2 ^ k⌋₊ : ℚ) ≤ ticks / 2 ^ k := Nat.floor_le (by positivity)
  have hdiv' : (hardwareDivisor (divideConfiguration (.ofNat 8 k)) : ℚ) * 16 = 2 ^ k := by exact_mod_cast hdiv
  have hsmall : (2 : ℚ) ^ k ≤ 2 ^ 7 := pow_le_pow_right₀ (by norm_num) hk
  generalize ⌊ticks / 2 ^ k⌋₊ = count at hearly hle
  rw [le_div_iff₀ hpos, ← hdiv'] at hle
  -- the count stands for at most a sixteenth of the ticks
  linarith

/-- **`start_apic_timer_rt`** programs a timer that fires in time if and only if a divisor up to
16 is enough. -/
theorem firesInTime_iff (timerInt : BitVec 8) (periodic : Bool) (callback : C) (hseconds : 0 ≤ seconds)
    (hfreq : 0 ≤ timerFreq) :
    FiresInTime (startApicTimerRt timerInt timerFreq seconds periodic callback) (seconds * timerFreq) ↔
      seconds * timerFreq < 16 * 0xFFFFFFFF := by
  have hticks : 0 ≤ seconds * timerFreq := mul_nonneg hseconds hfreq
  obtain ⟨k, hk, heq, hfits, hnot⟩ := startApicTimerRt_cases timerInt timerFreq seconds periodic callback
  rw [heq]
  have hpos : (0 : ℚ) < 2 ^ k := by positivity
  by_cases hsmall : k ≤ 4
  · have hlt := hfits (by omega)
    have hpow : (2 : ℚ) ^ k ≤ 2 ^ 4 := pow_le_pow_right₀ (by norm_num) hsmall
    rw [div_lt_iff₀ hpos] at hlt
    constructor
    · intro _
      linarith
    · intro _
      exact firesInTime_of_divisor hticks (hardwareDivisor_of_le hsmall) (hfits (by omega))
  · have hge := hnot (by omega)
    have hpow : (2 : ℚ) ^ 4 ≤ 2 ^ (k - 1) := pow_le_pow_right₀ (by norm_num) (by omega)
    rw [le_div_iff₀ (by positivity)] at hge
    have hlarge : 16 * 0xFFFFFFFF ≤ seconds * timerFreq := by linarith
    constructor
    · intro h
      exact absurd h (not_firesInTime_of_divisor hk (hardwareDivisor_of_gt (by omega) hk) hlarge)
    · intro h
      linarith

/-- A second at 100 MHz. -/
theorem firesInTime_iff_second :
    FiresInTime (startApicTimerRt 33 100000000 1 false ()) (1 * 100000000) ↔
      (1 * 100000000 : ℚ) < 16 * 0xFFFFFFFF :=
  firesInTime_iff 33 false () (by norm_num) (by norm_num)

/-- Twenty minutes at 100 MHz. -/
theorem not_firesInTime_minutes : ¬∀ (timerInt : BitVec 8) (timerFreq seconds : ℚ) (periodic : Bool),
    0 ≤ seconds → 0 ≤ timerFreq → seconds * timerFreq < 128 * 0xFFFFFFFF →
      FiresInTime (startApicTimerRt timerInt timerFreq seconds periodic ()) (seconds * timerFreq) := by
  intro h
  have hfires := h 33 100000000 1200 false (by norm_num) (by norm_num) (by norm_num)
  have heq : startApicTimerRt 33 100000000 1200 false () =
      startApicTimer 33 ⌊(1200 * 100000000 : ℚ) / 2 ^ 5⌋₊ 5 false () := by
    unfold startApicTimerRt
    norm_num
  rw [heq] at hfires
  exact not_firesInTime_of_divisor (k := 5) (by decide) rfl (by norm_num) hfires

end KoalemOS.Interrupts
