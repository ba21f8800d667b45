import Mathlib.Data.BitVec
import Mathlib.Tactic.IntervalCases

/-!
# The descriptor of the task-state segment (`src/kernel/gdt.c`)

`GDT_TSS_LO` and `GDT_TSS_HI` scatter the address of the segment over four fields of two words.
Bits 24 to 31 are shifted by 56 from where they are, out of the word: the processor reads them
as zero (`decode_initGdt_iff`).
-/

namespace KoalemOS.Interrupts

/-! ## The code -/

/-- `GDT_FLAG_CS_CONFORMING` -/
def gdtFlagCsConforming : BitVec 64 := 0x40000000000

/-- `GDT_FLAG_CODE` -/
def gdtFlagCode : BitVec 64 := 0x80000000000

/-- `GDT_FLAG_TSS` -/
def gdtFlagTss : BitVec 64 := 0x90000000000

/-- `GDT_FLAG_NOTSYS` -/
def gdtFlagNotsys : BitVec 64 := 0x100000000000

/-- `GDT_FLAG_PRESENT` -/
def gdtFlagPresent : BitVec 64 := 0x800000000000

/-- `GDT_FLAG_64BIT` -/
def gdtFlag64Bit : BitVec 64 := 0x20000000000000

/-- `GDT_DPL` -/
def gdtDpl (dpl : BitVec 64) : BitVec 64 := dpl <<< 45

/-- `GDT_CS` -/
def gdtCs (conf : Bool) (dpl : BitVec 64) : BitVec 64 :=
  gdtFlagCode ||| gdtFlagNotsys ||| gdtFlagPresent ||| gdtFlag64Bit ||| gdtDpl dpl |||
    if conf then gdtFlagCsConforming else 0

/-- `GDT_TSS_LO` -/
def gdtTssLo (base dpl : BitVec 64) : BitVec 64 :=
  gdtFlagTss ||| gdtFlagPresent ||| gdtDpl dpl ||| (base &&& 0xFFFFFF) <<< 16 ||| (base &&& 0xFF000000) <<< 56

/-- `GDT_TSS_HI` -/
def gdtTssHi (base : BitVec 64) : BitVec 64 := (base &&& 0xFFFFFFFF00000000) >>> 32

/-- The table that `init_gdt` fills for a task-state segment at `tss`. -/
def initGdt (tss : BitVec 64) : Vector (BitVec 64) 4 := #v[0, gdtCs false 0, gdtTssLo tss 0, gdtTssHi tss]

/-! ## The processor -/

/-- What the processor reads from the descriptor of a task-state segment. -/
structure DecodedTss where
  base : BitVec 64
  type : BitVec 4
  dpl : BitVec 2
  present : BitVec 1
  deriving DecidableEq

/-- The fields of a descriptor of two words. -/
def decodeTss (low high : BitVec 64) : DecodedTss where
  base := high.extractLsb' 0 32 ++ low.extractLsb' 56 8 ++ low.extractLsb' 16 24
  type := low.extractLsb' 40 4
  dpl := low.extractLsb' 45 2
  present := low.extractLsb' 47 1

/-- What `init_gdt` requests: an available 64-bit task-state segment, privilege level 0, present. -/
def requestedTss (tss : BitVec 64) : DecodedTss := ⟨tss, 9, 0, 1⟩

/-! ## The fields -/

variable {tss : BitVec 64}

/-- The shift leaves nothing of bits 24 to 31. -/
theorem middle_lost (base : BitVec 64) : (base &&& 0xFF000000) <<< 56 = 0 := by
  ext i hi
  interval_cases i <;> simp

/-- The low word: the flags and the low part of the address. -/
theorem gdtTssLo_eq (base : BitVec 64) :
    gdtTssLo base 0 = (gdtFlagTss ||| gdtFlagPresent) ||| (base &&& 0xFFFFFF) <<< 16 := by
  have hdpl : gdtDpl 0 = 0#64 := rfl
  unfold gdtTssLo
  rw [middle_lost, hdpl, BitVec.or_zero]
  exact BitVec.or_zero

theorem tssLo_base (base : BitVec 64) : (gdtTssLo base 0).extractLsb' 16 24 = base.extractLsb' 0 24 := by
  rw [gdtTssLo_eq]
  unfold gdtFlagTss gdtFlagPresent
  ext i hi
  interval_cases i <;> simp

/-- Above the low part of the address there are only the flags. -/
theorem tssLo_flags (base : BitVec 64) : (gdtTssLo base 0).extractLsb' 40 24 = 0x000089#24 := by
  rw [gdtTssLo_eq]
  unfold gdtFlagTss gdtFlagPresent
  ext i hi
  interval_cases i <;> simp

theorem tssHi_base (base : BitVec 64) : (gdtTssHi base).extractLsb' 0 32 = base.extractLsb' 32 32 := by
  unfold gdtTssHi
  ext i hi
  interval_cases i <;> simp

/-- A field of the flags. -/
theorem tssLo_field (base : BitVec 64) (start len : Nat) (h : start + len ≤ 24) :
    (gdtTssLo base 0).extractLsb' (40 + start) len = (0x000089#24).extractLsb' start len := by
  rw [← tssLo_flags base]
  ext i hi
  have hin : start + i < 24 := by omega
  simp [hin, Nat.add_assoc]

/-- What the processor reads: bits 24 to 31 of the address are zero. -/
theorem decodeTss_initGdt (tss : BitVec 64) :
    decodeTss (initGdt tss)[2] (initGdt tss)[3] =
      ⟨tss.extractLsb' 32 32 ++ 0#8 ++ tss.extractLsb' 0 24, 9, 0, 1⟩ := by
  have hlow : (initGdt tss)[2] = gdtTssLo tss 0 := rfl
  have hhigh : (initGdt tss)[3] = gdtTssHi tss := rfl
  have hmiddle := tssLo_field tss 16 8 (by decide)
  have htype := tssLo_field tss 0 4 (by decide)
  have hdpl := tssLo_field tss 5 2 (by decide)
  have hpresent := tssLo_field tss 7 1 (by decide)
  unfold decodeTss
  rw [hlow, hhigh, tssHi_base, tssLo_base, hmiddle, htype, hdpl, hpresent]
  rfl

/-- An address is its three parts. -/
theorem base_parts (tss : BitVec 64) :
    tss.extractLsb' 32 32 ++ tss.extractLsb' 24 8 ++ tss.extractLsb' 0 24 = tss := by
  have hupper : tss.extractLsb' 32 32 ++ tss.extractLsb' 24 8 = tss.extractLsb' 24 40 :=
    BitVec.extractLsb'_append_extractLsb'_eq_extractLsb' (by decide)
  have hall : tss.extractLsb' 24 40 ++ tss.extractLsb' 0 24 = tss.extractLsb' 0 64 :=
    BitVec.extractLsb'_append_extractLsb'_eq_extractLsb' (by decide)
  rw [hupper, hall]
  exact BitVec.extractLsb'_eq_self

/-- The zeros between two parts. -/
theorem middle_append {n m k : Nat} (high : BitVec n) (low : BitVec k) {i : Nat} (hi : i < m) :
    (high ++ 0#m ++ low).getLsbD (k + i) = false := by
  rw [BitVec.getLsbD_append, if_neg (by omega), Nat.add_sub_cancel_left, BitVec.getLsbD_append, if_pos hi,
    BitVec.getLsbD_zero]

/-- **The processor reads the address of the task-state segment** from the table of `init_gdt`,
and the fields requested, exactly when bits 24 to 31 of the address are zero. -/
theorem decode_initGdt_iff (tss : BitVec 64) :
    decodeTss (initGdt tss)[2] (initGdt tss)[3] = requestedTss tss ↔ tss.extractLsb' 24 8 = 0 := by
  rw [decodeTss_initGdt]
  constructor
  · intro h
    have hbase : tss.extractLsb' 32 32 ++ 0#8 ++ tss.extractLsb' 0 24 = tss := congrArg DecodedTss.base h
    rw [← hbase]
    ext i hi
    rw [BitVec.getElem_extractLsb']
    exact (middle_append (tss.extractLsb' 32 32) (tss.extractLsb' 0 24) hi).trans (BitVec.getElem_zero hi).symm
  · intro h
    unfold requestedTss
    congr 1
    have hparts := base_parts tss
    rwa [h] at hparts

/-- A segment 16 MiB into the kernel's part of the address space: bit 24 is lost. -/
theorem decode_initGdt_upper :
    ¬∀ tss, decodeTss (initGdt tss)[2] (initGdt tss)[3] = requestedTss tss := by
  intro h
  have := h 0xFFFFFF1001000000
  revert this
  decide

end KoalemOS.Interrupts
