import Mathlib.Data.BitVec
import Mathlib.Tactic.IntervalCases

/-!
# Gates of the interrupt descriptor table (`src/kernel/interrupt.c`)

A gate scatters the 64-bit address of its handler over its two words, between the segment
selector and the flags. The processor puts it together again (`decode_idtIntGate`).
-/

namespace KoalemOS.Interrupts

/-! ## The code -/

/-- `idt_gate_descr` -/
structure IdtGateDescr where
  low : BitVec 64
  high : BitVec 64
  deriving DecidableEq

/-- `IDT_GATE_PRESENT_FLAG` -/
def idtGatePresentFlag : BitVec 64 := 0x800000000000

/-- `IDT_GATE_DPL` -/
def idtGateDpl (x : BitVec 64) : BitVec 64 := x <<< 45

/-- `IDT_GATE_TYPE_INTERRUPT` -/
def idtGateTypeInterrupt : BitVec 64 := 0xE0000000000

/-- `IDT_GATE_SEG_SEL`: the selector is promoted to an `int` before the shift. -/
def idtGateSegSel (x : BitVec 16) : BitVec 64 := (x.setWidth 32 <<< 16).signExtend 64

/-- `IDT_GATE_IST` -/
def idtGateIst (x : BitVec 64) : BitVec 64 := (x &&& 0x7) <<< 32

/-- `IDT_GATE_OFFSET_LO` -/
def idtGateOffsetLo (x : BitVec 64) : BitVec 64 := (x &&& 0xFFFF) ||| (x <<< 32 &&& 0xFFFF000000000000)

/-- `IDT_GATE_OFFSET_HI` -/
def idtGateOffsetHi (x : BitVec 64) : BitVec 64 := x >>> 32

/-- `IDT_INT_GATE` -/
def idtIntGate (offset : BitVec 64) (cs : BitVec 16) (dpl ist : BitVec 64) : IdtGateDescr where
  low := idtGatePresentFlag ||| idtGateDpl dpl ||| idtGateTypeInterrupt ||| idtGateIst ist |||
    idtGateSegSel cs ||| idtGateOffsetLo offset
  high := idtGateOffsetHi offset

/-- A gate that is not present. -/
def emptyGate : IdtGateDescr := ⟨0, 0⟩

/-! ## The processor -/

/-- What the processor reads from a gate. -/
structure DecodedGate where
  offset : BitVec 64
  selector : BitVec 16
  ist : BitVec 3
  type : BitVec 4
  dpl : BitVec 2
  present : BitVec 1
  deriving DecidableEq

/-- The fields of a gate. -/
def IdtGateDescr.decode (gate : IdtGateDescr) : DecodedGate where
  offset := gate.high.extractLsb' 0 32 ++ gate.low.extractLsb' 48 16 ++ gate.low.extractLsb' 0 16
  selector := gate.low.extractLsb' 16 16
  ist := gate.low.extractLsb' 32 3
  type := gate.low.extractLsb' 40 4
  dpl := gate.low.extractLsb' 45 2
  present := gate.low.extractLsb' 47 1

/-- The interrupt gate of a handler: present, privilege level 0, no stack of its own. -/
def handlerGate (isr : BitVec 64) (cs : BitVec 16) : DecodedGate := ⟨isr, cs, 0, 0xE, 0, 1⟩

/-! ## Fields of the low word -/

variable {cs : BitVec 16}

/-- The selector keeps to its field as long as its highest bit is clear. -/
theorem idtGateSegSel_eq (h : cs < 0x8000) : idtGateSegSel cs = cs.setWidth 64 <<< 16 := by
  have hcs : cs.toNat < 0x8000 := h
  have hval : (cs.setWidth 32 <<< 16).toNat = cs.toNat * 2 ^ 16 := by
    simp [Nat.shiftLeft_eq]
    omega
  have hmsb : (cs.setWidth 32 <<< 16).msb = false := by
    rw [BitVec.msb_eq_false_iff_two_mul_lt, hval]
    omega
  unfold idtGateSegSel
  rw [BitVec.signExtend_eq_setWidth_of_msb_false hmsb]
  apply BitVec.eq_of_toNat_eq
  simp [Nat.shiftLeft_eq]
  omega

/-- The field of the selector. -/
theorem selector_field : (cs.setWidth 64 <<< 16).extractLsb' 16 16 = cs := by
  ext i hi
  interval_cases i <;> simp

/-- The selector is not in the fields below and above its own. -/
theorem selector_outside {start len : Nat} (h : start + len ≤ 16 ∨ 32 ≤ start) :
    (cs.setWidth 64 <<< 16).extractLsb' start len = BitVec.ofNat len 0 := by
  ext i hi
  rcases h with h | h
  · simp
    omega
  · have hout : cs.getLsbD (start + i - 16) = false := BitVec.getLsbD_of_ge cs _ (by omega)
    simp [hout]

/-- The low field of the offset. -/
theorem offsetLo_low (x : BitVec 64) : (idtGateOffsetLo x).extractLsb' 0 16 = x.extractLsb' 0 16 := by
  unfold idtGateOffsetLo
  ext i hi
  interval_cases i <;> simp

/-- The middle field of the offset. -/
theorem offsetLo_high (x : BitVec 64) : (idtGateOffsetLo x).extractLsb' 48 16 = x.extractLsb' 16 16 := by
  unfold idtGateOffsetLo
  ext i hi
  interval_cases i <;> simp

/-- The offset is not in the fields between. -/
theorem offsetLo_between (x : BitVec 64) : (idtGateOffsetLo x).extractLsb' 16 32 = 0 := by
  unfold idtGateOffsetLo
  ext i hi
  interval_cases i <;> simp

theorem offsetLo_inside (x : BitVec 64) {start len : Nat} (h₁ : 16 ≤ start) (h₂ : start + len ≤ 48) :
    (idtGateOffsetLo x).extractLsb' start len = BitVec.ofNat len 0 := by
  ext i hi
  have hbit := congrArg (fun field => field.getLsbD (start + i - 16)) (offsetLo_between x)
  have hadd : 16 + (start + i - 16) = start + i := by omega
  have hlt : start + i - 16 < 32 := by omega
  simpa [hadd, hlt] using hbit

/-- The three parts of an offset make it up. -/
theorem offset_parts (x : BitVec 64) :
    (idtGateOffsetHi x).extractLsb' 0 32 ++ x.extractLsb' 16 16 ++ x.extractLsb' 0 16 = x := by
  have hhigh : (idtGateOffsetHi x).extractLsb' 0 32 = x.extractLsb' 32 32 := by
    unfold idtGateOffsetHi
    ext i hi
    simp
  have hupper : x.extractLsb' 32 32 ++ x.extractLsb' 16 16 = x.extractLsb' 16 48 :=
    BitVec.extractLsb'_append_extractLsb'_eq_extractLsb' (by decide)
  have hall : x.extractLsb' 16 48 ++ x.extractLsb' 0 16 = x.extractLsb' 0 64 :=
    BitVec.extractLsb'_append_extractLsb'_eq_extractLsb' (by decide)
  rw [hhigh, hupper, hall]
  exact BitVec.extractLsb'_eq_self

/-- A field of the low word is or-ed from the flags, the selector and the offset. -/
theorem low_field (offset : BitVec 64) (h : cs < 0x8000) (start len : Nat) :
    (idtIntGate offset cs 0 0).low.extractLsb' start len =
      (idtGatePresentFlag ||| idtGateTypeInterrupt).extractLsb' start len |||
        (cs.setWidth 64 <<< 16).extractLsb' start len ||| (idtGateOffsetLo offset).extractLsb' start len := by
  have hdpl : idtGateDpl 0 = 0 := rfl
  have hist : idtGateIst 0 = 0 := rfl
  unfold idtIntGate
  rw [← idtGateSegSel_eq h, ← BitVec.extractLsb'_or, ← BitVec.extractLsb'_or, hdpl, hist]
  simp

/-- **The processor reads the handler from its gate**, for every address and every selector below
`0x8000`. -/
theorem decode_idtIntGate (offset : BitVec 64) (h : cs < 0x8000) :
    (idtIntGate offset cs 0 0).decode = handlerGate offset cs := by
  have hlow : (idtIntGate offset cs 0 0).low.extractLsb' 0 16 = offset.extractLsb' 0 16 := by
    rw [low_field offset h, selector_outside (.inl (by decide)), offsetLo_low]
    exact BitVec.zero_or
  have hmid : (idtIntGate offset cs 0 0).low.extractLsb' 48 16 = offset.extractLsb' 16 16 := by
    rw [low_field offset h, selector_outside (.inr (by decide)), offsetLo_high]
    exact BitVec.zero_or
  have hsel : (idtIntGate offset cs 0 0).low.extractLsb' 16 16 = cs := by
    rw [low_field offset h, selector_field, offsetLo_inside offset (by decide) (by decide), BitVec.or_zero]
    exact BitVec.zero_or
  -- the flags
  have hflag : ∀ start len, 32 ≤ start → start + len ≤ 48 → (idtIntGate offset cs 0 0).low.extractLsb' start len =
      (idtGatePresentFlag ||| idtGateTypeInterrupt).extractLsb' start len := by
    intro start len h₁ h₂
    rw [low_field offset h, selector_outside (.inr h₁), offsetLo_inside offset (by omega) h₂, BitVec.or_zero]
    exact BitVec.or_zero
  unfold IdtGateDescr.decode handlerGate
  rw [hlow, hmid, hsel, hflag 32 3 (by decide) (by decide), hflag 40 4 (by decide) (by decide),
    hflag 45 2 (by decide) (by decide), hflag 47 1 (by decide) (by decide)]
  congr 1
  exact offset_parts offset

end KoalemOS.Interrupts
