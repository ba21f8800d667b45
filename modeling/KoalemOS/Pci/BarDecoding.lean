import KoalemOS.Library.Words
import KoalemOS.Pci.Probing

/-!
# Decoding base address registers (`src/kernel/pci.c`)

A base address register as the hardware has it: a window whose size is a power of two, with an
address that is a multiple of the size, in a word whose address bits below the size and whose
type bits are read-only. `make_dev_desc` reports the right kind of every register and the size
of every memory register; but it takes the type bits for bits of the address, and the two lowest
bits of an I/O address for type bits. So it decodes a function right only if all of its
registers are for 32-bit memory that is not prefetchable (`reportsBars_iff`).
-/

namespace KoalemOS.Pci

open KoalemOS.Library

/-! ## The hardware -/

/-- What a register decodes: `2 ^ log` bytes from `base` on, in an address of `bits` bits of which
the register keeps those from `low` on. -/
structure BarWindow (bits low : Nat) where
  log : Nat
  base : Nat
  low_le : low ≤ log
  base_pos : 0 < base
  base_lt : base < 2 ^ bits
  aligned : 2 ^ log ∣ base

/-- A base address register, or a slot that has none. -/
inductive BarRegister where
  | none
  | memory32 (window : BarWindow 32 4) (prefetchable : Bool)
  | memory64 (window : BarWindow 64 4) (prefetchable : Bool)
  | io (window : BarWindow 32 2)

namespace BarRegister

/-- The slots it takes. -/
def slots : BarRegister → Nat
  | memory64 _ _ => 2
  | _ => 1

/-- What its read-only type bits are. -/
def typeBits : BarRegister → Nat
  | none => 0
  | memory32 _ prefetchable => 0x8 * prefetchable.toNat
  | memory64 _ prefetchable => 0x4 + 0x8 * prefetchable.toNat
  | io _ => 1

/-- A word of `8 * bytes` bits holds the address and the type bits; the address bits from the size
on are writable, the others are not. -/
structure Word {bits low : Nat} (writable m : Mem) (a bytes : Nat) (window : BarWindow bits low) (typeBits : Nat) :
    Prop where
  value : m.loadLE a bytes = window.base + typeBits
  bits : ∀ i < 8 * bytes, (writable.loadLE a bytes).testBit i = decide (window.log ≤ i)

/-- The register is programmed at the address. -/
def Holds (writable m : Mem) (a : Nat) : BarRegister → Prop
  | none => m.loadLE a 4 = 0
  | memory32 window prefetchable => Word writable m a 4 window (memory32 window prefetchable).typeBits
  | memory64 window prefetchable => Word writable m a 8 window (memory64 window prefetchable).typeBits
  | io window => Word writable m a 4 window (io window).typeBits

/-- The description of the register as it is. -/
def trueDesc : BarRegister → PciBarDesc
  | none => .zero
  | memory32 window prefetchable => ⟨window.base, 2 ^ window.log, prefetchable, false⟩
  | memory64 window prefetchable => ⟨window.base, 2 ^ window.log, prefetchable, false⟩
  | io window => ⟨window.base, 2 ^ window.log, false, true⟩

/-- The description that comes out. -/
def readDesc : BarRegister → PciBarDesc
  | none => .zero
  | memory32 window prefetchable =>
    ⟨window.base + (memory32 window prefetchable).typeBits, 2 ^ window.log, prefetchable, false⟩
  | memory64 window prefetchable =>
    ⟨window.base + (memory64 window prefetchable).typeBits, 2 ^ window.log, prefetchable, false⟩
  | io window => ⟨window.base + 1, 2 ^ max 4 window.log, false, true⟩

/-- The register is for 32-bit memory that is not prefetchable, or there is none. -/
def IsPlain : BarRegister → Prop
  | none => True
  | memory32 _ prefetchable => prefetchable = false
  | _ => False

end BarRegister

/-- The registers are programmed in the slots from `offset` on. -/
def Programmed (writable m : Mem) (header : Nat) : Nat → List BarRegister → Prop
  | _, [] => True
  | offset, r :: rs => r.Holds writable m (barAt header offset) ∧ Programmed writable m header (offset + r.slots) rs

/-- The slots of a row of registers. -/
def slotCount (rs : List BarRegister) : Nat := (rs.map BarRegister.slots).sum

/-- A function of type 0 or 1 with these registers in its slots. -/
structure FunctionWith (writable m : Mem) (header : Nat) (rs : List BarRegister) : Prop where
  type : m.loadLE (typeAt header) 1 &&& pciHeaderTypeMask = 0 ∧ slotCount rs = 6 ∨
    m.loadLE (typeAt header) 1 &&& pciHeaderTypeMask = 1 ∧ slotCount rs = 2
  registers : Programmed writable m header 0 rs

/-- A description for each slot: that of its register in the first slot of each, zero in the
others. -/
def slotDescs (desc : BarRegister → PciBarDesc) (rs : List BarRegister) : List PciBarDesc :=
  rs.flatMap fun r => desc r :: List.replicate (r.slots - 1) .zero

/-- The descriptions are those of the registers as they are. -/
def ReportsBars (rs : List BarRegister) (bars : Nat → PciBarDesc) : Prop :=
  ∀ i, bars i = (slotDescs BarRegister.trueDesc rs).getD i .zero

/-! ## Reading a register -/

variable {writable m : Mem} {header barsSz offset a : Nat} {bars : Nat → PciBarDesc} {s : Probe} {r : BarRegister}
  {rs : List BarRegister} {bits low bytes t : Nat} {window : BarWindow bits low}

theorem BarRegister.slots_pos (r : BarRegister) : 1 ≤ r.slots := by
  cases r <;> simp [slots]

theorem slotDescs_cons (desc : BarRegister → PciBarDesc) (r : BarRegister) (rs : List BarRegister) :
    slotDescs desc (r :: rs) = (desc r :: List.replicate (r.slots - 1) .zero) ++ slotDescs desc rs :=
  List.flatMap_cons

theorem BarWindow.log_lt (window : BarWindow bits low) : window.log < bits := by
  have hle := Nat.le_of_dvd window.base_pos window.aligned
  exact (Nat.pow_lt_pow_iff_right (by decide)).mp (Nat.lt_of_le_of_lt hle window.base_lt)

/-- The address has no bits below the lowest that the register keeps. -/
theorem BarWindow.base_mod (window : BarWindow bits low) : window.base % 2 ^ low = 0 :=
  Nat.mod_eq_zero_of_dvd (Nat.dvd_trans (Nat.pow_dvd_pow 2 window.low_le) window.aligned)

/-- The size comes out if the word read back has ones from bit `j` on and, above the lowest four
bits, zeros before. -/
theorem sizeOfReadBack_eq {readBack j : Nat} (hj : 4 ≤ j) (hlt : j < bits)
    (h : ∀ i, 4 ≤ i → i < bits → readBack.testBit i = decide (j ≤ i)) : sizeOfReadBack bits readBack = 2 ^ j := by
  have hones : ~~~(BitVec.ofNat bits readBack &&& ~~~0xF) = BitVec.ofNat bits (2 ^ j - 1) := by
    apply BitVec.eq_of_getLsbD_eq
    intro i hi
    have hmask : (0xF : BitVec bits).getLsbD i = decide (i < 4) := by
      show (BitVec.ofNat bits 0xF).getLsbD i = decide (i < 4)
      rw [BitVec.getLsbD_ofNat, decide_eq_true hi, Bool.true_and]
      exact Nat.testBit_two_pow_sub_one 4 i
    simp only [BitVec.getLsbD_not, BitVec.getLsbD_and, BitVec.getLsbD_ofNat, hmask, hi, decide_true, Bool.true_and,
      Nat.testBit_two_pow_sub_one]
    by_cases hlow : i < 4
    · have hij : i < j := by omega
      simp [hlow, hij]
    · rw [h i (by omega) hi]
      by_cases hij : i < j
      · have hji : ¬j ≤ i := by omega
        simp [hij, hji]
      · have hji : j ≤ i := by omega
        simp [hlow, hij, hji]
  have hpow : 2 ^ j < 2 ^ bits := (Nat.pow_lt_pow_iff_right (by decide)).mpr hlt
  have hpos : 0 < 2 ^ j := Nat.pow_pos (by decide)
  have hless : 2 ^ j - 1 < 2 ^ bits := by omega
  have hone : (1 : BitVec bits).toNat = 1 := by
    show (BitVec.ofNat bits 1).toNat = 1
    rw [BitVec.toNat_ofNat]
    exact Nat.mod_eq_of_lt (by omega)
  unfold sizeOfReadBack
  rw [hones, BitVec.toNat_add, BitVec.toNat_ofNat, hone, Nat.mod_eq_of_lt hless, Nat.sub_add_cancel hpos,
    Nat.mod_eq_of_lt hpow]

/-- Sizing a register whose type bits are among the lowest four. -/
theorem BarRegister.Word.barSize {is64bit : Bool} (h : Word writable s.mem a (if is64bit then 8 else 4) window t)
    (hbits : bits = 8 * if is64bit then 8 else 4) (hlow : low ≤ 4) (ht : t < 2 ^ low) (hfour : 4 < bits) :
    (Pci.barSize writable a is64bit s).1 = 2 ^ max 4 window.log := by
  have hlog := window.log_lt
  have hvalue : window.base + t = window.base ||| t := (lor_eq_add window.base_mod ht).symm
  unfold Pci.barSize Probe.store
  dsimp only
  rw [← hbits]
  refine sizeOfReadBack_eq (Nat.le_max_left _ _) (by omega) fun i hi hlt => ?_
  rw [Mem.testBit_loadLE_storeWritable, h.bits i (by omega)]
  by_cases hwin : window.log ≤ i
  · -- a writable bit has become one
    have hone : ((256 ^ (if is64bit then 8 else 4) - 1) % 256 ^ (if is64bit then 8 else 4)).testBit i = true := by
      have hpow : 256 ^ (if is64bit then 8 else 4) = 2 ^ bits := by
        rw [hbits, Nat.pow_mul]
      have hpos : 0 < 2 ^ bits := Nat.pow_pos (by decide)
      rw [hpow, Nat.mod_eq_of_lt (by omega), Nat.testBit_two_pow_sub_one, decide_eq_true hlt]
    have hmax : max 4 window.log ≤ i := by omega
    rw [decide_eq_true hwin, if_pos rfl, hone, decide_eq_true hmax]
  · -- a read-only bit of the address is zero, and the type bits are below
    obtain ⟨q, hq⟩ := window.aligned
    have hbase : window.base.testBit i = false := by
      rw [hq, Nat.testBit_two_pow_mul]
      simp
      omega
    have htype : t.testBit i = false :=
      Nat.testBit_lt_two_pow (Nat.lt_of_lt_of_le ht (Nat.pow_le_pow_right (by decide) (by omega)))
    have hmax : ¬max 4 window.log ≤ i := by omega
    rw [decide_eq_false hwin, if_neg (by decide), h.value, hvalue, Nat.testBit_or, hbase, htype,
      decide_eq_false hmax]
    rfl

/-! ## The kinds of registers -/

theorem and_seven (x : Nat) : x &&& 0x7 = x % 8 := Nat.and_two_pow_sub_one_eq_mod x 3

theorem and_one_bit (x k : Nat) : x &&& 2 ^ k = x / 2 ^ k % 2 * 2 ^ k := by
  have h := land_shifted_mask x k 1
  rwa [Nat.shiftLeft_eq, Nat.pow_one, Nat.one_mul] at h

/-- The kind of a memory register. -/
theorem setKind_memory {bar : Nat} {prefetchable : Bool} (desc : PciBarDesc) (hio : bar % 2 = 0)
    (hpref : bar / 8 % 2 = prefetchable.toNat) (hdesc : desc.isPrefetchable = false) :
    setKind bar desc = { desc with isPrefetchable := prefetchable } := by
  have h₁ : bar &&& 1 = 0 := by
    have hbit := and_one_bit bar 0
    rwa [Nat.pow_zero, Nat.div_one, hio, Nat.zero_mul] at hbit
  have h₈ : bar &&& 0x8 = if prefetchable then 8 else 0 := by
    have hbit := and_one_bit bar 3
    change bar &&& 0x8 = bar / 8 % 2 * 8 at hbit
    rw [hbit, hpref]
    cases prefetchable <;> rfl
  unfold setKind
  rw [if_neg (by omega), h₈]
  cases prefetchable with
  | false =>
    rw [if_neg (by decide), ← hdesc]
  | true => rfl

/-- The kind of an I/O register. -/
theorem setKind_io {bar : Nat} (desc : PciBarDesc) (hio : bar % 2 = 1) :
    setKind bar desc = { desc with isIoSpace := true } := by
  have h₁ : bar &&& 1 = 1 := by
    have hbit := and_one_bit bar 0
    rwa [Nat.pow_zero, Nat.div_one, hio] at hbit
  unfold setKind
  rw [if_pos (by omega)]

/-! ## The loop -/

/-- The lower half of a 64-bit load. -/
theorem loadLE_low (m : Mem) (a : Nat) : m.loadLE a 4 = m.loadLE a 8 % 2 ^ 32 := by
  simp only [Mem.loadLE]
  have h₀ := (m a).toNat_lt
  have h₁ := (m (a + 1)).toNat_lt
  have h₂ := (m (a + 1 + 1)).toNat_lt
  have h₃ := (m (a + 1 + 1 + 1)).toNat_lt
  omega

/-- The loop goes on behind a register that is sized with accesses of the given width. -/
theorem BarRegister.Word.probeBars (is64bit : Bool)
    (h : Word writable s.mem (barAt header offset) (if is64bit then 8 else 4) window t)
    (hbits : bits = 8 * if is64bit then 8 else 4) (hlow : low ≤ 4) (ht : t < 2 ^ low) (hlt : offset < barsSz)
    (hzero : bars offset = .zero) {bar : Nat} (hbar : s.mem.loadLE (barAt header offset) 4 = bar) (hne : bar ≠ 0)
    (hskip : bar % 8 ≠ 2) (hwide : bar % 8 = 4 ↔ is64bit = true) :
    ∃ s', s'.mem = s.mem ∧ Pci.probeBars writable header barsSz offset bars s =
      Pci.probeBars writable header barsSz (offset + if is64bit then 2 else 1) (Function.update bars offset
        { setKind bar .zero with size := 2 ^ max 4 window.log, addr := window.base + t }) s' := by
  have hfour : 4 < bits := by
    cases is64bit <;> simp only [hbits] <;> decide
  have hsize := h.barSize hbits hlow ht hfour
  have hvalue := h.value
  have hat : header + pciConfOffsBars ≤ barAt header offset := Nat.le_add_right _ _
  have hmem := (restores_barSize writable is64bit s hat).mem
  rw [Pci.probeBars, if_pos hlt]
  dsimp only
  rw [hbar, and_seven, if_neg (by omega)]
  cases is64bit with
  | true =>
    rw [if_pos (hwide.mpr rfl), hsize, hmem, hzero]
    rw [if_pos rfl] at hvalue
    rw [hvalue]
    exact ⟨_, hmem, rfl⟩
  | false =>
    have hnarrow : ¬bar % 8 = 4 := fun h => absurd (hwide.mp h) (by decide)
    rw [if_neg hnarrow, hsize, hmem, hzero]
    rw [if_neg (by decide)] at hvalue
    rw [hvalue]
    exact ⟨_, hmem, rfl⟩

/-- **A slot.** The loop goes on behind the register, with its description. -/
theorem BarRegister.Holds.probeBars (h : r.Holds writable s.mem (barAt header offset)) (hlt : offset < barsSz)
    (hzero : bars offset = .zero) :
    ∃ s', s'.mem = s.mem ∧ Pci.probeBars writable header barsSz offset bars s =
      Pci.probeBars writable header barsSz (offset + r.slots) (Function.update bars offset r.readDesc) s' := by
  cases r with
  | none =>
    have hval : s.mem.loadLE (barAt header offset) 4 = 0 := h
    have hsame : Function.update bars offset BarRegister.none.readDesc = bars := by
      rw [BarRegister.readDesc, ← hzero, Function.update_eq_self]
    rw [Pci.probeBars, if_pos hlt, hsame]
    dsimp only
    rw [if_pos (.inl hval)]
    exact ⟨s, rfl, rfl⟩
  | memory32 window prefetchable =>
    have hmod := window.base_mod
    have hpos := window.base_pos
    have htype : (memory32 window prefetchable).typeBits = 0x8 * prefetchable.toNat := rfl
    have hpref := prefetchable.toNat_lt
    have hmax : max 4 window.log = window.log := Nat.max_eq_right window.low_le
    have hkind : setKind (window.base + (memory32 window prefetchable).typeBits) .zero =
        { PciBarDesc.zero with isPrefetchable := prefetchable } :=
      setKind_memory .zero (by omega) (by omega) rfl
    obtain ⟨s', hmem, heq⟩ := Word.probeBars false h rfl (by decide) (by omega) hlt hzero h.value
      (by omega) (by omega) (by simp; omega)
    rw [hkind, hmax] at heq
    exact ⟨s', hmem, heq⟩
  | memory64 window prefetchable =>
    have hmod := window.base_mod
    have htype : (memory64 window prefetchable).typeBits = 0x4 + 0x8 * prefetchable.toNat := rfl
    have hpref := prefetchable.toNat_lt
    have hmax : max 4 window.log = window.log := Nat.max_eq_right window.low_le
    have hbar : s.mem.loadLE (barAt header offset) 4 =
        (window.base + (memory64 window prefetchable).typeBits) % 2 ^ 32 := by
      rw [loadLE_low, h.value]
    have hkind : setKind ((window.base + (memory64 window prefetchable).typeBits) % 2 ^ 32) .zero =
        { PciBarDesc.zero with isPrefetchable := prefetchable } :=
      setKind_memory .zero (by omega) (by omega) rfl
    obtain ⟨s', hmem, heq⟩ := Word.probeBars true h rfl (by decide) (by omega) hlt hzero hbar
      (by omega) (by omega) (by simp; omega)
    rw [hkind, hmax] at heq
    exact ⟨s', hmem, heq⟩
  | io window =>
    have hmod := window.base_mod
    have htype : (io window).typeBits = 1 := rfl
    obtain ⟨s', hmem, heq⟩ := Word.probeBars false h rfl (by decide) (by omega) hlt hzero h.value
      (by omega) (by omega) (by simp; omega)
    rw [setKind_io .zero (by omega)] at heq
    exact ⟨s', hmem, heq⟩

/-- The loop fills the slots with the descriptions of their registers. -/
theorem probeBars_reads (hprog : Programmed writable s.mem header offset rs) (hcount : offset + slotCount rs = barsSz)
    (hzero : ∀ i, offset ≤ i → bars i = .zero) (i : Nat) :
    (probeBars writable header barsSz offset bars s).1 i =
      if i < offset then bars i else (slotDescs BarRegister.readDesc rs).getD (i - offset) .zero := by
  induction rs generalizing offset bars s with
  | nil =>
    have hend : ¬offset < barsSz := by
      have : slotCount [] = 0 := rfl
      omega
    rw [probeBars, if_neg hend]
    split_ifs with hi
    · rfl
    · exact hzero i (by omega)
  | cons r rs ih =>
    obtain ⟨hholds, hrest⟩ := hprog
    have hslots : slotCount (r :: rs) = r.slots + slotCount rs := rfl
    have hpos := r.slots_pos
    obtain ⟨s', hmem, heq⟩ := hholds.probeBars (show offset < barsSz by omega) (hzero offset (Nat.le_refl _))
    rw [← hmem] at hrest
    rw [heq, ih hrest (by omega) fun i hi => by
      rw [Function.update_of_ne (by omega)]
      exact hzero i (by omega)]
    have hlen : (r.readDesc :: List.replicate (r.slots - 1) PciBarDesc.zero).length = r.slots := by
      rw [List.length_cons, List.length_replicate]
      omega
    rw [slotDescs_cons]
    by_cases hbefore : i < offset
    · rw [if_pos (by omega), if_pos hbefore, Function.update_of_ne (by omega)]
    · rw [if_neg hbefore]
      by_cases hin : i < offset + r.slots
      · -- one of the slots of this register
        rw [if_pos hin, List.getD_append _ _ _ _ (by omega)]
        by_cases hfirst : i = offset
        · subst hfirst
          rw [Function.update_self, Nat.sub_self]
          rfl
        · obtain ⟨k, hk⟩ : ∃ k, i - offset = k + 1 := ⟨i - offset - 1, by omega⟩
          rw [Function.update_of_ne hfirst, hzero i (by omega), hk, List.getD_cons_succ,
            List.getD_replicate _ (by omega)]
      · rw [if_neg hin, List.getD_append_right _ _ _ _ (by omega), hlen, Nat.sub_add_eq]

/-! ## When the description is right -/

/-- A description comes out right for the plain registers only. -/
theorem BarRegister.readDesc_eq_trueDesc_iff (r : BarRegister) : r.readDesc = r.trueDesc ↔ r.IsPlain := by
  cases r with
  | none => exact ⟨fun _ => trivial, fun _ => rfl⟩
  | memory32 window prefetchable =>
    have htype : (memory32 window prefetchable).typeBits = 0x8 * prefetchable.toNat := rfl
    constructor
    · intro h
      have haddr : window.base + (memory32 window prefetchable).typeBits = window.base := congrArg PciBarDesc.addr h
      cases prefetchable with
      | false => rfl
      | true =>
        rw [htype, Bool.toNat_true] at haddr
        omega
    · intro h
      have hplain : prefetchable = false := h
      subst hplain
      rfl
  | memory64 window prefetchable =>
    have htype : (memory64 window prefetchable).typeBits = 0x4 + 0x8 * prefetchable.toNat := rfl
    constructor
    · intro h
      have haddr : window.base + (memory64 window prefetchable).typeBits = window.base := congrArg PciBarDesc.addr h
      omega
    · intro h
      exact h.elim
  | io window =>
    constructor
    · intro h
      have haddr : window.base + 1 = window.base := congrArg PciBarDesc.addr h
      omega
    · intro h
      exact h.elim

theorem length_slotDescs (desc : BarRegister → PciBarDesc) (rs : List BarRegister) :
    (slotDescs desc rs).length = slotCount rs := by
  induction rs with
  | nil => rfl
  | cons r rs ih =>
    have hpos := r.slots_pos
    have hdescs : slotDescs desc (r :: rs) =
      (desc r :: List.replicate (r.slots - 1) .zero) ++ slotDescs desc rs := rfl
    have hslots : slotCount (r :: rs) = r.slots + slotCount rs := rfl
    rw [hdescs, List.length_append, ih, List.length_cons, List.length_replicate, hslots]
    omega

/-- The slots come out right if and only if every register does. -/
theorem slotDescs_eq_iff (rs : List BarRegister) :
    slotDescs BarRegister.readDesc rs = slotDescs BarRegister.trueDesc rs ↔ ∀ r ∈ rs, r.IsPlain := by
  induction rs with
  | nil => simp [slotDescs]
  | cons r rs ih =>
    rw [slotDescs_cons, slotDescs_cons, List.cons_append, List.cons_append, List.forall_mem_cons,
      ← r.readDesc_eq_trueDesc_iff, ← ih, List.cons.injEq, List.append_cancel_left_eq]

/-- Switching the function off does not touch its registers. -/
theorem Programmed.switchedOff (h : Programmed writable m header offset rs) :
    Programmed writable (m.storeWritable writable (commandAt header) 2 0) header offset rs := by
  have hload : ∀ offset n, (m.storeWritable writable (commandAt header) 2 0).loadLE (barAt header offset) n =
      m.loadLE (barAt header offset) n := by
    intro offset n
    apply Mem.loadLE_storeWritable_disjoint
    unfold barAt commandAt pciConfOffsBars
    omega
  induction rs generalizing offset with
  | nil => trivial
  | cons r rs ih =>
    obtain ⟨hholds, hrest⟩ := h
    refine ⟨?_, ih hrest⟩
    cases r with
    | none =>
      have hval : m.loadLE (barAt header offset) 4 = 0 := hholds
      exact (hload offset 4).trans hval
    | memory32 window prefetchable => exact ⟨(hload offset 4).trans hholds.value, hholds.bits⟩
    | memory64 window prefetchable => exact ⟨(hload offset 8).trans hholds.value, hholds.bits⟩
    | io window => exact ⟨(hload offset 4).trans hholds.value, hholds.bits⟩

/-- What `make_dev_desc` reports for a function with these registers. -/
theorem FunctionWith.makeDevDesc (h : FunctionWith writable m header rs) (i : Nat) :
    (Pci.makeDevDesc writable header m).1.bars i = (slotDescs BarRegister.readDesc rs).getD i .zero := by
  have hread : ∀ barsSz, slotCount rs = barsSz →
      (probeDevice writable header barsSz m).1.bars i = (slotDescs BarRegister.readDesc rs).getD i .zero := by
    intro barsSz hcount
    have hprog : Programmed writable (Probe.store writable ⟨m, []⟩ (commandAt header) 2 0).mem header 0 rs :=
      h.registers.switchedOff
    exact probeBars_reads hprog (by omega) (fun _ _ => rfl) i
  unfold Pci.makeDevDesc
  rcases h.type with ⟨htype, hcount⟩ | ⟨htype, hcount⟩
  · rw [if_pos htype]
    exact hread _ hcount
  · rw [htype, if_neg (by decide), if_pos rfl]
    exact hread _ hcount

/-- **The registers of a function** are reported as they are if and only if all of them are for
32-bit memory that is not prefetchable. -/
theorem reportsBars_iff (h : FunctionWith writable m header rs) :
    ReportsBars rs (makeDevDesc writable header m).1.bars ↔ ∀ r ∈ rs, r.IsPlain := by
  rw [← slotDescs_eq_iff]
  constructor
  · intro hreports
    refine List.ext_getElem (by rw [length_slotDescs, length_slotDescs]) fun i h₁ h₂ => ?_
    have hi := hreports i
    rw [h.makeDevDesc, List.getD_eq_getElem _ _ h₁, List.getD_eq_getElem _ _ h₂] at hi
    exact hi
  · intro heq i
    rw [h.makeDevDesc, heq]

/-- A configuration space whose first register is this word, and whose other bytes are zero. -/
def firstBarOnly (word : Nat) : Mem := Mem.storeLE (fun _ => 0) 0x10 4 word

theorem loadLE_firstBarOnly {word : Nat} (h : word < 256 ^ 4) : (firstBarOnly word).loadLE (barAt 0 0) 4 = word := by
  unfold firstBarOnly
  exact (Mem.loadLE_storeLE_same _ _ _ _).trans (Nat.mod_eq_of_lt h)

/-- A function of type 0 with one register. -/
theorem functionWith_firstBarOnly {word mask : Nat} (hr : r.Holds (firstBarOnly mask) (firstBarOnly word) (barAt 0 0))
    (hslots : r.slots = 1) :
    FunctionWith (firstBarOnly mask) (firstBarOnly word) 0 (r :: List.replicate 5 .none) := by
  have hempty : ∀ a n, 0x14 ≤ a → (firstBarOnly word).loadLE a n = Mem.loadLE (fun _ => 0) a n :=
    fun a n h => Mem.loadLE_storeLE_disjoint (.inr h)
  have htype : (firstBarOnly word).loadLE (typeAt 0) 1 = 0 := Mem.loadLE_storeLE_disjoint (.inl (by decide))
  constructor
  · left
    rw [htype]
    refine ⟨rfl, ?_⟩
    show r.slots + slotCount (List.replicate 5 .none) = 6
    rw [hslots]
    rfl
  · refine ⟨hr, ?_⟩
    rw [hslots]
    exact ⟨hempty _ 4 (by decide), hempty _ 4 (by decide), hempty _ 4 (by decide), hempty _ 4 (by decide),
      hempty _ 4 (by decide), trivial⟩

/-- 4096 bytes of memory at `0xFE000000`. -/
def memoryWindow : BarWindow 32 4 := ⟨12, 0xFE000000, by decide, by decide, by decide, by decide⟩

/-- 32 ports at `0xC000`. -/
def ioWindow : BarWindow 32 2 := ⟨5, 0xC000, by decide, by decide, by decide, by decide⟩

theorem reportsBars_iff_memory :
    ReportsBars (.memory32 memoryWindow false :: List.replicate 5 .none)
        (makeDevDesc (firstBarOnly 0xFFFFF000) 0 (firstBarOnly 0xFE000000)).1.bars ↔
      ∀ r ∈ BarRegister.memory32 memoryWindow false :: List.replicate 5 .none, r.IsPlain :=
  reportsBars_iff (functionWith_firstBarOnly ⟨loadLE_firstBarOnly (by decide), by
    rw [loadLE_firstBarOnly (by decide)]
    decide⟩ rfl)

/-- Ports at `0xC000` are reported to be at `0xC001`. -/
theorem not_reportsBars_io : ¬∀ (writable m : Mem) (header : Nat) (rs : List BarRegister),
    FunctionWith writable m header rs → ReportsBars rs (makeDevDesc writable header m).1.bars := by
  intro h
  have hio : FunctionWith (firstBarOnly 0xFFFFFFE0) (firstBarOnly 0xC001) 0
      (.io ioWindow :: List.replicate 5 .none) :=
    functionWith_firstBarOnly ⟨loadLE_firstBarOnly (by decide), by
      rw [loadLE_firstBarOnly (by decide)]
      decide⟩ rfl
  have hreports := h _ _ _ _ hio 0
  rw [hio.makeDevDesc] at hreports
  exact absurd (congrArg PciBarDesc.addr hreports) (by decide)

end KoalemOS.Pci
