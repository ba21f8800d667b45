import KoalemOS.Interrupts.Gates
import KoalemOS.Library.WordStores
import KoalemOS.Library.Reachability

/-!
# Interrupt vectors (`src/kernel/interrupt.c`)

Every processor has a descriptor table and an array of the vectors in use, which starts at
vector 32. Beside the run of `alloc_interrupt_vector` and `free_interrupt_vector` stands the
handler each vector was given out for; the two arrays keep in step with it (`vectors_sound`).
-/

namespace KoalemOS.Interrupts

open KoalemOS.Library

/-! ## The code -/

/-- `idt` and `int_used` of a processor -/
structure VectorTable where
  idt : Nat → IdtGateDescr
  intUsed : Nat → Bool

/-- `IDT_ENTRY_COUNT` -/
def idtEntryCount : Nat := 256

/-- `INT_VEC_INTER_PROCESSOR_CALL` -/
def intVecInterProcessorCall : Nat := 32

/-- `INT_VEC_SPURIOUS` -/
def intVecSpurious : Nat := 255

/-- The loop of `alloc_interrupt_vector` from `i` on, with `k` to go: the vector it returns, which
is a `uint8_t`, and the table. -/
def allocFrom (cs : BitVec 16) (isr : BitVec 64) (s : VectorTable) (i : Nat) : Nat → Nat × VectorTable
  | 0 => (0, s)
  | k + 1 =>
    if s.intUsed i = false then
      ((i + 32) % 256,
        { idt := Function.update s.idt (i + 32) (idtIntGate isr cs 0 0)
          intUsed := Function.update s.intUsed i true })
    else allocFrom cs isr s (i + 1) k

/-- `alloc_interrupt_vector` -/
def allocInterruptVector (cs : BitVec 16) (isr : BitVec 64) (s : VectorTable) : Nat × VectorTable :=
  allocFrom cs isr s 0 (idtEntryCount - 32)

/-- `free_interrupt_vector`; for a vector below 32 it writes in front of `int_used`. -/
def freeInterruptVector (vec : Nat) (s : VectorTable) : Option VectorTable :=
  if vec < 32 then none
  else some { idt := Function.update s.idt vec emptyGate, intUsed := Function.update s.intUsed (vec - 32) false }

/-- The interrupt service routines `init_idt` installs. -/
inductive Isr where
  | divideError | debug | nmi | breakpoint | overflow | boundRange | invalidOpcode | noCoproc | doubleFault
  | invalidTss | segmentNotPresent | ssFault | generalProtection | pageFault | mathFault | alignCheck
  | machineCheck | simdException | virtualizationException | controlProtection
  | interProcessorCall | spuriousInt
  deriving DecidableEq

/-- The gates `init_idt` writes, in order. -/
def initGates (addr : Isr → BitVec 64) (cs : BitVec 16) : List (Store IdtGateDescr) :=
  let gate (isr : Isr) := idtIntGate (addr isr) cs 0 0
  [⟨0, gate .divideError⟩, ⟨1, gate .debug⟩, ⟨2, gate .nmi⟩, ⟨3, gate .breakpoint⟩, ⟨4, gate .overflow⟩,
    ⟨5, gate .boundRange⟩, ⟨6, gate .invalidOpcode⟩, ⟨7, gate .noCoproc⟩, ⟨8, gate .doubleFault⟩, ⟨9, emptyGate⟩,
    ⟨10, gate .invalidTss⟩, ⟨11, gate .segmentNotPresent⟩, ⟨12, gate .ssFault⟩, ⟨13, gate .generalProtection⟩,
    ⟨14, gate .pageFault⟩, ⟨15, emptyGate⟩, ⟨16, gate .mathFault⟩, ⟨17, gate .alignCheck⟩,
    ⟨18, gate .machineCheck⟩, ⟨19, gate .simdException⟩, ⟨20, gate .virtualizationException⟩,
    ⟨21, gate .controlProtection⟩] ++
  ((List.range' 22 (idtEntryCount - 22)).map fun i => ⟨i, emptyGate⟩) ++
  [⟨intVecInterProcessorCall, gate .interProcessorCall⟩, ⟨intVecSpurious, gate .spuriousInt⟩]

/-- `init_idt`; both arrays are zero before. -/
def initIdt (addr : Isr → BitVec 64) (cs : BitVec 16) : VectorTable where
  idt := Store.run (fun _ => emptyGate) (initGates addr cs)
  intUsed := Function.update (Function.update (fun _ => false) (intVecInterProcessorCall - 32) true)
    (intVecSpurious - 32) true

/-! ## Runs -/

/-- The table, and the handler that each vector given out is for. -/
structure VectorRun where
  table : VectorTable
  owner : Nat → Option (BitVec 64)

/-- A call. -/
inductive VectorCall where
  | alloc (isr : BitVec 64)
  | free (vec : Nat)

/-- A call, which notes what is given out and given back. -/
def vectorStep (cs : BitVec 16) (s : VectorRun) : VectorCall → Option VectorRun
  | .alloc isr =>
    let r := allocInterruptVector cs isr s.table
    some ⟨r.2, if r.1 = 0 then s.owner else Function.update s.owner r.1 (some isr)⟩
  | .free vec => (freeInterruptVector vec s.table).map fun t => ⟨t, Function.update s.owner vec none⟩

/-- Only vectors that were given out, and not given back since, are given back. -/
def FreesOwned (s : VectorRun) : VectorCall → Prop
  | .alloc _ => True
  | .free vec => s.owner vec ≠ none

/-- The processor after `init_idt`. -/
def VectorRun.start (addr : Isr → BitVec 64) (cs : BitVec 16) : VectorRun := ⟨initIdt addr cs, fun _ => none⟩

/-- The vectors that can be given out. -/
def Allocatable (v : Nat) : Prop := 33 ≤ v ∧ v ≤ 254

/-- The gates that no call may touch. -/
def Reserved (v : Nat) : Prop := v ≤ 21 ∨ v = intVecInterProcessorCall ∨ v = intVecSpurious

/-! ## The invariant -/

/-- The two arrays are in step with what has been given out. -/
structure InStep (addr : Isr → BitVec 64) (cs : BitVec 16) (s : VectorRun) : Prop where
  first : s.table.intUsed 0 = true
  last : s.table.intUsed 223 = true
  used : ∀ v, Allocatable v → (s.table.intUsed (v - 32) = true ↔ s.owner v ≠ none)
  range : ∀ v, s.owner v ≠ none → Allocatable v
  gates : ∀ v isr, s.owner v = some isr → s.table.idt v = idtIntGate isr cs 0 0
  empty : ∀ v, Allocatable v → s.owner v = none → s.table.idt v = emptyGate
  reserved : ∀ v, Reserved v → s.table.idt v = (initIdt addr cs).idt v

variable {addr : Isr → BitVec 64} {cs : BitVec 16} {isr : BitVec 64} {s s' : VectorRun} {t : VectorTable} {v vec : Nat}

/-- The loop gives out the first vector that is not in use. -/
theorem allocFrom_cases (cs : BitVec 16) (isr : BitVec 64) (t : VectorTable) (i k : Nat) :
    (allocFrom cs isr t i k = (0, t) ∧ ∀ j, i ≤ j → j < i + k → t.intUsed j = true) ∨
    ∃ j, i ≤ j ∧ j < i + k ∧ t.intUsed j = false ∧ allocFrom cs isr t i k =
      ((j + 32) % 256, ⟨Function.update t.idt (j + 32) (idtIntGate isr cs 0 0), Function.update t.intUsed j true⟩) := by
  induction k generalizing i with
  | zero => exact .inl ⟨rfl, fun j h₁ h₂ => by omega⟩
  | succ k ih =>
    unfold allocFrom
    by_cases hfree : t.intUsed i = false
    · rw [if_pos hfree]
      exact .inr ⟨i, Nat.le_refl i, by omega, hfree, rfl⟩
    · rw [if_neg hfree]
      rcases ih (i + 1) with ⟨heq, hused⟩ | ⟨j, h₁, h₂, hj, heq⟩
      · refine .inl ⟨heq, fun j h₁ h₂ => ?_⟩
        rcases Nat.eq_or_lt_of_le h₁ with rfl | h₁
        · exact Bool.not_eq_false _ |>.mp hfree
        · exact hused j h₁ (by omega)
      · exact .inr ⟨j, by omega, by omega, hj, heq⟩

/-- A call of `alloc_interrupt_vector` finds all vectors given out, or gives out one that is not. -/
theorem InStep.alloc_cases (h : InStep addr cs s) (isr : BitVec 64) :
    (allocInterruptVector cs isr s.table = (0, s.table) ∧ ∀ v, Allocatable v → s.owner v ≠ none) ∨
    ∃ v, Allocatable v ∧ s.owner v = none ∧ allocInterruptVector cs isr s.table =
      (v, ⟨Function.update s.table.idt v (idtIntGate isr cs 0 0), Function.update s.table.intUsed (v - 32) true⟩) := by
  rcases allocFrom_cases cs isr s.table 0 224 with ⟨heq, hused⟩ | ⟨j, -, hlt, hfree, heq⟩
  · refine .inl ⟨heq, fun v hv => (h.used v hv).mp (hused (v - 32) (Nat.zero_le _) ?_)⟩
    have := hv.2
    omega
  · -- the ends are in use from the start
    have hne₀ : j ≠ 0 := by
      rintro rfl
      rw [h.first] at hfree
      cases hfree
    have hne₁ : j ≠ 223 := by
      rintro rfl
      rw [h.last] at hfree
      cases hfree
    have hv : Allocatable (j + 32) := ⟨by omega, by omega⟩
    have hmod : (j + 32) % 256 = j + 32 := Nat.mod_eq_of_lt (by omega)
    refine .inr ⟨j + 32, hv, ?_, ?_⟩
    · by_contra howned
      have hused := (h.used (j + 32) hv).mpr howned
      rw [Nat.add_sub_cancel] at hused
      rw [hused] at hfree
      cases hfree
    · rw [hmod] at heq
      rw [Nat.add_sub_cancel]
      exact heq

/-- Reserved gates are not those of vectors that can be given out. -/
theorem Reserved.ne {w : Nat} (hv : Reserved v) (hw : Allocatable w) : v ≠ w := by
  obtain ⟨h₁, h₂⟩ := hw
  rcases hv with h | h | h
  · omega
  · rw [h]
    exact fun he => by
      rw [← he] at h₁
      exact absurd h₁ (by decide)
  · rw [h]
    exact fun he => by
      rw [← he] at h₂
      exact absurd h₂ (by decide)

/-- A vector that can be given out is set: its gate, its use and its owner change together. -/
theorem InStep.set (h : InStep addr cs s) (hvec : Allocatable vec) {gate : IdtGateDescr} {used : Bool}
    {owner : Option (BitVec 64)} (hused : used = true ↔ owner ≠ none)
    (hgate : ∀ isr, owner = some isr → gate = idtIntGate isr cs 0 0) (hempty : owner = none → gate = emptyGate) :
    InStep addr cs ⟨⟨Function.update s.table.idt vec gate, Function.update s.table.intUsed (vec - 32) used⟩,
      Function.update s.owner vec owner⟩ := by
  obtain ⟨h₁, h₂⟩ := hvec
  constructor
  · dsimp only
    rw [Function.update_of_ne (by omega)]
    exact h.first
  · dsimp only
    rw [Function.update_of_ne (by omega)]
    exact h.last
  · intro v hv
    dsimp only
    by_cases heq : v = vec
    · subst heq
      rw [Function.update_self, Function.update_self]
      exact hused
    · have hle := hv.1
      rw [Function.update_of_ne (by omega), Function.update_of_ne heq]
      exact h.used v hv
  · intro v hv
    dsimp only at hv
    by_cases heq : v = vec
    · rw [heq]
      exact ⟨h₁, h₂⟩
    · rw [Function.update_of_ne heq] at hv
      exact h.range v hv
  · intro v isr hv
    dsimp only at hv ⊢
    by_cases heq : v = vec
    · subst heq
      rw [Function.update_self] at hv ⊢
      exact hgate isr hv
    · rw [Function.update_of_ne heq] at hv ⊢
      exact h.gates v isr hv
  · intro v hv hnone
    dsimp only at hnone ⊢
    by_cases heq : v = vec
    · subst heq
      rw [Function.update_self] at hnone ⊢
      exact hempty hnone
    · rw [Function.update_of_ne heq] at hnone ⊢
      exact h.empty v hv hnone
  · intro v hv
    dsimp only
    rw [Function.update_of_ne (hv.ne ⟨h₁, h₂⟩)]
    exact h.reserved v hv

/-- **A call.** -/
theorem InStep.step {call : VectorCall} (h : InStep addr cs s) (hok : FreesOwned s call)
    (hstep : vectorStep cs s call = some s') : InStep addr cs s' := by
  cases call with
  | alloc isr =>
    obtain rfl := Option.some.inj hstep
    rcases h.alloc_cases isr with ⟨heq, -⟩ | ⟨v, hv, -, heq⟩
    · rw [heq, if_pos rfl]
      exact h
    · have hne : v ≠ 0 := by
        have := hv.1
        omega
      rw [heq]
      dsimp only
      rw [if_neg hne]
      refine h.set hv (by simp) (fun isr' hsome => ?_) (fun hnone => ?_)
      · cases hsome
        rfl
      · cases hnone
  | free vec =>
    have hvec := h.range vec hok
    have hge : ¬vec < 32 := by
      have := hvec.1
      omega
    unfold vectorStep freeInterruptVector at hstep
    dsimp only at hstep
    rw [if_neg hge, Option.map_some] at hstep
    obtain rfl := Option.some.inj hstep
    refine h.set hvec (by simp) (fun isr hsome => ?_) (fun _ => rfl)
    cases hsome

/-! ## `init_idt` -/

/-- The gates behind the exceptions are empty, but for the two at the ends. -/
theorem initIdt_empty (addr : Isr → BitVec 64) (cs : BitVec 16) (hv : Allocatable v) :
    (initIdt addr cs).idt v = emptyGate := by
  obtain ⟨h₁, h₂⟩ := hv
  unfold initIdt initGates
  dsimp only
  rw [Store.run_append, Store.run_append]
  have hends : ∀ st ∈ [(⟨intVecInterProcessorCall, idtIntGate (addr .interProcessorCall) cs 0 0⟩ : Store IdtGateDescr),
      ⟨intVecSpurious, idtIntGate (addr .spuriousInt) cs 0 0⟩], st.addr ≠ v := by
    intro st hst
    simp only [List.mem_cons, List.not_mem_nil, or_false, intVecInterProcessorCall, intVecSpurious] at hst
    rcases hst with rfl | rfl
    · dsimp only
      omega
    · dsimp only
      omega
  rw [Store.run_other hends]
  refine Store.run_eq_of_forall ⟨⟨v, emptyGate⟩, List.mem_map.mpr ⟨v, ?_, rfl⟩, rfl⟩ fun st hst _ => ?_
  · rw [List.mem_range'_1]
    unfold idtEntryCount
    omega
  · obtain ⟨i, -, rfl⟩ := List.mem_map.mp hst
    rfl

theorem inStep_start (addr : Isr → BitVec 64) (cs : BitVec 16) : InStep addr cs (.start addr cs) where
  first := rfl
  last := rfl
  used v hv := by
    obtain ⟨h₁, h₂⟩ := hv
    have hne₀ : v - 32 ≠ intVecInterProcessorCall - 32 := by
      unfold intVecInterProcessorCall
      omega
    have hne₁ : v - 32 ≠ intVecSpurious - 32 := by
      unfold intVecSpurious
      omega
    unfold VectorRun.start initIdt
    dsimp only
    rw [Function.update_of_ne hne₁, Function.update_of_ne hne₀]
    simp
  range v hv := absurd rfl hv
  gates v isr hv := by cases hv
  empty v hv _ := initIdt_empty addr cs hv
  reserved _ _ := rfl

/-! ## What holds of every run -/

/-- What the callers may rely on: which vectors are given out, and what the gates are. -/
structure VectorsSound (addr : Isr → BitVec 64) (cs : BitVec 16) (s : VectorRun) : Prop where
  fresh : ∀ isr, (allocInterruptVector cs isr s.table).1 ≠ 0 →
    Allocatable (allocInterruptVector cs isr s.table).1 ∧ s.owner (allocInterruptVector cs isr s.table).1 = none
  full : ∀ isr, (allocInterruptVector cs isr s.table).1 = 0 ↔ ∀ v, Allocatable v → s.owner v ≠ none
  unchanged : ∀ isr, (allocInterruptVector cs isr s.table).1 = 0 → (allocInterruptVector cs isr s.table).2 = s.table
  owned : ∀ v isr, s.owner v = some isr → (s.table.idt v).decode = handlerGate isr cs
  free : ∀ v, Allocatable v → s.owner v = none → s.table.idt v = emptyGate
  reserved : ∀ v, Reserved v → s.table.idt v = (initIdt addr cs).idt v

theorem InStep.sound (h : InStep addr cs s) (hcs : cs < 0x8000) : VectorsSound addr cs s := by
  refine ⟨fun isr hne => ?_, fun isr => ?_, fun isr hzero => ?_, fun v isr hv => ?_, h.empty, h.reserved⟩
  · rcases h.alloc_cases isr with ⟨heq, -⟩ | ⟨v, hv, hnone, heq⟩
    · rw [heq] at hne
      exact absurd rfl hne
    · rw [heq]
      exact ⟨hv, hnone⟩
  · rcases h.alloc_cases isr with ⟨heq, hall⟩ | ⟨v, hv, hnone, heq⟩
    · rw [heq]
      exact ⟨fun _ => hall, fun _ => rfl⟩
    · rw [heq]
      constructor
      · intro hzero
        have := hv.1
        dsimp only at hzero
        omega
      · intro hall
        exact absurd hnone (hall v hv)
  · rcases h.alloc_cases isr with ⟨heq, -⟩ | ⟨v, hv, -, heq⟩
    · rw [heq]
    · rw [heq] at hzero
      have := hv.1
      dsimp only at hzero
      omega
  · rw [h.gates v isr hv]
    exact decode_idtIntGate isr hcs

/-- **Interrupt vectors.** In every run after `init_idt` that gives back only what it was given. -/
theorem vectors_sound (hcs : cs < 0x8000)
    (hs : Reachable (vectorStep cs) FreesOwned (.start addr cs) s) : VectorsSound addr cs s := by
  have hinv : InStep addr cs s := Reachable.invariant (InStep addr cs) hs (inStep_start addr cs)
    fun _ _ _ h hok hstep => h.step hok hstep
  exact hinv.sound hcs

/-- Two vectors are given out, the first is given back, and then it is given out again. -/
theorem vectors_sound_again : ∃ s : VectorRun,
    [.alloc 0x2000, .alloc 0x3000, .free 33, .alloc 0x4000].foldlM (vectorStep 8) (.start (fun _ => 0x1000) 8) = some s ∧
      s.owner 33 = some 0x4000 ∧ s.owner 34 = some 0x3000 ∧ VectorsSound (fun _ => 0x1000) 8 s := by
  let s₀ : VectorRun := .start (fun _ => 0x1000) 8
  let s₁ : VectorRun := ⟨(allocInterruptVector 8 0x2000 s₀.table).2, Function.update s₀.owner 33 (some 0x2000)⟩
  let s₂ : VectorRun := ⟨(allocInterruptVector 8 0x3000 s₁.table).2, Function.update s₁.owner 34 (some 0x3000)⟩
  let s₃ : VectorRun := ⟨⟨Function.update s₂.table.idt 33 emptyGate, Function.update s₂.table.intUsed 1 false⟩,
    Function.update s₂.owner 33 none⟩
  let s₄ : VectorRun := ⟨(allocInterruptVector 8 0x4000 s₃.table).2, Function.update s₃.owner 33 (some 0x4000)⟩
  have h₁ : vectorStep 8 s₀ (.alloc 0x2000) = some s₁ := rfl
  have h₂ : vectorStep 8 s₁ (.alloc 0x3000) = some s₂ := rfl
  have h₃ : vectorStep 8 s₂ (.free 33) = some s₃ := rfl
  have h₄ : vectorStep 8 s₃ (.alloc 0x4000) = some s₄ := rfl
  have howned : FreesOwned s₂ (.free 33) := by
    show s₂.owner 33 ≠ none
    exact Option.some_ne_none 0x2000
  have halloc : ∀ s isr, FreesOwned s (.alloc isr) := fun _ _ => trivial
  have hs : Reachable (vectorStep 8) FreesOwned s₀ s₄ :=
    (((Reachable.start.step (halloc ..) h₁).step (halloc ..) h₂).step howned h₃).step (halloc ..) h₄
  exact ⟨s₄, rfl, rfl, rfl, vectors_sound (by decide) hs⟩

end KoalemOS.Interrupts
