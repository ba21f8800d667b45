import KoalemOS.Library.WritableBits

/-!
# Probing a PCI function (`src/kernel/pci.c`)

`make_dev_desc` finds out the sizes of the base address registers by writing ones to them. The
configuration space is a memory whose bits are writable or not, for any contents and any
writable bits: when `make_dev_desc` returns, it is what it was, and no base address register has
been written while the function could still have been decoding accesses (`probing_invisible`).
-/

namespace KoalemOS.Pci

open KoalemOS.Library

/-! ## The configuration space -/

/-- A store to configuration space. -/
structure ConfigStore where
  addr : Nat
  bytes : Nat
  val : Nat
  deriving DecidableEq

/-- The configuration space and the stores that have been made to it, the last one at the end. -/
structure Probe where
  mem : Mem
  stores : List ConfigStore

/-- A store of the low `n` bytes of `v` at `a`. -/
def Probe.store (writable : Mem) (s : Probe) (a n v : Nat) : Probe where
  mem := s.mem.storeWritable writable a n v
  stores := s.stores ++ [⟨a, n, v⟩]

/-! ## The code -/

/-- `PCI_CONF_OFFS_BARS` -/
def pciConfOffsBars : Nat := 0x10

/-- `PCI_CONF0_OFFS_BARS_END` -/
def pciConf0OffsBarsEnd : Nat := 0x28

/-- `PCI_CONF1_OFFS_BARS_END` -/
def pciConf1OffsBarsEnd : Nat := 0x18

/-- `PCI_HEADER_TYPE_MASK` -/
def pciHeaderTypeMask : Nat := 0xFF7F

/-- `&header->vendor_id` -/
def vendorIdAt (header : Nat) : Nat := header

/-- `&header->command` -/
def commandAt (header : Nat) : Nat := header + 4

/-- `&header->type` -/
def typeAt (header : Nat) : Nat := header + 14

/-- `&header_0->bars[offset]` -/
def barAt (header offset : Nat) : Nat := header + pciConfOffsBars + 4 * offset

/-- `pci_bar_desc` -/
structure PciBarDesc where
  addr : Nat
  size : Nat
  isPrefetchable : Bool
  isIoSpace : Bool
  deriving DecidableEq

/-- A slot without a register. -/
def PciBarDesc.zero : PciBarDesc := ⟨0, 0, false, false⟩

/-- `pci_dev_desc` -/
structure PciDevDesc where
  conf : Nat
  bars : Nat → PciBarDesc

/-- The size that `bar_size` computes from what it reads back, in a word of `bits` bits. -/
def sizeOfReadBack (bits readBack : Nat) : Nat := (~~~(BitVec.ofNat bits readBack &&& ~~~0xF) + 1).toNat

/-- `bar_size`; its two branches differ in the width of the accesses. -/
def barSize (writable : Mem) (bar : Nat) (is64bit : Bool) (s : Probe) : Nat × Probe :=
  let bytes := if is64bit then 8 else 4
  let oldVal := s.mem.loadLE bar bytes
  let s₁ := s.store writable bar bytes (256 ^ bytes - 1)
  let ret := s₁.mem.loadLE bar bytes
  (sizeOfReadBack (8 * bytes) ret, s₁.store writable bar bytes oldVal)

/-- The kind of a register, from its value. -/
def setKind (bar : Nat) (desc : PciBarDesc) : PciBarDesc :=
  if bar &&& 1 ≠ 0 then { desc with isIoSpace := true }
  else if bar &&& 0x8 ≠ 0 then { desc with isPrefetchable := true }
  else desc

/-- The loop over the slots, from `offset` on. -/
def probeBars (writable : Mem) (header barsSz offset : Nat) (bars : Nat → PciBarDesc) (s : Probe) :
    (Nat → PciBarDesc) × Probe :=
  if offset < barsSz then
    let bar := s.mem.loadLE (barAt header offset) 4
    if bar = 0 ∨ bar &&& 0x7 = 0x2 then
      probeBars writable header barsSz (offset + 1) bars s
    else if bar &&& 0x7 = 0x4 then
      let r := barSize writable (barAt header offset) true s
      let addr := r.2.mem.loadLE (barAt header offset) 8
      let desc := { setKind bar (bars offset) with size := r.1, addr := addr }
      probeBars writable header barsSz (offset + 2) (Function.update bars offset desc) r.2
    else
      let r := barSize writable (barAt header offset) false s
      let addr := r.2.mem.loadLE (barAt header offset) 4
      let desc := { setKind bar (bars offset) with size := r.1, addr := addr }
      probeBars writable header barsSz (offset + 1) (Function.update bars offset desc) r.2
  else (bars, s)
termination_by barsSz - offset

/-- The part of `make_dev_desc` that switches the function off and on again. -/
def probeDevice (writable : Mem) (header barsSz : Nat) (m : Mem) : PciDevDesc × Probe :=
  let cmd := m.loadLE (commandAt header) 2
  let s := Probe.store writable ⟨m, []⟩ (commandAt header) 2 0
  let r := probeBars writable header barsSz 0 (fun _ => .zero) s
  (⟨header, r.1⟩, r.2.store writable (commandAt header) 2 cmd)

/-- `make_dev_desc` -/
def makeDevDesc (writable : Mem) (header : Nat) (m : Mem) : PciDevDesc × Probe :=
  if m.loadLE (typeAt header) 1 &&& pciHeaderTypeMask = 0 then
    probeDevice writable header ((pciConf0OffsBarsEnd - pciConfOffsBars) / 4) m
  else if m.loadLE (typeAt header) 1 &&& pciHeaderTypeMask = 1 then
    probeDevice writable header ((pciConf1OffsBarsEnd - pciConfOffsBars) / 4) m
  else (⟨header, fun _ => .zero⟩, ⟨m, []⟩)

/-! ## What is written -/

variable {writable m : Mem} {header barsSz offset bar : Nat} {bars : Nat → PciBarDesc} {s : Probe}

/-- The store writes to a base address register of the function. -/
def TouchesBars (header : Nat) (st : ConfigStore) : Prop :=
  st.addr < header + pciConf0OffsBarsEnd ∧ header + pciConfOffsBars < st.addr + st.bytes

/-- The store writes to the command register of the function. -/
def TouchesCommand (header : Nat) (st : ConfigStore) : Prop :=
  st.addr < commandAt header + 2 ∧ commandAt header < st.addr + st.bytes

/-- After the stores, the command register was last written as 0. -/
def CommandCleared (header : Nat) (stores : List ConfigStore) : Prop :=
  ∃ pre post, stores = pre ++ ⟨commandAt header, 2, 0⟩ :: post ∧ ∀ st ∈ post, ¬TouchesCommand header st

/-- Every store to a base address register follows one that clears the command register. -/
def WritesBarsWhileOff (header : Nat) (stores : List ConfigStore) : Prop :=
  ∀ pre st post, stores = pre ++ st :: post → TouchesBars header st → CommandCleared header pre

/-- The probe has made further stores, all of them behind the header's common part, and left the
configuration space as it was. -/
structure Restores (header : Nat) (s s' : Probe) : Prop where
  mem : s'.mem = s.mem
  stores : ∃ made, s'.stores = s.stores ++ made ∧ ∀ st ∈ made, header + pciConfOffsBars ≤ st.addr

theorem Restores.refl (header : Nat) (s : Probe) : Restores header s s := by
  refine ⟨rfl, [], (List.append_nil _).symm, fun st hst => ?_⟩
  cases hst

theorem Restores.trans {s' s'' : Probe} (h : Restores header s s') (h' : Restores header s' s'') :
    Restores header s s'' := by
  obtain ⟨hmem, made, hstores, hmade⟩ := h
  obtain ⟨hmem', made', hstores', hmade'⟩ := h'
  refine ⟨hmem'.trans hmem, made ++ made', ?_, fun st hst => ?_⟩
  · rw [hstores', hstores, List.append_assoc]
  · rcases List.mem_append.mp hst with hst | hst
    · exact hmade st hst
    · exact hmade' st hst

/-- Sizing a register. -/
theorem restores_barSize (writable : Mem) (is64bit : Bool) (s : Probe) (h : header + pciConfOffsBars ≤ bar) :
    Restores header s (barSize writable bar is64bit s).2 := by
  refine ⟨Mem.storeWritable_restore writable s.mem bar _ _, ?_⟩
  refine ⟨_, List.append_assoc _ _ _, fun st hst => ?_⟩
  simp only [List.cons_append, List.nil_append, List.mem_cons, List.not_mem_nil, or_false] at hst
  rcases hst with rfl | rfl
  · exact h
  · exact h

/-- **The loop over the slots.** -/
theorem restores_probeBars (writable : Mem) (header barsSz offset : Nat) (bars : Nat → PciBarDesc) (s : Probe) :
    Restores header s (probeBars writable header barsSz offset bars s).2 := by
  have hat : ∀ offset, header + pciConfOffsBars ≤ barAt header offset := fun offset => Nat.le_add_right _ _
  induction offset, bars, s using probeBars.induct writable header barsSz with
  | case1 offset bars s hlt bar hskip ih =>
    rw [probeBars, if_pos hlt, if_pos hskip]
    exact ih
  | case2 offset bars s hlt bar hskip hwide r addr desc ih =>
    rw [probeBars, if_pos hlt, if_neg hskip, if_pos hwide]
    exact (restores_barSize writable _ s (hat offset)).trans ih
  | case3 offset bars s hlt bar hskip hwide r addr desc ih =>
    rw [probeBars, if_pos hlt, if_neg hskip, if_neg hwide]
    exact (restores_barSize writable _ s (hat offset)).trans ih
  | case4 offset bars s hlt =>
    rw [probeBars, if_neg hlt]
    exact Restores.refl header s

/-- The stores of a probe: the command register, base address registers, the command register. -/
theorem probeDevice_stores (writable : Mem) (header barsSz : Nat) (m : Mem) :
    (probeDevice writable header barsSz m).2.mem = m ∧
    ∃ made, (∀ st ∈ made, header + pciConfOffsBars ≤ st.addr) ∧ (probeDevice writable header barsSz m).2.stores =
      [⟨commandAt header, 2, 0⟩] ++ made ++ [⟨commandAt header, 2, m.loadLE (commandAt header) 2⟩] := by
  obtain ⟨hmem, made, hstores, hmade⟩ := restores_probeBars writable header barsSz 0 (fun _ => .zero)
    (Probe.store writable ⟨m, []⟩ (commandAt header) 2 0)
  unfold probeDevice
  dsimp only
  constructor
  · unfold Probe.store at hmem ⊢
    dsimp only at hmem ⊢
    rw [hmem]
    exact Mem.storeWritable_restore writable m _ 2 0
  · refine ⟨made, hmade, ?_⟩
    unfold Probe.store at hstores ⊢
    dsimp only at hstores ⊢
    rw [hstores, List.nil_append]

/-- A function of another type is left alone. -/
theorem makeDevDesc_cases (writable : Mem) (header : Nat) (m : Mem) :
    (∃ barsSz, makeDevDesc writable header m = probeDevice writable header barsSz m) ∨
    makeDevDesc writable header m = (⟨header, fun _ => .zero⟩, ⟨m, []⟩) := by
  unfold makeDevDesc
  split_ifs
  · exact .inl ⟨_, rfl⟩
  · exact .inl ⟨_, rfl⟩
  · exact .inr rfl

/-- Stores behind the common part of the header do not touch the command register. -/
theorem not_touchesCommand {st : ConfigStore} (h : header + pciConfOffsBars ≤ st.addr) : ¬TouchesCommand header st := by
  intro ht
  have hlt := ht.1
  unfold commandAt at hlt
  unfold pciConfOffsBars at h
  omega

/-- **Probing is invisible**: the configuration space is what it was, and every store to a base
address register happens while the command register has been written as 0. -/
theorem probing_invisible (writable : Mem) (header : Nat) (m : Mem) :
    (makeDevDesc writable header m).2.mem = m ∧ WritesBarsWhileOff header (makeDevDesc writable header m).2.stores := by
  rcases makeDevDesc_cases writable header m with ⟨barsSz, heq⟩ | heq
  · obtain ⟨hmem, made, hmade, hstores⟩ := probeDevice_stores writable header barsSz m
    rw [heq]
    refine ⟨hmem, fun pre st post hsplit ht => ?_⟩
    have htouch := ht.2
    -- a store to the command register is no store to a base address register
    have hcommand : ∀ v, st ≠ ⟨commandAt header, 2, v⟩ := by
      rintro v rfl
      unfold commandAt pciConfOffsBars at htouch
      dsimp only at htouch
      omega
    rw [hstores, List.append_assoc] at hsplit
    cases pre with
    | nil =>
      obtain ⟨hst, -⟩ := List.cons.inj hsplit
      exact absurd hst.symm (hcommand 0)
    | cons first pre =>
      obtain ⟨rfl, hrest⟩ := List.cons.inj hsplit
      change made ++ [⟨commandAt header, 2, m.loadLE (commandAt header) 2⟩] = pre ++ st :: post at hrest
      refine ⟨[], pre, rfl, fun c hc => not_touchesCommand ?_⟩
      -- what comes before the store are stores of the loop
      rcases List.append_eq_append_iff.mp hrest with ⟨more, rfl, hlast⟩ | ⟨more, rfl, hmore⟩
      · cases more with
        | nil =>
          obtain ⟨hst, -⟩ := List.cons.inj hlast
          exact absurd hst.symm (hcommand _)
        | cons c' more =>
          obtain ⟨-, hnil⟩ := List.cons.inj hlast
          exact absurd hnil (by simp)
      · exact hmade c (List.mem_append_left _ hc)
  · rw [heq]
    refine ⟨rfl, fun pre st post hsplit _ => ?_⟩
    exact absurd hsplit (by simp)

end KoalemOS.Pci
