import KoalemOS.Library.Outcome
import KoalemOS.Library.Words
import KoalemOS.Pci.Probing

/-!
# The scan of the buses (`src/kernel/pci.c`)

`find_devices` looks at the functions of all buses and appends a description of each that is
there to an array that it doubles when it is full. It finds every function once, in the order of
the scan, and never writes behind the end of the array (`findDevices_correct`). The allocator is
a parameter that fails or does what C says of `malloc` and `realloc`.
-/

namespace KoalemOS.Pci

open KoalemOS.Library

/-! ## The code -/

/-- `pci_segment_group_desc` -/
structure PciSegmentGroupDesc where
  paddr : Nat
  vaddr : Nat
  startBusNum : Nat
  endBusNum : Nat
  start_lt : startBusNum < 256
  end_lt : endBusNum < 256

/-- `pci_function_addr` -/
structure PciFunctionAddr where
  segmentGroup : Nat
  bus : Nat
  device : Nat
  function : Nat
  deriving DecidableEq

/-- `PCIE_CONF_ADDR`, for a bus that is not before the first of its group. -/
def pcieConfAddr (groups : Nat → PciSegmentGroupDesc) (f : PciFunctionAddr) (offset : Nat) : Nat :=
  wrap ((groups f.segmentGroup).vaddr + (f.bus - (groups f.segmentGroup).startBusNum) * 2 ^ 20 + f.device * 2 ^ 15 +
    f.function * 2 ^ 12 + offset)

/-- `PCI_HEADER_TYPE_MF_MASK` -/
def pciHeaderTypeMfMask : Nat := 0x80

/-- `sizeof(pci_dev_desc)` -/
def pciDevDescSize : Nat := 152

/-- A block of memory that holds descriptions. -/
structure DeviceBlock where
  bytes : Nat
  slot : Nat → PciDevDesc

/-- The slots there are in a block. -/
def DeviceBlock.slots (block : DeviceBlock) : Nat := block.bytes / pciDevDescSize

/-- `kmalloc`, `krealloc` and `kfree` on a heap with states in `H`. The laws are those of C: a block
has the size that was asked for, and what fits in both the old and the new size stays. -/
structure DeviceAllocator (H : Type) where
  kmalloc : H → Nat → Option DeviceBlock × H
  krealloc : H → DeviceBlock → Nat → Option DeviceBlock × H
  kfree : H → DeviceBlock → H
  kmalloc_bytes : ∀ h n block h', kmalloc h n = (some block, h') → block.bytes = n
  krealloc_bytes : ∀ h old n block h', krealloc h old n = (some block, h') → block.bytes = n
  krealloc_keeps : ∀ h old n block h', krealloc h old n = (some block, h') →
    ∀ i, (i + 1) * pciDevDescSize ≤ old.bytes → (i + 1) * pciDevDescSize ≤ n → block.slot i = old.slot i

/-- A store to `pci_devices`: its index, `device_capacity`, and the slots there are. -/
structure SlotWrite where
  index : Nat
  capacity : Nat
  slots : Nat

/-- What the scan works on, with the functions it has looked at and its stores to `pci_devices`. -/
structure Scan (H : Type) where
  space : Mem
  heap : H
  pciDevices : DeviceBlock
  deviceCapacity : Nat
  pciDeviceCount : Nat
  probed : List PciFunctionAddr
  writes : List SlotWrite

/-- Computations of the scan; they stop where `find_devices` returns false. -/
abbrev ScanM (H : Type) := Outcome Unit (Scan H)

variable {H : Type}

/-- `krealloc` to twice the capacity, or `kfree` and false. -/
def growDevices (A : DeviceAllocator H) : ScanM H Unit := fun s =>
  match A.krealloc s.heap s.pciDevices (wrap (2 * s.deviceCapacity * pciDevDescSize)) with
  | (none, heap) => (.error (), { s with heap := A.kfree heap s.pciDevices })
  | (some newDevs, heap) =>
    (.ok (), { s with heap := heap, pciDevices := newDevs, deviceCapacity := wrap (2 * s.deviceCapacity) })

/-- `pci_devices[pci_device_count++] = make_dev_desc(header)` -/
def storeDevice (writable : Mem) (header : Nat) : ScanM H Unit := Outcome.modify fun s =>
  { s with
    space := (makeDevDesc writable header s.space).2.mem
    pciDevices := { s.pciDevices with
      slot := Function.update s.pciDevices.slot s.pciDeviceCount (makeDevDesc writable header s.space).1 }
    pciDeviceCount := s.pciDeviceCount + 1
    writes := s.writes ++ [⟨s.pciDeviceCount, s.deviceCapacity, s.pciDevices.slots⟩] }

/-- The step that both loops share: grow the array when it is full, then append. -/
def appendDevice (A : DeviceAllocator H) (writable : Mem) (header : Nat) : ScanM H Unit := do
  let full ← Outcome.gets fun s => decide (s.pciDeviceCount = s.deviceCapacity)
  if full then growDevices A
  storeDevice writable header

/-- `header->vendor_id` of a function, which is noted as looked at. -/
def readVendorId (groups : Nat → PciSegmentGroupDesc) (f : PciFunctionAddr) : ScanM H Nat := do
  Outcome.modify fun s => { s with probed := s.probed ++ [f] }
  Outcome.gets fun s => s.space.loadLE (vendorIdAt (pcieConfAddr groups f 0)) 2

/-- The body of the loop over functions 1 to 7. -/
def scanFunction (A : DeviceAllocator H) (writable : Mem) (groups : Nat → PciSegmentGroupDesc)
    (f : PciFunctionAddr) : ScanM H Unit := do
  let vendorId ← readVendorId groups f
  if vendorId = 0xFFFF then pure () else appendDevice A writable (pcieConfAddr groups f 0)

/-- The body of the loop over the devices of a bus. -/
def scanDevice (A : DeviceAllocator H) (writable : Mem) (groups : Nat → PciSegmentGroupDesc)
    (group bus dev : Nat) : ScanM H Unit := do
  let header := pcieConfAddr groups ⟨group, bus, dev, 0⟩ 0
  let vendorId ← readVendorId groups ⟨group, bus, dev, 0⟩
  if vendorId = 0xFFFF then pure ()
  else
    appendDevice A writable header
    let type ← Outcome.gets fun s => s.space.loadLE (typeAt header) 1
    if type &&& pciHeaderTypeMfMask ≠ 0 then
      Outcome.loop 1 7 fun fn => scanFunction A writable groups ⟨group, bus, dev, fn⟩
    else pure ()

/-- The body of the loop over the buses of a group. -/
def scanBus (A : DeviceAllocator H) (writable : Mem) (groups : Nat → PciSegmentGroupDesc)
    (group bus : Nat) : ScanM H Unit :=
  Outcome.loop 0 32 fun dev => scanDevice A writable groups group bus dev

/-- The body of the loop over the groups. -/
def scanGroup (A : DeviceAllocator H) (writable : Mem) (groups : Nat → PciSegmentGroupDesc)
    (group : Nat) : ScanM H Unit :=
  Outcome.loop (groups group).startBusNum ((groups group).endBusNum - (groups group).startBusNum) fun bus =>
    scanBus A writable groups group bus

/-- The first array, of two slots. -/
def firstDevices (A : DeviceAllocator H) : ScanM H Unit := fun s =>
  match A.kmalloc s.heap (2 * pciDevDescSize) with
  | (none, heap) => (.error (), { s with heap := heap, probed := [], writes := [] })
  | (some block, heap) =>
    (.ok (), { s with heap := heap, pciDevices := block, deviceCapacity := 2, pciDeviceCount := 0, probed := [],
                      writes := [] })

/-- `find_devices`; `init_pci` calls it with no more groups than a `uint16_t` counts, so the
`int` that counts them here does not overflow. -/
def findDevices (A : DeviceAllocator H) (writable : Mem) (groups : Nat → PciSegmentGroupDesc)
    (groupCount : BitVec 32) : ScanM H Unit := do
  firstDevices A
  Outcome.loop 0 groupCount.toNat fun group => scanGroup A writable groups group

/-! ## The functions there are -/

section Functions

variable (groups : Nat → PciSegmentGroupDesc) (space : Mem)

/-- The function is there. -/
def IsPresent (f : PciFunctionAddr) : Prop := space.loadLE (vendorIdAt (pcieConfAddr groups f 0)) 2 ≠ 0xFFFF

instance (f : PciFunctionAddr) : Decidable (IsPresent groups space f) := inferInstanceAs (Decidable (_ ≠ _))

/-- The function has the multi-function bit. -/
def IsMultiFunction (f : PciFunctionAddr) : Prop :=
  space.loadLE (typeAt (pcieConfAddr groups f 0)) 1 &&& pciHeaderTypeMfMask ≠ 0

instance (f : PciFunctionAddr) : Decidable (IsMultiFunction groups space f) := inferInstanceAs (Decidable (_ ≠ _))

/-- The function is on a scanned bus, and it is function 0, or one of the others of a device whose
function 0 is there and has the multi-function bit. -/
structure IsScanned (groupCount : Nat) (f : PciFunctionAddr) : Prop where
  group : f.segmentGroup < groupCount
  bus : (groups f.segmentGroup).startBusNum ≤ f.bus ∧ f.bus < (groups f.segmentGroup).endBusNum
  device : f.device < 32
  function : f.function = 0 ∨ 1 ≤ f.function ∧ f.function < 8 ∧ IsPresent groups space { f with function := 0 } ∧
    IsMultiFunction groups space { f with function := 0 }

/-- The function as a device. -/
def functionsOf (f : PciFunctionAddr) : List PciFunctionAddr := if IsPresent groups space f then [f] else []

/-- The functions of a device. -/
def deviceFunctions (group bus dev : Nat) : List PciFunctionAddr :=
  if IsPresent groups space ⟨group, bus, dev, 0⟩ then
    ⟨group, bus, dev, 0⟩ ::
      if IsMultiFunction groups space ⟨group, bus, dev, 0⟩ then
        (List.range' 1 7).flatMap fun fn => functionsOf groups space ⟨group, bus, dev, fn⟩
      else []
  else []

/-- The functions of a bus. -/
def busFunctions (group bus : Nat) : List PciFunctionAddr :=
  (List.range' 0 32).flatMap fun dev => deviceFunctions groups space group bus dev

/-- The functions of a group. -/
def groupFunctions (group : Nat) : List PciFunctionAddr :=
  (List.range' (groups group).startBusNum ((groups group).endBusNum - (groups group).startBusNum)).flatMap fun bus =>
    busFunctions groups space group bus

/-- The functions of all groups. -/
def allFunctions (groupCount : Nat) : List PciFunctionAddr :=
  (List.range' 0 groupCount).flatMap fun group => groupFunctions groups space group

end Functions

/-- The order of the scan. -/
def ScanOrder (f f' : PciFunctionAddr) : Prop :=
  f.segmentGroup < f'.segmentGroup ∨ f.segmentGroup = f'.segmentGroup ∧ (f.bus < f'.bus ∨ f.bus = f'.bus ∧
    (f.device < f'.device ∨ f.device = f'.device ∧ f.function < f'.function))

/-! ## What the scan keeps -/

variable {A : DeviceAllocator H} {writable space : Mem} {groups : Nat → PciSegmentGroupDesc} {s t : Scan H}
  {f : PciFunctionAddr} {fs gs gs' : List PciFunctionAddr} {group bus dev k k' : Nat}

/-- Every store has been to a slot of the array, whose capacity was the number of its slots. -/
def WritesInside (s : Scan H) : Prop := ∀ w ∈ s.writes, w.index < w.capacity ∧ w.capacity = w.slots

/-- The array lists these functions, as they are in the configuration space. -/
structure Lists (writable space : Mem) (groups : Nat → PciSegmentGroupDesc) (fs : List PciFunctionAddr)
    (s : Scan H) : Prop where
  count : s.pciDeviceCount = fs.length
  slots : ∀ i f, fs[i]? = some f → s.pciDevices.slot i = (makeDevDesc writable (pcieConfAddr groups f 0) space).1
  capacity : s.deviceCapacity = s.pciDevices.slots

/-- The state of the scan after these functions. -/
structure Scanning (writable space : Mem) (groups : Nat → PciSegmentGroupDesc) (fs : List PciFunctionAddr)
    (s : Scan H) : Prop where
  sameSpace : s.space = space
  lists : Lists writable space groups fs s
  bytes : s.pciDevices.bytes = s.deviceCapacity * pciDevDescSize
  room : fs.length ≤ s.deviceCapacity
  positive : 0 < s.deviceCapacity
  bound : s.deviceCapacity ≤ max 2 (2 * fs.length)
  writes : WritesInside s

/-- More functions than there are addresses for. -/
def scanLimit : Nat := 2 ^ 48

/-- The computation appends these functions, at most `k`, wherever there is room in the address
space for so many. -/
structure Appends (writable space : Mem) (groups : Nat → PciSegmentGroupDesc) (gs : List PciFunctionAddr) (k : Nat)
    (m : ScanM H Unit) : Prop where
  length : gs.length ≤ k
  ends : ∀ fs s, Scanning writable space groups fs s → fs.length + k ≤ scanLimit →
    Outcome.ends (fun _ t => Scanning writable space groups (fs ++ gs) t) WritesInside m s

/-! ## Appending a device -/

theorem slots_eq {block : DeviceBlock} {n : Nat} (h : block.bytes = n * pciDevDescSize) : block.slots = n := by
  unfold DeviceBlock.slots
  rw [h]
  exact Nat.mul_div_cancel n (by decide)

/-- The doubled array lists the same functions. -/
theorem Scanning.grow (h : Scanning writable space groups fs s) (hfull : fs.length = s.deviceCapacity)
    (hlimit : fs.length < scanLimit) (A : DeviceAllocator H) :
    Outcome.ends (fun _ t => Scanning writable space groups fs t ∧ fs.length < t.deviceCapacity) WritesInside
      (growDevices A) s := by
  unfold scanLimit at hlimit
  have hpos := h.positive
  have hsize : wrap (2 * s.deviceCapacity * pciDevDescSize) = 2 * s.deviceCapacity * pciDevDescSize :=
    wrap_of_lt (by unfold pciDevDescSize; omega)
  have hcap : wrap (2 * s.deviceCapacity) = 2 * s.deviceCapacity := wrap_of_lt (by omega)
  cases hk : A.krealloc s.heap s.pciDevices (2 * s.deviceCapacity * pciDevDescSize) with
  | mk newDevs heap =>
    cases newDevs with
    | none =>
      have hstop : (growDevices A).Stops s () { s with heap := A.kfree heap s.pciDevices } := by
        unfold Outcome.Stops growDevices
        rw [hsize, hk]
      exact Outcome.ends_of_stops hstop h.writes
    | some block =>
      have hret : (growDevices A).Returns s ()
          { s with heap := heap, pciDevices := block, deviceCapacity := 2 * s.deviceCapacity } := by
        unfold Outcome.Returns growDevices
        rw [hsize, hk, hcap]
      have hbytes := A.krealloc_bytes _ _ _ _ _ hk
      refine Outcome.ends_of_returns hret ⟨⟨h.sameSpace, ⟨h.lists.count, fun i f hf => ?_, ?_⟩, hbytes, ?_, ?_, ?_,
        h.writes⟩, ?_⟩
      · -- the slots in use are in the old block and in the new one
        obtain ⟨hi, -⟩ := List.getElem?_eq_some_iff.mp hf
        have hfit : (i + 1) * pciDevDescSize ≤ s.deviceCapacity * pciDevDescSize :=
          Nat.mul_le_mul_right _ (by omega)
        rw [← h.lists.slots i f hf]
        refine A.krealloc_keeps _ _ _ _ _ hk i (by rw [h.bytes]; exact hfit) (hfit.trans ?_)
        exact Nat.mul_le_mul_right _ (by omega)
      · exact (slots_eq hbytes).symm
      · dsimp only
        omega
      · dsimp only
        omega
      · dsimp only
        omega
      · dsimp only
        omega

/-- The description of a function is put behind the others. -/
theorem Scanning.store (h : Scanning writable space groups fs s) (hroom : fs.length < s.deviceCapacity)
    (f : PciFunctionAddr) :
    Outcome.ends (fun _ t => Scanning writable space groups (fs ++ [f]) t) WritesInside
      (storeDevice writable (pcieConfAddr groups f 0)) s := by
  have hcount := h.lists.count
  refine Outcome.ends_of_returns (Outcome.returns_modify _ s) ⟨?_, ⟨?_, fun i f' hf' => ?_, h.lists.capacity⟩, h.bytes,
    ?_, h.positive, ?_, fun w hw => ?_⟩
  · rw [← h.sameSpace]
    exact (probing_invisible writable _ s.space).1
  · rw [List.length_append, List.length_singleton]
    dsimp only
    rw [hcount]
  · dsimp only
    by_cases hi : i < fs.length
    · rw [List.getElem?_append_left hi] at hf'
      rw [Function.update_of_ne (by omega)]
      exact h.lists.slots i f' hf'
    · -- the new one
      rw [List.getElem?_append_right (by omega)] at hf'
      obtain ⟨hlast, heq⟩ := List.getElem?_eq_some_iff.mp hf'
      rw [List.length_singleton] at hlast
      have hidx : i = s.pciDeviceCount := by omega
      rw [List.getElem_singleton] at heq
      rw [hidx, Function.update_self, heq, h.sameSpace]
  · rw [List.length_append, List.length_singleton]
    exact hroom
  · have hbound := h.bound
    rw [List.length_append, List.length_singleton]
    dsimp only
    omega
  · rcases List.mem_append.mp hw with hw | hw
    · exact h.writes w hw
    · rw [List.mem_singleton.mp hw]
      exact ⟨by rw [hcount]; exact hroom, h.lists.capacity⟩

/-- **Grow, then append.** -/
theorem appends_appendDevice (A : DeviceAllocator H) (f : PciFunctionAddr) :
    Appends writable space groups [f] 1 (appendDevice A writable (pcieConfAddr groups f 0)) := by
  refine ⟨Nat.le_refl 1, fun fs s h hlimit => ?_⟩
  refine Outcome.ends_bind_returns (Outcome.returns_gets _ s) ?_
  have hcount := h.lists.count
  have hroom := h.room
  by_cases hfull : s.pciDeviceCount = s.deviceCapacity
  · rw [decide_eq_true hfull, if_pos rfl]
    refine Outcome.ends_bind (Outcome.ends_mono (h.grow (by omega) (by omega) A) fun _ t ht => ?_)
    exact ht.1.store ht.2 f
  · rw [decide_eq_false hfull, if_neg (by decide)]
    exact h.store (by omega) f

/-! ## Putting parts together -/

theorem appends_pure (k : Nat) : Appends (H := H) writable space groups [] k (pure ()) := by
  refine ⟨Nat.zero_le k, fun fs s h _ => ?_⟩
  refine Outcome.ends_of_returns (Outcome.returns_pure () s) ?_
  rwa [List.append_nil]

theorem Appends.mono {m : ScanM H Unit} (h : Appends writable space groups gs k m) (hk : k ≤ k') :
    Appends writable space groups gs k' m :=
  ⟨h.length.trans hk, fun fs s hs hlimit => h.ends fs s hs (by omega)⟩

theorem Appends.seq {m : ScanM H Unit} {m' : Unit → ScanM H Unit} (h : Appends writable space groups gs k m)
    (h' : ∀ u, Appends writable space groups gs' k' (m' u)) :
    Appends writable space groups (gs ++ gs') (k + k') (m >>= m') := by
  have hlen := h.length
  refine ⟨?_, fun fs s hs hlimit => ?_⟩
  · have := (h' ()).length
    rw [List.length_append]
    omega
  · refine Outcome.ends_bind (Outcome.ends_mono (h.ends fs s hs (by omega)) fun _ t ht => ?_)
    have := (h' ()).ends (fs ++ gs) t ht (by rw [List.length_append]; omega)
    rwa [List.append_assoc] at this

/-- A loop appends what its rounds append. -/
theorem appends_loop {body : Nat → ScanM H Unit} {g : Nat → List PciFunctionAddr} (start count : Nat)
    (h : ∀ i, start ≤ i → i < start + count → Appends writable space groups (g i) k (body i)) :
    Appends writable space groups ((List.range' start count).flatMap g) (k * count)
      (Outcome.loop start count body) := by
  induction count generalizing start with
  | zero => exact appends_pure _
  | succ count ih =>
    rw [Outcome.loop_succ, List.range'_succ, List.flatMap_cons, Nat.mul_succ, Nat.add_comm (k * count) k]
    exact (h start (Nat.le_refl _) (by omega)).seq fun _ =>
      ih (start + 1) fun i h₁ h₂ => h i (by omega) (by omega)

/-- A part that goes by the vendor id. -/
theorem appends_readVendorId {m : Nat → ScanM H Unit} (f : PciFunctionAddr)
    (h : Appends writable space groups gs k (m (space.loadLE (vendorIdAt (pcieConfAddr groups f 0)) 2))) :
    Appends writable space groups gs k (readVendorId groups f >>= m) := by
  refine ⟨h.length, fun fs s hs hlimit => ?_⟩
  have hnoted : Scanning writable space groups fs { s with probed := s.probed ++ [f] } :=
    ⟨hs.sameSpace, ⟨hs.lists.count, hs.lists.slots, hs.lists.capacity⟩, hs.bytes, hs.room, hs.positive, hs.bound,
      hs.writes⟩
  have hread : (readVendorId groups f).Returns s (space.loadLE (vendorIdAt (pcieConfAddr groups f 0)) 2)
      { s with probed := s.probed ++ [f] } := by
    rw [← hs.sameSpace]
    exact (Outcome.returns_modify _ s).bind (Outcome.returns_gets _ _)
  exact Outcome.ends_bind_returns hread (h.ends fs _ hnoted hlimit)

/-- A part that goes by what is in the configuration space. -/
theorem appends_gets {α : Type} (read : Mem → α) {m : α → ScanM H Unit}
    (h : Appends writable space groups gs k (m (read space))) :
    Appends writable space groups gs k (Outcome.gets (fun s => read s.space) >>= m) := by
  refine ⟨h.length, fun fs s hs hlimit => ?_⟩
  refine Outcome.ends_bind_returns (Outcome.returns_gets _ s) ?_
  rw [hs.sameSpace]
  exact h.ends fs s hs hlimit

/-! ## The loops -/

theorem appends_scanFunction (A : DeviceAllocator H) (f : PciFunctionAddr) :
    Appends writable space groups (functionsOf groups space f) 1 (scanFunction A writable groups f) := by
  refine appends_readVendorId f ?_
  unfold functionsOf
  by_cases hpresent : IsPresent groups space f
  · have hvendor : ¬space.loadLE (vendorIdAt (pcieConfAddr groups f 0)) 2 = 0xFFFF := hpresent
    rw [if_pos hpresent, if_neg hvendor]
    exact appends_appendDevice A f
  · have hvendor : space.loadLE (vendorIdAt (pcieConfAddr groups f 0)) 2 = 0xFFFF := not_not.mp hpresent
    rw [if_neg hpresent, if_pos hvendor]
    exact appends_pure 1

/-- A device, whose functions 1 to 7 are looked at if function 0 says there are any. -/
theorem appends_scanDevice (A : DeviceAllocator H) (group bus dev : Nat) :
    Appends writable space groups (deviceFunctions groups space group bus dev) 8
      (scanDevice A writable groups group bus dev) := by
  refine appends_readVendorId ⟨group, bus, dev, 0⟩ ?_
  unfold deviceFunctions
  by_cases hpresent : IsPresent groups space ⟨group, bus, dev, 0⟩
  · have hvendor : ¬space.loadLE (vendorIdAt (pcieConfAddr groups ⟨group, bus, dev, 0⟩ 0)) 2 = 0xFFFF := hpresent
    rw [if_pos hpresent, if_neg hvendor]
    rw [← List.singleton_append]
    show Appends writable space groups _ (1 + 7) _
    refine Appends.seq (appends_appendDevice A ⟨group, bus, dev, 0⟩) fun _ => ?_
    -- the type is read after the function has been probed, which has not changed it
    refine appends_gets (fun space => space.loadLE (typeAt (pcieConfAddr groups ⟨group, bus, dev, 0⟩ 0)) 1) ?_
    by_cases hmulti : IsMultiFunction groups space ⟨group, bus, dev, 0⟩
    · have htype : space.loadLE (typeAt (pcieConfAddr groups ⟨group, bus, dev, 0⟩ 0)) 1 &&& pciHeaderTypeMfMask ≠ 0 :=
        hmulti
      rw [if_pos hmulti, if_pos htype]
      exact appends_loop (k := 1) 1 7 fun fn _ _ => appends_scanFunction A ⟨group, bus, dev, fn⟩
    · have htype : ¬space.loadLE (typeAt (pcieConfAddr groups ⟨group, bus, dev, 0⟩ 0)) 1 &&& pciHeaderTypeMfMask ≠ 0 :=
        hmulti
      rw [if_neg hmulti, if_neg htype]
      exact appends_pure 7
  · have hvendor : space.loadLE (vendorIdAt (pcieConfAddr groups ⟨group, bus, dev, 0⟩ 0)) 2 = 0xFFFF :=
      not_not.mp hpresent
    rw [if_neg hpresent, if_pos hvendor]
    exact appends_pure 8

/-- A bus. -/
theorem appends_scanBus (A : DeviceAllocator H) (group bus : Nat) :
    Appends writable space groups (busFunctions groups space group bus) 256 (scanBus A writable groups group bus) :=
  appends_loop 0 32 fun dev _ _ => appends_scanDevice A group bus dev

/-- A group, of at most 256 buses. -/
theorem appends_scanGroup (A : DeviceAllocator H) (group : Nat) :
    Appends writable space groups (groupFunctions groups space group) (2 ^ 16) (scanGroup A writable groups group) := by
  have hend := (groups group).end_lt
  refine Appends.mono (appends_loop _ _ fun bus _ _ => appends_scanBus A group bus) ?_
  omega

/-! ## Which functions these are -/

theorem mem_functionsOf {f' : PciFunctionAddr} :
    f ∈ functionsOf groups space f' ↔ f = f' ∧ IsPresent groups space f := by
  unfold functionsOf
  split_ifs with h
  · rw [List.mem_singleton]
    constructor
    · rintro rfl
      exact ⟨rfl, h⟩
    · exact fun hf => hf.1
  · constructor
    · intro hf
      cases hf
    · rintro ⟨rfl, hf⟩
      exact absurd hf h

theorem mem_deviceFunctions : f ∈ deviceFunctions groups space group bus dev ↔
    (f.segmentGroup = group ∧ f.bus = bus ∧ f.device = dev) ∧
      (f.function = 0 ∨ 1 ≤ f.function ∧ f.function < 8 ∧ IsPresent groups space { f with function := 0 } ∧
        IsMultiFunction groups space { f with function := 0 }) ∧ IsPresent groups space f := by
  obtain ⟨group', bus', dev', fn'⟩ := f
  dsimp only
  unfold deviceFunctions
  constructor
  · intro h
    split_ifs at h with hpresent hmulti
    · rcases List.mem_cons.mp h with heq | h
      · cases heq
        exact ⟨⟨rfl, rfl, rfl⟩, .inl rfl, hpresent⟩
      · obtain ⟨fn, hfn, h⟩ := List.mem_flatMap.mp h
        obtain ⟨heq, hf⟩ := mem_functionsOf.mp h
        cases heq
        obtain ⟨h₁, h₂⟩ := List.mem_range'_1.mp hfn
        exact ⟨⟨rfl, rfl, rfl⟩, .inr ⟨h₁, h₂, hpresent, hmulti⟩, hf⟩
    · cases List.mem_singleton.mp h
      exact ⟨⟨rfl, rfl, rfl⟩, .inl rfl, hpresent⟩
    · cases h
  · rintro ⟨⟨rfl, rfl, rfl⟩, hfn, hf⟩
    rcases hfn with rfl | ⟨h₁, h₂, hpresent, hmulti⟩
    · rw [if_pos hf]
      exact List.mem_cons_self
    · rw [if_pos hpresent, if_pos hmulti]
      refine List.mem_cons_of_mem _ (List.mem_flatMap.mpr ⟨fn', List.mem_range'_1.mpr ⟨h₁, h₂⟩, ?_⟩)
      exact mem_functionsOf.mpr ⟨rfl, hf⟩

/-- Rows that are in order, and of which the later ones come after the earlier, are in order. -/
theorem pairwise_flatMap_range' {g : Nat → List PciFunctionAddr} {start count : Nat}
    (hrow : ∀ i, (g i).Pairwise ScanOrder) (hrows : ∀ i j, i < j → ∀ f ∈ g i, ∀ f' ∈ g j, ScanOrder f f') :
    ((List.range' start count).flatMap g).Pairwise ScanOrder :=
  List.pairwise_flatMap.mpr ⟨fun i _ => hrow i, List.Pairwise.imp (hrows _ _) List.pairwise_lt_range'⟩

/-- The functions of a device are in order. -/
theorem pairwise_deviceFunctions (groups : Nat → PciSegmentGroupDesc) (space : Mem) (group bus dev : Nat) :
    (deviceFunctions groups space group bus dev).Pairwise ScanOrder := by
  unfold deviceFunctions
  split_ifs with hpresent hmulti
  · refine List.pairwise_cons.mpr ⟨fun f hf => ?_, pairwise_flatMap_range' (fun fn => ?_) fun i j hlt f hf f' hf' => ?_⟩
    · obtain ⟨fn, hfn, h⟩ := List.mem_flatMap.mp hf
      obtain ⟨rfl, -⟩ := mem_functionsOf.mp h
      obtain ⟨h₁, -⟩ := List.mem_range'_1.mp hfn
      exact .inr ⟨rfl, .inr ⟨rfl, .inr ⟨rfl, h₁⟩⟩⟩
    · unfold functionsOf
      split_ifs
      · exact List.pairwise_singleton _ _
      · exact List.Pairwise.nil
    · obtain ⟨rfl, -⟩ := mem_functionsOf.mp hf
      obtain ⟨rfl, -⟩ := mem_functionsOf.mp hf'
      exact .inr ⟨rfl, .inr ⟨rfl, .inr ⟨rfl, hlt⟩⟩⟩
  · exact List.pairwise_singleton _ _
  · exact List.Pairwise.nil

theorem mem_busFunctions : f ∈ busFunctions groups space group bus ↔
    f.device < 32 ∧ f ∈ deviceFunctions groups space group bus f.device := by
  unfold busFunctions
  constructor
  · intro h
    obtain ⟨dev, hdev, h⟩ := List.mem_flatMap.mp h
    obtain ⟨-, -, rfl⟩ := (mem_deviceFunctions.mp h).1
    exact ⟨(List.mem_range'_1.mp hdev).2, h⟩
  · rintro ⟨hdev, h⟩
    exact List.mem_flatMap.mpr ⟨f.device, List.mem_range'_1.mpr ⟨Nat.zero_le _, hdev⟩, h⟩

/-- The functions of a bus are in order. -/
theorem pairwise_busFunctions (groups : Nat → PciSegmentGroupDesc) (space : Mem) (group bus : Nat) :
    (busFunctions groups space group bus).Pairwise ScanOrder := by
  refine pairwise_flatMap_range' (pairwise_deviceFunctions groups space group bus) fun i j hlt f hf f' hf' => ?_
  obtain ⟨rfl, rfl, rfl⟩ := (mem_deviceFunctions.mp hf).1
  obtain ⟨hg, hb, rfl⟩ := (mem_deviceFunctions.mp hf').1
  exact .inr ⟨hg.symm, .inr ⟨hb.symm, .inl hlt⟩⟩

theorem mem_groupFunctions : f ∈ groupFunctions groups space group ↔
    ((groups group).startBusNum ≤ f.bus ∧ f.bus < (groups group).endBusNum) ∧
      f ∈ busFunctions groups space group f.bus := by
  unfold groupFunctions
  constructor
  · intro h
    obtain ⟨bus, hbus, h⟩ := List.mem_flatMap.mp h
    obtain ⟨-, hdev⟩ := mem_busFunctions.mp h
    obtain ⟨-, rfl, -⟩ := (mem_deviceFunctions.mp hdev).1
    obtain ⟨h₁, h₂⟩ := List.mem_range'_1.mp hbus
    exact ⟨⟨h₁, by omega⟩, h⟩
  · rintro ⟨⟨h₁, h₂⟩, h⟩
    exact List.mem_flatMap.mpr ⟨f.bus, List.mem_range'_1.mpr ⟨h₁, by omega⟩, h⟩

/-- The functions of a group are in order. -/
theorem pairwise_groupFunctions (groups : Nat → PciSegmentGroupDesc) (space : Mem) (group : Nat) :
    (groupFunctions groups space group).Pairwise ScanOrder := by
  refine pairwise_flatMap_range' (pairwise_busFunctions groups space group) fun i j hlt f hf f' hf' => ?_
  obtain ⟨rfl, rfl, -⟩ := (mem_deviceFunctions.mp (mem_busFunctions.mp hf).2).1
  obtain ⟨hg, rfl, -⟩ := (mem_deviceFunctions.mp (mem_busFunctions.mp hf').2).1
  exact .inr ⟨hg.symm, .inl hlt⟩

/-- The functions of all groups are the ones that are scanned and there. -/
theorem mem_allFunctions {groupCount : Nat} : f ∈ allFunctions groups space groupCount ↔
    IsScanned groups space groupCount f ∧ IsPresent groups space f := by
  unfold allFunctions
  constructor
  · intro h
    obtain ⟨group, hgroup, h⟩ := List.mem_flatMap.mp h
    obtain ⟨hbus, h⟩ := mem_groupFunctions.mp h
    obtain ⟨hdev, h⟩ := mem_busFunctions.mp h
    obtain ⟨⟨rfl, -, -⟩, hfn, hpresent⟩ := mem_deviceFunctions.mp h
    obtain ⟨-, hlt⟩ := List.mem_range'_1.mp hgroup
    exact ⟨⟨by omega, hbus, hdev, hfn⟩, hpresent⟩
  · rintro ⟨⟨hgroup, hbus, hdev, hfn⟩, hpresent⟩
    refine List.mem_flatMap.mpr ⟨f.segmentGroup, List.mem_range'_1.mpr ⟨Nat.zero_le _, by omega⟩, ?_⟩
    exact mem_groupFunctions.mpr ⟨hbus, mem_busFunctions.mpr ⟨hdev, mem_deviceFunctions.mpr
      ⟨⟨rfl, rfl, rfl⟩, hfn, hpresent⟩⟩⟩

/-- The functions of all groups are in order. -/
theorem pairwise_allFunctions (groups : Nat → PciSegmentGroupDesc) (space : Mem) (groupCount : Nat) :
    (allFunctions groups space groupCount).Pairwise ScanOrder := by
  refine pairwise_flatMap_range' (pairwise_groupFunctions groups space) fun i j hlt f hf f' hf' => ?_
  obtain ⟨rfl, -⟩ := (mem_deviceFunctions.mp (mem_busFunctions.mp (mem_groupFunctions.mp hf).2).2).1
  obtain ⟨rfl, -⟩ := (mem_deviceFunctions.mp (mem_busFunctions.mp (mem_groupFunctions.mp hf').2).2).1
  exact .inl hlt

/-! ## The whole scan -/

/-- The array lists the functions that are scanned and there, in the order of the scan. -/
def ListsPresent (writable space : Mem) (groups : Nat → PciSegmentGroupDesc) (groupCount : Nat) (s : Scan H) : Prop :=
  ∃ fs, Lists writable space groups fs s ∧ fs.Pairwise ScanOrder ∧
    ∀ f, f ∈ fs ↔ IsScanned groups space groupCount f ∧ IsPresent groups space f

theorem scanning_ends (A : DeviceAllocator H) (writable : Mem) (groups : Nat → PciSegmentGroupDesc)
    (groupCount : BitVec 32) (s : Scan H) :
    Outcome.ends (fun _ t => Scanning writable s.space groups (allFunctions groups s.space groupCount.toNat) t)
      WritesInside (findDevices A writable groups groupCount) s := by
  have hcount := groupCount.isLt
  have hempty : ∀ t : Scan H, t.writes = [] → WritesInside t := by
    intro t ht w hw
    rw [ht] at hw
    cases hw
  refine Outcome.ends_bind ?_
  cases hk : A.kmalloc s.heap (2 * pciDevDescSize) with
  | mk block heap =>
    cases block with
    | none =>
      have hstop : (firstDevices A).Stops s () { s with heap := heap, probed := [], writes := [] } := by
        unfold Outcome.Stops firstDevices
        rw [hk]
      exact Outcome.ends_of_stops hstop (hempty _ rfl)
    | some block =>
      have hret : (firstDevices A).Returns s ()
          { s with heap := heap, pciDevices := block, deviceCapacity := 2, pciDeviceCount := 0, probed := [],
                   writes := [] } := by
        unfold Outcome.Returns firstDevices
        rw [hk]
      have hbytes := A.kmalloc_bytes _ _ _ _ hk
      have hloop := appends_loop 0 groupCount.toNat
        fun group _ _ => @appends_scanGroup H writable s.space groups A group
      refine Outcome.ends_of_returns hret (hloop.ends [] _ ?_ ?_)
      · refine ⟨rfl, ⟨rfl, fun i f hf => ?_, (slots_eq hbytes).symm⟩, hbytes, Nat.zero_le _, Nat.zero_lt_two,
          Nat.le_max_left 2 _, hempty _ rfl⟩
        cases hf
      · unfold scanLimit
        rw [List.length_nil]
        omega

/-- **`find_devices`**: when it returns true, the array lists exactly the functions that are there,
in the order of the scan, and in every case it has written only to slots of the array. -/
theorem findDevices_correct (A : DeviceAllocator H) (writable : Mem) (groups : Nat → PciSegmentGroupDesc)
    (groupCount : BitVec 32) (s : Scan H) :
    (∀ t, (findDevices A writable groups groupCount).Returns s () t →
        ListsPresent writable s.space groups groupCount.toNat t) ∧
      WritesInside ((findDevices A writable groups groupCount).after s) := by
  have hends := scanning_ends A writable groups groupCount s
  refine ⟨fun t ht => ?_, Outcome.after_of_ends hends fun _ _ h => h.writes⟩
  refine ⟨_, (ht.of_ends hends).lists, pairwise_allFunctions groups s.space groupCount.toNat, fun f => ?_⟩
  exact mem_allFunctions

end KoalemOS.Pci
