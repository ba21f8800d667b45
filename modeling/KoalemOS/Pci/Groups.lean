import KoalemOS.Acpi.Tables
import KoalemOS.Pci.FindDevices

/-!
# The segment groups (`src/kernel/pci.c`)

`init_pci` copies the entries of the MCFG table into an array, maps a window for each, and scans
the buses. The loop over the entries has no bound that is known beforehand, so it runs on fuel.
-/

namespace KoalemOS.Pci

open KoalemOS.Library
open KoalemOS.Acpi (Platform Mapping AcpiM AcpiSdt EntryRead)

/-! ## The code -/

/-- The variables of `acpi.c` and `pci.c`, and the loads of entries of the MCFG table. -/
structure PciState (H : Type) where
  acpi : Acpi.State
  scan : Scan H
  groups : Nat → PciSegmentGroupDesc
  groupCount : BitVec 32
  baseAddrReads : List EntryRead

/-- Why `init_pci` stops: it returns false, something it calls panics, or the fuel is used up. -/
inductive InitEnd where
  | failed
  | panic (text : String)
  | outOfFuel
  deriving DecidableEq

/-- Computations of `init_pci`. -/
abbrev InitM (H : Type) := Outcome InitEnd (PciState H)

variable {H : Type} {α : Type}

/-- A call of a function of `acpi.c`. -/
def onAcpi (m : AcpiM α) : InitM H α := Outcome.focus PciState.acpi (fun s a => { s with acpi := a }) .panic m

/-- A call of `find_devices`, which stops where it returns false. -/
def onScan (m : ScanM H α) : InitM H α :=
  Outcome.focus PciState.scan (fun s a => { s with scan := a }) (fun _ => .failed) m

/-- `sizeof(pci_config_base_addr)` -/
def pciConfigBaseAddrSize : Nat := 16

/-- `sizeof(pci_segment_group_desc)` -/
def pciSegmentGroupDescSize : Nat := 24

/-- `PAGING_FLAG_PAGE_LEVEL_CACHE_DISABLE | PAGING_FLAG_READ_WRITE` -/
def pagingFlagsConfigSpace : Nat := 2 ^ 4 ||| 2 ^ 1

/-- `&base_addrs[group]` -/
def baseAddrAt (baseAddrs group : Nat) : Nat := baseAddrs + pciConfigBaseAddrSize * group

/-- The description of an entry of the MCFG table, without a window. -/
def descOf (mem : Mem) (entry : Nat) : PciSegmentGroupDesc where
  paddr := mem.loadLE entry 8
  vaddr := 0
  startBusNum := mem.loadLE (entry + 10) 1
  endBusNum := mem.loadLE (entry + 11) 1
  start_lt := Mem.loadLE_lt _ _ 1
  end_lt := Mem.loadLE_lt _ _ 1

/-- The size of a window, computed in `int` and converted to `size_t`. -/
def windowSize (desc : PciSegmentGroupDesc) : Nat := wrap (sub64 desc.endBusNum desc.startBusNum * 0x100000)

/-- `groups[group] = (pci_segment_group_desc){...}` -/
def copyEntry (P : Platform) (baseAddrs group : Nat) : InitM H PciSegmentGroupDesc := fun s =>
  let desc := descOf (P.view s.acpi.live) (baseAddrAt baseAddrs group)
  (.ok desc, { s with
    groups := Function.update s.groups group desc
    baseAddrReads := s.baseAddrReads ++ [⟨baseAddrAt baseAddrs group, pciConfigBaseAddrSize⟩] })

/-- `groups[group].vaddr = create_virt_mapping(...)` -/
def mapWindow (P : Platform) (group : Nat) (desc : PciSegmentGroupDesc) : InitM H Unit := do
  let vaddr ← onAcpi (Acpi.createVirtMapping P desc.paddr (windowSize desc) pagingFlagsConfigSpace)
  Outcome.modify fun s => { s with groups := Function.update s.groups group { desc with vaddr := vaddr } }
  if vaddr = 0 then Outcome.stop .failed else pure ()

/-- The body of the loop over the entries. -/
def mapGroup (P : Platform) (baseAddrs group : Nat) : InitM H Unit := do
  let desc ← copyEntry P baseAddrs group
  mapWindow P group desc

/-- The loop over the entries, from `group` on; the counter is a `uint16_t`. -/
def mapGroups (P : Platform) (baseAddrs : Nat) : Nat → Nat → InitM H Unit
  | 0, _ => Outcome.stop .outOfFuel
  | fuel + 1, group => do
    let groupCount ← Outcome.gets PciState.groupCount
    if group < groupCount.toNat then
      mapGroup P baseAddrs group
      mapGroups P baseAddrs fuel ((group + 1) % 2 ^ 16)
    else pure ()

/-- `kmalloc` of the array of groups. -/
def allocGroups (A : DeviceAllocator H) : InitM H Unit := fun s =>
  match A.kmalloc s.scan.heap (s.groupCount.toNat * pciSegmentGroupDescSize) with
  | (none, heap) => (.error .failed, { s with scan := { s.scan with heap := heap } })
  | (some _, heap) => (.ok (), { s with scan := { s.scan with heap := heap } })

/-- Nothing has been loaded or looked at yet. -/
def startLogs : InitM H Unit := Outcome.modify fun s =>
  { s with baseAddrReads := [], scan := { s.scan with probed := [] } }

/-- The part of `init_pci` after `group_count` has been set. -/
def initGroups (A : DeviceAllocator H) (writable : Mem) (P : Platform) (baseAddrs fuel : Nat) : InitM H Unit := do
  allocGroups A
  mapGroups P baseAddrs fuel 0
  let s ← Outcome.gets id
  onScan (findDevices A writable s.groups s.groupCount)

/-- `init_pci` -/
def initPci (A : DeviceAllocator H) (writable : Mem) (P : Platform) (fuel : Nat) : InitM H Unit := do
  startLogs
  let table ← onAcpi (Acpi.getAcpiTable P Acpi.acpiSignatureMcfg)
  match table with
  | none => Outcome.stop .failed
  | some mcfg => do
    Outcome.modify fun s => { s with groupCount := (mcfg.length - 8) / 16 }
    initGroups A writable P (mcfg.addr + 8) fuel

/-! ## What a round of the loop does -/

variable {A : DeviceAllocator H} {writable : Mem} {P : Platform} {s t : PciState H} {baseAddrs group : Nat}

theorem onAcpi_returns {m : AcpiM α} {a : α} {acpi acpi' : Acpi.State} (h : m.Returns acpi a acpi')
    (hs : s.acpi = acpi) : (onAcpi m).Returns s a { s with acpi := acpi' } := by
  subst hs
  exact h.focus

theorem copyEntry_returns (P : Platform) (baseAddrs group : Nat) (s : PciState H) :
    (copyEntry P baseAddrs group).Returns s (descOf (P.view s.acpi.live) (baseAddrAt baseAddrs group)) { s with
      groups := Function.update s.groups group (descOf (P.view s.acpi.live) (baseAddrAt baseAddrs group))
      baseAddrReads := s.baseAddrReads ++ [⟨baseAddrAt baseAddrs group, pciConfigBaseAddrSize⟩] } :=
  rfl

theorem allocGroups_returns {block : DeviceBlock} {heap : H}
    (h : A.kmalloc s.scan.heap (s.groupCount.toNat * pciSegmentGroupDescSize) = (some block, heap)) :
    (allocGroups A).Returns s () { s with scan := { s.scan with heap := heap } } := by
  unfold Outcome.Returns allocGroups
  rw [h]

theorem allocGroups_stops {heap : H}
    (h : A.kmalloc s.scan.heap (s.groupCount.toNat * pciSegmentGroupDescSize) = (none, heap)) :
    (allocGroups A).Stops s .failed { s with scan := { s.scan with heap := heap } } := by
  unfold Outcome.Stops allocGroups
  rw [h]

theorem mapWindow_stops {desc : PciSegmentGroupDesc} (group : Nat)
    (hv : P.place s.acpi.live desc.paddr (windowSize desc) = 0) : ∃ t, (mapWindow P group desc).Stops s .failed t := by
  have hcreate := Acpi.createVirtMapping_fails (P := P) (s := s.acpi) desc.paddr (windowSize desc)
    pagingFlagsConfigSpace hv
  have hmodify := Outcome.returns_modify (ε := InitEnd)
    (fun s : PciState H => { s with groups := Function.update s.groups group { desc with vaddr := 0 } }) s
  exact ⟨_, (onAcpi_returns hcreate rfl).bind_stops (hmodify.bind_stops (Outcome.stops_stop _ _))⟩

/-- A round in which the window is not mapped. -/
theorem mapGroup_stops {desc : PciSegmentGroupDesc}
    (hdesc : descOf (P.view s.acpi.live) (baseAddrAt baseAddrs group) = desc)
    (hv : P.place s.acpi.live desc.paddr (windowSize desc) = 0) :
    ∃ t, (mapGroup P baseAddrs group).Stops s .failed t := by
  have hcopy := copyEntry_returns P baseAddrs group s
  rw [hdesc] at hcopy
  obtain ⟨t, hstop⟩ := mapWindow_stops (s := { s with
    groups := Function.update s.groups group desc
    baseAddrReads := s.baseAddrReads ++ [⟨baseAddrAt baseAddrs group, pciConfigBaseAddrSize⟩] }) group hv
  exact ⟨t, hcopy.bind_stops hstop⟩

/-- A round in which the window is mapped. -/
theorem mapGroup_returns {desc : PciSegmentGroupDesc}
    (hdesc : descOf (P.view s.acpi.live) (baseAddrAt baseAddrs group) = desc)
    (hv : P.place s.acpi.live desc.paddr (windowSize desc) ≠ 0) :
    ∃ t, (mapGroup P baseAddrs group).Returns s () t ∧ t.groupCount = s.groupCount ∧ t.scan = s.scan ∧
      t.groups = Function.update s.groups group
        { desc with vaddr := P.place s.acpi.live desc.paddr (windowSize desc) } ∧
      t.acpi.live = ⟨P.place s.acpi.live desc.paddr (windowSize desc), desc.paddr, windowSize desc,
        pagingFlagsConfigSpace⟩ :: s.acpi.live := by
  have hcopy := copyEntry_returns P baseAddrs group s
  rw [hdesc] at hcopy
  have hcreate := Acpi.createVirtMapping_returns (P := P) (s := s.acpi) desc.paddr (windowSize desc)
    pagingFlagsConfigSpace hv
  refine ⟨⟨{ s.acpi with live := _ :: s.acpi.live }, s.scan, Function.update s.groups group _, s.groupCount,
    s.baseAddrReads ++ [⟨baseAddrAt baseAddrs group, pciConfigBaseAddrSize⟩]⟩, ?_, rfl, rfl, rfl, rfl⟩
  refine hcopy.bind ?_
  refine (onAcpi_returns hcreate ?_).bind ?_
  · rfl
  refine (Outcome.returns_modify _ _).bind ?_
  rw [if_neg hv]
  dsimp only
  rw [Function.update_idem]
  exact Outcome.returns_pure () _

end KoalemOS.Pci
