import KoalemOS.Pci.TableReads

/-!
# The windows of the segment groups (`src/kernel/pci.c`)

The bus numbers of an entry of the MCFG table are inclusive, but `init_pci` maps one bus less, and
`find_devices` scans one bus less: the last bus of a group is neither scanned nor in the window,
and all others are (`bus_covered_iff`). So only a table without entries is covered
(`initPci_covers_iff`).
-/

namespace KoalemOS.Pci

open KoalemOS.Library
open KoalemOS.Acpi (Platform Mapping AcpiSdt SeenIn)

variable {H : Type} {A : DeviceAllocator H} {writable : Mem} {P : Platform} {s t : PciState H}
  {groups : Nat → PciSegmentGroupDesc} {m : Mapping} {group bus dev : Nat}

/-! ## What is asked for -/

/-- Entry `i` of the MCFG table at `paddr`. -/
def mcfgEntry (phys : Mem) (paddr i : Nat) : PciSegmentGroupDesc := descOf phys (baseAddrAt (paddr + mcfgHeaderSize) i)

/-- How many entries the MCFG table at `paddr` has. -/
def mcfgEntryCount (phys : Mem) (paddr : Nat) : Nat :=
  ((Acpi.tableLength phys paddr).toNat - mcfgHeaderSize) / pciConfigBaseAddrSize

/-- There is an MCFG table at `paddr`, and its entries are ranges of buses. -/
structure IsMcfg (phys : Mem) (paddr : Nat) : Prop where
  length : mcfgHeaderSize ≤ (Acpi.tableLength phys paddr).toNat
  ordered : ∀ i < mcfgEntryCount phys paddr,
    (mcfgEntry phys paddr i).startBusNum ≤ (mcfgEntry phys paddr i).endBusNum

/-- The function is in the group of entry `i`, on any bus of the range. -/
structure InGroup (entry : PciSegmentGroupDesc) (i : Nat) (f : PciFunctionAddr) : Prop where
  group : f.segmentGroup = i
  bus : entry.startBusNum ≤ f.bus ∧ f.bus ≤ entry.endBusNum
  device : f.device < 32
  function : f.function < 8

/-- The group of entry `i`: a window is mapped for it, and holds the configuration space of each of
its functions; each of its buses is scanned; and the functions have spaces of their own. -/
structure GroupCovered (entry : PciSegmentGroupDesc) (i : Nat) (t : PciState H) : Prop where
  window : ∃ m ∈ t.acpi.live, m.vaddr = (t.groups i).vaddr ∧ m.paddr = entry.paddr ∧
    ∀ f offset, InGroup entry i f → offset < 4096 → m.Covers (pcieConfAddr t.groups f offset)
  scanned : ∀ f, InGroup entry i f → f.function = 0 → f ∈ t.scan.probed
  disjoint : ∀ f f' offset offset', InGroup entry i f → InGroup entry i f' → offset < 4096 → offset' < 4096 →
    pcieConfAddr t.groups f offset = pcieConfAddr t.groups f' offset' → f = f'

/-- `init_pci` comes to an end, and all groups are covered. -/
def Covers (A : DeviceAllocator H) (writable : Mem) (P : Platform) (paddr : Nat) (s : PciState H) : Prop :=
  ∃ fuel, (∀ t, ¬(initPci A writable P fuel).Stops s .outOfFuel t) ∧
    ∀ i < mcfgEntryCount P.phys paddr, GroupCovered (mcfgEntry P.phys paddr i) i ((initPci A writable P fuel).after s)

/-! ## The functions that are looked at -/

section Probed

variable {I : Scan H → Prop}

theorem keeps_appendDevice (hother : ∀ s s' : Scan H, s'.probed = s.probed → I s → I s') (header : Nat) :
    Outcome.Keeps I (appendDevice A writable header) := by
  have hgrow : Outcome.Keeps I (growDevices A) := by
    intro s hs
    cases hk : A.krealloc s.heap s.pciDevices (wrap (2 * s.deviceCapacity * pciDevDescSize)) with
    | mk block heap =>
      unfold Outcome.ends growDevices
      rw [hk]
      cases block with
      | none => exact hother s _ rfl hs
      | some block => exact hother s _ rfl hs
  have hstore : Outcome.Keeps I (storeDevice writable header : ScanM H Unit) :=
    Outcome.keeps_modify fun s hs => hother s _ rfl hs
  exact (Outcome.keeps_gets _).bind fun full => (hgrow.bind fun _ => hstore).ite hstore

theorem keeps_readVendorId (f : PciFunctionAddr) (hprobe : ∀ s : Scan H, I s → I { s with probed := s.probed ++ [f] }) :
    Outcome.Keeps I (readVendorId groups f) :=
  (Outcome.keeps_modify hprobe).bind fun _ => Outcome.keeps_gets _

theorem keeps_scanFunction (hother : ∀ s s' : Scan H, s'.probed = s.probed → I s → I s') (f : PciFunctionAddr)
    (hprobe : ∀ s : Scan H, I s → I { s with probed := s.probed ++ [f] }) :
    Outcome.Keeps I (scanFunction A writable groups f) :=
  (keeps_readVendorId f hprobe).bind fun _ => (Outcome.keeps_pure _).ite (keeps_appendDevice hother _)

/-- What is done with a device whose function 0 has been looked at. -/
theorem keeps_scanDevice_rest (hother : ∀ s s' : Scan H, s'.probed = s.probed → I s → I s')
    (hprobe : ∀ fn < 8, ∀ s : Scan H, I s → I { s with probed := s.probed ++ [⟨group, bus, dev, fn⟩] })
    (vendorId header : Nat) :
    Outcome.Keeps I (if vendorId = 0xFFFF then pure () else do
      appendDevice A writable header
      let type ← Outcome.gets fun s => s.space.loadLE (typeAt header) 1
      if type &&& pciHeaderTypeMfMask ≠ 0 then
        Outcome.loop 1 7 fun fn => scanFunction A writable groups ⟨group, bus, dev, fn⟩
      else pure () : ScanM H Unit) := by
  apply (Outcome.keeps_pure ()).ite
  refine (keeps_appendDevice hother _).bind fun _ => (Outcome.keeps_gets _).bind fun type => ?_
  exact (Outcome.Keeps.loop 1 7 fun fn _ hfn => keeps_scanFunction hother _ (hprobe fn hfn)).ite (Outcome.keeps_pure _)

theorem keeps_scanDevice (hother : ∀ s s' : Scan H, s'.probed = s.probed → I s → I s')
    (hprobe : ∀ fn < 8, ∀ s : Scan H, I s → I { s with probed := s.probed ++ [⟨group, bus, dev, fn⟩] }) :
    Outcome.Keeps I (scanDevice A writable groups group bus dev) :=
  (keeps_readVendorId _ (hprobe 0 (by decide))).bind fun vendorId =>
    keeps_scanDevice_rest hother hprobe vendorId _

end Probed

/-! ## What the scan has looked at -/

/-- Only buses before the last of their group have been looked at. -/
def BeforeLast (groups : Nat → PciSegmentGroupDesc) (s : Scan H) : Prop :=
  ∀ f ∈ s.probed, f.bus < (groups f.segmentGroup).endBusNum

theorem keeps_beforeLast_scanGroup (group : Nat) :
    Outcome.Keeps (BeforeLast groups) (scanGroup A writable groups group) := by
  refine Outcome.Keeps.loop _ _ fun bus _ hbus => Outcome.Keeps.loop 0 32 fun dev _ _ => ?_
  refine keeps_scanDevice (fun s s' heq hs f hf => hs f (heq ▸ hf)) fun fn _ s hs f hf => ?_
  rcases List.mem_append.mp hf with hf | hf
  · exact hs f hf
  · rw [List.mem_singleton.mp hf]
    dsimp only
    omega

/-- Whether the first array is allocated or not, nothing has been looked at. -/
theorem ends_firstDevices {I : Scan H → Prop} (hI : ∀ s, s.probed = [] → I s) (s : Scan H) :
    Outcome.ends (fun _ => I) I (firstDevices A) s := by
  unfold Outcome.ends firstDevices
  cases hk : A.kmalloc s.heap (2 * pciDevDescSize) with
  | mk block heap =>
    cases block with
    | none => exact hI _ rfl
    | some block => exact hI _ rfl

theorem ends_findDevices_beforeLast (groupCount : BitVec 32) (s : Scan H) :
    Outcome.ends (fun _ => BeforeLast groups) (BeforeLast groups) (findDevices A writable groups groupCount) s := by
  have hempty : ∀ t : Scan H, t.probed = [] → BeforeLast groups t := by
    intro t ht f hf
    rw [ht] at hf
    cases hf
  refine Outcome.ends_bind (Outcome.ends_mono (ends_firstDevices hempty s) fun _ t ht => ?_)
  exact Outcome.Keeps.loop 0 groupCount.toNat (fun group _ _ => keeps_beforeLast_scanGroup group) t ht

/-- Each device of each bus before the last is looked at. -/
theorem findDevices_scans {groupCount : BitVec 32} {s t : Scan H}
    (hrun : (findDevices A writable groups groupCount).Returns s () t) (hgroup : group < groupCount.toNat)
    (hbus : (groups group).startBusNum ≤ bus ∧ bus < (groups group).endBusNum) (hdev : dev < 32) :
    ⟨group, bus, dev, 0⟩ ∈ t.probed := by
  obtain ⟨_, s', -, hloop⟩ := Outcome.returns_bind_iff.mp hrun
  have hkeeps : ∀ group' bus' dev', Outcome.Keeps (fun s : Scan H => ⟨group, bus, dev, 0⟩ ∈ s.probed)
      (scanDevice A writable groups group' bus' dev') := fun group' bus' dev' =>
    keeps_scanDevice (fun s s' heq hs => heq ▸ hs) fun fn _ s hs => List.mem_append_left _ hs
  have hkeepsBus := fun group' bus' => Outcome.Keeps.loop 0 32 fun dev' _ _ => hkeeps group' bus' dev'
  refine Outcome.returns_loop_of_round 0 groupCount.toNat (i := group) ⟨Nat.zero_le _, by omega⟩
    (fun group' _ _ => Outcome.Keeps.loop _ _ fun bus' _ _ => hkeepsBus group' bus') (fun s t hrun => ?_) hloop
  refine Outcome.returns_loop_of_round _ _ (i := bus) ⟨hbus.1, by omega⟩ (fun bus' _ _ => hkeepsBus group bus')
    (fun s t hrun => ?_) hrun
  refine Outcome.returns_loop_of_round 0 32 (i := dev) ⟨Nat.zero_le _, by omega⟩ (fun dev' _ _ => hkeeps group bus dev')
    (fun s t hrun => ?_) hrun
  obtain ⟨vendorId, s', hread, hrest⟩ := Outcome.returns_bind_iff.mp hrun
  obtain ⟨-, rfl⟩ := hread.det ((Outcome.returns_modify _ s).bind (Outcome.returns_gets _ _))
  refine Outcome.Keeps.returns (I := fun s : Scan H => ⟨group, bus, dev, 0⟩ ∈ s.probed) ?_ ?_ hrest
  · apply keeps_scanDevice_rest
    · exact fun s s' heq hs => heq ▸ hs
    · exact fun fn _ s hs => List.mem_append_left _ hs
  · exact List.mem_append_right _ (List.mem_singleton.mpr rfl)

/-! ## The windows that are mapped -/

/-- Group `i` is described by its entry, and the window is mapped. -/
def GroupMapped (phys : Mem) (paddr i : Nat) (s : PciState H) : Prop :=
  ∃ v, s.groups i = { mcfgEntry phys paddr i with vaddr := v } ∧
    ⟨v, (mcfgEntry phys paddr i).paddr, windowSize (mcfgEntry phys paddr i), pagingFlagsConfigSpace⟩ ∈ s.acpi.live

/-- The MCFG table is mapped by `m`, and the first `k` groups are mapped. -/
structure MapsGroups (P : Platform) (m : Mapping) (k : Nat) (s : PciState H) : Prop where
  seen : SeenIn s.acpi.live m
  count : s.groupCount.toNat = (m.size - mcfgHeaderSize) / pciConfigBaseAddrSize
  groups : ∀ i < k, GroupMapped P.phys m.paddr i s

theorem descOf_congr {mem mem' : Mem} {entry entry' : Nat} (hbase : mem.loadLE entry 8 = mem'.loadLE entry' 8)
    (hstart : mem.loadLE (entry + 10) 1 = mem'.loadLE (entry' + 10) 1)
    (hend : mem.loadLE (entry + 11) 1 = mem'.loadLE (entry' + 11) 1) : descOf mem entry = descOf mem' entry' := by
  unfold descOf
  simp only [hbase, hstart, hend]

/-- The entries are read as they are in the table. -/
theorem descOf_view {live : List Mapping} (h : SeenIn live m)
    (hgroup : group < (m.size - mcfgHeaderSize) / pciConfigBaseAddrSize) :
    descOf (P.view live) (baseAddrAt (m.vaddr + mcfgHeaderSize) group) = mcfgEntry P.phys m.paddr group := by
  have hinside : mcfgHeaderSize + pciConfigBaseAddrSize * group + pciConfigBaseAddrSize ≤ m.size := by
    unfold pciConfigBaseAddrSize at *
    omega
  have hload : ∀ k n, k + n ≤ pciConfigBaseAddrSize →
      (P.view live).loadLE (baseAddrAt (m.vaddr + mcfgHeaderSize) group + k) n =
        P.phys.loadLE (baseAddrAt (m.paddr + mcfgHeaderSize) group + k) n := by
    intro k n hk
    have hview := Acpi.loadLE_view (P := P) h (k := mcfgHeaderSize + pciConfigBaseAddrSize * group + k) (n := n)
      (by omega)
    unfold baseAddrAt
    rwa [← Nat.add_assoc, ← Nat.add_assoc, ← Nat.add_assoc, ← Nat.add_assoc] at hview
  exact descOf_congr (hload 0 8 (by decide)) (hload 10 1 (by decide)) (hload 11 1 (by decide))

/-- A round maps its group. -/
theorem MapsGroups.round {k : Nat} (h : MapsGroups P m k s)
    (hgroup : group < (m.size - mcfgHeaderSize) / pciConfigBaseAddrSize) (hle : group ≤ k)
    (hrun : (mapGroup P (m.vaddr + mcfgHeaderSize) group).Returns s () t) : MapsGroups P m (group + 1) t := by
  have hdesc := descOf_view (P := P) h.seen hgroup
  by_cases hv : P.place s.acpi.live (mcfgEntry P.phys m.paddr group).paddr
      (windowSize (mcfgEntry P.phys m.paddr group)) = 0
  · obtain ⟨t', hstop⟩ := mapGroup_stops hdesc hv
    exact absurd hstop fun hstop => hrun.not_stops hstop
  · obtain ⟨t', hreturns, hcount, -, hgroups, hlive⟩ := mapGroup_returns hdesc hv
    obtain ⟨-, rfl⟩ := hrun.det hreturns
    refine ⟨?_, hcount ▸ h.count, fun i hi => ?_⟩
    · rw [hlive]
      exact h.seen.create _ hv
    · unfold GroupMapped
      rw [hgroups, hlive]
      by_cases heq : i = group
      · subst heq
        exact ⟨_, Function.update_self _ _ _, List.mem_cons_self⟩
      · obtain ⟨v, hdesc, hmem⟩ := h.groups i (by omega)
        exact ⟨v, (Function.update_of_ne heq _ _).trans hdesc, List.mem_cons_of_mem _ hmem⟩

/-- When the loop comes to its end, all groups are mapped. -/
theorem MapsGroups.loop (fuel : Nat) {k : Nat} (h : MapsGroups P m k s) (hle : group ≤ k)
    (hrun : (mapGroups P (m.vaddr + mcfgHeaderSize) fuel group).Returns s () t) :
    MapsGroups P m ((m.size - mcfgHeaderSize) / pciConfigBaseAddrSize) t := by
  induction fuel generalizing group s k with
  | zero => exact absurd (Outcome.stops_stop _ s) fun hstop => hrun.not_stops hstop
  | succ fuel ih =>
    obtain ⟨_, s', hcount, hrun⟩ := Outcome.returns_bind_iff.mp hrun
    obtain ⟨rfl, hs'⟩ := hcount.det (Outcome.returns_gets _ s)
    rw [hs'] at hrun
    by_cases hlt : group < s.groupCount.toNat
    · rw [if_pos hlt] at hrun
      obtain ⟨_, s', hround, hrest⟩ := Outcome.returns_bind_iff.mp hrun
      -- a counter that wraps begins again with groups that are mapped
      exact ih (h.round (h.count ▸ hlt) hle hround) (Nat.mod_le _ _) hrest
    · rw [if_neg hlt] at hrun
      obtain ⟨-, rfl⟩ := hrun.det (Outcome.returns_pure () s)
      rw [h.count] at hlt
      exact ⟨h.seen, h.count, fun i hi => h.groups i (by omega)⟩

/-! ## The last bus of a group -/

/-- Of group `i`, only buses before the last have been looked at. -/
def LastUnscanned (entry : PciSegmentGroupDesc) (i : Nat) (s : PciState H) : Prop :=
  ∀ f ∈ s.scan.probed, f.segmentGroup = i → f.bus < entry.endBusNum

theorem lastUnscanned_of_probed {entry : PciSegmentGroupDesc} {i : Nat} (h : s.scan.probed = []) :
    LastUnscanned entry i s := by
  intro f hf
  rw [h] at hf
  cases hf

theorem keeps_mapGroups_probed (baseAddrs fuel group : Nat) :
    Outcome.Keeps (fun s : PciState H => s.scan.probed = []) (mapGroups P baseAddrs fuel group) :=
  keeps_mapGroups (fun _ _ _ _ => keeps_mapGroup (fun _ _ hs => hs) (fun _ _ hs => hs) fun _ hs => hs) fuel group

theorem ends_mapGroups (fuel : Nat) (h : MapsGroups P m 0 s) (hprobed : s.scan.probed = []) :
    Outcome.ends
      (fun _ t => t.scan.probed = [] ∧ MapsGroups P m ((m.size - mcfgHeaderSize) / pciConfigBaseAddrSize) t)
      (fun t => t.scan.probed = []) (mapGroups P (m.vaddr + mcfgHeaderSize) fuel 0) s :=
  (keeps_mapGroups_probed _ fuel 0).ends_and hprobed fun _ _ hrun => h.loop fuel (Nat.le_refl 0) hrun

/-- However `init_pci` ends, it has not scanned the last bus of any group. -/
theorem ends_initGroups (A : DeviceAllocator H) (writable : Mem) (fuel : Nat) (h : MapsGroups P m 0 s)
    (hprobed : s.scan.probed = []) {i : Nat} (hi : i < (m.size - mcfgHeaderSize) / pciConfigBaseAddrSize) :
    Outcome.ends (fun _ => LastUnscanned (mcfgEntry P.phys m.paddr i) i) (LastUnscanned (mcfgEntry P.phys m.paddr i) i)
      (initGroups A writable P (m.vaddr + mcfgHeaderSize) fuel) s := by
  cases hk : A.kmalloc s.scan.heap (s.groupCount.toNat * pciSegmentGroupDescSize) with
  | mk block heap =>
    cases block with
    | none => exact Outcome.ends_of_stops (allocGroups_stops hk).bind (lastUnscanned_of_probed hprobed)
    | some block =>
      refine Outcome.ends_bind_returns (allocGroups_returns hk) (Outcome.ends_bind ?_)
      have hmaps : MapsGroups P m 0 { s with scan := { s.scan with heap := heap } } := ⟨h.seen, h.count, h.groups⟩
      have hloop := ends_mapGroups fuel hmaps hprobed
      refine Outcome.ends_mono (Outcome.ends_weaken hloop fun t ht => lastUnscanned_of_probed ht) fun _ t ht => ?_
      refine Outcome.ends_bind_returns (Outcome.returns_gets id t) (Outcome.ends_focus ?_)
      obtain ⟨v, hdesc, -⟩ := ht.2.groups i hi
      have hlast : ∀ scan : Scan H, BeforeLast t.groups scan →
          LastUnscanned (mcfgEntry P.phys m.paddr i) i { t with scan := scan } := by
        intro scan hscan f hf hgroup
        have hlt := hscan f hf
        rw [hgroup, hdesc] at hlt
        exact hlt
      exact Outcome.ends_mono (Outcome.ends_weaken (ends_findDevices_beforeLast _ _) hlast) fun _ => hlast

/-! ## Which tables are covered -/

/-- The state of `init_pci` after it has found the table. -/
theorem mapsGroups_withMcfg {acpi : Acpi.State} {mcfg : AcpiSdt} {length : BitVec 32}
    (h : FindsMcfg P length s mcfg acpi m) (hlength : mcfgHeaderSize ≤ length.toNat) :
    MapsGroups P m 0 (withMcfg s acpi length) := by
  refine ⟨?_, ?_, fun i hi => absurd hi (Nat.not_lt_zero i)⟩
  · obtain ⟨live, hlive⟩ := List.head?_eq_some_iff.mp h.mapping
    show SeenIn acpi.live m
    rw [hlive]
    exact Acpi.seenIn_head m live
  · rw [h.size]
    exact groupCountOf_of_le hlength

/-- A table with an entry is not covered. -/
theorem not_covers_of_pos {acpi : Acpi.State} {mcfg : AcpiSdt} (hmcfg : IsMcfg P.phys m.paddr)
    (hfinds : FindsMcfg P (Acpi.tableLength P.phys m.paddr) s mcfg acpi m) (hpos : 0 < mcfgEntryCount P.phys m.paddr) :
    ¬Covers A writable P m.paddr s := by
  rintro ⟨fuel, -, hcovered⟩
  have hrun : (initPci A writable P fuel).after s = _ := congrArg Prod.snd (hfinds.initPci_eq A writable fuel)
  -- the last bus of the first entry
  have hlast := (hcovered 0 hpos).scanned ⟨0, (mcfgEntry P.phys m.paddr 0).endBusNum, 0, 0⟩
    ⟨rfl, ⟨hmcfg.ordered 0 hpos, Nat.le_refl _⟩, Nat.zero_lt_succ _, Nat.zero_lt_succ _⟩ rfl
  have hends := ends_initGroups (i := 0) A writable fuel (mapsGroups_withMcfg hfinds hmcfg.length) rfl
    (by rw [hfinds.size]; exact hpos)
  have hafter := Outcome.after_of_ends hends (fun _ _ ht => ht) _ (hrun ▸ hlast) rfl
  exact absurd hafter (Nat.lt_irrefl _)

/-- **`init_pci`**: for an MCFG table whose entries are ranges of buses, all groups are covered
exactly when there are none. -/
theorem initPci_covers_iff {acpi : Acpi.State} {mcfg : AcpiSdt} (A : DeviceAllocator H) (writable : Mem)
    (hmcfg : IsMcfg P.phys m.paddr) (hfinds : FindsMcfg P (Acpi.tableLength P.phys m.paddr) s mcfg acpi m) :
    Covers A writable P m.paddr s ↔ mcfgEntryCount P.phys m.paddr = 0 := by
  constructor
  · intro hcovers
    by_contra hne
    exact not_covers_of_pos hmcfg hfinds (Nat.pos_of_ne_zero hne) hcovers
  · intro hzero
    have hcount : groupCountOf (Acpi.tableLength P.phys m.paddr) = 0 := by
      apply BitVec.eq_of_toNat_eq
      rw [groupCountOf_of_le hmcfg.length]
      exact hzero
    refine ⟨1, hfinds.not_outOfFuel (fun t ht => ?_) A writable, fun i hi => ?_⟩
    · exact Outcome.wp_of_returns (mapGroups_none (ht.trans hcount)) trivial
    · rw [hzero] at hi
      exact absurd hi (Nat.not_lt_zero i)

/-- A firmware whose MCFG table has no entries. -/
def noGroupsFirmware : Mem := Acpi.firmware (fun _ => 0) 44

/-- The table without entries is covered. -/
theorem initPci_covers_iff_noGroups : ∃ acpi,
    Covers freshBlocks (fun _ => 0) (Acpi.paged noGroupsFirmware fun _ => 0) 0x2000 (bootState acpi) := by
  have hlength : Acpi.tableLength noGroupsFirmware 0x2000 = 44 := Acpi.tableLength_firmware _ _
  have hcount : mcfgEntryCount noGroupsFirmware 0x2000 = 0 := by
    unfold mcfgEntryCount
    rw [hlength]
    decide
  obtain ⟨acpi, mcfg, acpi', v, hfinds⟩ := findsMcfg_firmware (fun _ => 0) (fun _ => 0) 44
  have hmcfg : IsMcfg noGroupsFirmware 0x2000 := by
    refine ⟨by rw [hlength]; decide, fun i hi => ?_⟩
    rw [hcount] at hi
    exact absurd hi (Nat.not_lt_zero i)
  rw [← hlength] at hfinds
  exact ⟨acpi, (initPci_covers_iff (P := Acpi.paged noGroupsFirmware fun _ => 0) (m := ⟨v, 0x2000, _, 0⟩) freshBlocks
    (fun _ => 0) hmcfg hfinds).mpr hcount⟩

/-- An MCFG table with one entry, for the buses 0 to 255. -/
def allBusesFirmware : Mem := Acpi.firmware (Mem.storeLE (fun _ => 0) 0x202C 16 (0xB0000000 + 255 * 2 ^ 88)) 60

theorem isMcfg_allBusesFirmware : IsMcfg allBusesFirmware 0x2000 := by
  have hlength : Acpi.tableLength allBusesFirmware 0x2000 = 60 := Acpi.tableLength_firmware _ _
  have hcount : mcfgEntryCount allBusesFirmware 0x2000 = 1 := by
    unfold mcfgEntryCount
    rw [hlength]
    decide
  refine ⟨by rw [hlength]; decide, fun i hi => ?_⟩
  rw [hcount] at hi
  rw [Nat.lt_one_iff.mp hi]
  decide

/-- The table is found. -/
theorem findsMcfg_allBusesFirmware : ∃ acpi mcfg acpi' v, FindsMcfg (Acpi.paged allBusesFirmware fun _ => 0)
    (Acpi.tableLength allBusesFirmware 0x2000) (bootState acpi) mcfg acpi' ⟨v, 0x2000, 60, 0⟩ := by
  rw [show Acpi.tableLength allBusesFirmware 0x2000 = 60 from Acpi.tableLength_firmware _ _]
  exact findsMcfg_firmware _ _ 60

/-- Bus 255 of that table is not covered, although nothing fails. -/
theorem not_covers_allBuses : ∃ acpi mcfg acpi' m,
    FindsMcfg (Acpi.paged allBusesFirmware fun _ => 0) (Acpi.tableLength allBusesFirmware m.paddr) (bootState acpi)
      mcfg acpi' m ∧ IsMcfg allBusesFirmware m.paddr ∧
    ¬Covers freshBlocks (fun _ => 0) (Acpi.paged allBusesFirmware fun _ => 0) m.paddr (bootState acpi) := by
  obtain ⟨acpi, mcfg, acpi', v, hfinds⟩ := findsMcfg_allBusesFirmware
  refine ⟨acpi, mcfg, acpi', ⟨v, 0x2000, 60, 0⟩, hfinds, isMcfg_allBusesFirmware, ?_⟩
  exact not_covers_of_pos (P := Acpi.paged allBusesFirmware fun _ => 0) (m := ⟨v, 0x2000, 60, 0⟩)
    isMcfg_allBusesFirmware hfinds (show 0 < mcfgEntryCount allBusesFirmware 0x2000 by decide)

/-! ## Which buses are covered -/

/-- The size of the window of an entry that is a range of buses. -/
theorem windowSize_of_le {desc : PciSegmentGroupDesc} (h : desc.startBusNum ≤ desc.endBusNum) :
    windowSize desc = (desc.endBusNum - desc.startBusNum) * 2 ^ 20 := by
  have hend := desc.end_lt
  unfold windowSize
  rw [sub64_of_le h (by omega)]
  exact wrap_of_lt (by omega)

/-- Where the function of a bus is, relative to the window. -/
theorem covers_pcieConfAddr_iff {entry : PciSegmentGroupDesc} {v i : Nat} {f : PciFunctionAddr} {offset : Nat}
    (hdesc : groups i = { entry with vaddr := v }) (hspace : v + windowSize entry ≤ 2 ^ 64) (hf : InGroup entry i f)
    (hoffset : offset < 4096) :
    Mapping.Covers ⟨v, entry.paddr, windowSize entry, pagingFlagsConfigSpace⟩ (pcieConfAddr groups f offset) ↔
      f.bus < entry.endBusNum := by
  have hbus := hf.bus
  have hdev := hf.device
  have hfn := hf.function
  have hend := entry.end_lt
  rw [windowSize_of_le (Nat.le_trans hbus.1 hbus.2)] at hspace ⊢
  unfold Mapping.Covers pcieConfAddr wrap
  rw [hf.group, hdesc]
  dsimp only
  omega

/-- The functions of a group have spaces of their own. -/
theorem pcieConfAddr_inj {entry : PciSegmentGroupDesc} {v i : Nat} {f f' : PciFunctionAddr} {offset offset' : Nat}
    (hdesc : groups i = { entry with vaddr := v }) (hf : InGroup entry i f) (hf' : InGroup entry i f')
    (hoffset : offset < 4096) (hoffset' : offset' < 4096)
    (h : pcieConfAddr groups f offset = pcieConfAddr groups f' offset') : f = f' := by
  obtain ⟨hgroup, hbus, hdev, hfn⟩ := hf
  obtain ⟨hgroup', hbus', hdev', hfn'⟩ := hf'
  have hend := entry.end_lt
  unfold pcieConfAddr wrap at h
  rw [hgroup, hgroup', hdesc] at h
  dsimp only at h
  obtain ⟨group, bus, dev, fn⟩ := f
  obtain ⟨group', bus', dev', fn'⟩ := f'
  dsimp only at *
  subst hgroup hgroup'
  have hfields : bus = bus' ∧ dev = dev' ∧ fn = fn' := by omega
  obtain ⟨rfl, rfl, rfl⟩ := hfields
  rfl

/-- Where `init_pci` returns true, all groups have been mapped and scanned. -/
theorem returns_initGroups {fuel : Nat} (h : MapsGroups P m 0 s)
    (hrun : (initGroups A writable P (m.vaddr + mcfgHeaderSize) fuel).Returns s () t) :
    MapsGroups P m ((m.size - mcfgHeaderSize) / pciConfigBaseAddrSize) t ∧
      ∃ scan, (findDevices A writable t.groups t.groupCount).Returns scan () t.scan := by
  obtain ⟨_, s₁, halloc, hrun⟩ := Outcome.returns_bind_iff.mp hrun
  obtain ⟨_, s₂, hloop, hrun⟩ := Outcome.returns_bind_iff.mp hrun
  obtain ⟨s₂', s₃, hget, hscan⟩ := Outcome.returns_bind_iff.mp hrun
  obtain ⟨hs₂, hs₃⟩ := hget.det (Outcome.returns_gets id s₂)
  rw [hs₂, hs₃] at hscan
  have hkeeps : Outcome.Keeps (MapsGroups P m 0) (allocGroups A) :=
    keeps_allocGroups fun s scan hs => ⟨hs.seen, hs.count, hs.groups⟩
  have hmaps := (hkeeps.returns h halloc).loop fuel (Nat.le_refl 0) hloop
  obtain ⟨scan, hfind, rfl⟩ := Outcome.returns_focus_iff.mp hscan
  exact ⟨⟨hmaps.seen, hmaps.count, hmaps.groups⟩, s₂.scan, hfind⟩

/-- Where `init_pci` returns true, a bus of a group is scanned, and its functions are in the window of
the group, exactly when it is not the last. Different functions are at different addresses on all
buses. -/
theorem bus_covered_iff {acpi : Acpi.State} {mcfg : AcpiSdt} {fuel i : Nat} (hmcfg : IsMcfg P.phys m.paddr)
    (hfinds : FindsMcfg P (Acpi.tableLength P.phys m.paddr) s mcfg acpi m)
    (hrun : (initPci A writable P fuel).Returns s () t) (hspace : ∀ w ∈ t.acpi.live, w.vaddr + w.size ≤ 2 ^ 64)
    (hi : i < mcfgEntryCount P.phys m.paddr) {f : PciFunctionAddr} (hf : InGroup (mcfgEntry P.phys m.paddr i) i f) :
    ({ f with function := 0 } ∈ t.scan.probed ↔ f.bus < (mcfgEntry P.phys m.paddr i).endBusNum) ∧
      ∃ w ∈ t.acpi.live, w.vaddr = (t.groups i).vaddr ∧ w.paddr = (mcfgEntry P.phys m.paddr i).paddr ∧
        ∀ offset < 4096, (w.Covers (pcieConfAddr t.groups f offset) ↔ f.bus < (mcfgEntry P.phys m.paddr i).endBusNum) ∧
          ∀ f', InGroup (mcfgEntry P.phys m.paddr i) i f' → ∀ offset' < 4096,
            pcieConfAddr t.groups f offset = pcieConfAddr t.groups f' offset' → f = f' := by
  have hi' : i < (m.size - mcfgHeaderSize) / pciConfigBaseAddrSize := by rw [hfinds.size]; exact hi
  have hstart := mapsGroups_withMcfg hfinds hmcfg.length
  unfold Outcome.Returns at hrun
  rw [hfinds.initPci_eq] at hrun
  obtain ⟨hmaps, scan, hfind⟩ := returns_initGroups hstart hrun
  obtain ⟨v, hdesc, hmem⟩ := hmaps.groups i hi'
  have hgroup := hf.group
  subst hgroup
  refine ⟨⟨fun hprobed => ?_, fun hlast => ?_⟩, _, hmem, by rw [hdesc], rfl, fun offset hoffset => ?_⟩
  · have hlast := Outcome.Returns.of_ends hrun (ends_initGroups A writable fuel hstart rfl hi')
    exact hlast { f with function := 0 } hprobed rfl
  · refine findDevices_scans hfind (by rw [hmaps.count]; exact hi') ?_ hf.device
    rw [hdesc]
    exact ⟨hf.bus.1, hlast⟩
  · exact ⟨covers_pcieConfAddr_iff hdesc (hspace _ hmem) hf hoffset, fun f' hf' offset' hoffset' =>
      pcieConfAddr_inj hdesc hf hf' hoffset hoffset'⟩

end KoalemOS.Pci
