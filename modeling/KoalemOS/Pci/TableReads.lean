import KoalemOS.Acpi.EntryReads
import KoalemOS.Pci.Groups
import Mathlib.Data.Finset.Card
import Mathlib.Data.Finset.Range

/-!
# The bounds of the firmware's tables (`src/kernel/pci.c`, `src/kernel/acpi.c`)

`init_pci` takes the number of groups from the length of the MCFG table, by subtractions that wrap,
and counts the groups in 16 bits. All entries are read from the mapping of the table exactly when
the length is that of a table without entries or more (`tableReads_inside_iff`). The loop comes to
an end for every length: where the counter wraps before it comes to the number of groups, the
windows use up the address space (`groupLoopEnds`).
-/

namespace KoalemOS.Pci

open KoalemOS.Library
open KoalemOS.Acpi (Platform Mapping AcpiM AcpiSdt EntryRead)

variable {H : Type} {A : DeviceAllocator H} {writable : Mem} {P : Platform} {s t : PciState H}
  {baseAddrs group : Nat} {m : Mapping} {mcfg : AcpiSdt} {length : BitVec 32}

/-! ## What is asked for -/

/-- `get_acpi_table` finds an MCFG table of the length, and maps it at `m`. -/
structure FindsMcfg (P : Platform) (length : BitVec 32) (s : PciState H) (mcfg : AcpiSdt) (acpi : Acpi.State)
    (m : Mapping) : Prop where
  run : (Acpi.getAcpiTable P Acpi.acpiSignatureMcfg).Returns s.acpi (some mcfg) acpi
  mapping : acpi.live.head? = some m
  size : m.size = length.toNat

/-- An MCFG table of the length: whatever it holds, `init_pci` reads entries from its mapping only. -/
def McfgReadsInside (length : BitVec 32) : Prop :=
  ∀ (H : Type) (A : DeviceAllocator H) (writable : Mem) (P : Platform) (s : PciState H) mcfg acpi m,
    P.Paged → FindsMcfg P length s mcfg acpi m →
    ∀ fuel, ∀ r ∈ ((initPci A writable P fuel).after s).baseAddrReads, r.Inside m

/-- An MCFG table of the length: whatever it holds, the loop of `init_pci` comes to an end. -/
def GroupLoopEnds (length : BitVec 32) : Prop :=
  ∀ (H : Type) (A : DeviceAllocator H) (writable : Mem) (P : Platform) (s : PciState H) mcfg acpi m,
    P.Paged → FindsMcfg P length s mcfg acpi m → ∃ fuel, ∀ t, ¬(initPci A writable P fuel).Stops s .outOfFuel t

/-- The number of groups that `init_pci` computes. -/
def groupCountOf (length : BitVec 32) : BitVec 32 := (length - 36 - 8) / 16

/-- The length of an MCFG table without entries. -/
def mcfgHeaderSize : Nat := 44

theorem groupCountOf_of_le (h : mcfgHeaderSize ≤ length.toNat) :
    (groupCountOf length).toNat = (length.toNat - mcfgHeaderSize) / 16 := by
  unfold mcfgHeaderSize at h ⊢
  unfold groupCountOf
  have hlength := length.isLt
  rw [BitVec.toNat_udiv, BitVec.toNat_sub, BitVec.toNat_sub]
  show (2 ^ 32 - 8 + (2 ^ 32 - 36 + length.toNat) % 2 ^ 32) % 2 ^ 32 / 16 = _
  omega

/-- The number of groups of a table that is shorter. -/
theorem groupCountOf_of_lt (h : length.toNat < mcfgHeaderSize) : 2 ^ 16 ≤ (groupCountOf length).toNat := by
  unfold mcfgHeaderSize at h
  unfold groupCountOf
  rw [BitVec.toNat_udiv, BitVec.toNat_sub, BitVec.toNat_sub]
  show _ ≤ (2 ^ 32 - 8 + (2 ^ 32 - 36 + length.toNat) % 2 ^ 32) % 2 ^ 32 / 16
  omega

/-! ## What `get_acpi_table` returns -/

/-- The body of a table that has been found, and its mapping. -/
theorem FindsMcfg.body {acpi : Acpi.State} (h : FindsMcfg P length s mcfg acpi m) :
    mcfg.addr = m.vaddr + Acpi.sdtHeaderSize ∧ mcfg.length = length - 36 := by
  obtain ⟨_, _, hcount, hrun⟩ := Outcome.returns_bind_iff.mp h.run
  obtain ⟨table, t, hfind, hrun⟩ := Outcome.returns_bind_iff.mp hrun
  have hmapping := h.mapping
  by_cases hpaddr : table.1 = 0
  · rw [if_pos hpaddr] at hrun
    exact absurd (hrun.det (Outcome.returns_pure none t)).1 (by simp)
  · rw [if_neg hpaddr] at hrun
    obtain ⟨v, t', hcreate, hrun⟩ := Outcome.returns_bind_iff.mp hrun
    have hv : P.place t.live table.1 table.2.toNat ≠ 0 := fun hv =>
      hcreate.not_stops (Acpi.createOrPanic_stops _ _ _ hv)
    obtain ⟨rfl, rfl⟩ := hcreate.det (Acpi.createOrPanic_returns _ _ _ hv)
    obtain ⟨hbody, rfl⟩ := hrun.det (Outcome.returns_pure _ _)
    cases hbody
    cases hmapping
    have hsize : table.2 = length := BitVec.eq_of_toNat_eq h.size
    exact ⟨rfl, by rw [hsize]⟩

/-- The state of `init_pci` after it has found the table. -/
def withMcfg (s : PciState H) (acpi : Acpi.State) (length : BitVec 32) : PciState H :=
  { s with acpi := acpi, groupCount := groupCountOf length, baseAddrReads := [], scan := { s.scan with probed := [] } }

theorem FindsMcfg.initPci_eq {acpi : Acpi.State} (h : FindsMcfg P length s mcfg acpi m) (A : DeviceAllocator H)
    (writable : Mem) (fuel : Nat) :
    initPci A writable P fuel s = initGroups A writable P (m.vaddr + mcfgHeaderSize) fuel (withMcfg s acpi length) := by
  obtain ⟨haddr, hlength⟩ := h.body
  have hstart : (startLogs : InitM H Unit).Returns s ()
      { s with baseAddrReads := [], scan := { s.scan with probed := [] } } := rfl
  have hfind := onAcpi_returns (s := { s with baseAddrReads := [], scan := { s.scan with probed := [] } }) h.run rfl
  unfold initPci
  rw [hstart.bind_eq, hfind.bind_eq]
  dsimp only
  rw [(Outcome.returns_modify _ _).bind_eq, haddr, hlength]
  rfl

/-! ## The entries that are read -/

/-- What the loop keeps: the number of groups, and that entries have been read from `m` only. -/
structure ReadsMcfg (groupCount : BitVec 32) (m : Mapping) (s : PciState H) : Prop where
  count : s.groupCount = groupCount
  reads : ∀ r ∈ s.baseAddrReads, r.Inside m

theorem keeps_mapWindow {I : PciState H → Prop} (hacpi : ∀ s acpi, I s → I { s with acpi := acpi })
    (hgroups : ∀ s groups, I s → I { s with groups := groups }) (group : Nat) (desc : PciSegmentGroupDesc) :
    Outcome.Keeps I (mapWindow P group desc) := by
  refine (Outcome.keeps_focus fun s acpi hs => hacpi s acpi hs).bind fun vaddr => ?_
  refine (Outcome.keeps_modify fun s hs => hgroups s _ hs).bind fun _ => ?_
  exact (Outcome.keeps_stop _).ite (Outcome.keeps_pure _)

/-- A round keeps what its load of an entry keeps. -/
theorem keeps_mapGroup {I : PciState H → Prop} (hacpi : ∀ s acpi, I s → I { s with acpi := acpi })
    (hgroups : ∀ s groups, I s → I { s with groups := groups })
    (hread : ∀ s, I s → I { s with baseAddrReads := s.baseAddrReads ++ [⟨baseAddrAt baseAddrs group, 16⟩] }) :
    Outcome.Keeps I (mapGroup P baseAddrs group) := by
  refine Outcome.Keeps.bind (fun s hs => ?_) fun desc => keeps_mapWindow hacpi hgroups group desc
  exact Outcome.ends_of_returns (copyEntry_returns P baseAddrs group s) (hgroups _ _ (hread s hs))

/-- The loop keeps what its rounds keep. -/
theorem keeps_mapGroups {I : PciState H → Prop}
    (hround : ∀ s, I s → ∀ group < s.groupCount.toNat, Outcome.Keeps I (mapGroup P baseAddrs group))
    (fuel group : Nat) : Outcome.Keeps I (mapGroups P baseAddrs fuel group) := by
  induction fuel generalizing group with
  | zero => exact Outcome.keeps_stop _
  | succ fuel ih =>
    intro s hs
    refine Outcome.ends_bind_returns (Outcome.returns_gets _ s) ?_
    by_cases hlt : group < s.groupCount.toNat
    · rw [if_pos hlt]
      exact (hround s hs group hlt).bind (fun _ => ih _) s hs
    · rw [if_neg hlt]
      exact Outcome.ends_of_returns (Outcome.returns_pure _ s) hs

theorem keeps_mapGroup_readsMcfg {groupCount : BitVec 32}
    (hinside : EntryRead.Inside ⟨baseAddrAt baseAddrs group, 16⟩ m) :
    Outcome.Keeps (ReadsMcfg (H := H) groupCount m) (mapGroup P baseAddrs group) := by
  refine keeps_mapGroup (fun s _ hs => ⟨hs.count, hs.reads⟩) (fun s _ hs => ⟨hs.count, hs.reads⟩)
    fun s hs => ⟨hs.count, fun r hr => ?_⟩
  rcases List.mem_append.mp hr with hr | hr
  · exact hs.reads r hr
  · rw [List.mem_singleton.mp hr]
    exact hinside

theorem keeps_allocGroups {I : PciState H → Prop} (hscan : ∀ s scan, I s → I { s with scan := scan }) :
    Outcome.Keeps I (allocGroups A) := by
  intro s hs
  cases hk : A.kmalloc s.scan.heap (s.groupCount.toNat * pciSegmentGroupDescSize) with
  | mk block heap =>
    cases block with
    | none =>
      exact Outcome.ends_of_stops (allocGroups_stops hk) (hscan s _ hs)
    | some block =>
      exact Outcome.ends_of_returns (allocGroups_returns hk) (hscan s _ hs)

theorem keeps_onScan {α : Type} {I : PciState H → Prop} (hscan : ∀ s scan, I s → I { s with scan := scan })
    (f : ScanM H α) : Outcome.Keeps I (onScan f) :=
  Outcome.keeps_focus hscan

/-- The entries are in the table. -/
theorem baseAddr_inside (hsize : m.size = length.toNat) (hlength : mcfgHeaderSize ≤ length.toNat)
    (hgroup : group < (groupCountOf length).toNat) :
    EntryRead.Inside ⟨baseAddrAt (m.vaddr + mcfgHeaderSize) group, 16⟩ m := by
  rw [groupCountOf_of_le hlength] at hgroup
  unfold EntryRead.Inside baseAddrAt pciConfigBaseAddrSize
  dsimp only
  omega

theorem keeps_initGroups_readsMcfg {groupCount : BitVec 32}
    (hinside : ∀ group < groupCount.toNat, EntryRead.Inside ⟨baseAddrAt baseAddrs group, 16⟩ m) (fuel : Nat) :
    Outcome.Keeps (ReadsMcfg (H := H) groupCount m) (initGroups A writable P baseAddrs fuel) := by
  have hscan : ∀ (s : PciState H) (scan : Scan H), ReadsMcfg groupCount m s →
      ReadsMcfg groupCount m { s with scan := scan } := fun _ _ hs => ⟨hs.count, hs.reads⟩
  have hround : ∀ s, ReadsMcfg (H := H) groupCount m s → ∀ group < s.groupCount.toNat,
      Outcome.Keeps (ReadsMcfg (H := H) groupCount m) (mapGroup P baseAddrs group) :=
    fun s hs group hgroup => keeps_mapGroup_readsMcfg (hinside group (hs.count ▸ hgroup))
  refine (keeps_allocGroups hscan).bind fun _ => (keeps_mapGroups hround fuel 0).bind fun _ => ?_
  exact (Outcome.keeps_gets id).bind fun s => keeps_onScan hscan _

theorem mcfgReadsInside_of_le (hlength : mcfgHeaderSize ≤ length.toNat) : McfgReadsInside length := by
  rintro H A writable P s mcfg acpi m - hfinds fuel
  have hrun : (initPci A writable P fuel).after s = _ := congrArg Prod.snd (hfinds.initPci_eq A writable fuel)
  rw [hrun]
  have hstart : ReadsMcfg (groupCountOf length) m (withMcfg s acpi length) := ⟨rfl, fun r hr => by cases hr⟩
  have hentries : ∀ group < (groupCountOf length).toNat,
      EntryRead.Inside ⟨baseAddrAt (m.vaddr + mcfgHeaderSize) group, 16⟩ m :=
    fun group hgroup => baseAddr_inside hfinds.size hlength hgroup
  exact ((keeps_initGroups_readsMcfg hentries fuel).after hstart).reads

/-! ## The end of the loop -/

/-- The first pages of the mappings, as far as they are in the address space. -/
def firstPages (live : List Mapping) : Finset Nat :=
  (live.map fun m => m.vaddr / 4096).toFinset.filter (· < 2 ^ 52)

theorem card_firstPages_le (live : List Mapping) : (firstPages live).card ≤ 2 ^ 52 := by
  have hsub : firstPages live ⊆ Finset.range (2 ^ 52) := fun page hpage =>
    Finset.mem_range.mpr (Finset.mem_filter.mp hpage).2
  exact (Finset.card_le_card hsub).trans (Finset.card_range _).le

/-- A new mapping takes up a page more. -/
theorem card_firstPages_create (hP : P.Paged) {live : List Mapping} {paddr size : Nat} (flags : Nat)
    (hv : P.place live paddr size ≠ 0) :
    (firstPages (⟨P.place live paddr size, paddr, size, flags⟩ :: live)).card = (firstPages live).card + 1 := by
  have hnew : P.place live paddr size / 4096 ∉ firstPages live := by
    intro hmem
    obtain ⟨m, hm, hpage⟩ := List.mem_map.mp (List.mem_toFinset.mp (Finset.mem_filter.mp hmem).1)
    exact hP.apart live paddr size hv m hm hpage.symm
  have hin : P.place live paddr size / 4096 < 2 ^ 52 := by
    have := hP.lt live paddr size
    omega
  unfold firstPages at hnew ⊢
  rw [List.map_cons, List.toFinset_cons, Finset.filter_insert, if_pos hin, Finset.card_insert_of_notMem hnew]

/-- The rounds use up the pages of the address space, if the counter does not come to the number of
groups before. -/
theorem mapGroups_ends (hP : P.Paged) (fuel : Nat) (hfuel : 2 ^ 52 < (firstPages s.acpi.live).card + fuel) :
    Outcome.wp (· ≠ .outOfFuel) (mapGroups P baseAddrs fuel group) (fun _ _ => True) s := by
  induction fuel generalizing group s with
  | zero =>
    have := card_firstPages_le s.acpi.live
    omega
  | succ fuel ih =>
    refine Outcome.wp_bind_returns (Outcome.returns_gets _ s) (Outcome.wp_ite (fun _ => ?_) fun _ => ?_)
    · let desc := descOf (P.view s.acpi.live) (baseAddrAt baseAddrs group)
      by_cases hv : P.place s.acpi.live desc.paddr (windowSize desc) = 0
      · have hstops : ∃ t, (mapGroup P baseAddrs group).Stops s .failed t := mapGroup_stops rfl hv
        obtain ⟨t, hstop⟩ := hstops
        exact Outcome.wp_of_stops hstop.bind (by simp)
      · have hreturns : ∃ t, (mapGroup P baseAddrs group).Returns s () t ∧ _ := mapGroup_returns rfl hv
        obtain ⟨t, hround, -, -, -, hlive⟩ := hreturns
        refine Outcome.wp_bind_returns hround (ih ?_)
        rw [hlive, card_firstPages_create hP _ hv]
        omega
    · exact Outcome.wp_of_returns (Outcome.returns_pure _ s) trivial

/-- Without groups there are no rounds. -/
theorem mapGroups_none (hcount : s.groupCount = 0) : (mapGroups P baseAddrs 1 0).Returns s () s := by
  refine (Outcome.returns_gets _ s).bind ?_
  rw [hcount]
  exact Outcome.returns_pure () s

/-- If the loop does not use up the fuel, `init_pci` does not. -/
theorem FindsMcfg.not_outOfFuel {acpi : Acpi.State} {fuel : Nat} (h : FindsMcfg P length s mcfg acpi m)
    (hloop : ∀ t : PciState H, t.groupCount = groupCountOf length →
      Outcome.wp (· ≠ .outOfFuel) (mapGroups P (m.vaddr + mcfgHeaderSize) fuel 0) (fun _ _ => True) t)
    (A : DeviceAllocator H) (writable : Mem) (t : PciState H) : ¬(initPci A writable P fuel).Stops s .outOfFuel t := by
  intro hstop
  unfold Outcome.Stops at hstop
  rw [h.initPci_eq A writable fuel] at hstop
  refine absurd rfl (Outcome.Stops.of_wp (E := (· ≠ .outOfFuel)) (Q := fun _ _ => True) hstop (Outcome.wp_bind ?_))
  cases hk : A.kmalloc s.scan.heap ((groupCountOf length).toNat * pciSegmentGroupDescSize) with
  | mk block heap =>
    cases block with
    | none => exact Outcome.wp_of_stops (allocGroups_stops hk) (by simp)
    | some block =>
      refine Outcome.wp_of_returns (allocGroups_returns hk) (Outcome.wp_bind ?_)
      refine Outcome.wp_mono (hloop _ rfl) fun _ t _ => ?_
      refine Outcome.wp_bind_returns (Outcome.returns_gets _ t) ?_
      exact Outcome.wp_focus (fun _ => by simp) fun _ _ => trivial

/-- The loop comes to an end for every length. -/
theorem groupLoopEnds (length : BitVec 32) : GroupLoopEnds length := by
  intro H A writable P s mcfg acpi m hP hfinds
  refine ⟨2 ^ 52 + 1, hfinds.not_outOfFuel (fun t _ => ?_) A writable⟩
  exact mapGroups_ends hP (2 ^ 52 + 1) (by omega)

/-! ## Lengths that are too short -/

/-- A heap that never fails. -/
def freshBlocks : DeviceAllocator Unit where
  kmalloc _ n := (some ⟨n, fun _ => ⟨0, fun _ => .zero⟩⟩, ())
  krealloc _ old n := (some ⟨n, old.slot⟩, ())
  kfree _ _ := ()
  kmalloc_bytes _ _ _ _ h := by cases h; rfl
  krealloc_bytes _ _ _ _ _ h := by cases h; rfl
  krealloc_keeps _ _ _ _ _ h _ _ _ := by cases h; rfl

/-- The state of `pci.c` before `init_pci`. -/
def bootState (acpi : Acpi.State) : PciState Unit where
  acpi := acpi
  scan := ⟨fun _ => 0, (), ⟨0, fun _ => ⟨0, fun _ => .zero⟩⟩, 0, 0, [], []⟩
  groups _ := ⟨0, 0, 0, 0, by decide, by decide⟩
  groupCount := 0
  baseAddrReads := []

/-- The MCFG table of the example of a firmware is found. -/
theorem findsMcfg_firmware (rest elsewhere : Mem) (length : BitVec 32) :
    ∃ acpi mcfg acpi' v, FindsMcfg (Acpi.paged (Acpi.firmware rest length) elsewhere) length (bootState acpi) mcfg
      acpi' ⟨v, 0x2000, length.toNat, 0⟩ := by
  have hroot := Acpi.isRootTable_firmware rest length
  have hcount := Acpi.rootEntryCount_firmware rest length
  have hentry := Acpi.rootEntry_firmware rest length
  have hphys : (Acpi.paged (Acpi.firmware rest length) elsewhere).phys = Acpi.firmware rest length := rfl
  obtain ⟨acpi, -, hmapped, hroot'⟩ := Acpi.initAcpi_spec (P := Acpi.paged (Acpi.firmware rest length) elsewhere)
    hroot ⟨[], .rsdt, 0, 0, 0, []⟩ (Acpi.succeedsAt_paged _ _ (by decide))
  -- the root table takes up the first page
  have hleft : Acpi.nextPage acpi.live < 2 ^ 52 := by
    rw [hroot', hphys, Acpi.tableLength_firmware_root]
    show Acpi.nextPage [⟨0x1000, 0x1000, 44, 0⟩] < 2 ^ 52
    decide
  obtain ⟨table, acpi', hrun, -, hfinds⟩ := Acpi.getAcpiTable_spec
    (P := Acpi.paged (Acpi.firmware rest length) elsewhere) (Acpi.succeedsAt_paged _ _ hleft) hroot hmapped
    Acpi.acpiSignatureMcfg
  have hsome : table.isSome := by
    refine hfinds.isSome_iff.mpr ⟨0, ?_, ?_⟩
    · rw [hphys, hcount]
      decide
    · exact (congrArg _ hentry).trans (Acpi.tableSignature_firmware rest length)
  obtain ⟨mcfg, rfl⟩ := Option.isSome_iff_exists.mp hsome
  obtain ⟨k, v, hfirst, hlive, -, -⟩ := hfinds.some mcfg rfl
  have hk : k = 0 := Nat.lt_one_iff.mp (hcount ▸ hfirst.lt)
  rw [hk, hphys, hentry, Acpi.tableLength_firmware] at hlive
  exact ⟨acpi, mcfg, acpi', v, hrun, by rw [hlive]; rfl, rfl⟩

/-- The first entry has been read. -/
def FirstRead (baseAddrs : Nat) (s : PciState H) : Prop := ⟨baseAddrAt baseAddrs 0, 16⟩ ∈ s.baseAddrReads

/-- If there are groups, the first entry is read. -/
theorem firstRead_initGroups (s : PciState Unit) (hcount : 0 < s.groupCount.toNat) :
    FirstRead baseAddrs ((initGroups freshBlocks writable P baseAddrs 1).after s) := by
  refine Outcome.after_of_ends (Q := fun _ t => FirstRead baseAddrs t) ?_ fun _ _ ht => ht
  refine Outcome.ends_bind_returns (allocGroups_returns rfl) ?_
  have hround : Outcome.ends (fun _ t => FirstRead baseAddrs t) (FirstRead baseAddrs) (mapGroups P baseAddrs 1 0)
      { s with scan := { s.scan with heap := () } } := by
    refine Outcome.ends_bind_returns (Outcome.returns_gets _ _) ?_
    rw [if_pos hcount]
    refine Outcome.ends_bind (Outcome.ends_bind_returns (copyEntry_returns P baseAddrs 0 _) ?_)
    refine Outcome.ends_mono (keeps_mapWindow (fun _ _ ht => ht) (fun _ _ ht => ht) 0 _ _ ?_) fun _ t ht => ?_
    · exact List.mem_append_right _ (List.mem_singleton.mpr rfl)
    · exact Outcome.ends_of_stops (Outcome.stops_stop _ t) ht
  refine Outcome.ends_bind (Outcome.ends_mono hround fun _ t ht => ?_)
  exact Outcome.ends_bind_returns (Outcome.returns_gets id t) (keeps_onScan (fun _ _ ht => ht) _ t ht)

/-- A table that is shorter than one without entries: the number of groups wraps, and an entry is
read from behind the table. -/
theorem not_mcfgReadsInside (h : length.toNat < mcfgHeaderSize) : ¬McfgReadsInside length := by
  intro hinside
  obtain ⟨acpi, mcfg, acpi', v, hfinds⟩ := findsMcfg_firmware (fun _ => 0) (fun _ => 0) length
  have hpos : 0 < (groupCountOf length).toNat := Nat.lt_of_lt_of_le (by decide) (groupCountOf_of_lt h)
  have hrun : (initPci freshBlocks (fun _ => 0) _ 1).after (bootState acpi) = _ :=
    congrArg Prod.snd (hfinds.initPci_eq freshBlocks (fun _ => 0) 1)
  have hread := hinside Unit freshBlocks (fun _ => 0) _ _ _ _ _ (Acpi.paged_paged _ _) hfinds 1
    ⟨baseAddrAt (v + mcfgHeaderSize) 0, 16⟩
  rw [hrun] at hread
  have hbehind := (hread (firstRead_initGroups (withMcfg (bootState acpi) acpi' length) hpos)).2
  unfold baseAddrAt at hbehind
  dsimp only at hbehind
  omega

/-! ## Which lengths are safe -/

theorem mcfgReadsInside_iff (length : BitVec 32) : McfgReadsInside length ↔ mcfgHeaderSize ≤ length.toNat := by
  refine ⟨fun hinside => ?_, mcfgReadsInside_of_le⟩
  by_contra hlt
  exact not_mcfgReadsInside (Nat.lt_of_not_le hlt) hinside

/-- **The lengths of the firmware's tables**: all entries are read from the mappings of their tables
and the loop over the groups ends, whatever the tables hold, exactly when the lengths are those of
tables without entries or more. -/
theorem tableReads_inside_iff (kind : Acpi.SdtType) (sdtLen mcfgLen : BitVec 32) :
    (Acpi.RootReadsInside kind sdtLen ∧ McfgReadsInside mcfgLen ∧ GroupLoopEnds mcfgLen) ↔
      36 ≤ sdtLen.toNat ∧ 44 ≤ mcfgLen.toNat := by
  rw [Acpi.rootReadsInside_iff, mcfgReadsInside_iff]
  exact and_congr_right fun _ => and_iff_left (groupLoopEnds mcfgLen)

/-- An MCFG table of 40 bytes, which are a header and half of what is reserved. -/
theorem not_tableReads_inside :
    ¬(Acpi.RootReadsInside .xsdt 44 ∧ McfgReadsInside 40 ∧ GroupLoopEnds 40) :=
  fun h => not_mcfgReadsInside (by decide) h.2.1

end KoalemOS.Pci
