import KoalemOS.Library.ByteMemory
import KoalemOS.Library.Outcome

/-!
# The tables of the firmware (`src/kernel/acpi.c`)

`init_acpi` maps the root table, and `get_acpi_table` looks through its entries, each in a mapping
of its own that it deletes again, for the first table with a signature. It finds that table
exactly when there is one, and leaves nothing else mapped (`getAcpiTable_correct`).

Where `create_virt_mapping` puts a mapping is a parameter. It may fail, and it puts nothing where
something is mapped.
-/

namespace KoalemOS.Acpi

open KoalemOS.Library

/-! ## Virtual mappings -/

/-- A mapping of `size` bytes, at `vaddr`, to the physical bytes at `paddr`. -/
structure Mapping where
  vaddr : Nat
  paddr : Nat
  size : Nat
  flags : Nat
  deriving DecidableEq

/-- The mapping maps the address. -/
def Mapping.Covers (m : Mapping) (a : Nat) : Prop := m.vaddr ≤ a ∧ a < m.vaddr + m.size

instance (m : Mapping) (a : Nat) : Decidable (m.Covers a) := inferInstanceAs (Decidable (_ ∧ _))

/-- The physical memory, what a load gives where nothing is mapped, and the address at which a
new mapping is made, 0 if it is not. -/
structure Platform where
  phys : Mem
  elsewhere : Mem
  place : List Mapping → Nat → Nat → Nat
  fresh : ∀ live paddr size, place live paddr size ≠ 0 → ∀ m ∈ live,
    place live paddr size + size ≤ m.vaddr ∨ m.vaddr + m.size ≤ place live paddr size

/-- `create_virt_mapping` never fails. -/
def Platform.Succeeds (P : Platform) : Prop := ∀ live paddr size, P.place live paddr size ≠ 0

/-- It does not fail with the mappings there are. -/
def Platform.SucceedsAt (P : Platform) (live : List Mapping) : Prop := ∀ paddr size, P.place live paddr size ≠ 0

/-- Every mapping, however small, takes up at least one page of the address space of 64 bits, as `page_count` of
`create_virt_mapping` is never 0. -/
structure Platform.Paged (P : Platform) : Prop where
  lt : ∀ live paddr size, P.place live paddr size < 2 ^ 64
  apart : ∀ live paddr size, P.place live paddr size ≠ 0 →
    ∀ m ∈ live, P.place live paddr size / 4096 ≠ m.vaddr / 4096

/-- The memory that is seen through mappings. -/
def Platform.view (P : Platform) (live : List Mapping) : Mem := fun a =>
  match live.find? fun m => m.Covers a with
  | some m => P.phys (m.paddr + (a - m.vaddr))
  | none => P.elsewhere a

/-! ## The code -/

/-- `SDT_HEADER_SIZE` -/
def sdtHeaderSize : Nat := 36

/-- `ACPI_SIGNATURE_RSDT` -/
def acpiSignatureRsdt : BitVec 32 := 0x54445352

/-- `ACPI_SIGNATURE_XSDT` -/
def acpiSignatureXsdt : BitVec 32 := 0x54445358

/-- `ACPI_SIGNATURE_MCFG` -/
def acpiSignatureMcfg : BitVec 32 := 0x4746434D

/-- `sdt_type` -/
inductive SdtType where
  | rsdt
  | xsdt
  deriving DecidableEq

/-- `acpi_sdt` -/
structure AcpiSdt where
  addr : Nat
  length : BitVec 32
  deriving DecidableEq

/-- A load of an entry of a table. -/
structure EntryRead where
  addr : Nat
  bytes : Nat
  deriving DecidableEq

/-- The mappings there are, the variables of `acpi.c`, and the loads of entries of the root table. -/
structure State where
  live : List Mapping
  sdtType : SdtType
  rsdtEntries : Nat
  xsdtEntries : Nat
  sdtEntryCount : BitVec 32
  reads : List EntryRead

/-- Computations on the tables; they stop in `kernel_panic`. -/
abbrev AcpiM := Outcome String State

/-- `create_virt_mapping`; 0 if it fails. -/
def createVirtMapping (P : Platform) (paddr size flags : Nat) : AcpiM Nat := fun s =>
  let vaddr := P.place s.live paddr size
  if vaddr = 0 then (.ok 0, s) else (.ok vaddr, { s with live := ⟨vaddr, paddr, size, flags⟩ :: s.live })

/-- `delete_virt_mapping` -/
def deleteVirtMapping (vaddr size : Nat) : AcpiM Unit := Outcome.modify fun s =>
  { s with live := s.live.eraseP fun m => m.vaddr = vaddr ∧ m.size = size }

/-- `create_virt_mapping`, and `kernel_panic` if it fails. -/
def createOrPanic (P : Platform) (paddr size : Nat) (text : String) : AcpiM Nat := do
  let vaddr ← createVirtMapping P paddr size 0
  if vaddr = 0 then Outcome.stop text else pure vaddr

/-- `*(uint32_t*)a` -/
def loadUint32 (P : Platform) (a : Nat) : AcpiM (BitVec 32) :=
  Outcome.gets fun s => .ofNat 32 ((P.view s.live).loadLE a 4)

/-- The branches of `init_acpi`, for a root table that is mapped. -/
def setEntries (acpiXRSdt : Nat) (sdtLen signature : BitVec 32) : AcpiM Unit :=
  if signature = acpiSignatureXsdt then
    Outcome.modify fun s => { s with
      sdtType := .xsdt, xsdtEntries := acpiXRSdt + sdtHeaderSize, sdtEntryCount := (sdtLen - 36) / 8 }
  else if signature = acpiSignatureRsdt then
    Outcome.modify fun s => { s with
      sdtType := .rsdt, rsdtEntries := acpiXRSdt + sdtHeaderSize, sdtEntryCount := (sdtLen - 36) / 4 }
  else Outcome.stop "neither XSDT nor RSDT present"

/-- `init_acpi` -/
def initAcpi (P : Platform) (acpiSdtPaddr : Nat) : AcpiM Unit := do
  let header ← createOrPanic P acpiSdtPaddr sdtHeaderSize "failed to create virt mapping for SDT header"
  let sdtLen ← loadUint32 P (header + 4)
  deleteVirtMapping header sdtHeaderSize
  let acpiXRSdt ← createOrPanic P acpiSdtPaddr sdtLen.toNat "failed to create virt mapping for SDT"
  let signature ← loadUint32 P acpiXRSdt
  setEntries acpiXRSdt sdtLen signature

/-- The bytes of an entry of the root table. -/
def SdtType.entryBytes : SdtType → Nat
  | .rsdt => 4
  | .xsdt => 8

/-- The entries of the root table. -/
def State.entriesAt (s : State) : SdtType → Nat
  | .rsdt => s.rsdtEntries
  | .xsdt => s.xsdtEntries

/-- `rsdt_entries[i]` or `xsdt_entries[i]`, which differ in their widths. -/
def readEntry (P : Platform) (i : Nat) : AcpiM Nat := fun s =>
  let bytes := s.sdtType.entryBytes
  let addr := s.entriesAt s.sdtType + bytes * i
  (.ok ((P.view s.live).loadLE addr bytes), { s with reads := s.reads ++ [⟨addr, bytes⟩] })

/-- A round of the loop of `get_acpi_table`, for an entry that has been read; `next` are the rounds
after it. -/
def checkEntry (P : Platform) (signature : BitVec 32) (next : AcpiM (Nat × BitVec 32)) (tablePaddr : Nat) :
    AcpiM (Nat × BitVec 32) := do
  let tableAddr ← createOrPanic P tablePaddr sdtHeaderSize "failed to create virt mapping for ACPI table header"
  let tableSignature ← loadUint32 P tableAddr
  if tableSignature ≠ signature then
    deleteVirtMapping tableAddr sdtHeaderSize
    next
  else
    let tableSize ← loadUint32 P (tableAddr + 4)
    deleteVirtMapping tableAddr sdtHeaderSize
    pure (tablePaddr, tableSize)

/-- The loop of `get_acpi_table`, from entry `i`, with `n` entries to go: `table_paddr`, which is
0 if no table has been found, and `table_size`. -/
def findTable (P : Platform) (signature : BitVec 32) (i : Nat) : Nat → AcpiM (Nat × BitVec 32)
  | 0 => pure (0, 0)
  | n + 1 => do
    let tablePaddr ← readEntry P i
    checkEntry P signature (findTable P signature (i + 1) n) tablePaddr

/-- `get_acpi_table` -/
def getAcpiTable (P : Platform) (signature : BitVec 32) : AcpiM (Option AcpiSdt) := do
  let count ← Outcome.gets State.sdtEntryCount
  let table ← findTable P signature 0 count.toNat
  if table.1 = 0 then pure none
  else
    let tableAddr ← createOrPanic P table.1 table.2.toNat "failed to create virt mapping for ACPI table"
    pure (some ⟨tableAddr + sdtHeaderSize, table.2 - 36⟩)

/-! ## The tables there are -/

section PhysicalTables

variable (phys : Mem) (kind : SdtType) (root : Nat)

/-- The signature of the root table of a kind. -/
def SdtType.signature : SdtType → BitVec 32
  | .rsdt => acpiSignatureRsdt
  | .xsdt => acpiSignatureXsdt

/-- The signature in the header of a table. -/
def tableSignature (paddr : Nat) : BitVec 32 := .ofNat 32 (phys.loadLE paddr 4)

/-- The length in the header of a table. -/
def tableLength (paddr : Nat) : BitVec 32 := .ofNat 32 (phys.loadLE (paddr + 4) 4)

/-- The entries of the root table. -/
def rootEntry (i : Nat) : Nat := phys.loadLE (root + sdtHeaderSize + kind.entryBytes * i) kind.entryBytes

/-- How many entries the root table has. -/
def rootEntryCount : Nat := ((tableLength phys root).toNat - sdtHeaderSize) / kind.entryBytes

/-- There is a root table, and no entry of it is 0. -/
structure IsRootTable : Prop where
  signature : tableSignature phys root = kind.signature
  length : sdtHeaderSize ≤ (tableLength phys root).toNat
  nonzero : ∀ i < rootEntryCount phys kind root, rootEntry phys kind root i ≠ 0

end PhysicalTables

variable {P : Platform} {kind : SdtType} {root x : Nat} {signature : BitVec 32} {live : List Mapping} {m : Mapping}
  {s t : State}

theorem entriesAt_withReads (s : State) (reads : List EntryRead) (kind : SdtType) :
    ({ s with reads := reads } : State).entriesAt kind = s.entriesAt kind := by
  cases kind <;> rfl

theorem entriesAt_withLive (s : State) (live : List Mapping) (kind : SdtType) :
    ({ s with live := live } : State).entriesAt kind = s.entriesAt kind := by
  cases kind <;> rfl

/-! ## What is seen through mappings -/

/-- The bytes of a mapping are seen through it. -/
def SeenIn (live : List Mapping) (m : Mapping) : Prop :=
  ∀ a, m.Covers a → (live.find? fun m => m.Covers a) = some m

theorem seenIn_head (m : Mapping) (live : List Mapping) : SeenIn (m :: live) m :=
  fun _ ha => List.find?_cons_of_pos (decide_eq_true ha)

/-- A new mapping hides nothing. -/
theorem SeenIn.create (h : SeenIn live m) {paddr size : Nat} (flags : Nat) (hv : P.place live paddr size ≠ 0) :
    SeenIn (⟨P.place live paddr size, paddr, size, flags⟩ :: live) m := by
  intro a ha
  have hfresh := P.fresh live paddr size hv m (List.mem_of_find?_eq_some (h a ha))
  rw [List.find?_cons_of_neg]
  · exact h a ha
  · intro hcovers
    have hnew := of_decide_eq_true hcovers
    unfold Mapping.Covers at hnew ha
    dsimp only at hnew
    omega

/-- A load through a mapping. -/
theorem loadLE_view (h : SeenIn live m) {k n : Nat} (hk : k + n ≤ m.size) :
    (P.view live).loadLE (m.vaddr + k) n = P.phys.loadLE (m.paddr + k) n := by
  apply Mem.loadLE_shift
  intro i hi
  have hcovers : m.Covers (m.vaddr + k + i) := ⟨by omega, by omega⟩
  unfold Platform.view
  rw [h _ hcovers]
  dsimp only
  congr 1
  omega

theorem createVirtMapping_returns (paddr size flags : Nat) (hv : P.place s.live paddr size ≠ 0) :
    (createVirtMapping P paddr size flags).Returns s (P.place s.live paddr size)
      { s with live := ⟨P.place s.live paddr size, paddr, size, flags⟩ :: s.live } := by
  unfold Outcome.Returns createVirtMapping
  exact if_neg hv

theorem createVirtMapping_fails (paddr size flags : Nat) (hv : P.place s.live paddr size = 0) :
    (createVirtMapping P paddr size flags).Returns s 0 s := by
  unfold Outcome.Returns createVirtMapping
  exact if_pos hv

theorem createOrPanic_returns (paddr size : Nat) (text : String) (hv : P.place s.live paddr size ≠ 0) :
    (createOrPanic P paddr size text).Returns s (P.place s.live paddr size)
      { s with live := ⟨P.place s.live paddr size, paddr, size, 0⟩ :: s.live } := by
  refine (createVirtMapping_returns paddr size 0 hv).bind ?_
  rw [if_neg hv]
  exact Outcome.returns_pure _ _

theorem createOrPanic_stops (paddr size : Nat) (text : String) (hv : P.place s.live paddr size = 0) :
    (createOrPanic P paddr size text).Stops s text s := by
  have hfail := createVirtMapping_fails paddr size 0 hv
  exact (hfail.bind_eq (f := fun vaddr => if vaddr = 0 then Outcome.stop text else pure vaddr)).trans rfl

/-- The last mapping made is the one that is deleted. -/
theorem deleteVirtMapping_returns (s : State) (m : Mapping) :
    (deleteVirtMapping m.vaddr m.size).Returns { s with live := m :: s.live } () s := by
  have herase : (m :: s.live).eraseP (fun m' => m'.vaddr = m.vaddr ∧ m'.size = m.size) = s.live :=
    List.eraseP_cons_of_pos (by simp)
  unfold Outcome.Returns deleteVirtMapping Outcome.modify
  dsimp only
  rw [herase]

theorem loadUint32_returns (s : State) (h : SeenIn s.live m) {k : Nat} (hk : k + 4 ≤ m.size) :
    (loadUint32 P (m.vaddr + k)).Returns s (.ofNat 32 (P.phys.loadLE (m.paddr + k) 4)) s := by
  rw [← loadLE_view h hk]
  exact Outcome.returns_gets _ s

/-- The header of a table is read in a mapping that is deleted again. -/
theorem header_returns (s : State) (paddr : Nat) (text : String) (hv : P.place s.live paddr sdtHeaderSize ≠ 0) :
    ∃ s', (createOrPanic P paddr sdtHeaderSize text).Returns s (P.place s.live paddr sdtHeaderSize) s' ∧
      (loadUint32 P (P.place s.live paddr sdtHeaderSize)).Returns s' (tableSignature P.phys paddr) s' ∧
      (loadUint32 P (P.place s.live paddr sdtHeaderSize + 4)).Returns s' (tableLength P.phys paddr) s' ∧
      (deleteVirtMapping (P.place s.live paddr sdtHeaderSize) sdtHeaderSize).Returns s' () s := by
  have hseen := seenIn_head ⟨P.place s.live paddr sdtHeaderSize, paddr, sdtHeaderSize, 0⟩ s.live
  refine ⟨_, createOrPanic_returns paddr sdtHeaderSize text hv, ?_, ?_, ?_⟩
  · exact loadUint32_returns (k := 0) { s with live := _ :: s.live } hseen (show 0 + 4 ≤ 36 by decide)
  · exact loadUint32_returns (k := 4) { s with live := _ :: s.live } hseen (show 4 + 4 ≤ 36 by decide)
  · exact deleteVirtMapping_returns s ⟨P.place s.live paddr sdtHeaderSize, paddr, sdtHeaderSize, 0⟩

/-! ## The loop over the entries -/

/-- The root table is mapped at `x`, as `init_acpi` leaves it. -/
structure RootMapped (P : Platform) (kind : SdtType) (root x : Nat) (s : State) : Prop where
  type : s.sdtType = kind
  entries : s.entriesAt kind = x + sdtHeaderSize
  count : s.sdtEntryCount.toNat = rootEntryCount P.phys kind root
  seen : SeenIn s.live ⟨x, root, (tableLength P.phys root).toNat, 0⟩

/-- The loads of entries have nothing to do with what is mapped. -/
theorem RootMapped.withReads (h : RootMapped P kind root x s) (reads : List EntryRead) :
    RootMapped P kind root x { s with reads := reads } :=
  ⟨h.type, (entriesAt_withReads s reads kind).trans h.entries, h.count, h.seen⟩

/-- A new mapping leaves the root table mapped. -/
theorem RootMapped.create (h : RootMapped P kind root x s) {paddr size : Nat} (flags : Nat)
    (hv : P.place s.live paddr size ≠ 0) :
    RootMapped P kind root x { s with live := ⟨P.place s.live paddr size, paddr, size, flags⟩ :: s.live } :=
  ⟨h.type, (entriesAt_withLive s _ kind).trans h.entries, h.count, h.seen.create flags hv⟩

/-- The entries are in the root table. -/
theorem rootEntry_inside (phys : Mem) (kind : SdtType) (root : Nat) {i : Nat} (hi : i < rootEntryCount phys kind root)
    (hlength : sdtHeaderSize ≤ (tableLength phys root).toNat) :
    sdtHeaderSize + kind.entryBytes * i + kind.entryBytes ≤ (tableLength phys root).toNat := by
  have h := Nat.div_mul_le_self ((tableLength phys root).toNat - sdtHeaderSize) kind.entryBytes
  have hmul := Nat.mul_le_mul_right kind.entryBytes (Nat.succ_le_of_lt hi)
  unfold rootEntryCount at hmul
  rw [Nat.succ_mul, Nat.mul_comm i] at hmul
  omega

theorem readEntry_returns (hroot : IsRootTable P.phys kind root) (h : RootMapped P kind root x s) {i : Nat}
    (hi : i < rootEntryCount P.phys kind root) :
    ∃ reads, (readEntry P i).Returns s (rootEntry P.phys kind root i) { s with reads := reads } := by
  have hinside := rootEntry_inside P.phys kind root hi hroot.length
  refine ⟨s.reads ++ [⟨s.entriesAt kind + kind.entryBytes * i, kind.entryBytes⟩], ?_⟩
  have hload : (P.view s.live).loadLE (s.entriesAt kind + kind.entryBytes * i) kind.entryBytes =
      rootEntry P.phys kind root i := by
    rw [h.entries, Nat.add_assoc]
    exact (loadLE_view h.seen hinside).trans (by rw [← Nat.add_assoc]; rfl)
  unfold Outcome.Returns readEntry
  dsimp only
  rw [h.type, hload]

/-- The entries from `i` to `k` are not of the table that is looked for. -/
def NoneBetween (phys : Mem) (kind : SdtType) (root : Nat) (signature : BitVec 32) (i k : Nat) : Prop :=
  ∀ j, i ≤ j → j < k → tableSignature phys (rootEntry phys kind root j) ≠ signature

/-- Entry `k` is the first from `i` on that is of the table that is looked for. -/
structure IsFirst (phys : Mem) (kind : SdtType) (root : Nat) (signature : BitVec 32) (i k : Nat) : Prop where
  start : i ≤ k
  lt : k < rootEntryCount phys kind root
  hasSignature : tableSignature phys (rootEntry phys kind root k) = signature
  before : NoneBetween phys kind root signature i k

/-- An entry that is not of the table is passed over. -/
theorem NoneBetween.step {phys : Mem} {i k : Nat} (h : NoneBetween phys kind root signature (i + 1) k)
    (hi : tableSignature phys (rootEntry phys kind root i) ≠ signature) :
    NoneBetween phys kind root signature i k := by
  intro j hj hjk
  by_cases heq : j = i
  · rw [heq]
    exact hi
  · exact h j (by omega) hjk

theorem IsFirst.step {phys : Mem} {i k : Nat} (h : IsFirst phys kind root signature (i + 1) k)
    (hi : tableSignature phys (rootEntry phys kind root i) ≠ signature) : IsFirst phys kind root signature i k :=
  ⟨Nat.le_of_succ_le h.start, h.lt, h.hasSignature, h.before.step hi⟩

/-- The loop finds the first table with the signature, and leaves no mapping behind. -/
theorem findTable_spec (hP : P.SucceedsAt s.live) (hroot : IsRootTable P.phys kind root) (signature : BitVec 32)
    (n : Nat) {i : Nat} (hs : RootMapped P kind root x s) (hn : i + n = rootEntryCount P.phys kind root) :
    ∃ r reads, (findTable P signature i n).Returns s r { s with reads := reads } ∧
      (r = (0, 0) ∧ NoneBetween P.phys kind root signature i (rootEntryCount P.phys kind root) ∨
        ∃ k, IsFirst P.phys kind root signature i k ∧
          r = (rootEntry P.phys kind root k, tableLength P.phys (rootEntry P.phys kind root k))) := by
  induction n generalizing i s with
  | zero =>
    refine ⟨(0, 0), s.reads, Outcome.returns_pure _ s, .inl ⟨rfl, fun j hj hjk => ?_⟩⟩
    omega
  | succ n ih =>
    have hi : i < rootEntryCount P.phys kind root := by omega
    obtain ⟨reads, hread⟩ := readEntry_returns hroot hs hi
    obtain ⟨s', hcreate, hsignature, hsize, hdelete⟩ :=
      header_returns { s with reads := reads } (rootEntry P.phys kind root i) _ (hP _ _)
    by_cases hmatch : tableSignature P.phys (rootEntry P.phys kind root i) = signature
    · refine ⟨_, reads, hread.bind (hcreate.bind (hsignature.bind ?_)),
        .inr ⟨i, ⟨Nat.le_refl i, hi, hmatch, fun j hj hjk => ?_⟩, rfl⟩⟩
      · rw [if_neg (not_not.mpr hmatch)]
        exact hsize.bind (hdelete.bind (Outcome.returns_pure _ _))
      · omega
    · have hn' : i + 1 + n = rootEntryCount P.phys kind root := by omega
      obtain ⟨r, reads', hrest, hr⟩ := ih (s := { s with reads := reads }) hP (hs.withReads reads) hn'
      refine ⟨r, reads', hread.bind (hcreate.bind (hsignature.bind ?_)), ?_⟩
      · rw [if_pos hmatch]
        exact hdelete.bind hrest
      · rcases hr with ⟨hr, hnone⟩ | ⟨k, hfirst, hr⟩
        · exact .inl ⟨hr, hnone.step hmatch⟩
        · exact .inr ⟨k, hfirst.step hmatch, hr⟩

/-! ## `get_acpi_table` -/

/-- What `get_acpi_table` returns for a signature and what it leaves mapped. -/
structure FindsFirst (P : Platform) (kind : SdtType) (root : Nat) (signature : BitVec 32) (s : State)
    (table : Option AcpiSdt) (t : State) : Prop where
  isSome_iff : table.isSome ↔
    ∃ k < rootEntryCount P.phys kind root, tableSignature P.phys (rootEntry P.phys kind root k) = signature
  none : table = none → t.live = s.live
  some : ∀ body, table = some body → ∃ k v, IsFirst P.phys kind root signature 0 k ∧
    t.live = ⟨v, rootEntry P.phys kind root k, (tableLength P.phys (rootEntry P.phys kind root k)).toNat, 0⟩ :: s.live ∧
    body.addr = v + sdtHeaderSize ∧
    body.length = tableLength P.phys (rootEntry P.phys kind root k) - 36

theorem getAcpiTable_spec (hP : P.SucceedsAt s.live) (hroot : IsRootTable P.phys kind root)
    (hs : RootMapped P kind root x s) (signature : BitVec 32) :
    ∃ table t, (getAcpiTable P signature).Returns s table t ∧ RootMapped P kind root x t ∧
      FindsFirst P kind root signature s table t := by
  obtain ⟨r, reads, hfind, hr⟩ :=
    findTable_spec hP hroot signature (rootEntryCount P.phys kind root) hs (Nat.zero_add _)
  have hcount := Outcome.returns_gets (ε := String) State.sdtEntryCount s
  rw [← hs.count] at hfind
  rcases hr with ⟨rfl, hnone⟩ | ⟨k, hfirst, rfl⟩
  · refine ⟨none, _, hcount.bind (hfind.bind (Outcome.returns_pure _ _)), hs.withReads reads, ?_, fun _ => rfl, ?_⟩
    · simp only [Option.isSome_none, Bool.false_eq_true, false_iff]
      rintro ⟨k, hk, hsignature⟩
      exact hnone k (Nat.zero_le k) hk hsignature
    · intro body hbody
      cases hbody
  · -- the address of a table that has been found is not 0, which would stand for none
    have hpaddr : ¬rootEntry P.phys kind root k = 0 := hroot.nonzero k hfirst.lt
    have hv := hP (rootEntry P.phys kind root k) (tableLength P.phys (rootEntry P.phys kind root k)).toNat
    have hmapped := (hs.withReads reads).create 0 hv
    refine ⟨some ⟨P.place s.live (rootEntry P.phys kind root k)
        (tableLength P.phys (rootEntry P.phys kind root k)).toNat + sdtHeaderSize,
      tableLength P.phys (rootEntry P.phys kind root k) - 36⟩, _, hcount.bind (hfind.bind ?_), hmapped, ?_, ?_, ?_⟩
    · rw [if_neg hpaddr]
      refine (createOrPanic_returns (s := { s with reads := reads }) _ _ _ hv).bind ?_
      exact Outcome.returns_pure _ _
    · simp only [Option.isSome_some, true_iff]
      exact ⟨k, hfirst.lt, hfirst.hasSignature⟩
    · intro hnone
      cases hnone
    · intro body hbody
      cases hbody
      exact ⟨k, _, hfirst, rfl, rfl, rfl⟩

theorem setEntries_returns (kind : SdtType) (x : Nat) (sdtLen : BitVec 32) (s : State) :
    ∃ t, (setEntries x sdtLen kind.signature).Returns s () t ∧ t.live = s.live ∧ t.sdtType = kind ∧
      t.entriesAt kind = x + sdtHeaderSize ∧ t.sdtEntryCount.toNat = (sdtLen - 36).toNat / kind.entryBytes := by
  unfold setEntries
  cases kind with
  | rsdt =>
    rw [if_neg (show SdtType.rsdt.signature ≠ acpiSignatureXsdt by decide),
      if_pos (show SdtType.rsdt.signature = acpiSignatureRsdt from rfl)]
    exact ⟨_, Outcome.returns_modify _ s, rfl, rfl, rfl, BitVec.toNat_udiv⟩
  | xsdt =>
    rw [if_pos (show SdtType.xsdt.signature = acpiSignatureXsdt from rfl)]
    exact ⟨_, Outcome.returns_modify _ s, rfl, rfl, rfl, BitVec.toNat_udiv⟩

/-- `init_acpi`, where the signature is read as the one of a root table. -/
theorem initAcpi_returns (s : State) (hheader : P.place s.live root sdtHeaderSize ≠ 0)
    (hv : P.place s.live root (tableLength P.phys root).toNat ≠ 0)
    (hsignature : BitVec.ofNat 32 ((P.view (⟨P.place s.live root (tableLength P.phys root).toNat, root,
      (tableLength P.phys root).toNat, 0⟩ :: s.live)).loadLE
        (P.place s.live root (tableLength P.phys root).toNat) 4) = kind.signature) :
    ∃ t, (initAcpi P root).Returns s () t ∧
      t.live =
        ⟨P.place s.live root (tableLength P.phys root).toNat, root, (tableLength P.phys root).toNat, 0⟩ :: s.live ∧
      t.sdtType = kind ∧
      t.entriesAt kind = P.place s.live root (tableLength P.phys root).toNat + sdtHeaderSize ∧
      t.sdtEntryCount.toNat = (tableLength P.phys root - 36).toNat / kind.entryBytes := by
  obtain ⟨s', hcreate, -, hlength, hdelete⟩ := header_returns s root _ hheader
  have hmap := createOrPanic_returns root (tableLength P.phys root).toNat "failed to create virt mapping for SDT" hv
  obtain ⟨t, hset, ht⟩ := setEntries_returns kind (P.place s.live root (tableLength P.phys root).toNat)
    (tableLength P.phys root) { s with live := _ :: s.live }
  rw [← hsignature] at hset
  exact ⟨t, hcreate.bind (hlength.bind (hdelete.bind (hmap.bind ((Outcome.returns_gets _ _).bind hset)))), ht⟩

/-- The signature of a root table that is not too short for one is read as it is. -/
theorem signature_view (live : List Mapping) (x : Nat) (hlength : 4 ≤ (tableLength P.phys root).toNat) :
    BitVec.ofNat 32 ((P.view (⟨x, root, (tableLength P.phys root).toNat, 0⟩ :: live)).loadLE x 4) =
      tableSignature P.phys root := by
  have hseen := seenIn_head ⟨x, root, (tableLength P.phys root).toNat, 0⟩ live
  exact congrArg (BitVec.ofNat 32) (loadLE_view (P := P) hseen (k := 0) (n := 4) hlength)

/-- The root table is left mapped, and nothing else. -/
theorem initAcpi_spec (hroot : IsRootTable P.phys kind root) (s : State) (hP : P.SucceedsAt s.live) :
    ∃ t, (initAcpi P root).Returns s () t ∧
      RootMapped P kind root (P.place s.live root (tableLength P.phys root).toNat) t ∧
      t.live =
        ⟨P.place s.live root (tableLength P.phys root).toNat, root, (tableLength P.phys root).toNat, 0⟩ :: s.live := by
  have hsignature := signature_view s.live (P.place s.live root (tableLength P.phys root).toNat)
    (Nat.le_trans (by decide) hroot.length)
  obtain ⟨t, hrun, hlive, htype, hentries, hcount⟩ :=
    initAcpi_returns s (hP _ _) (hP _ _) (hsignature.trans hroot.signature)
  refine ⟨t, hrun, ⟨htype, hentries, ?_, ?_⟩, hlive⟩
  · have hle : (36 : BitVec 32) ≤ tableLength P.phys root := BitVec.le_def.mpr hroot.length
    rw [hcount, BitVec.toNat_sub_of_le hle]
    rfl
  · rw [hlive]
    exact seenIn_head _ _

/-! ## An example of a firmware -/

/-- The first address behind all mappings. -/
def topOf : List Mapping → Nat
  | [] => 0x1000
  | m :: live => max (m.vaddr + m.size) (topOf live)

theorem le_topOf (h : m ∈ live) : m.vaddr + m.size ≤ topOf live := by
  induction live with
  | nil => cases h
  | cons m' live ih =>
    rcases List.mem_cons.mp h with rfl | h
    · exact Nat.le_max_left _ _
    · exact Nat.le_trans (ih h) (Nat.le_max_right _ _)

theorem topOf_pos (live : List Mapping) : 0 < topOf live := by
  induction live with
  | nil => decide
  | cons m live ih => exact Nat.lt_of_lt_of_le ih (Nat.le_max_right _ _)

/-- Mappings are put one behind the other. -/
def stacked (phys elsewhere : Mem) : Platform where
  phys := phys
  elsewhere := elsewhere
  place live _ _ := topOf live
  fresh _ _ _ _ _ hm := .inr (le_topOf hm)

theorem succeeds_stacked (phys elsewhere : Mem) : (stacked phys elsewhere).Succeeds :=
  fun live _ _ => Nat.ne_of_gt (topOf_pos live)

/-- The first page behind all mappings. -/
def nextPage : List Mapping → Nat
  | [] => 1
  | m :: live => max ((m.vaddr + m.size) / 4096 + 1) (nextPage live)

theorem lt_nextPage (h : m ∈ live) : (m.vaddr + m.size) / 4096 < nextPage live := by
  induction live with
  | nil => cases h
  | cons m' live ih =>
    rcases List.mem_cons.mp h with rfl | h
    · exact Nat.lt_of_lt_of_le (Nat.lt_succ_self _) (Nat.le_max_left _ _)
    · exact Nat.lt_of_lt_of_le (ih h) (Nat.le_max_right _ _)

theorem nextPage_pos (live : List Mapping) : 0 < nextPage live := by
  induction live with
  | nil => decide
  | cons m live ih => exact Nat.lt_of_lt_of_le ih (Nat.le_max_right _ _)

/-- Mappings are put in pages one behind the other, until there are none left. -/
def paged (phys elsewhere : Mem) : Platform where
  phys := phys
  elsewhere := elsewhere
  place live _ _ := if nextPage live < 2 ^ 52 then nextPage live * 4096 else 0
  fresh live _ _ hv m hm := by
    have hlt := lt_nextPage hm
    split_ifs at hv ⊢
    · omega
    · exact absurd rfl hv

theorem paged_paged (phys elsewhere : Mem) : (paged phys elsewhere).Paged where
  lt live _ _ := by
    dsimp only [paged]
    split_ifs <;> omega
  apart live _ _ hv m hm := by
    have hlt := lt_nextPage hm
    dsimp only [paged] at hv ⊢
    split_ifs at hv ⊢
    · omega
    · exact absurd rfl hv

/-- There are pages left. -/
theorem succeedsAt_paged (phys elsewhere : Mem) (h : nextPage live < 2 ^ 52) :
    (paged phys elsewhere).SucceedsAt live := by
  intro paddr size
  have hpos := nextPage_pos live
  dsimp only [paged]
  rw [if_pos h]
  omega

/-- An XSDT with one entry, for an MCFG of the length. -/
def firmware (rest : Mem) (length : BitVec 32) : Mem :=
  ((((rest.storeLE 0x1000 4 acpiSignatureXsdt.toNat).storeLE 0x1004 4 44).storeLE 0x1024 8 0x2000).storeLE 0x2000 4
    acpiSignatureMcfg.toNat).storeLE 0x2004 4 length.toNat

section Firmware

variable (rest : Mem) (length : BitVec 32)

theorem tableLength_firmware_root : tableLength (firmware rest length) 0x1000 = 44 := by
  unfold tableLength firmware
  rw [Mem.loadLE_storeLE_disjoint (by decide), Mem.loadLE_storeLE_disjoint (by decide),
    Mem.loadLE_storeLE_disjoint (by decide), Mem.loadLE_storeLE_same]
  decide

theorem rootEntryCount_firmware : rootEntryCount (firmware rest length) .xsdt 0x1000 = 1 := by
  unfold rootEntryCount
  rw [tableLength_firmware_root]
  decide

theorem rootEntry_firmware : rootEntry (firmware rest length) .xsdt 0x1000 0 = 0x2000 := by
  unfold rootEntry firmware
  show Mem.loadLE _ 0x1024 8 = _
  rw [Mem.loadLE_storeLE_disjoint (by decide), Mem.loadLE_storeLE_disjoint (by decide), Mem.loadLE_storeLE_same]
  decide

theorem tableSignature_firmware : tableSignature (firmware rest length) 0x2000 = acpiSignatureMcfg := by
  unfold tableSignature firmware
  rw [Mem.loadLE_storeLE_disjoint (by decide), Mem.loadLE_storeLE_same]
  decide

theorem tableLength_firmware : tableLength (firmware rest length) 0x2000 = length := by
  unfold tableLength firmware
  rw [Mem.loadLE_storeLE_same]
  apply BitVec.eq_of_toNat_eq
  have hlength := length.isLt
  rw [BitVec.toNat_ofNat]
  omega

theorem isRootTable_firmware : IsRootTable (firmware rest length) .xsdt 0x1000 := by
  refine ⟨?_, ?_, ?_⟩
  · unfold tableSignature firmware
    rw [Mem.loadLE_storeLE_disjoint (by decide), Mem.loadLE_storeLE_disjoint (by decide),
      Mem.loadLE_storeLE_disjoint (by decide), Mem.loadLE_storeLE_disjoint (by decide), Mem.loadLE_storeLE_same]
    decide
  · rw [tableLength_firmware_root]
    decide
  · rw [rootEntryCount_firmware]
    intro i hi
    rw [Nat.lt_one_iff.mp hi, rootEntry_firmware]
    decide

end Firmware

/-! ## The tables are found -/

/-- **`init_acpi` and `get_acpi_table`**: after `init_acpi`, and after any number of calls,
`get_acpi_table` returns true exactly when an entry points to a table with the signature, describes
the body of the first one, and leaves mapped what was mapped and that table. -/
theorem getAcpiTable_correct (hP : P.Succeeds) (hroot : IsRootTable P.phys kind root) :
    (∀ s, ∃ x t, (initAcpi P root).Returns s () t ∧ RootMapped P kind root x t ∧
        t.live = ⟨x, root, (tableLength P.phys root).toNat, 0⟩ :: s.live) ∧
      ∀ x s signature, RootMapped P kind root x s → ∃ table t, (getAcpiTable P signature).Returns s table t ∧
        RootMapped P kind root x t ∧ FindsFirst P kind root signature s table t :=
  ⟨fun s => ⟨_, initAcpi_spec hroot s (hP s.live)⟩,
    fun _ s signature hs => getAcpiTable_spec (hP s.live) hroot hs signature⟩

/-- The MCFG of the example is found. -/
theorem getAcpiTable_correct_mcfg :
    (∀ s, ∃ x t, (initAcpi (stacked (firmware (fun _ => 0) 60) fun _ => 0) 0x1000).Returns s () t ∧
        RootMapped (stacked (firmware (fun _ => 0) 60) fun _ => 0) .xsdt 0x1000 x t ∧
        t.live = ⟨x, 0x1000, (tableLength (firmware (fun _ => 0) 60) 0x1000).toNat, 0⟩ :: s.live) ∧
      ∀ x s signature, RootMapped (stacked (firmware (fun _ => 0) 60) fun _ => 0) .xsdt 0x1000 x s →
        ∃ table t, (getAcpiTable (stacked (firmware (fun _ => 0) 60) fun _ => 0) signature).Returns s table t ∧
          RootMapped (stacked (firmware (fun _ => 0) 60) fun _ => 0) .xsdt 0x1000 x t ∧
          FindsFirst (stacked (firmware (fun _ => 0) 60) fun _ => 0) .xsdt 0x1000 signature s table t :=
  getAcpiTable_correct (succeeds_stacked _ _) (isRootTable_firmware _ _)

end KoalemOS.Acpi
