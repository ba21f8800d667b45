import KoalemOS.Acpi.Tables

/-!
# The bounds of the root table (`src/kernel/acpi.c`)

`init_acpi` takes the number of entries from the length in the header, by a subtraction that wraps.
All entries that `get_acpi_table` reads are in the mapping of the root table exactly when the
length is that of a header or more (`rootReadsInside_iff`).
-/

namespace KoalemOS.Acpi

open KoalemOS.Library

variable {P : Platform} {kind : SdtType} {root : Nat} {signature : BitVec 32} {m : Mapping} {s t : State}

/-! ## What holds of the loads of entries -/

/-- The load is of bytes of the mapping. -/
def EntryRead.Inside (r : EntryRead) (m : Mapping) : Prop := m.vaddr ≤ r.addr ∧ r.addr + r.bytes ≤ m.vaddr + m.size

instance (r : EntryRead) (m : Mapping) : Decidable (r.Inside m) := inferInstanceAs (Decidable (_ ∧ _))

/-- The load of entry `i`. -/
def entryReadAt (s : State) (i : Nat) : EntryRead :=
  ⟨s.entriesAt s.sdtType + s.sdtType.entryBytes * i, s.sdtType.entryBytes⟩

section Keeps

variable {I : State → Prop}

theorem keeps_createOrPanic (hI : ∀ s live, I s → I { s with live := live }) (paddr size : Nat) (text : String) :
    Outcome.Keeps I (createOrPanic P paddr size text) := by
  refine Outcome.Keeps.bind (fun s hs => ?_) fun vaddr => (Outcome.keeps_stop _).ite (Outcome.keeps_pure _)
  by_cases hv : P.place s.live paddr size = 0
  · exact Outcome.ends_of_returns (createVirtMapping_fails paddr size 0 hv) hs
  · exact Outcome.ends_of_returns (createVirtMapping_returns paddr size 0 hv) (hI s _ hs)

theorem keeps_deleteVirtMapping (hI : ∀ s live, I s → I { s with live := live }) (vaddr size : Nat) :
    Outcome.Keeps I (deleteVirtMapping vaddr size) :=
  Outcome.keeps_modify fun s hs => hI s _ hs

/-- A round of the loop keeps what the rounds after it keep. -/
theorem keeps_checkEntry (hI : ∀ s live, I s → I { s with live := live }) {next : AcpiM (Nat × BitVec 32)}
    (hnext : Outcome.Keeps I next) (tablePaddr : Nat) : Outcome.Keeps I (checkEntry P signature next tablePaddr) := by
  refine (keeps_createOrPanic hI _ _ _).bind fun tableAddr => (Outcome.keeps_gets _).bind fun tableSignature => ?_
  apply Outcome.Keeps.ite
  · exact (keeps_deleteVirtMapping hI _ _).bind fun _ => hnext
  · refine (Outcome.keeps_gets _).bind fun tableSize => ?_
    exact (keeps_deleteVirtMapping hI _ _).bind fun _ => Outcome.keeps_pure _

theorem keeps_findTable (hI : ∀ s live, I s → I { s with live := live }) (signature : BitVec 32) (n i : Nat)
    (hread : ∀ j, i ≤ j → j < i + n → Outcome.Keeps I (readEntry P j)) :
    Outcome.Keeps I (findTable P signature i n) := by
  induction n generalizing i with
  | zero => exact Outcome.keeps_pure _
  | succ n ih =>
    have hrest := ih (i + 1) fun j h₁ h₂ => hread j (by omega) (by omega)
    exact (hread i (Nat.le_refl i) (by omega)).bind fun tablePaddr => keeps_checkEntry hI hrest tablePaddr

/-- What `get_acpi_table` does with the table that it has found. -/
theorem keeps_mapTable (hI : ∀ s live, I s → I { s with live := live }) (table : Nat × BitVec 32) :
    Outcome.Keeps I (if table.1 = 0 then pure none else do
      let tableAddr ← createOrPanic P table.1 table.2.toNat "failed to create virt mapping for ACPI table"
      pure (some ⟨tableAddr + sdtHeaderSize, table.2 - 36⟩) : AcpiM (Option AcpiSdt)) :=
  (Outcome.keeps_pure _).ite ((keeps_createOrPanic hI _ _ _).bind fun _ => Outcome.keeps_pure _)

/-- `get_acpi_table` keeps what its loads of entries keep. -/
theorem keeps_getAcpiTable (hI : ∀ s live, I s → I { s with live := live })
    (hread : ∀ s, I s → ∀ i < s.sdtEntryCount.toNat, Outcome.Keeps I (readEntry P i)) :
    Outcome.Keeps I (getAcpiTable P signature) := by
  intro s hs
  have hfind := keeps_findTable hI signature s.sdtEntryCount.toNat 0 fun j _ hj =>
    hread s hs j (by omega)
  exact Outcome.ends_bind_returns (Outcome.returns_gets _ s) ((hfind.bind fun table => keeps_mapTable hI table) s hs)

end Keeps

/-- If there are entries, the first is loaded. -/
theorem first_entry_read (hcount : 0 < s.sdtEntryCount.toNat) :
    entryReadAt s 0 ∈ ((getAcpiTable P signature).after s).reads := by
  have hI : ∀ (t : State) (live : List Mapping), entryReadAt s 0 ∈ t.reads →
      entryReadAt s 0 ∈ ({ t with live := live } : State).reads := fun _ _ ht => ht
  have hread : ∀ i, Outcome.Keeps (fun t : State => entryReadAt s 0 ∈ t.reads) (readEntry P i) := fun i t ht =>
    Outcome.ends_of_returns (show (readEntry P i).Returns t _ _ from rfl) (List.mem_append_left _ ht)
  obtain ⟨n, hn⟩ := Nat.exists_eq_add_of_lt hcount
  have hfirst : (readEntry P 0).Returns s _ _ := rfl
  refine Outcome.after_of_ends (Q := fun _ (t : State) => entryReadAt s 0 ∈ t.reads) ?_ fun _ _ ht => ht
  refine Outcome.ends_bind_returns (Outcome.returns_gets _ s) ?_
  rw [hn, Nat.zero_add]
  refine Outcome.ends_bind (Outcome.ends_bind_returns hfirst ?_)
  have hrest := keeps_findTable (P := P) hI signature n 1 fun j _ _ => hread j
  refine Outcome.ends_mono (keeps_checkEntry hI hrest _ _ (List.mem_append_right _ (List.mem_singleton.mpr rfl))) ?_
  exact fun table t ht => keeps_mapTable hI table t ht

/-! ## Any number of calls -/

/-- Calls of `get_acpi_table`, one after the other. -/
def getAcpiTables (P : Platform) : List (BitVec 32) → AcpiM Unit
  | [] => pure ()
  | signature :: signatures => do
    let _ ← getAcpiTable P signature
    getAcpiTables P signatures

/-- A root table of the kind and the length: whatever tables `get_acpi_table` has been asked for
since `init_acpi`, it has read entries from the mapping of the root table only. -/
def RootReadsInside (kind : SdtType) (sdtLen : BitVec 32) : Prop :=
  ∀ (P : Platform) (root : Nat) (s s₁ : State) (m : Mapping) (signatures : List (BitVec 32)), P.Paged →
    tableSignature P.phys root = kind.signature → tableLength P.phys root = sdtLen →
    (initAcpi P root).Returns s () s₁ → s₁.live.head? = some m →
    ∀ r ∈ ((getAcpiTables P signatures).after { s₁ with reads := [] }).reads, r.Inside m

/-- The loads so far are of the root table, whose mapping is `m`. -/
structure ReadsRoot (P : Platform) (kind : SdtType) (root : Nat) (m : Mapping) (s : State) : Prop where
  type : s.sdtType = kind
  entries : s.entriesAt kind = m.vaddr + sdtHeaderSize
  count : s.sdtEntryCount.toNat = rootEntryCount P.phys kind root
  reads : ∀ r ∈ s.reads, r.Inside m

theorem ReadsRoot.withLive (h : ReadsRoot P kind root m s) (live : List Mapping) :
    ReadsRoot P kind root m { s with live := live } :=
  ⟨h.type, (entriesAt_withLive s live kind).trans h.entries, h.count, h.reads⟩

/-- An entry is loaded from the root table. -/
theorem keeps_readEntry (hm : m.size = (tableLength P.phys root).toNat)
    (hlength : sdtHeaderSize ≤ (tableLength P.phys root).toNat) {i : Nat} (hi : i < rootEntryCount P.phys kind root) :
    Outcome.Keeps (ReadsRoot P kind root m) (readEntry P i) := by
  intro s hs
  refine Outcome.ends_of_returns (show (readEntry P i).Returns s _ _ from rfl)
    ⟨hs.type, (entriesAt_withReads s _ kind).trans hs.entries, hs.count, fun r hr => ?_⟩
  rcases List.mem_append.mp hr with hr | hr
  · exact hs.reads r hr
  · have hinside := rootEntry_inside P.phys kind root hi hlength
    have hentries := hs.entries
    rw [List.mem_singleton.mp hr, hs.type]
    unfold EntryRead.Inside
    dsimp only
    omega

theorem keeps_getAcpiTables (hm : m.size = (tableLength P.phys root).toNat)
    (hlength : sdtHeaderSize ≤ (tableLength P.phys root).toNat) (signatures : List (BitVec 32)) :
    Outcome.Keeps (ReadsRoot P kind root m) (getAcpiTables P signatures) := by
  induction signatures with
  | nil => exact Outcome.keeps_pure ()
  | cons signature signatures ih =>
    refine (keeps_getAcpiTable (fun _ live hs => hs.withLive live) fun s hs i hi => ?_).bind fun _ => ih
    rw [hs.count] at hi
    exact keeps_readEntry hm hlength hi

/-- What `init_acpi` leaves, if it returns and the length is that of a header or more. -/
theorem initAcpi_inv {s₁ : State} (hsignature : tableSignature P.phys root = kind.signature)
    (hlength : sdtHeaderSize ≤ (tableLength P.phys root).toNat) (hrun : (initAcpi P root).Returns s () s₁) :
    ∃ x, s₁.live = ⟨x, root, (tableLength P.phys root).toNat, 0⟩ :: s.live ∧ s₁.sdtType = kind ∧
      s₁.entriesAt kind = x + sdtHeaderSize ∧ s₁.sdtEntryCount.toNat = rootEntryCount P.phys kind root := by
  have hheader : P.place s.live root sdtHeaderSize ≠ 0 := fun hv =>
    hrun.not_stops (createOrPanic_stops root sdtHeaderSize _ hv).bind
  have hv : P.place s.live root (tableLength P.phys root).toNat ≠ 0 := by
    intro hv
    obtain ⟨s', hcreate, -, hlen, hdelete⟩ := header_returns s root _ hheader
    have hstop := createOrPanic_stops root (tableLength P.phys root).toNat "failed to create virt mapping for SDT" hv
    exact hrun.not_stops (hcreate.bind_stops (hlen.bind_stops (hdelete.bind_stops hstop.bind)))
  have hview := signature_view s.live (P.place s.live root (tableLength P.phys root).toNat)
    (Nat.le_trans (by decide) hlength)
  obtain ⟨t, hreturns, hlive, htype, hentries, hcount⟩ := initAcpi_returns s hheader hv (hview.trans hsignature)
  obtain ⟨-, rfl⟩ := hrun.det hreturns
  have hle : (36 : BitVec 32) ≤ tableLength P.phys root := BitVec.le_def.mpr hlength
  rw [BitVec.toNat_sub_of_le hle] at hcount
  exact ⟨_, hlive, htype, hentries, hcount⟩

/-- The root table of a length, seen where it is. -/
def rootOnly (kind : SdtType) (sdtLen : BitVec 32) : Mem :=
  (Mem.storeLE (fun _ => 0) 0x1000 4 kind.signature.toNat).storeLE 0x1004 4 sdtLen.toNat

theorem tableSignature_rootOnly (kind : SdtType) (sdtLen : BitVec 32) :
    tableSignature (rootOnly kind sdtLen) 0x1000 = kind.signature := by
  have hsignature := kind.signature.isLt
  apply BitVec.eq_of_toNat_eq
  unfold tableSignature rootOnly
  rw [Mem.loadLE_storeLE_disjoint (by decide), Mem.loadLE_storeLE_same, BitVec.toNat_ofNat]
  omega

theorem tableLength_rootOnly (kind : SdtType) (sdtLen : BitVec 32) :
    tableLength (rootOnly kind sdtLen) 0x1000 = sdtLen := by
  have hlength := sdtLen.isLt
  apply BitVec.eq_of_toNat_eq
  unfold tableLength rootOnly
  rw [Mem.loadLE_storeLE_same, BitVec.toNat_ofNat]
  omega

/-- A memory that is mapped where it is, is seen as it is. -/
theorem view_identity (phys : Mem) (size flags : Nat) :
    (paged phys phys).view [⟨0x1000, 0x1000, size, flags⟩] = phys := by
  funext a
  unfold Platform.view
  rw [List.find?_singleton]
  by_cases hcovers : Mapping.Covers ⟨0x1000, 0x1000, size, flags⟩ a
  · rw [if_pos (decide_eq_true hcovers)]
    show phys (0x1000 + (a - 0x1000)) = phys a
    rw [Nat.add_sub_cancel' hcovers.1]
  · rw [if_neg (by rw [decide_eq_true_eq]; exact hcovers)]
    rfl

/-- The number of entries of a root table that is shorter than a header. -/
theorem entryCount_pos_of_short (kind : SdtType) {sdtLen : BitVec 32} (h : sdtLen.toNat < sdtHeaderSize) :
    0 < (sdtLen - 36).toNat / kind.entryBytes := by
  have hbytes : 0 < kind.entryBytes ∧ kind.entryBytes ≤ 8 := by cases kind <;> decide
  have hwrap : 8 ≤ (sdtLen - 36).toNat := by
    unfold sdtHeaderSize at h
    rw [BitVec.toNat_sub]
    show 8 ≤ (2 ^ 32 - 36 + sdtLen.toNat) % 2 ^ 32
    omega
  exact Nat.div_pos (Nat.le_trans hbytes.2 hwrap) hbytes.1

/-- `init_acpi` returns for a root table that is seen where it is. -/
theorem initAcpi_rootOnly (kind : SdtType) (sdtLen : BitVec 32) :
    ∃ t, (initAcpi (paged (rootOnly kind sdtLen) (rootOnly kind sdtLen)) 0x1000).Returns
        ⟨[], .rsdt, 0, 0, 0, []⟩ () t ∧
      t.live = [⟨0x1000, 0x1000, sdtLen.toNat, 0⟩] ∧ t.sdtType = kind ∧ t.entriesAt kind = 0x1000 + sdtHeaderSize ∧
      t.sdtEntryCount.toNat = (sdtLen - 36).toNat / kind.entryBytes := by
  have hsucceeds : (paged (rootOnly kind sdtLen) (rootOnly kind sdtLen)).SucceedsAt [] :=
    succeedsAt_paged _ _ (by decide)
  have hview := view_identity (rootOnly kind sdtLen) (tableLength (rootOnly kind sdtLen) 0x1000).toNat 0
  have hsignature := (congrArg (fun mem => BitVec.ofNat 32 (Mem.loadLE mem 0x1000 4)) hview).trans
    (tableSignature_rootOnly kind sdtLen)
  have h := @initAcpi_returns _ kind 0x1000 ⟨[], .rsdt, 0, 0, 0, []⟩ (hsucceeds _ _) (hsucceeds _ _) hsignature
  rw [show (paged (rootOnly kind sdtLen) (rootOnly kind sdtLen)).phys = rootOnly kind sdtLen from rfl,
    tableLength_rootOnly] at h
  exact h

/-- A root table that is shorter than a header: the number of entries wraps, and the first entry is
read from behind the table. -/
theorem not_rootReadsInside (kind : SdtType) {sdtLen : BitVec 32} (h : sdtLen.toNat < sdtHeaderSize) :
    ¬RootReadsInside kind sdtLen := by
  intro hinside
  obtain ⟨t, hrun, hlive, htype, hentries, hcount⟩ := initAcpi_rootOnly kind sdtLen
  have hpos : 0 < t.sdtEntryCount.toNat := hcount ▸ entryCount_pos_of_short kind h
  have hread := @first_entry_read (paged (rootOnly kind sdtLen) (rootOnly kind sdtLen)) 0 { t with reads := [] } hpos
  rw [← Outcome.after_bind_pure _ fun _ => ()] at hread
  have hentry := hinside (paged (rootOnly kind sdtLen) (rootOnly kind sdtLen)) 0x1000 _ t _ [0] (paged_paged _ _)
    (tableSignature_rootOnly kind sdtLen) (tableLength_rootOnly kind sdtLen) hrun (congrArg List.head? hlive) _ hread
  have hbehind := hentry.2
  subst htype
  unfold entryReadAt at hbehind
  rw [entriesAt_withReads, hentries] at hbehind
  dsimp only at hbehind
  omega

/-- The entries are read from the mapping of the root table, whatever its contents, exactly when its
length is that of a header or more. -/
theorem rootReadsInside_iff (kind : SdtType) (sdtLen : BitVec 32) :
    RootReadsInside kind sdtLen ↔ sdtHeaderSize ≤ sdtLen.toNat := by
  constructor
  · intro hinside
    by_contra hlt
    exact not_rootReadsInside kind (Nat.lt_of_not_le hlt) hinside
  · rintro hlength P root s s₁ m signatures - hsignature rfl hrun hm
    obtain ⟨x, hlive, htype, hentries, hcount⟩ := initAcpi_inv hsignature hlength hrun
    rw [hlive] at hm
    cases hm
    have hstart : ReadsRoot P kind root ⟨x, root, (tableLength P.phys root).toNat, 0⟩ { s₁ with reads := [] } :=
      ⟨htype, (entriesAt_withReads s₁ [] kind).trans hentries, hcount, fun r hr => by cases hr⟩
    exact ((keeps_getAcpiTables rfl hlength signatures).after hstart).reads

end KoalemOS.Acpi
