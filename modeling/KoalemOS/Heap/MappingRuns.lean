import KoalemOS.Heap.VirtMappings
import KoalemOS.Paging.WriteProtect

/-!
# Runs of `create_virt_mapping` and `delete_virt_mapping`

A run together with its live mappings: those that have been created and not deleted.
`MappingRun.translates` says that the page tables translate every byte of every live mapping as
it was created, as long as no call touches a live mapping with the page behind its own;
`mappingRun_unmaps` is a run in which one does.
-/

namespace KoalemOS.Heap

open KoalemOS.Library KoalemOS.Mmap KoalemOS.Paging

variable {krealloc : Krealloc Kernel} {L : Layout} {R : MemoryRange} {s t : VirtState Kernel} {k k₀ : Kernel}
  {m m' : VirtMapping} {live live' : List VirtMapping} {P : Nat → Prop} {w : Nat}

/-! ## Runs -/

/-- A call, `delete` with the mapping that it is to delete. -/
inductive MappingCall where
  | create (paddr size flags : Nat)
  | delete (m : VirtMapping)

/-- A call that returns, with the live mappings before and after it. -/
inductive MappingStep (krealloc : Krealloc Kernel) (s : VirtState Kernel) :
    List VirtMapping → MappingCall → List VirtMapping → VirtState Kernel → Prop where
  | create {live : List VirtMapping} {paddr size flags v : Nat} {t : VirtState Kernel} : 0 < size →
      (createVirtMapping krealloc paddr size flags).Returns s v t →
      MappingStep krealloc s live (.create paddr size flags)
        (if v = 0 then live else ⟨v, paddr, size, flags⟩ :: live) t
  | delete {before after : List VirtMapping} {m : VirtMapping} {fuel : Nat} {t : VirtState Kernel} :
      (deleteVirtMapping krealloc fuel m.vaddr m.size).Returns s () t →
      MappingStep krealloc s (before ++ m :: after) (.delete m) (before ++ after) t

/-- The runs from `init_virt_mmap` on, with calls that are `ok`. Between the calls the rest of the
kernel goes on, which does not touch the pages of `virt_mmap`. -/
inductive MappingRun (krealloc : Krealloc Kernel) (L : Layout) (k₀ : Kernel)
    (ok : VirtState Kernel → List VirtMapping → MappingCall → Prop) : List VirtMapping → VirtState Kernel → Prop where
  | init (vRanges : RangeBuffer) : 1 ≤ vRanges.slots → MappingRun krealloc L k₀ ok [] (initVirtMmap L vRanges k₀)
  | call {live live' : List VirtMapping} {s t : VirtState Kernel} {c : MappingCall} :
      MappingRun krealloc L k₀ ok live s → ok s live c → MappingStep krealloc s live c live' t →
      MappingRun krealloc L k₀ ok live' t
  | elsewhere {live : List VirtMapping} {s : VirtState Kernel} {k : Kernel} : MappingRun krealloc L k₀ ok live s →
      Spares (InPages (initialRange L).baseAddr (initialRange L).pages) s.heap k →
      MappingRun krealloc L k₀ ok live { s with heap := k }

/-- The page tables translate every byte of the mapping as it was asked for: the leaf entry has
exactly its frame and its flags, and the hardware allows what the flags say. -/
def VirtMapping.Translated (m : VirtMapping) (k : Kernel) : Prop := ∀ offset < m.size,
  walk k.mem k.cr3 (m.vaddr + offset) =
      some ((m.paddr + offset) / 4096 * 4096 ||| pagingFlagPresent ||| m.flags, 12) ∧
    view k.mem k.cr3 (m.vaddr + offset) = some (m.paddr + offset, flagAttributes m.flags)

/-- What the page behind the mapping of the call must be: for `create`, a page of `virt_mmap` and of
no live mapping; for `delete`, of no live mapping. -/
def BehindUnused (s : VirtState Kernel) (live : List VirtMapping) : MappingCall → Prop
  | .create paddr size flags => Mappable paddr size flags ∧
      ((mmapGetPages s.virtMmap (pageCountOf paddr size)).1 ≠ 0 →
        (mmapGetPages s.virtMmap (pageCountOf paddr size)).1 + 4096 * pageCountOf paddr size < 0xFFFFFF8000000000 ∧
        ∀ m ∈ live, ¬m.Owns ((mmapGetPages s.virtMmap (pageCountOf paddr size)).1 + 4096 * pageCountOf paddr size))
  | .delete m => ∀ m' ∈ live, ¬m'.Owns m.behind

/-! ## The invariant -/

/-- A live mapping: its pages are allocated and mapped, and the page behind has a page table. -/
structure Standing (R : MemoryRange) (s : VirtState Kernel) (m : VirtMapping) : Prop where
  mappable : Mappable m.paddr m.size m.flags
  offset : m.vaddr % 4096 = m.paddr % 4096
  allocated : Allocated R s m.base m.pages
  room : m.behind < R.baseAddr + 4096 * R.pages
  maps : MapsPages s.heap m.base (m.paddr / 4096 * 4096) m.flags m.pages
  table : ∃ n, ptAt s.heap.mem s.heap.cr3 m.behind = some n

/-- What holds between the calls. -/
structure MappingInv (R : MemoryRange) (live : List VirtMapping) (s : VirtState Kernel) : Prop where
  inv : VirtInv R s
  ready : Ready R s.heap
  standing : ∀ m ∈ live, Standing R s m
  apart : live.Pairwise fun m m' => ∀ w, m.Owns w → ¬m'.Owns w

theorem VirtMapping.owns_of_mem {p : Nat} (hp : p ∈ MemoryRange.pageList ⟨m.base, m.pages⟩) : m.Owns p := by
  obtain ⟨hle, hlt⟩ := MemoryRange.mem_pageList_bounds hp
  simp only [MemoryRange.endAddr] at hle hlt
  unfold VirtMapping.Owns InPages
  omega

/-- The page of an address of a mapping. -/
theorem VirtMapping.Owns.page (h : m.Owns w) :
    w / 4096 * 4096 ∈ MemoryRange.pageList ⟨m.base, m.pages⟩ := by
  have hbase : m.base = m.vaddr / 4096 * 4096 := rfl
  unfold VirtMapping.Owns InPages at h
  exact MemoryRange.mem_pageList.mpr ⟨w / 4096 - m.vaddr / 4096, by simp only; omega, by simp only; omega⟩

theorem Standing.inRange (h : Standing R s m) (hw : m.Owns w) : InPages R.baseAddr R.pages w := by
  have hbounds := h.allocated.bounds
  unfold VirtMapping.Owns InPages at *
  omega

/-- A mapping stays if its pages are spared and not given back. -/
theorem Standing.kept (h : Standing R s m) (hR : UserPages R.baseAddr R.pages) (hs : Spares P s.heap t.heap)
    (hP : ∀ w, m.Owns w → P w) (hfree : ∀ p ∈ t.virtMmap.freePages, p ∈ s.virtMmap.freePages ∨ ¬m.Owns p) :
    Standing R t m where
  mappable := h.mappable
  offset := h.offset
  allocated := by
    refine ⟨h.allocated.pos, fun p hp => ?_⟩
    obtain ⟨hin, hnot⟩ := h.allocated.pages p hp
    refine ⟨hin, fun hp' => ?_⟩
    rcases hfree p hp' with hold | hno
    · exact hnot hold
    · exact hno (VirtMapping.owns_of_mem hp)
  room := h.room
  maps w hw := (h.maps w hw).spared hs (hR.slot (h.inRange hw)) (hP w hw)
  table := by
    obtain ⟨n, hn⟩ := h.table
    have hbounds := h.allocated.bounds
    have hroom := h.room
    have hslot : index m.behind 39 ≠ 511 := hR.slot ⟨by unfold VirtMapping.behind; omega, hroom⟩
    exact ⟨n, hs.ptAt hslot hn⟩

/-- A standing mapping is translated. -/
theorem Standing.translated (h : Standing R s m) (hready : Ready R s.heap) : m.Translated s.heap := by
  have hpages : ∀ a i, a / 4096 * 4096 + (a % 4096 + i) / 4096 * 4096 = (a + i) / 4096 * 4096 := by
    intro a i
    omega
  intro offset hoffset
  have howns := VirtMapping.owns_of_lt hoffset
  have hleaf := h.maps _ howns
  have hsame := h.offset
  have haddr : (m.paddr + offset) / 4096 * 4096 + (m.vaddr + offset) % 4096 = m.paddr + offset := by
    omega
  have hframe : m.paddr / 4096 * 4096 + (m.vaddr + offset - m.base) / 4096 * 4096 =
      (m.paddr + offset) / 4096 * 4096 := by
    have hinside : m.vaddr + offset - m.base = m.paddr % 4096 + offset := by
      unfold VirtMapping.base
      omega
    rw [hinside, hpages]
  have hphys := h.mappable.physical
  rw [hframe] at hleaf
  refine ⟨hleaf.walk, ?_⟩
  rw [hleaf.view (hready.executable _ (h.inRange howns)) (by omega) (by omega) h.mappable.attributes
    h.mappable.executable, haddr]

/-- The pages of another mapping, which does not have the page behind `m`. -/
theorem Standing.off (h : Standing R s m') (hapart : ∀ w, m.Owns w → ¬m'.Owns w) (hbehind : ¬m'.Owns m.behind)
    (hw : m'.Owns w) : InPages R.baseAddr R.pages w ∧ ¬InPages m.base (m.pages + 1) w := by
  refine ⟨h.inRange hw, fun hin => ?_⟩
  by_cases hown : m.Owns w
  · exact hapart w hown hw
  · have hbase : m.base = m.vaddr / 4096 * 4096 := rfl
    have hbase' : m'.base = m'.vaddr / 4096 * 4096 := rfl
    apply hbehind
    unfold VirtMapping.Owns VirtMapping.behind InPages at *
    omega

/-! ## The calls -/

/-- A mapping that has been created stands. -/
theorem Created.standing (h : Created krealloc R s t m) (hinv : VirtInv R s)
    (hmappable : Mappable m.paddr m.size m.flags) (hroom : m.behind < R.baseAddr + 4096 * R.pages) :
    Standing R t m where
  mappable := hmappable
  offset := h.offset
  allocated := by
    have hnodup := h.taken.nodup_iff.mp hinv.wf.freePages_nodup
    refine ⟨by unfold VirtMapping.pages; omega, fun p hp => ⟨?_, fun hp' => ?_⟩⟩
    · exact hinv.within p (h.taken.symm.subset (List.mem_append_left _ hp))
    · exact (List.nodup_append.mp hnodup).2.2 p hp p hp' rfl
  room := hroom
  maps w hw := by
    have hmaps := h.maps w ⟨hw.1, by have := hw.2; omega⟩
    exact hmaps
  table := by
    have hmaps := h.maps m.behind ⟨by unfold VirtMapping.behind; omega, by unfold VirtMapping.behind; omega⟩
    obtain ⟨n, hn, -⟩ := ptAt_of_walk hmaps.walk
    exact ⟨n, hn⟩

/-- A page that was free is no page of a mapping. -/
theorem Standing.not_free (h : Standing R s m) (hw : m.Owns w) : w / 4096 * 4096 ∉ s.virtMmap.freePages :=
  (h.allocated.pages _ hw.page).2

theorem mem_around {before after : List VirtMapping} {x : VirtMapping} (hx : x ∈ before ++ after) :
    x ∈ before ++ m :: after := by
  rcases List.mem_append.mp hx with hx | hx
  · exact List.mem_append_left _ hx
  · exact List.mem_append_right _ (List.mem_cons_of_mem _ hx)

/-- **`create_virt_mapping`** keeps the invariant. -/
theorem MappingInv.create (h : MappingInv R live s) (henv : MappingEnv krealloc R)
    (hc : Created krealloc R s t m) (hmappable : Mappable m.paddr m.size m.flags)
    (hroom : m.behind < R.baseAddr + 4096 * R.pages) (hbehind : ∀ m' ∈ live, ¬m'.Owns m.behind) :
    MappingInv R (m :: live) t := by
  have hapart : ∀ m' ∈ live, ∀ w, m.Owns w → ¬m'.Owns w := fun m' hm' w hw hw' =>
    (h.standing m' hm').not_free hw' (hc.taken.symm.subset (List.mem_append_left _ hw.page))
  refine ⟨hc.inv, h.ready.spared henv.pages hc.spares, fun x hx => ?_, List.pairwise_cons.mpr ⟨hapart, h.apart⟩⟩
  rcases List.mem_cons.mp hx with rfl | hx
  · exact hc.standing h.inv hmappable hroom
  · refine (h.standing x hx).kept henv.pages hc.spares (fun w hw => ?_) fun p hp => .inl ?_
    · exact (h.standing x hx).off (hapart x hx) (hbehind x hx) hw
    · exact hc.taken.symm.subset (List.mem_append_right _ hp)

/-- **`delete_virt_mapping`** keeps the invariant, if no other live mapping has the page behind. -/
theorem MappingInv.delete {before after : List VirtMapping} (h : MappingInv R (before ++ m :: after) s)
    (henv : MappingEnv krealloc R) (hd : Deleted R s t m) (hbehind : ∀ m' ∈ before ++ after, ¬m'.Owns m.behind) :
    MappingInv R (before ++ after) t := by
  have hsymm : ∀ {x y : VirtMapping}, (∀ w, x.Owns w → ¬y.Owns w) → ∀ w, y.Owns w → ¬x.Owns w :=
    fun hxy w hy hx => hxy w hx hy
  obtain ⟨hapart, hrest⟩ := List.pairwise_cons.mp ((List.pairwise_middle hsymm).mp h.apart)
  refine ⟨hd.inv, h.ready.spared henv.pages hd.spares, fun x hx => ?_, hrest⟩
  have hstanding := h.standing x (mem_around hx)
  refine hstanding.kept henv.pages hd.spares (fun w hw => ?_) fun p hp => ?_
  · exact hstanding.off (hapart x hx) (hbehind x hx) hw
  · rcases hd.given p hp with hp | hp
    · exact .inr (hapart x hx p (VirtMapping.owns_of_mem hp))
    · exact .inl hp

/-- The pages of a standing mapping and the page behind have page tables. -/
theorem Standing.tables (h : Standing R s m) :
    ∀ i ≤ m.pages, ∃ n, ptAt s.heap.mem s.heap.cr3 (m.base + 4096 * i) = some n := by
  intro i hi
  by_cases hlast : i = m.pages
  · rw [hlast]
    exact h.table
  · obtain ⟨n, hn, -⟩ := ptAt_of_walk (h.maps (m.base + 4096 * i) ⟨by omega, by omega⟩).walk
    exact ⟨n, hn⟩

theorem Standing.deleted (h : Standing R s m) (henv : MappingEnv krealloc R) (hinv : VirtInv R s)
    (hready : Ready R s.heap) {fuel : Nat}
    (hret : (deleteVirtMapping krealloc fuel m.vaddr m.size).Returns s () t) : Deleted R s t m :=
  deleteVirtMapping_post henv hinv hready h.allocated h.mappable.pos h.room h.tables hret

theorem Standing.delete_returns (h : Standing R s m) (henv : MappingEnv krealloc R) (hinv : VirtInv R s)
    (hready : Ready R s.heap) (hmax : 1 ≤ s.virtMmap.maxRangeCount) :
    ∃ fuel t, (deleteVirtMapping krealloc fuel m.vaddr m.size).Returns s () t :=
  deleteVirtMapping_returns henv hinv hready h.allocated h.mappable.pos h.room h.tables hmax

/-- A mapping whose page has become the page behind a deleted one is not translated. -/
theorem Deleted.not_translated (hd : Deleted R s t m) (hpos : 0 < m'.size) (howns : m'.Owns m.behind) :
    ¬m'.Translated t.heap := by
  intro htranslated
  obtain ⟨offset, hoffset, hpage⟩ := VirtMapping.exists_offset hpos howns
  have hbase : m.base = m.vaddr / 4096 * 4096 := rfl
  have hnone := hd.unmapped (m'.vaddr + offset) (by
    unfold VirtMapping.behind at hpage
    unfold InPages
    omega)
  rw [(htranslated offset hoffset).1] at hnone
  cases hnone

/-- A call whose page behind is unused keeps the invariant. -/
theorem MappingInv.step {c : MappingCall} (h : MappingInv R live s) (henv : MappingEnv krealloc R)
    (hend : R.baseAddr + 4096 * R.pages = 0xFFFFFF8000000000) (hok : BehindUnused s live c)
    (hstep : MappingStep krealloc s live c live' t) : MappingInv R live' t := by
  cases hstep with
  | @create _ paddr size flags v _ hpos hret =>
    obtain ⟨hmappable, hroom⟩ := hok
    have hwp := createVirtMapping_wp (E := IsPanic) henv h.inv h.ready hmappable
      (fun hne => by rw [hend]; exact (hroom hne).1) fun i _ => .inl fun _ he => he
    rcases hret.of_wp hwp with ⟨rfl, rfl, -⟩ | ⟨hne, hc⟩
    · rw [if_pos rfl]
      exact h
    rw [if_neg hne]
    have hpages : VirtMapping.pages ⟨v, paddr, size, flags⟩ = pageCountOf paddr size := by
      have hphys := hmappable.physical
      have hoffset := hc.offset
      rw [pageCountOf_eq paddr hpos (by omega)]
      simp only at hoffset
      simp only [VirtMapping.pages, hoffset]
    have hbase := hc.base
    rw [hpages] at hbase
    have hfound : (mmapGetPages s.virtMmap (pageCountOf paddr size)).1 ≠ 0 := by
      rw [← hbase]
      have hmem := h.inv.within _ (hc.taken.symm.subset (List.mem_append_left _
        (MemoryRange.mem_pageList.mpr ⟨0, by simp only [VirtMapping.pages]; omega, rfl⟩)))
      have hlower := (mem_range_bounds hmem).1
      have hnonzero := henv.wf.nonzero
      simp only at hlower
      omega
    have hbehind : VirtMapping.behind ⟨v, paddr, size, flags⟩ =
        (mmapGetPages s.virtMmap (pageCountOf paddr size)).1 + 4096 * pageCountOf paddr size := by
      rw [VirtMapping.behind, hbase, hpages]
    obtain ⟨hlt, hunused⟩ := hroom hfound
    rw [← hbehind] at hlt hunused
    exact h.create henv hc hmappable (by rw [hend]; exact hlt) hunused
  | @delete before after m _ _ hret =>
    have hd := (h.standing m (by simp)).deleted henv h.inv h.ready hret
    exact h.delete henv hd fun x hx => hok x (mem_around hx)

/-! ## Every run -/

/-- The range of `virt_mmap` ends where the window slot begins. -/
theorem initialRange_end (L : Layout) :
    (initialRange L).baseAddr + 4096 * (initialRange L).pages = 0xFFFFFF8000000000 ∧
      UserPages (initialRange L).baseAddr (initialRange L).pages := by
  have hlower := L.lower
  have hbelow := L.buf_below
  have hupper := L.upper
  have haligned := L.heap_aligned
  obtain ⟨hstart, hpages⟩ := initialRange_eq L
  simp only [kernelHeapMaxSize, physMmapMaxSize] at *
  exact ⟨by omega, by omega, by omega, by omega⟩

theorem mappingEnv (L : Layout) (hspec : KreallocSpec krealloc) (hspares : KreallocSpares (initialRange L) krealloc) :
    MappingEnv krealloc (initialRange L) where
  spec := hspec
  spares := hspares
  pages := (initialRange_end L).2
  wf := (initialRange_wf L).1
  small := (initialRange_wf L).2

/-- Every state of a run satisfies the invariant. -/
theorem MappingRun.inv (hspec : KreallocSpec krealloc) (hspares : KreallocSpares (initialRange L) krealloc)
    (h₀ : Ready (initialRange L) k₀) (hrun : MappingRun krealloc L k₀ BehindUnused live s) :
    MappingInv (initialRange L) live s := by
  have henv := mappingEnv L hspec hspares
  induction hrun with
  | init vRanges hslots => exact ⟨initVirtMmap_inv L k₀ hslots, h₀, by simp, List.Pairwise.nil⟩
  | call _ hok hstep ih => exact ih.step henv (initialRange_end L).1 hok hstep
  | elsewhere _ hs ih =>
    exact ⟨ih.inv.setHeap _, ih.ready.spared henv.pages hs, fun m hm => (ih.standing m hm).kept henv.pages hs
      (fun w hw => (ih.standing m hm).inRange hw) fun p hp => .inl hp, ih.apart⟩

/-- **Mappings over runs.** If no call touches a live mapping with the page behind its own, the page
tables translate every byte of every live mapping, with the flags it was created with; and then a
further `delete_virt_mapping` leaves the other live mappings as they are if and only if none of them
has the page behind the deleted one. -/
theorem MappingRun.translates (hspec : KreallocSpec krealloc) (hspares : KreallocSpares (initialRange L) krealloc)
    (h₀ : Ready (initialRange L) k₀) (hrun : MappingRun krealloc L k₀ BehindUnused live s) :
    (∀ m ∈ live, m.Translated s.heap) ∧
    ∀ before m after fuel t, live = before ++ m :: after →
      (deleteVirtMapping krealloc fuel m.vaddr m.size).Returns s () t →
      ((∀ m' ∈ before ++ after, m'.Translated t.heap) ↔ ∀ m' ∈ before ++ after, ¬m'.Owns m.behind) := by
  have henv := mappingEnv L hspec hspares
  have hinv := hrun.inv hspec hspares h₀
  refine ⟨fun m hm => (hinv.standing m hm).translated hinv.ready, ?_⟩
  rintro before m after fuel t rfl hret
  have hd := (hinv.standing m (by simp)).deleted henv hinv.inv hinv.ready hret
  constructor
  · intro htranslated m' hm' howns
    have hstanding := hinv.standing m' (mem_around hm')
    exact hd.not_translated hstanding.mappable.pos howns (htranslated m' hm')
  · intro hunused m' hm'
    have hinv' := hinv.delete henv hd hunused
    exact (hinv'.standing m' hm').translated hinv'.ready

/-! ### Mappings of one page -/

/-- A `krealloc` that finds room in the heap as it is. -/
def keepingKrealloc : Krealloc Kernel := fun k b size => (some ⟨size / sizeofMemoryRange, b.ranges⟩, k)

theorem keepingKrealloc_spec : KreallocSpec keepingKrealloc := by
  constructor
  · intro h b size b' hk
    obtain rfl := Option.some.inj hk
    exact le_refl _
  · intro h b size b' hk i _ _
    obtain rfl := Option.some.inj hk
    rfl

theorem keepingKrealloc_spares (R : MemoryRange) : KreallocSpares R keepingKrealloc :=
  fun _ _ _ h hfree => Spares.refl _ h hfree

/-- A kernel with the page table of the first pages of `virt_mmap`. -/
@[irreducible] def bootMappings : Kernel :=
  (mapPage 0xFFFFFF4001001000 0x5000 pagingFlagReadWrite).after windowOnly

theorem ready_windowOnly : Ready (initialRange exampleLayout) windowOnly where
  tables := pageTables_windowOnly
  free := freeFrames_windowOnly
  noLarge w hw := noLargePage_windowOnly w ((initialRange_end exampleLayout).2.slot hw)
  executable w hw q i hu x hx hpres := by
    rw [entries_windowOnly (hu.mem ((initialRange_end exampleLayout).2.slot hw)).2 hx] at hpres
    cases hpres

/-- The first page table of `virt_mmap` is there. -/
def FirstTable (k : Kernel) : Prop := ∃ n, ∀ v, 0xFFFFFF4001000000 ≤ v → v < 0xFFFFFF4001200000 →
  ptAt k.mem k.cr3 v = some n

theorem bootMappings_ready : Ready (initialRange exampleLayout) bootMappings ∧ FirstTable bootMappings := by
  have hv : UserPage 0xFFFFFF4001001000 := ⟨by decide, by decide, by decide⟩
  have hmissing := missingTables_windowOnly hv.slot
  obtain ⟨s', hret, -, -⟩ := mapPage_returns (p := 0x5000) pageTables_windowOnly freeFrames_windowOnly hv
    (noLargePage_windowOnly _ hv.slot) (by decide) flagsOk_readWrite (by rw [hmissing]; decide)
  have hboot : bootMappings = s' := by
    unfold bootMappings
    exact hret.after_eq
  obtain ⟨hspares, hleaf⟩ := hret.of_wp (mapPage_spares (E := IsPanic) pageTables_windowOnly freeFrames_windowOnly hv
    (noLargePage_windowOnly _ hv.slot) (by decide) flagsOk_readWrite.attributeBits rfl (.inl fun _ he => he))
  obtain ⟨n, hn, -⟩ := ptAt_of_walk (hleaf 0xFFFFFF4001001000 rfl).walk
  rw [hboot]
  refine ⟨ready_windowOnly.spared (initialRange_end exampleLayout).2 hspares, n, fun v h₁ h₂ => ?_⟩
  have hindex : index v 39 = 510 ∧ index v 30 = 256 ∧ index v 21 = 8 := by
    refine ⟨Fin.ext ?_, Fin.ext ?_, Fin.ext ?_⟩ <;> simp only [index] <;> omega
  rw [← hn, ptAt, ptAt, hindex.1, hindex.2.1, hindex.2.2]
  rfl

/-- `virt_mmap` as `init_virt_mmap` leaves it. -/
def firstMappings : VirtState Kernel := initVirtMmap exampleLayout ⟨1, fun _ => ⟨0, 0⟩⟩ bootMappings

theorem mappable_onePage {paddr : Nat} (h : paddr < 2 ^ 48) : Mappable paddr 0x1000 pagingFlagReadWrite :=
  ⟨by decide, by omega, flagsOk_readWrite.attributeBits, rfl⟩

/-- A page of the first page table is created. -/
theorem create_onePage (paddr b : Nat) (h : MappingInv (initialRange exampleLayout) live s)
    (htable : FirstTable s.heap) (hb : (mmapGetPages s.virtMmap 1).1 = b) (hlower : 0xFFFFFF4001000000 ≤ b)
    (hupper : b + 0x1000 < 0xFFFFFF4001200000) (hp : paddr % 4096 = 0) (hlt : paddr < 2 ^ 48) :
    ∃ t, (createVirtMapping keepingKrealloc paddr 0x1000 pagingFlagReadWrite).Returns s b t ∧
      Created keepingKrealloc (initialRange exampleLayout) s t ⟨b, paddr, 0x1000, pagingFlagReadWrite⟩ ∧
      FirstTable t.heap := by
  have henv := mappingEnv exampleLayout keepingKrealloc_spec (keepingKrealloc_spares _)
  have hend := (initialRange_end exampleLayout).1
  have hcount : pageCountOf paddr 0x1000 = 1 := by
    rw [pageCountOf_eq paddr (by decide) (by omega), hp]
  obtain ⟨n, hn⟩ := htable
  have hslot : ∀ v, 0xFFFFFF4001000000 ≤ v → v < 0xFFFFFF4001200000 → index v 39 ≠ 511 := by
    intro v h₁ h₂ h511
    have hval := congrArg Fin.val h511
    simp only [index] at hval
    omega
  have hwp := createVirtMapping_wp (E := fun _ => False) henv h.inv h.ready
    (mappable_onePage hlt) (by rw [hcount, hend, hb]; omega) (by
      rw [hcount, hb]
      intro i hi
      exact .inr ⟨n, hn _ (by omega) (by omega)⟩)
  obtain ⟨v, t, hret, hpost⟩ := Outcome.returns_of_wp hwp fun _ _ _ hf => hf
  rcases hpost with ⟨-, -, hnone⟩ | ⟨-, hc⟩
  · rw [hcount] at hnone
    omega
  · have hoffset := hc.offset
    have hbase := hc.base
    simp only at hoffset
    have hpages : VirtMapping.pages ⟨v, paddr, 0x1000, pagingFlagReadWrite⟩ = 1 := by
      simp only [VirtMapping.pages, hoffset, hp]
    rw [hpages, hb] at hbase
    obtain rfl : v = b := by
      rw [← hbase]
      simp only [VirtMapping.base]
      omega
    exact ⟨t, hret, hc, n, fun w h₁ h₂ => hc.spares.ptAt (hslot w h₁ h₂) (hn w h₁ h₂)⟩

theorem firstMappings_inv : MappingInv (initialRange exampleLayout) [] firstMappings :=
  ⟨initVirtMmap_inv exampleLayout bootMappings (le_refl 1), bootMappings_ready.1, by simp, List.Pairwise.nil⟩

theorem create_firstPage : ∃ t,
    (createVirtMapping keepingKrealloc 0x5000 0x1000 pagingFlagReadWrite).Returns firstMappings 0xFFFFFF4001001000 t ∧
      Created keepingKrealloc (initialRange exampleLayout) firstMappings t
        ⟨0xFFFFFF4001001000, 0x5000, 0x1000, pagingFlagReadWrite⟩ ∧ FirstTable t.heap :=
  create_onePage 0x5000 0xFFFFFF4001001000 firstMappings_inv bootMappings_ready.2 (by decide) (by decide) (by decide)
    (by decide) (by decide)

theorem firstMappings_run (ok : VirtState Kernel → List VirtMapping → MappingCall → Prop) :
    MappingRun keepingKrealloc exampleLayout bootMappings ok [] firstMappings :=
  MappingRun.init _ (le_refl 1)

/-- A page is mapped right behind the heap. -/
theorem MappingRun.translates_onePage : ∃ t,
    (createVirtMapping keepingKrealloc 0x5000 0x1000 pagingFlagReadWrite).Returns firstMappings 0xFFFFFF4001001000 t ∧
      VirtMapping.Translated ⟨0xFFFFFF4001001000, 0x5000, 0x1000, pagingFlagReadWrite⟩ t.heap := by
  obtain ⟨t, hret, -, -⟩ := create_firstPage
  have hok : BehindUnused firstMappings [] (.create 0x5000 0x1000 pagingFlagReadWrite) :=
    ⟨mappable_onePage (by decide), fun _ => ⟨by decide, by simp⟩⟩
  have hrun := (firstMappings_run BehindUnused).call hok (MappingStep.create (by decide) hret)
  exact ⟨t, hret, (MappingRun.translates keepingKrealloc_spec (keepingKrealloc_spares _) bootMappings_ready.1
    hrun).1 _ (by simp)⟩

/-- Two pages are mapped, the second right behind the first; deleting the first unmaps the second. -/
theorem mappingRun_unmaps : KreallocSpec keepingKrealloc ∧
    KreallocSpares (initialRange exampleLayout) keepingKrealloc ∧ Ready (initialRange exampleLayout) bootMappings ∧
    ∃ t, MappingRun keepingKrealloc exampleLayout bootMappings (fun _ _ _ => True)
        [⟨0xFFFFFF4001002000, 0x9000, 0x1000, pagingFlagReadWrite⟩] t ∧
      walk t.heap.mem t.heap.cr3 0xFFFFFF4001002000 = none := by
  have henv := mappingEnv exampleLayout keepingKrealloc_spec (keepingKrealloc_spares _)
  have hend := (initialRange_end exampleLayout).1
  -- the first mapping
  obtain ⟨t₁, hret₁, hc₁, htable₁⟩ := create_firstPage
  have hinv₁ := firstMappings_inv.create henv hc₁ (mappable_onePage (by decide)) (by rw [hend]; decide) (by simp)
  -- the second mapping
  have hvirt₁ : t₁.virtMmap = (allocVirtPages keepingKrealloc firstMappings 1).2.virtMmap := hc₁.virtMmap
  obtain ⟨t₂, hret₂, hc₂, -⟩ := create_onePage 0x9000 0xFFFFFF4001002000 hinv₁ htable₁ (by rw [hvirt₁]; decide)
    (by decide) (by decide) (by decide) (by decide)
  have hinv₂ := hinv₁.create henv hc₂ (mappable_onePage (by decide)) (by rw [hend]; decide) (by
    intro m' hm'
    rw [List.mem_singleton.mp hm']
    unfold VirtMapping.Owns InPages
    decide)
  have hvirt₂ : t₂.virtMmap = (allocVirtPages keepingKrealloc t₁ 1).2.virtMmap := hc₂.virtMmap
  have hmax : 1 ≤ t₂.virtMmap.maxRangeCount := by
    rw [hvirt₂]
    obtain ⟨virtMmap, slots, kernel⟩ := t₁
    simp only at hvirt₁
    subst hvirt₁
    exact le_refl 1
  -- the first one is deleted
  have hstanding := hinv₂.standing ⟨0xFFFFFF4001001000, 0x5000, 0x1000, pagingFlagReadWrite⟩ (by simp)
  obtain ⟨fuel, t₃, hret₃⟩ := hstanding.delete_returns henv hinv₂.inv hinv₂.ready hmax
  have hd := hstanding.deleted henv hinv₂.inv hinv₂.ready hret₃
  have hrun₁ := (firstMappings_run fun _ _ _ => True).call trivial (MappingStep.create (by decide) hret₁)
  have hrun₂ := hrun₁.call trivial (MappingStep.create (by decide) hret₂)
  have hdelete : MappingStep keepingKrealloc t₂ ([⟨0xFFFFFF4001002000, 0x9000, 0x1000, pagingFlagReadWrite⟩] ++
      [⟨0xFFFFFF4001001000, 0x5000, 0x1000, pagingFlagReadWrite⟩]) _ _ t₃ := MappingStep.delete hret₃
  have hrun₃ := hrun₂.call trivial hdelete
  exact ⟨keepingKrealloc_spec, keepingKrealloc_spares _, bootMappings_ready.1, t₃, hrun₃, hd.unmapped _ (by
    unfold InPages
    decide)⟩

end KoalemOS.Heap
