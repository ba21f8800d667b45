import KoalemOS.Heap.VirtMmap
import KoalemOS.Paging.PageRanges

/-!
# Mapping physical memory (`src/kernel/memory.c`)

`create_virt_mapping` takes pages from `virt_mmap` and maps them to a physical range,
`delete_virt_mapping` unmaps them and gives them back. The loops of both run up to and including
`page_count*0x1000`: each maps or unmaps one page more than the mapping has, the page behind it.

- `createVirtMapping_wp`: the mapping has pages that were free, and they and the page behind are
  mapped as asked for
- `deleteVirtMapping_post`: the pages are free, and they and the page behind are not mapped
-/

namespace KoalemOS.Heap

open KoalemOS.Library KoalemOS.Mmap KoalemOS.Paging

/-! ## The code -/

/-- `PAGE_BASE` -/
def pageBase (x : Nat) : Nat := x &&& 0xFFFFFFFFFFFFF000

/-- `page_count`: the pages of the bytes from `addr` to `addr + size - 1`. -/
def pageCountOf (addr size : Nat) : Nat :=
  sub64 (pageBase (sub64 (wrap (addr + size)) 1)) (pageBase addr) / 0x1000 + 1

/-- Computations on `virt_mmap`, the page tables and what else the kernel has. -/
abbrev VirtM := Outcome Stop (VirtState Kernel)

/-- A computation on the page tables. -/
def onKernel {α : Type} (m : KernelM α) : VirtM α :=
  Outcome.focus VirtState.heap (fun s kernel => { s with heap := kernel }) id m

/-- `for(uintptr_t offset = 0; offset <= page_count*0x1000; offset += 0x1000)` -/
def forOffsets (count : Nat) (body : Nat → KernelM Unit) : KernelM Unit :=
  Outcome.loop 0 (wrap (count * 0x1000) / 0x1000 + 1) fun i => body (0x1000 * i)

variable (krealloc : Krealloc Kernel)

/-- `alloc_virt_pages` -/
def takeVirtPages (pages : Nat) : VirtM Nat := fun s =>
  (.ok (allocVirtPages krealloc s pages).1, (allocVirtPages krealloc s pages).2)

/-- `free_virt_pages`, with fuel for its calls to itself. -/
def giveVirtPages (fuel baseAddr count : Nat) : VirtM Bool := fun s =>
  match freeVirtPages krealloc baseAddr count fuel s with
  | some (freed, s') => (.ok freed, s')
  | none => (.error .endless, s)

/-- `create_virt_mapping`; 0 if there are not enough pages next to each other. -/
def createVirtMapping (paddr size flags : Nat) : VirtM Nat := do
  let base := pageBase paddr
  let count := pageCountOf paddr size
  let virtBase ← takeVirtPages krealloc count
  if virtBase = 0 then pure 0
  else
    onKernel (forOffsets count fun offset => mapPage (wrap (virtBase + offset)) (wrap (base + offset)) flags)
    pure (wrap (virtBase + (paddr &&& 0xFFF)))

/-- `delete_virt_mapping` -/
def deleteVirtMapping (fuel vaddr size : Nat) : VirtM Unit := do
  let base := pageBase vaddr
  let count := pageCountOf vaddr size
  onKernel (forOffsets count fun offset => unmapPage (wrap (base + offset)))
  let _ ← giveVirtPages krealloc fuel base count

variable {krealloc}

/-! ## Pages of a range -/

theorem pageBase_eq {x : Nat} (hx : x < 2 ^ 64) : pageBase x = x / 4096 * 4096 := by
  have hmask : pageBase x = x / 2 ^ 12 % 2 ^ 52 * 2 ^ 12 := land_shifted_mask x 12 52
  rw [hmask]
  omega

/-- A range that does not wrap has the pages from its first to its last byte. -/
theorem pageCountOf_eq (addr : Nat) {size : Nat} (hpos : 0 < size) (hle : addr + size ≤ 2 ^ 64) :
    pageCountOf addr size = (addr % 4096 + size - 1) / 4096 + 1 := by
  have hlast : sub64 (wrap (addr + size)) 1 = addr + size - 1 := by
    unfold sub64 wrap
    omega
  rw [pageCountOf, hlast, pageBase_eq (by omega), pageBase_eq (by omega), sub64_of_le (by omega) (by omega)]
  omega

/-- Memory there can be, and flags that mean the same at every level of the page tables. -/
structure Mappable (paddr size flags : Nat) : Prop where
  pos : 0 < size
  physical : paddr + size ≤ 2 ^ 52
  attributes : AttributeBits flags
  executable : executeDisable flags = false

/-- What `create_virt_mapping` was called with, and the pointer it returned. -/
structure VirtMapping where
  vaddr : Nat
  paddr : Nat
  size : Nat
  flags : Nat

namespace VirtMapping

/-- The first page. -/
def base (m : VirtMapping) : Nat := m.vaddr / 4096 * 4096

/-- The number of pages. -/
def pages (m : VirtMapping) : Nat := (m.vaddr % 4096 + m.size - 1) / 4096 + 1

/-- The page behind the mapping. -/
def behind (m : VirtMapping) : Nat := m.base + 4096 * m.pages

/-- An address of a page of the mapping. -/
def Owns (m : VirtMapping) (w : Nat) : Prop := InPages m.base m.pages w

variable {m : VirtMapping}

theorem owns_of_lt {offset : Nat} (h : offset < m.size) : m.Owns (m.vaddr + offset) := by
  simp only [Owns, InPages, base, pages]
  omega

/-- Every page of a mapping has a byte of it. -/
theorem exists_offset (hpos : 0 < m.size) {w : Nat} (hw : m.Owns w) :
    ∃ offset < m.size, (m.vaddr + offset) / 4096 = w / 4096 := by
  simp only [Owns, InPages, base, pages] at hw
  by_cases hfirst : w / 4096 = m.vaddr / 4096
  · exact ⟨0, hpos, by omega⟩
  · exact ⟨w / 4096 * 4096 - m.vaddr, by omega, by omega⟩

end VirtMapping

/-! ## The state between calls -/

variable {R : MemoryRange} {s t : VirtState Kernel} {m : VirtMapping} {k k' : Kernel} {P : Nat → Prop} {E : Stop → Prop}
  {n fuel : Nat}

/-- The page tables of the range `R`: no large pages, and no entry that disables execution for what
is mapped below it. -/
structure Ready (R : MemoryRange) (k : Kernel) : Prop where
  tables : PageTables k.mem k.cr3
  free : FreeFrames k
  noLarge : ∀ w, InPages R.baseAddr R.pages w → NoLargePage k.mem k.cr3 w
  executable : ∀ w, InPages R.baseAddr R.pages w → Executable k w

theorem Ready.spared (h : Ready R k) (hR : UserPages R.baseAddr R.pages) (hs : Spares P k k') : Ready R k' where
  tables := hs.tables
  free := hs.free
  noLarge w hw := hs.noLarge w (hR.slot hw) (h.noLarge w hw)
  executable w hw := (h.executable w hw).spared hs (hR.slot hw)

/-- `krealloc` maps and unmaps pages of the heap, not of the range `R`. -/
def KreallocSpares (R : MemoryRange) (krealloc : Krealloc Kernel) : Prop :=
  ∀ k b size, PageTables k.mem k.cr3 → FreeFrames k → Spares (InPages R.baseAddr R.pages) k (krealloc k b size).2

/-- What `create_virt_mapping` and `delete_virt_mapping` rely on: a `krealloc` that keeps to the heap,
and a range of pages below the window slot. -/
structure MappingEnv (krealloc : Krealloc Kernel) (R : MemoryRange) : Prop where
  spec : KreallocSpec krealloc
  spares : KreallocSpares R krealloc
  pages : UserPages R.baseAddr R.pages
  wf : R.Wf
  small : R.pages < 2 ^ 30

theorem virtMmapReduce_spares (hspares : KreallocSpares R krealloc) (h : PageTables s.heap.mem s.heap.cr3)
    (hfree : FreeFrames s.heap) :
    Spares (InPages R.baseAddr R.pages) s.heap (virtMmapReduce krealloc s).heap := by
  unfold virtMmapReduce
  split_ifs
  · have hk := hspares s.heap s.buffer (s.virtMmap.maxRangeCount / 2 * sizeofMemoryRange) h hfree
    generalize krealloc s.heap s.buffer (s.virtMmap.maxRangeCount / 2 * sizeofMemoryRange) = r at hk
    obtain ⟨newRanges, kernel⟩ := r
    cases newRanges <;> exact hk
  · exact .refl _ h hfree

/-- What `alloc_virt_pages` does, if it finds pages: they are the first that `mmap_get_pages` finds. -/
theorem allocVirtPages_post (hspec : KreallocSpec krealloc) (h : VirtInv R s) (hn : 1 ≤ n) :
    (allocVirtPages krealloc s n).1 = (mmapGetPages s.virtMmap n).1 ∧
      ((mmapGetPages s.virtMmap n).1 = 0 → (allocVirtPages krealloc s n).2 = s) ∧
      ((mmapGetPages s.virtMmap n).1 ≠ 0 → s.virtMmap.freePages.Perm
        (MemoryRange.pageList ⟨(mmapGetPages s.virtMmap n).1, n⟩ ++
          (allocVirtPages krealloc s n).2.virtMmap.freePages)) := by
  have hzero := (mmapGetPages_zero h.wf (n := n)).2
  have htaken : (mmapGetPages s.virtMmap n).1 ≠ 0 → VirtInv R { s with virtMmap := (mmapGetPages s.virtMmap n).2 } ∧
      s.virtMmap.freePages.Perm (MemoryRange.pageList ⟨(mmapGetPages s.virtMmap n).1, n⟩ ++
        (mmapGetPages s.virtMmap n).2.freePages) := fun hne => by
    obtain ⟨hwf, -, hperm⟩ := mmapGetPages_pages h.wf hn hne
    refine ⟨⟨hwf, fun p hp => h.within p (freePages_mmapGetPages h.wf hn hp), ?_⟩, hperm⟩
    show (mmapGetPages s.virtMmap n).2.maxRangeCount ≤ s.slots
    rw [(mmapGetPages_counts s.virtMmap n).1]
    exact h.capacity
  unfold allocVirtPages
  generalize mmapGetPages s.virtMmap n = r at hzero htaken
  obtain ⟨baseAddr, m⟩ := r
  simp only at hzero htaken ⊢
  split_ifs with hne
  · refine ⟨rfl, fun h0 => absurd h0 hne, fun _ => ?_⟩
    obtain ⟨hinv, hperm⟩ := htaken hne
    rw [(virtMmapReduce_spec hspec hinv).2]
    exact hperm
  · have hbase : baseAddr = 0 := not_not.mp hne
    refine ⟨hbase.symm, fun h0 => ?_, fun h0 => absurd h0 hne⟩
    rw [hzero h0]

theorem allocVirtPages_spares (hspares : KreallocSpares R krealloc) (h : PageTables s.heap.mem s.heap.cr3)
    (hfree : FreeFrames s.heap) (n : Nat) :
    Spares (InPages R.baseAddr R.pages) s.heap (allocVirtPages krealloc s n).2.heap := by
  unfold allocVirtPages
  generalize mmapGetPages s.virtMmap n = r
  obtain ⟨baseAddr, m⟩ := r
  simp only
  split_ifs
  · exact virtMmapReduce_spares (s := { s with virtMmap := m }) hspares h hfree
  · exact .refl _ h hfree

theorem freeVirtPages_spares (hspares : KreallocSpares R krealloc) (h : PageTables s.heap.mem s.heap.cr3)
    (hfree : FreeFrames s.heap) {b : Nat} {r : Bool} (hret : freeVirtPages krealloc b n fuel s = some (r, t)) :
    Spares (InPages R.baseAddr R.pages) s.heap t.heap := by
  induction fuel generalizing s with
  | zero => simp [freeVirtPages] at hret
  | succ fuel ih =>
    rw [freeVirtPages] at hret
    generalize mmapAddRangeMerge s.virtMmap b n = a at hret
    obtain ⟨added, m⟩ := a
    simp only at hret
    split_ifs at hret with hadded
    · simp only [Option.some.injEq, Prod.mk.injEq] at hret
      rw [← hret.2]
      exact virtMmapReduce_spares hspares (s := { s with virtMmap := m }) h hfree
    · have hk := hspares s.heap ⟨s.slots, m.memoryRanges⟩ (m.rangeCount * 2 * sizeofMemoryRange) h hfree
      generalize hr : krealloc s.heap ⟨s.slots, m.memoryRanges⟩ (m.rangeCount * 2 * sizeofMemoryRange) = res at hk
      rw [show krealloc s.heap (VirtState.buffer { s with virtMmap := m }) (m.rangeCount * 2 * sizeofMemoryRange) =
        res from hr] at hret
      obtain ⟨newRanges, kernel⟩ := res
      cases newRanges with
      | none =>
        simp only [Option.some.injEq, Prod.mk.injEq] at hret
        rw [← hret.2]
        exact hk
      | some b' => exact hk.trans (ih hk.tables hk.free hret) fun _ hw => hw

/-! ## `create_virt_mapping` -/

/-- The mapping `m` has been created: its pages were free, and they and the page behind are mapped. -/
structure Created (krealloc : Krealloc Kernel) (R : MemoryRange) (s t : VirtState Kernel) (m : VirtMapping) : Prop where
  offset : m.vaddr % 4096 = m.paddr % 4096
  base : m.base = (mmapGetPages s.virtMmap m.pages).1
  virtMmap : t.virtMmap = (allocVirtPages krealloc s m.pages).2.virtMmap
  inv : VirtInv R t
  taken : s.virtMmap.freePages.Perm (MemoryRange.pageList ⟨m.base, m.pages⟩ ++ t.virtMmap.freePages)
  spares : Spares (fun w => InPages R.baseAddr R.pages w ∧ ¬InPages m.base (m.pages + 1) w) s.heap t.heap
  maps : MapsPages t.heap m.base (m.paddr / 4096 * 4096) m.flags (m.pages + 1)

/-- A page of a range. -/
theorem mem_range_bounds {p : Nat} (hp : p ∈ R.pageList) : R.baseAddr ≤ p ∧ p + 4096 ≤ R.baseAddr + 4096 * R.pages :=
  MemoryRange.mem_pageList_bounds hp

/-- The pages that `mmap_get_pages` finds lie in the range. -/
theorem VirtInv.found (h : VirtInv R s) (hn : 1 ≤ n) (hne : (mmapGetPages s.virtMmap n).1 ≠ 0) :
    (mmapGetPages s.virtMmap n).1 % 4096 = 0 ∧ R.baseAddr ≤ (mmapGetPages s.virtMmap n).1 ∧
      (mmapGetPages s.virtMmap n).1 + 4096 * n ≤ R.baseAddr + 4096 * R.pages := by
  obtain ⟨-, hwf, hperm⟩ := mmapGetPages_pages h.wf hn hne
  have hmem : ∀ i < n, (mmapGetPages s.virtMmap n).1 + 4096 * i ∈ R.pageList := fun i hi =>
    h.within _ (hperm.symm.subset (List.mem_append_left _ (MemoryRange.mem_pageList.mpr ⟨i, hi, rfl⟩)))
  have hfirst := mem_range_bounds (hmem 0 (by omega))
  have hlast := mem_range_bounds (hmem (n - 1) (by omega))
  have haligned := hwf.aligned
  simp only at haligned
  omega

/-- **`create_virt_mapping`.** There are not enough pages next to each other, or the mapping is
created; the call may stop if a page table is missing. -/
theorem createVirtMapping_wp (henv : MappingEnv krealloc R) (h : VirtInv R s) (hk : Ready R s.heap)
    {paddr size flags : Nat} (hmappable : Mappable paddr size flags)
    (hroom : (mmapGetPages s.virtMmap (pageCountOf paddr size)).1 ≠ 0 →
      (mmapGetPages s.virtMmap (pageCountOf paddr size)).1 + 4096 * pageCountOf paddr size <
        R.baseAddr + 4096 * R.pages)
    (hE : ∀ i ≤ pageCountOf paddr size, MayMap E s.heap
      ((mmapGetPages s.virtMmap (pageCountOf paddr size)).1 + 4096 * i)) :
    Outcome.wp E (createVirtMapping krealloc paddr size flags)
      (fun v t => (v = 0 ∧ t = s ∧ (mmapGetPages s.virtMmap (pageCountOf paddr size)).1 = 0) ∨
        v ≠ 0 ∧ Created krealloc R s t ⟨v, paddr, size, flags⟩) s := by
  have hR := henv.pages
  obtain ⟨hpos, hphys, hflags, hxd⟩ := hmappable
  have hcount := pageCountOf_eq paddr hpos (by omega)
  have hn : 1 ≤ pageCountOf paddr size := by omega
  have hlt : pageCountOf paddr size < 2 ^ 41 := by omega
  obtain ⟨hfirst, hnone, hsome⟩ := allocVirtPages_post henv.spec h hn
  have halloc := allocVirtPages_spares (s := s) henv.spares hk.tables hk.free (pageCountOf paddr size)
  have hinv := allocVirtPages_inv henv.spec h hn
  have htake : (takeVirtPages krealloc (pageCountOf paddr size)).Returns s
      (mmapGetPages s.virtMmap (pageCountOf paddr size)).1 (allocVirtPages krealloc s (pageCountOf paddr size)).2 := by
    rw [← hfirst]
    rfl
  refine Outcome.wp_bind_returns htake ?_
  split_ifs with h0
  · exact Outcome.wp_of_returns (Outcome.returns_pure 0 _) (.inl ⟨rfl, hnone h0, h0⟩)
  have hfound := h.found hn h0
  have htaken := hsome h0
  replace hroom := hroom h0
  generalize hb₀ : (mmapGetPages s.virtMmap (pageCountOf paddr size)).1 = b at hroom hE h0 hfound htaken hfirst
  generalize hs₁ : (allocVirtPages krealloc s (pageCountOf paddr size)).2 = s₁ at halloc hinv htaken
  obtain ⟨haligned, hlower, -⟩ := hfound
  have hRupper := hR.upper
  have hRlower := hR.lower
  have hRaligned := hR.aligned
  have hb : UserPages b (pageCountOf paddr size + 1) := ⟨haligned, by omega, by omega⟩
  have hin : ∀ w, InPages b (pageCountOf paddr size + 1) w → InPages R.baseAddr R.pages w := by
    intro w hw
    unfold InPages at hw ⊢
    omega
  have hready := hk.spared hR halloc
  have hbase := pageBase_eq (x := paddr) (by omega)
  have hmay : ∀ i < pageCountOf paddr size + 1, MayMap E s₁.heap (b + 4096 * i) := by
    intro i hi
    rcases hE i (by omega) with hpanic | ⟨k, hk⟩
    · exact .inl hpanic
    · exact .inr ⟨k, halloc.ptAt (hb.page hi).slot hk⟩
  have hmaps := mapRange_wp (p := pageBase paddr) halloc.tables halloc.free hb
    (fun i hi => hready.noLarge _ (hin _ ⟨by omega, by omega⟩)) (by omega) hflags hxd hmay
  have hrounds : wrap (pageCountOf paddr size * 0x1000) / 0x1000 + 1 = pageCountOf paddr size + 1 := by
    rw [wrap_of_lt (by omega)]
    omega
  rw [← hrounds] at hmaps
  refine Outcome.wp_bind (Outcome.wp_part (Outcome.wp_mono hmaps fun _ k ht => ?_))
  refine Outcome.wp_of_returns (Outcome.returns_pure _ _) (.inr ?_)
  rw [hrounds] at ht
  obtain ⟨hspares', hmapped⟩ := ht
  have hlow : paddr &&& 0xFFF = paddr % 4096 := Nat.and_two_pow_sub_one_eq_mod paddr 12
  rw [hlow, wrap_of_lt (by omega)]
  have hm : VirtMapping.base ⟨b + paddr % 4096, paddr, size, flags⟩ = b := by
    simp only [VirtMapping.base]
    omega
  have hp : VirtMapping.pages ⟨b + paddr % 4096, paddr, size, flags⟩ = pageCountOf paddr size := by
    simp only [VirtMapping.pages]
    rw [hcount]
    omega
  refine ⟨by omega, ⟨by simp only; omega, ?_, ?_, hinv.setHeap k, ?_, ?_, ?_⟩⟩
  · rw [hm, hp, hb₀]
  · rw [hp, hs₁]
  · rw [hm, hp]
    exact htaken
  · rw [hm, hp]
    exact (halloc.mono fun w hw => hw.1).trans hspares' fun w hw => ⟨hR.slot hw.1, hw.2⟩
  · rw [hm, hp, ← hbase]
    exact hmapped

/-! ## `delete_virt_mapping` -/

/-- The mapping `m` has been deleted: its pages may be free again, and they and the page behind are
not mapped. -/
structure Deleted (R : MemoryRange) (s t : VirtState Kernel) (m : VirtMapping) : Prop where
  inv : VirtInv R t
  given : ∀ p ∈ t.virtMmap.freePages,
    p ∈ MemoryRange.pageList ⟨m.base, m.pages⟩ ∨ p ∈ s.virtMmap.freePages
  spares : Spares (fun w => InPages R.baseAddr R.pages w ∧ ¬InPages m.base (m.pages + 1) w) s.heap t.heap
  unmapped : ∀ w, InPages m.base (m.pages + 1) w → walk t.heap.mem t.heap.cr3 w = none

/-- Allocated pages lie in the range. -/
theorem Allocated.bounds {b : Nat} (ha : Allocated R s b n) :
    R.baseAddr ≤ b ∧ b + 4096 * n ≤ R.baseAddr + 4096 * R.pages := by
  have hpos := ha.pos
  have hmem : ∀ i < n, b + 4096 * i ∈ R.pageList := fun i hi =>
    (ha.pages _ (MemoryRange.mem_pageList.mpr ⟨i, hi, rfl⟩)).1
  have hfirst := mem_range_bounds (hmem 0 (by omega))
  have hlast := mem_range_bounds (hmem (n - 1) (by omega))
  omega

/-- The loop of `delete_virt_mapping`, for pages that are allocated and have page tables. -/
theorem unmapMapping_returns (hR : UserPages R.baseAddr R.pages) (hk : Ready R s.heap)
    (ha : Allocated R s m.base m.pages) (hpos : 0 < m.size) (hroom : m.behind < R.baseAddr + 4096 * R.pages)
    (hpt : ∀ i ≤ m.pages, ∃ k, ptAt s.heap.mem s.heap.cr3 (m.base + 4096 * i) = some k) :
    pageBase m.vaddr = m.base ∧ pageCountOf m.vaddr m.size = m.pages ∧
      ∃ k, (onKernel (forOffsets m.pages fun offset => unmapPage (wrap (m.base + offset)))).Returns s ()
          { s with heap := k } ∧
        Spares (OffPages m.base (m.pages + 1)) s.heap k ∧
        ∀ w, InPages m.base (m.pages + 1) w → walk k.mem k.cr3 w = none := by
  obtain ⟨hlower, hupper⟩ := ha.bounds
  have hRupper := hR.upper
  have hRlower := hR.lower
  have hRaligned := hR.aligned
  have hbase : m.base = m.vaddr / 4096 * 4096 := rfl
  have hpages : m.pages = (m.vaddr % 4096 + m.size - 1) / 4096 + 1 := rfl
  have hcount := pageCountOf_eq m.vaddr hpos (by omega)
  have hfirst := pageBase_eq (x := m.vaddr) (by omega)
  have hb : UserPages m.base (m.pages + 1) := by
    unfold VirtMapping.behind at hroom
    exact ⟨by omega, by omega, by omega⟩
  have hrounds : wrap (m.pages * 0x1000) / 0x1000 + 1 = m.pages + 1 := by
    rw [wrap_of_lt (by omega)]
    omega
  obtain ⟨k, hloop, hspares, hnone⟩ := unmapRange_returns hk.tables hk.free hb fun i hi => hpt i (by omega)
  rw [← hrounds] at hloop
  exact ⟨hfirst.trans hbase.symm, hcount.trans hpages.symm, k, hloop.focus, hspares, hnone⟩

/-- **`delete_virt_mapping`.** -/
theorem deleteVirtMapping_post (henv : MappingEnv krealloc R) (h : VirtInv R s) (hk : Ready R s.heap)
    (ha : Allocated R s m.base m.pages) (hpos : 0 < m.size)
    (hroom : m.behind < R.baseAddr + 4096 * R.pages)
    (hpt : ∀ i ≤ m.pages, ∃ k, ptAt s.heap.mem s.heap.cr3 (m.base + 4096 * i) = some k)
    (hret : (deleteVirtMapping krealloc fuel m.vaddr m.size).Returns s () t) : Deleted R s t m := by
  have hR := henv.pages
  obtain ⟨hbase, hcount, k, hloop, hspares, hnone⟩ := unmapMapping_returns hR hk ha hpos hroom hpt
  unfold deleteVirtMapping at hret
  rw [hcount, hbase] at hret
  obtain ⟨_, s₁, hunmap, hrest⟩ := Outcome.returns_bind_iff.mp hret
  obtain ⟨-, rfl⟩ := hunmap.det hloop
  obtain ⟨r, t', hgive, hlast⟩ := Outcome.returns_bind_iff.mp hrest
  obtain ⟨-, rfl⟩ := hlast.det (Outcome.returns_pure () t')
  have hfree : freeVirtPages krealloc m.base m.pages fuel { s with heap := k } = some (r, t) := by
    unfold Outcome.Returns giveVirtPages at hgive
    split at hgive
    · simp only [Prod.mk.injEq, Except.ok.injEq] at hgive
      obtain ⟨rfl, rfl⟩ := hgive
      assumption
    · simp at hgive
  obtain ⟨hinv, hok, hfail⟩ := freeVirtPages_inv henv.spec henv.wf henv.small (h.setHeap k) (ha.congr rfl) hfree
  have hrange := freeVirtPages_spares henv.spares hspares.tables hspares.free hfree
  have hspared : ∀ w, InPages R.baseAddr R.pages w ∧ ¬InPages m.base (m.pages + 1) w →
      OffPages m.base (m.pages + 1) w := fun w hw => ⟨hR.slot hw.1, hw.2⟩
  refine ⟨hinv, fun p hp => ?_, (hspares.mono hspared).trans hrange fun w hw => hw.1, fun w hw => ?_⟩
  · cases r with
    | true => exact List.mem_append.mp ((hok rfl).subset hp)
    | false => exact .inr ((hfail rfl).1 ▸ hp)
  · have hin : InPages R.baseAddr R.pages w := by
      have hRaligned := hR.aligned
      have hlower := ha.bounds.1
      have hfirst : m.base = m.vaddr / 4096 * 4096 := rfl
      unfold InPages VirtMapping.behind at *
      omega
    exact (hrange.walks w hin).trans (hnone w hw)

/-- With a slot in the buffer of `virt_mmap` the call returns. -/
theorem deleteVirtMapping_returns (henv : MappingEnv krealloc R) (h : VirtInv R s) (hk : Ready R s.heap)
    (ha : Allocated R s m.base m.pages)
    (hpos : 0 < m.size) (hroom : m.behind < R.baseAddr + 4096 * R.pages)
    (hpt : ∀ i ≤ m.pages, ∃ k, ptAt s.heap.mem s.heap.cr3 (m.base + 4096 * i) = some k)
    (hmax : 1 ≤ s.virtMmap.maxRangeCount) :
    ∃ fuel t, (deleteVirtMapping krealloc fuel m.vaddr m.size).Returns s () t := by
  obtain ⟨hbase, hcount, k, hloop, -, -⟩ := unmapMapping_returns henv.pages hk ha hpos hroom hpt
  obtain ⟨fuel, r, t, hfree, -⟩ := frees_of_pos henv.spec henv.wf henv.small (h.setHeap k) (ha.congr rfl) hmax
  have hgive : (giveVirtPages krealloc fuel m.base m.pages).Returns { s with heap := k } r t := by
    unfold Outcome.Returns giveVirtPages
    rw [hfree]
  refine ⟨fuel, t, ?_⟩
  unfold deleteVirtMapping
  rw [hcount, hbase]
  exact hloop.bind (hgive.bind (Outcome.returns_pure () t))

end KoalemOS.Heap
