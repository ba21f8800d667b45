import KoalemOS.Heap.Layout
import KoalemOS.Mmap.Canonical

/-!
# The free physical pages (`src/kernel/memory.c`)

The ranges of `phys_mmap` are in pages of their own, from `_phys_mmap_range_buf` on. When these
are full, `free_phys_pages` maps the pages it is called with behind them.

- `PhysInv`: every slot of the buffer is mapped, to frames that are used for nothing else
- `PhysInv.added`, `PhysInv.extended`: what `free_phys_pages` does to it
- `freePhysPages_run_iff`: over every run
-/

namespace KoalemOS.Heap

open KoalemOS.Library KoalemOS.Mmap KoalemOS.Paging

variable {L : Layout} {held : Nat → Prop} {s s' : Kernel} {base count n v w : Nat}

/-! ## The buffer -/

/-- `v` is an address of a slot of the buffer. -/
structure InBuffer (L : Layout) (s : Kernel) (v : Nat) : Prop where
  lower : L.physMmapRangeBuf ≤ v
  upper : v < L.physMmapRangeBuf + 16 * s.physMmap.maxRangeCount

/-- `v` is an address the buffer may come to have. -/
structure Layout.InArea (L : Layout) (v : Nat) : Prop where
  lower : L.physMmapRangeBuf ≤ v
  upper : v < L.physMmapRangeBuf + physMmapMaxSize

/-- The small page of `v` is mapped to frame `n`. -/
def MappedTo (s : Kernel) (v n : Nat) : Prop := ∃ pte, walk s.mem s.cr3 v = some (pte, 12) ∧ frameOf pte = n

/-- Every page of the buffer has a frame of its own, which is neither free nor a page table nor
among the frames `held` by others. -/
structure BufferBacked (L : Layout) (held : Nat → Prop) (s : Kernel) : Prop where
  mapped : ∀ v, InBuffer L s v → ∃ n, MappedTo s v n
  own : ∀ v w n, InBuffer L s v → InBuffer L s w → MappedTo s v n → MappedTo s w n → v / 4096 = w / 4096
  unused : ∀ v n, InBuffer L s v → MappedTo s v n →
    ¬IsTable s.mem s.cr3 n ∧ 4096 * n ∉ s.physMmap.freePages ∧ ¬held n

/-- A frame that somebody holds. -/
structure HeldFrame (s : Kernel) (n : Nat) : Prop where
  nonzero : n ≠ 0
  lt : n < 2 ^ 36
  notTable : ¬IsTable s.mem s.cr3 n
  notFree : 4096 * n ∉ s.physMmap.freePages

/-- The state of `phys_mmap` between calls, with the frames `held` by those who have taken them.
Behind the buffer nothing is mapped that could be free. -/
structure PhysInv (L : Layout) (held : Nat → Prop) (s : Kernel) : Prop extends BufferBacked L held s where
  tables : PageTables s.mem s.cr3
  free : FreeFrames s
  whole : s.physMmap.maxRangeCount % 256 = 0
  pos : 256 ≤ s.physMmap.maxRangeCount
  size : s.physMmap.maxRangeCount * 16 < physMmapMaxSize
  noLarge : ∀ v, L.InArea v → NoLargePage s.mem s.cr3 v
  behind : ∀ v n, L.InArea v → ¬InBuffer L s v → MappedTo s v n → ¬held n ∧ 4096 * n ∉ s.physMmap.freePages
  heldFrame : ∀ n, held n → HeldFrame s n

theorem MappedTo.det {k : Nat} (h : MappedTo s v n) (h' : MappedTo s v k) : n = k := by
  obtain ⟨pte, hw, rfl⟩ := h
  obtain ⟨pte', hw', rfl⟩ := h'
  rw [hw] at hw'
  simp only [Option.some.injEq, Prod.mk.injEq, and_true] at hw'
  rw [hw']

theorem MappedTo.congr (h : MappedTo s v n) (hw : walk s'.mem s'.cr3 v = walk s.mem s.cr3 v) :
    MappedTo s' v n := by
  obtain ⟨pte, hwalk, hn⟩ := h
  exact ⟨pte, by rw [hw, hwalk], hn⟩

theorem Layout.InArea.lt (h : L.InArea v) : v < 0xFFFFFF8000000000 := by
  have hupper := h.upper
  have hbelow := L.buf_below
  have hheap := L.upper
  simp only [physMmapMaxSize, kernelHeapMaxSize] at *
  omega

theorem Layout.InArea.slot (h : L.InArea v) : index v 39 ≠ 511 := by
  rw [(slot_of_lt h.lower h.lt).1]
  decide

theorem PhysInv.inArea (h : PhysInv L held s) (hv : InBuffer L s v) : L.InArea v := by
  have hsize := h.size
  have hupper := hv.upper
  exact ⟨hv.lower, by omega⟩

/-! ## What happens elsewhere -/

/-- From `s` to `s'` nothing has changed for the buffer and for the frames that are held. -/
structure Elsewhere (L : Layout) (s s' : Kernel) : Prop where
  tables : PageTables s'.mem s'.cr3
  free : FreeFrames s'
  maxRangeCount : s'.physMmap.maxRangeCount = s.physMmap.maxRangeCount
  walk : ∀ v, L.InArea v → walk s'.mem s'.cr3 v = Paging.walk s.mem s.cr3 v
  noLarge : ∀ v, L.InArea v → NoLargePage s.mem s.cr3 v → NoLargePage s'.mem s'.cr3 v
  pages : ∀ a ∈ s'.physMmap.freePages, a ∈ s.physMmap.freePages
  notTable : ∀ n, 4096 * n ∉ s.physMmap.freePages → ¬IsTable s.mem s.cr3 n → ¬IsTable s'.mem s'.cr3 n

theorem Elsewhere.inBuffer_iff (h : Elsewhere L s s') : InBuffer L s' v ↔ InBuffer L s v := by
  constructor <;> rintro ⟨hlower, hupper⟩
  · exact ⟨hlower, by rwa [h.maxRangeCount] at hupper⟩
  · exact ⟨hlower, by rwa [h.maxRangeCount]⟩

theorem HeldFrame.elsewhere (h : HeldFrame s n) (hs : Elsewhere L s s') : HeldFrame s' n :=
  ⟨h.nonzero, h.lt, hs.notTable n h.notFree h.notTable, fun hn => h.notFree (hs.pages _ hn)⟩

theorem PhysInv.elsewhere (h : PhysInv L held s) (hs : Elsewhere L s s') : PhysInv L held s' := by
  have hmapped : ∀ {v n}, L.InArea v → MappedTo s' v n → MappedTo s v n := fun hv hn =>
    hn.congr (hs.walk _ hv).symm
  have hin : ∀ {v}, InBuffer L s' v → InBuffer L s v := hs.inBuffer_iff.mp
  refine ⟨⟨fun v hv => ?_, fun v w n hv hw hn hn' => ?_, fun v n hv hn => ?_⟩, hs.tables, hs.free, ?_, ?_, ?_,
    fun v hv => hs.noLarge v hv (h.noLarge v hv), fun v n hv hout hn => ?_, fun n hn => (h.heldFrame n hn).elsewhere hs⟩
  · obtain ⟨n, hn⟩ := h.mapped v (hin hv)
    exact ⟨n, hn.congr (hs.walk v (h.inArea (hin hv)))⟩
  · exact h.own v w n (hin hv) (hin hw) (hmapped (h.inArea (hin hv)) hn) (hmapped (h.inArea (hin hw)) hn')
  · obtain ⟨ht, hf, hh⟩ := h.unused v n (hin hv) (hmapped (h.inArea (hin hv)) hn)
    exact ⟨hs.notTable n hf ht, fun hc => hf (hs.pages _ hc), hh⟩
  · rw [hs.maxRangeCount]
    exact h.whole
  · rw [hs.maxRangeCount]
    exact h.pos
  · rw [hs.maxRangeCount]
    exact h.size
  · obtain ⟨hh, hf⟩ := h.behind v n hv (fun hc => hout (hs.inBuffer_iff.mpr hc)) (hmapped hv hn)
    exact ⟨hh, fun hc => hf (hs.pages _ hc)⟩

/-- `map_page` for a page outside the area of the buffer. -/
theorem Elsewhere.of_mapped {pte : Nat} {taken : List Nat} (h : FreeFrames s) (hm : Mapped s s' v pte taken)
    (hv : ∀ w, L.InArea w → w / 4096 ≠ v / 4096) : Elsewhere L s s' where
  tables := hm.pageTables
  free := hm.free
  maxRangeCount := hm.maxRangeCount
  walk w hw := hm.others w hw.slot (hv w hw)
  noLarge w hw := hm.noLarge w hw.slot
  pages _ ha := hm.frames.symm.subset (List.mem_append_right _ ha)
  notTable _ hn ht := (hm.frame h hn ht).1

/-- `unmap_page` for a page outside the area of the buffer. -/
theorem Elsewhere.of_unmapped (h : FreeFrames s) (hm : Edited s s' v 0 []) (hmap : s'.physMmap = s.physMmap)
    (hv : ∀ w, L.InArea w → w / 4096 ≠ v / 4096) : Elsewhere L s s' := by
  have hperm : s.physMmap.freePages.Perm ([] ++ s'.physMmap.freePages) := by
    rw [hmap]
    exact List.Perm.refl _
  exact .of_mapped h (hm.mapped h (by rw [hmap]; exact h.wf) hperm (by rw [hmap]) (by rw [hmap])) hv

/-- Bytes outside the page tables are written. -/
theorem Elsewhere.of_dataStep (h : PhysInv L held s) (hs : DataStep s s') : Elsewhere L s s' where
  tables := hs.pageTables h.tables
  free := by
    refine ⟨by rw [hs.physMmap]; exact h.free.wf, fun a ha => ?_⟩
    rw [hs.physMmap] at ha
    obtain ⟨haddr, hz, ht⟩ := h.free.good a ha
    exact ⟨haddr, hz, fun hc => ht ((hs.isTable _).mp hc)⟩
  maxRangeCount := by rw [hs.physMmap]
  walk _ hv := hs.walk hv.slot
  noLarge _ hv := hs.noLarge hv.slot
  pages _ ha := by rwa [hs.physMmap] at ha
  notTable _ _ ht hc := ht ((hs.isTable _).mp hc)

/-! ## Taking frames -/

/-- Frame `k` is one of the `count` frames from address `base` on. -/
def FrameIn (base count k : Nat) : Prop := base / 4096 ≤ k ∧ k < base / 4096 + count

/-- The frames that are held after `alloc_phys_pages` has returned `base`. -/
def heldAfterAlloc (held : Nat → Prop) (base count : Nat) : Nat → Prop := fun k =>
  held k ∨ base ≠ 0 ∧ FrameIn base count k

theorem Elsewhere.of_alloc (h : PhysInv L held s) (hn : 1 ≤ n) : Elsewhere L s (s.allocated n) := by
  have hsub : ∀ a ∈ (mmapGetPages s.physMmap n).2.freePages, a ∈ s.physMmap.freePages := by
    intro a ha
    by_cases h0 : (mmapGetPages s.physMmap n).1 = 0
    · rwa [(mmapGetPages_zero h.free.wf).2 h0] at ha
    · exact (mmapGetPages_pages h.free.wf hn h0).2.2.mem_iff.mpr (List.mem_append_right _ ha)
  exact ⟨h.tables, ⟨mmapGetPages_wf h.free.wf hn, fun a ha => h.free.good a (hsub a ha)⟩,
    (mmapGetPages_counts s.physMmap n).1, fun _ _ => rfl, fun _ _ hl => hl, hsub, fun _ _ ht => ht⟩

/-- **`alloc_phys_pages`**. -/
theorem PhysInv.alloc (h : PhysInv L held s) (hn : 1 ≤ n) :
    PhysInv L (heldAfterAlloc held (mmapGetPages s.physMmap n).1 n) (s.allocated n) := by
  have h' := h.elsewhere (.of_alloc h hn)
  generalize hbase : (mmapGetPages s.physMmap n).1 = base
  -- a frame that has been taken was free
  have htaken : ∀ k, base ≠ 0 → FrameIn base n k →
      4096 * k ∈ s.physMmap.freePages ∧ 4096 * k ∉ (s.allocated n).physMmap.freePages := by
    rintro k hne ⟨hle, hlt⟩
    rw [← hbase] at hne
    obtain ⟨-, hrange, hperm⟩ := mmapGetPages_pages h.free.wf hn hne
    rw [hbase] at hrange hperm
    have haligned : base % 4096 = 0 := hrange.aligned
    have hpage : 4096 * k ∈ MemoryRange.pageList ⟨base, n⟩ :=
      MemoryRange.mem_pageList.mpr ⟨k - base / 4096, by simp only; omega, by simp only; omega⟩
    have hnodup := List.nodup_append.mp (hperm.nodup_iff.mp h.free.wf.freePages_nodup)
    exact ⟨hperm.symm.subset (List.mem_append_left _ hpage), fun hc => hnodup.2.2 _ hpage _ hc rfl⟩
  have hold : ∀ {v k}, InBuffer L s v ∨ (L.InArea v ∧ ¬InBuffer L s v) → MappedTo s v k →
      4096 * k ∉ s.physMmap.freePages := by
    rintro v k (hv | ⟨hv, hout⟩) hk
    · exact (h.unused v k hv hk).2.1
    · exact (h.behind v k hv hout hk).2
  have hin : ∀ {v}, InBuffer L (s.allocated n) v ↔ InBuffer L s v := (Elsewhere.of_alloc h hn).inBuffer_iff
  refine ⟨⟨h'.mapped, h'.own, fun v k hv hk => ?_⟩, h'.tables, h'.free, h'.whole, h'.pos, h'.size, h'.noLarge,
    fun v k hv hout hk => ?_, ?_⟩
  · obtain ⟨ht, hf, hh⟩ := h'.unused v k hv hk
    refine ⟨ht, hf, ?_⟩
    rintro (hc | ⟨hne, hc⟩)
    · exact hh hc
    · exact hold (.inl (hin.mp hv)) hk (htaken k hne hc).1
  · obtain ⟨hh, hf⟩ := h'.behind v k hv hout hk
    refine ⟨?_, hf⟩
    rintro (hc | ⟨hne, hc⟩)
    · exact hh hc
    · exact hold (.inr ⟨hv, fun hb => hout (hin.mpr hb)⟩) hk (htaken k hne hc).1
  · rintro k (hk | ⟨hne, hk⟩)
    · exact h'.heldFrame k hk
    · obtain ⟨hfree, hnot⟩ := htaken k hne hk
      have hgood := h.free.good _ hfree
      have hnz := hgood.nonzero
      have hlt := hgood.lt
      have ht := hgood.notTable
      rw [Nat.mul_div_cancel_left _ (by decide)] at ht
      exact ⟨by omega, by omega, ht, hnot⟩

/-! ## Giving frames back -/

/-- The `count` frames from `base` on are held. -/
structure MayGive (held : Nat → Prop) (base count : Nat) : Prop where
  pos : 1 ≤ count
  aligned : base % 4096 = 0
  held : ∀ k, FrameIn base count k → held k

/-- The frames that are held after `free_phys_pages` has returned `r`. -/
def heldAfterFree (held : Nat → Prop) (base count : Nat) (r : Bool) : Nat → Prop := fun k =>
  held k ∧ ¬(r = true ∧ FrameIn base count k)

/-- The pages of the range are held frames. -/
theorem MayGive.page (hf : MayGive held base count) {a : Nat} (ha : a ∈ MemoryRange.pageList ⟨base, count⟩) :
    FrameIn base count (a / 4096) ∧ 4096 * (a / 4096) = a := by
  obtain ⟨i, hi, rfl⟩ := MemoryRange.mem_pageList.mp ha
  have haligned := hf.aligned
  simp only at hi ⊢
  exact ⟨⟨by omega, by omega⟩, by omega⟩

theorem MayGive.last (hf : MayGive held base count) (h : PhysInv L held s) :
    0 < base ∧ base + 4096 * count ≤ 2 ^ 48 := by
  have hpos := hf.pos
  have haligned := hf.aligned
  have hfirst := (h.heldFrame _ (hf.held (base / 4096) ⟨le_rfl, by omega⟩)).nonzero
  have hlast := (h.heldFrame _ (hf.held (base / 4096 + (count - 1)) ⟨by omega, by omega⟩)).lt
  omega

theorem MayGive.canAdd (hf : MayGive held base count) (h : PhysInv L held s) : s.physMmap.CanAdd ⟨base, count⟩ := by
  obtain ⟨hpos, hend⟩ := hf.last h
  have hrange : MemoryRange.Wf ⟨base, count⟩ :=
    ⟨hf.pos, hf.aligned, hpos, by simp only [MemoryRange.endAddr]; omega⟩
  refine ⟨hrange, fun q hq => disjoint_of_pages (h.free.wf.ranges_wf q hq) hrange fun a ha hc => ?_⟩
  obtain ⟨hin, heq⟩ := hf.page ha
  refine (h.heldFrame _ (hf.held _ hin)).notFree ?_
  rw [heq]
  exact List.mem_flatMap.mpr ⟨q, hq, hc⟩

/-- The frames are added to the map. -/
theorem PhysInv.added (h : PhysInv L held s) (hf : MayGive held base count)
    (hadd : (mmapAddRangeMerge s.physMmap base count).1 = true) :
    PhysInv L (heldAfterFree held base count true)
      { s with physMmap := (mmapAddRangeMerge s.physMmap base count).2 } ∧
    ∀ k, FrameIn base count k → 4096 * k ∈ (mmapAddRangeMerge s.physMmap base count).2.freePages := by
  obtain ⟨hwf, hpages, -⟩ := mmapAddRangeMerge_pages h.free.wf (hf.canAdd h)
  have hperm := hpages hadd
  have hmax := mmapAddRangeMerge_maxRangeCount s.physMmap base count
  generalize (mmapAddRangeMerge s.physMmap base count).2 = m at hwf hperm hmax
  have hfree : ∀ {a}, a ∈ m.freePages → (FrameIn base count (a / 4096) ∧ 4096 * (a / 4096) = a) ∨
      a ∈ s.physMmap.freePages := by
    intro a ha
    rcases List.mem_append.mp (hperm.subset ha) with ha | ha
    · exact .inl (hf.page ha)
    · exact .inr ha
  have hnotfree : ∀ {k}, ¬held k → 4096 * k ∉ s.physMmap.freePages → 4096 * k ∉ m.freePages := by
    intro k hk hnot hc
    rcases hfree hc with ⟨hin, -⟩ | hc
    · rw [Nat.mul_div_cancel_left _ (by decide)] at hin
      exact hk (hf.held k hin)
    · exact hnot hc
  have hin : ∀ {v}, InBuffer L { s with physMmap := m } v ↔ InBuffer L s v := by
    intro v
    constructor <;> rintro ⟨hlower, hupper⟩ <;> refine ⟨hlower, ?_⟩
    · rwa [← hmax]
    · rwa [hmax]
  have hmaxeq : ({ s with physMmap := m } : Kernel).physMmap.maxRangeCount = s.physMmap.maxRangeCount := hmax
  refine ⟨⟨⟨fun v hv => h.mapped v (hin.mp hv), fun v w n hv hw => h.own v w n (hin.mp hv) (hin.mp hw),
    fun v n hv hn => ?_⟩, h.tables, ⟨hwf, fun a ha => ?_⟩, ?_, ?_, ?_, h.noLarge, fun v n hv hout hn => ?_,
    fun n hn => ?_⟩, fun k hk => ?_⟩
  · obtain ⟨ht, hnot, hh⟩ := h.unused v n (hin.mp hv) hn
    exact ⟨ht, hnotfree hh hnot, fun hc => hh hc.1⟩
  · rcases hfree ha with ⟨hk, heq⟩ | ha
    · obtain ⟨hnz, hlt, ht, -⟩ := h.heldFrame _ (hf.held _ hk)
      exact ⟨⟨by omega, by omega⟩, by omega, ht⟩
    · exact h.free.good a ha
  · rw [hmaxeq]
    exact h.whole
  · rw [hmaxeq]
    exact h.pos
  · rw [hmaxeq]
    exact h.size
  · obtain ⟨hh, hnot⟩ := h.behind v n hv (fun hc => hout (hin.mpr hc)) hn
    exact ⟨fun hc => hh hc.1, hnotfree hh hnot⟩
  · obtain ⟨hheld, hnot⟩ := hn
    obtain ⟨hnz, hlt, ht, hnf⟩ := h.heldFrame n hheld
    refine ⟨hnz, hlt, ht, fun hc => ?_⟩
    rcases hfree hc with ⟨hk, -⟩ | hc
    · rw [Nat.mul_div_cancel_left _ (by decide)] at hk
      exact hnot ⟨rfl, hk⟩
    · exact hnf hc
  · obtain ⟨hle, hlt⟩ := hk
    have haligned := hf.aligned
    refine hperm.symm.subset (List.mem_append_left _ (MemoryRange.mem_pageList.mpr ⟨k - base / 4096, ?_, ?_⟩))
    · simp only
      omega
    · simp only
      omega

/-! ## A longer buffer -/

/-- A frame is found as long as a page is free. -/
theorem takeFrames_nonzero {k : Nat} {m : MemoryMap} (hwf : m.Wf) (hk : k ≤ m.freePages.length) :
    ∀ a ∈ (takeFrames k m).1, a ≠ 0 := by
  induction k generalizing m with
  | zero => simp [takeFrames]
  | succ k ih =>
    have hne : (mmapGetPages m 1).1 ≠ 0 := by
      intro h0
      have hall := (mmapGetPages_zero hwf).1.mp h0
      have hnil : m.ranges = [] := List.eq_nil_iff_forall_not_mem.mpr fun r hr => by
        have hpos := (hwf.ranges_wf r hr).pos
        have hlt := hall r hr
        omega
      rw [MemoryMap.freePages, hnil] at hk
      simp at hk
    obtain ⟨hwf', hperm⟩ := takeFrame_pages hwf hne
    have hlen := hperm.length_eq
    rw [List.length_cons] at hlen
    simp only [takeFrames, List.mem_cons, forall_eq_or_imp]
    exact ⟨hne, ih hwf' (by omega)⟩

theorem missingTables_le (m : Mem) (cr3 v : Nat) : missingTables m cr3 v ≤ 3 := by
  unfold missingTables missing
  split_ifs <;> omega

/-- The buffer with the slots of `count` pages more. -/
def Kernel.extended (s : Kernel) (count : Nat) : Kernel :=
  { s with physMmap := { s.physMmap with maxRangeCount := s.physMmap.maxRangeCount + count * 0x1000 / 16 } }

/-- From `s` to `s'` the page behind the buffer has been mapped to the frame at `base`, and the
buffer has got the slots of `count` pages. -/
structure BufferGrown (L : Layout) (base count : Nat) (s s' : Kernel) : Prop where
  mapped : ∃ s₁ taken pte, Mapped s s₁ (L.physMmapRangeBuf + 16 * s.physMmap.maxRangeCount) pte taken ∧
    present pte = true ∧ frameOf pte = base / 4096 ∧ s' = Kernel.extended s₁ count

/-- A full map has free frames for page tables: the page behind the buffer is mapped. -/
theorem freePhysPages_extends (h : PhysInv L held s) (hf : MayGive held base count)
    (hadd : (mmapAddRangeMerge s.physMmap base count).1 = false)
    (hroom : s.physMmap.maxRangeCount * 16 + count * 4096 < physMmapMaxSize) :
    ∃ s', (freePhysPages L base count).Returns s true s' ∧ BufferGrown L base count s s' := by
  have hpos := hf.pos
  obtain ⟨hbase, hend⟩ := hf.last h
  have hwhole := h.whole
  have haligned := L.buf_aligned
  simp only [physMmapMaxSize] at hroom
  have harea : L.InArea (L.physMmapRangeBuf + 16 * s.physMmap.maxRangeCount) :=
    ⟨by omega, by simp only [physMmapMaxSize]; omega⟩
  have hlt := harea.lt
  have hfull : s.physMmap.maxRangeCount ≤ s.physMmap.rangeCount := by
    by_contra hc
    rw [mmapAddRangeMerge_true (by omega) (by omega)] at hadd
    cases hadd
  have hmissing := missingTables_le s.mem s.cr3 (L.physMmapRangeBuf + 16 * s.physMmap.maxRangeCount)
  have hmin := h.pos
  have hcount := h.free.wf.rangeCount_le
  obtain ⟨s₁, hret, -, taken, hm⟩ := mapPage_returns (p := base) h.tables h.free
    (userPage_of_lt (L := L) harea.lower hlt (by omega)) (h.noLarge _ harea) (by omega) flagsOk_readWrite
    (takeFrames_nonzero h.free.wf (by omega))
  obtain ⟨hpres, hframe⟩ := leaf_readWrite (p := base) ⟨hf.aligned, by omega⟩
  refine ⟨_, ?_, ⟨s₁, taken, _, hm, hpres, hframe, rfl⟩⟩
  have hfalse : Outcome.Returns (fun s => (.ok (mmapAddRangeMerge s.physMmap base count).1,
      { s with physMmap := (mmapAddRangeMerge s.physMmap base count).2 }) : KernelM Bool) s false s := by
    show (_, _) = _
    rw [hadd, mmapAddRangeMerge_false hadd]
  refine hfalse.bind ?_
  rw [if_neg (by decide)]
  refine (Outcome.returns_gets _ s).bind ?_
  rw [if_neg (by rw [wrap_of_lt (by omega)]; simp only [physMmapMaxSize]; omega), wrap_of_lt (by omega)]
  exact hret.bind ((Outcome.returns_modify _ s₁).bind (Outcome.returns_pure true _))

namespace BufferGrown

theorem maxRangeCount (hs : BufferGrown L base count s s') :
    s'.physMmap.maxRangeCount = s.physMmap.maxRangeCount + 256 * count := by
  obtain ⟨s₁, taken, pte, hm, -, -, rfl⟩ := hs.mapped
  show s₁.physMmap.maxRangeCount + count * 0x1000 / 16 = _
  rw [hm.maxRangeCount]
  omega

theorem pages (hs : BufferGrown L base count s s') {a : Nat} (ha : a ∈ s'.physMmap.freePages) :
    a ∈ s.physMmap.freePages := by
  obtain ⟨s₁, taken, pte, hm, -, -, rfl⟩ := hs.mapped
  exact hm.frames.symm.subset (List.mem_append_right _ ha)

theorem notTable (hs : BufferGrown L base count s s') (h : FreeFrames s) (hn : 4096 * n ∉ s.physMmap.freePages)
    (ht : ¬IsTable s.mem s.cr3 n) : ¬IsTable s'.mem s'.cr3 n := by
  obtain ⟨s₁, taken, pte, hm, -, -, rfl⟩ := hs.mapped
  exact (hm.frame h hn ht).1

/-- The page behind the old buffer. -/
theorem self (hs : BufferGrown L base count s s') (h : PhysInv L held s)
    (hv : L.InArea (L.physMmapRangeBuf + 16 * s.physMmap.maxRangeCount))
    (hw : w / 4096 = (L.physMmapRangeBuf + 16 * s.physMmap.maxRangeCount) / 4096) :
    MappedTo s' w (base / 4096) := by
  obtain ⟨s₁, taken, pte, hm, hpres, hframe, rfl⟩ := hs.mapped
  have hwhole := h.whole
  have haligned := L.buf_aligned
  refine ⟨pte, ?_, hframe⟩
  show walk s₁.mem s₁.cr3 w = _
  rw [hm.walk_self (userPage_of_lt (L := L) hv.lower hv.lt (by omega)) hw, if_pos hpres]

/-- The other pages of the area. -/
theorem others (hs : BufferGrown L base count s s') (hw : L.InArea w)
    (hne : w / 4096 ≠ (L.physMmapRangeBuf + 16 * s.physMmap.maxRangeCount) / 4096) (hn : MappedTo s' w n) :
    MappedTo s w n := by
  obtain ⟨s₁, taken, pte, hm, -, -, rfl⟩ := hs.mapped
  exact hn.congr (hm.others w hw.slot hne).symm

theorem othersStill (hs : BufferGrown L base count s s') (hw : L.InArea w)
    (hne : w / 4096 ≠ (L.physMmapRangeBuf + 16 * s.physMmap.maxRangeCount) / 4096) (hn : MappedTo s w n) :
    MappedTo s' w n := by
  obtain ⟨s₁, taken, pte, hm, -, -, rfl⟩ := hs.mapped
  exact hn.congr (hm.others w hw.slot hne)

end BufferGrown

/-- **The buffer grows by one frame**, and every slot of it is mapped. -/
theorem PhysInv.extended (h : PhysInv L held s) (hf : MayGive held base 1) (hs : BufferGrown L base 1 s s')
    (hroom : s.physMmap.maxRangeCount * 16 + 4096 < physMmapMaxSize) :
    PhysInv L (heldAfterFree held base 1 true) s' := by
  have hwhole := h.whole
  have hmin := h.pos
  have haligned := L.buf_aligned
  have hmax := hs.maxRangeCount
  simp only [physMmapMaxSize] at hroom
  have hnew : L.InArea (L.physMmapRangeBuf + 16 * s.physMmap.maxRangeCount) :=
    ⟨by omega, by simp only [physMmapMaxSize]; omega⟩
  have hheld : held (base / 4096) := hf.held _ ⟨le_rfl, by omega⟩
  have hself := fun {w} => hs.self (w := w) h hnew
  -- an address of the longer buffer is one of the old buffer or one of the new page
  have hcases : ∀ {v}, InBuffer L s' v → L.InArea v ∧
      (v / 4096 = (L.physMmapRangeBuf + 16 * s.physMmap.maxRangeCount) / 4096 ∨
        v / 4096 ≠ (L.physMmapRangeBuf + 16 * s.physMmap.maxRangeCount) / 4096 ∧ InBuffer L s v) := by
    rintro v ⟨hlower, hupper⟩
    refine ⟨⟨hlower, by simp only [physMmapMaxSize]; omega⟩, ?_⟩
    by_cases hv : v < L.physMmapRangeBuf + 16 * s.physMmap.maxRangeCount
    · exact .inr ⟨by omega, hlower, hv⟩
    · exact .inl (by omega)
  have hframe : ∀ {n}, 4096 * n ∉ s.physMmap.freePages → ¬IsTable s.mem s.cr3 n →
      ¬IsTable s'.mem s'.cr3 n ∧ 4096 * n ∉ s'.physMmap.freePages := fun hn ht =>
    ⟨hs.notTable h.free hn ht, fun hc => hn (hs.pages hc)⟩
  obtain ⟨hnz, hlt, hbt, hbf⟩ := h.heldFrame _ hheld
  refine ⟨⟨fun v hv => ?_, fun v w n hv hw hn hn' => ?_, fun v n hv hn => ?_⟩, ?_, ?_, by omega, by omega, ?_,
    fun v hv => ?_, fun v n hv hout hn => ?_, fun n hn => ?_⟩
  · obtain ⟨ha, hv | ⟨hne, hv⟩⟩ := hcases hv
    · exact ⟨_, hself hv⟩
    · obtain ⟨n, hn⟩ := h.mapped v hv
      exact ⟨n, hs.othersStill ha hne hn⟩
  · obtain ⟨ha, hv | ⟨hne, hv⟩⟩ := hcases hv <;> obtain ⟨ha', hw | ⟨hne', hw⟩⟩ := hcases hw
    · omega
    · -- the frame of the new page was held by another
      obtain rfl := (hself hv).det hn
      exact absurd hheld (h.unused w _ hw (hs.others ha' hne' hn')).2.2
    · obtain rfl := (hself hw).det hn'
      exact absurd hheld (h.unused v _ hv (hs.others ha hne hn)).2.2
    · exact h.own v w n hv hw (hs.others ha hne hn) (hs.others ha' hne' hn')
  · obtain ⟨ha, hv | ⟨hne, hv⟩⟩ := hcases hv
    · obtain rfl := (hself hv).det hn
      exact ⟨(hframe hbf hbt).1, (hframe hbf hbt).2, fun hc => hc.2 ⟨rfl, le_rfl, by omega⟩⟩
    · obtain ⟨ht, hfr, hh⟩ := h.unused v n hv (hs.others ha hne hn)
      exact ⟨(hframe hfr ht).1, (hframe hfr ht).2, fun hc => hh hc.1⟩
  · obtain ⟨s₁, taken, pte, hm, -, -, rfl⟩ := hs.mapped
    exact hm.pageTables
  · obtain ⟨s₁, taken, pte, hm, -, -, rfl⟩ := hs.mapped
    obtain ⟨⟨hwf, hdis, hle, -⟩, hgood⟩ := hm.free
    exact ⟨⟨hwf, hdis, hle.trans (Nat.le_add_right _ _), by omega⟩, hgood⟩
  · simp only [physMmapMaxSize]
    omega
  · obtain ⟨s₁, taken, pte, hm, -, -, rfl⟩ := hs.mapped
    exact hm.noLarge v hv.slot (h.noLarge v hv)
  · have hne : v / 4096 ≠ (L.physMmapRangeBuf + 16 * s.physMmap.maxRangeCount) / 4096 := by
      intro hc
      exact hout ⟨hv.lower, by omega⟩
    obtain ⟨hh, hfr⟩ := h.behind v n hv (fun hc => hout ⟨hc.lower, by have := hc.upper; omega⟩)
      (hs.others hv hne hn)
    exact ⟨fun hc => hh hc.1, fun hc => hfr (hs.pages hc)⟩
  · obtain ⟨hz, hl, ht, hfr⟩ := h.heldFrame n hn.1
    exact ⟨hz, hl, (hframe hfr ht).1, (hframe hfr ht).2⟩

/-! ## `free_phys_pages` -/

/-- `free_phys_pages` returns, and afterwards every slot of the buffer is mapped, the buffer is
within its greatest size, and no frame has been lost. -/
def FreesPhys (L : Layout) (held : Nat → Prop) (s : Kernel) (base count : Nat) : Prop :=
  ∃ r s', (freePhysPages L base count).Returns s r s' ∧
    BufferBacked L (heldAfterFree held base count r) s' ∧
    s'.physMmap.maxRangeCount * 16 < physMmapMaxSize ∧
    (r = true → ∀ k, FrameIn base count k →
      4096 * k ∈ s'.physMmap.freePages ∨ ∃ v, InBuffer L s' v ∧ MappedTo s' v k)

/-- The frames are added to the map, or the buffer has its greatest size, or they are one. -/
def MayGrow (s : Kernel) (base count : Nat) : Prop :=
  count = 1 ∨ s.physMmap.rangeCount < s.physMmap.maxRangeCount ∨
    (∃ r ∈ s.physMmap.ranges, r.baseAddr = base + 4096 * count) ∨
    physMmapMaxSize ≤ s.physMmap.maxRangeCount * 16 + count * 4096

/-- A range is not added exactly if the buffer is full and no range starts where it ends. -/
theorem mmapAddRangeMerge_eq_false {m : MemoryMap} (hn : n ≠ 0) (hlt : base + 4096 * n < 2 ^ 64) :
    (mmapAddRangeMerge m base n).1 = false ↔
      m.maxRangeCount ≤ m.rangeCount ∧ ∀ r ∈ m.ranges, r.baseAddr ≠ base + 4096 * n := by
  have h := mmapAddRangeMerge_eq m base hn
  rw [wrap_of_lt hlt] at h
  cases hmerge : mergeFirst base n (base + 4096 * n) m.ranges with
  | none =>
    rw [hmerge] at h
    have hadd := mmapAddRange_eq m base hn
    rw [h]
    split_ifs at hadd with hroom
    · obtain ⟨m', hm', -⟩ := hadd
      rw [hm']
      exact iff_of_false (by simp) fun hc => absurd hc.1 (by omega)
    · rw [hadd]
      exact iff_of_true rfl ⟨by omega, mergeFirst_none hmerge⟩
  | some rs =>
    rw [hmerge] at h
    obtain ⟨m', hm', -⟩ := h
    obtain ⟨pre, r, post, heq, hr, -⟩ := mergeFirst_some hmerge
    rw [hm']
    refine iff_of_false (by simp) fun hc => hc.2 r ?_ hr
    rw [heq]
    simp

/-- What a call does. -/
inductive FreeOutcome (L : Layout) (held : Nat → Prop) (base count : Nat) (s : Kernel) : Prop where
  | kept (r : Bool) (s' : Kernel) : (freePhysPages L base count).Returns s r s' →
      PhysInv L (heldAfterFree held base count r) s' →
      (r = true → ∀ k, FrameIn base count k →
        4096 * k ∈ s'.physMmap.freePages ∨ ∃ v, InBuffer L s' v ∧ MappedTo s' v k) →
      MayGrow s base count → FreeOutcome L held base count s
  | lost (s' : Kernel) : (freePhysPages L base count).Returns s true s' → BufferGrown L base count s s' →
      2 ≤ count → s.physMmap.maxRangeCount * 16 + count * 4096 < physMmapMaxSize →
      ¬MayGrow s base count → FreeOutcome L held base count s

/-- Less is held. -/
theorem PhysInv.release (h : PhysInv L held s) {held' : Nat → Prop} (hsub : ∀ n, held' n → held n) :
    PhysInv L held' s := by
  refine ⟨⟨h.mapped, h.own, fun v n hv hn => ?_⟩, h.tables, h.free, h.whole, h.pos, h.size, h.noLarge,
    fun v n hv hout hn => ?_, fun n hn => h.heldFrame n (hsub n hn)⟩
  · obtain ⟨ht, hfr, hh⟩ := h.unused v n hv hn
    exact ⟨ht, hfr, fun hc => hh (hsub n hc)⟩
  · obtain ⟨hh, hfr⟩ := h.behind v n hv hout hn
    exact ⟨fun hc => hh (hsub n hc), hfr⟩

/-- **`free_phys_pages`**, case by case. -/
theorem freePhysPages_outcome (h : PhysInv L held s) (hf : MayGive held base count) :
    FreeOutcome L held base count s := by
  have hpos := hf.pos
  obtain ⟨hbase, hend⟩ := hf.last h
  have hsize := h.size
  have hiff := mmapAddRangeMerge_eq_false (m := s.physMmap) (n := count) (by omega) (show base + 4096 * count < 2 ^ 64 by omega)
  have hcall : ∀ r, (mmapAddRangeMerge s.physMmap base count).1 = r →
      Outcome.Returns (fun s => (.ok (mmapAddRangeMerge s.physMmap base count).1,
        { s with physMmap := (mmapAddRangeMerge s.physMmap base count).2 }) : KernelM Bool) s r
        { s with physMmap := (mmapAddRangeMerge s.physMmap base count).2 } := by
    rintro r rfl
    rfl
  cases hadd : (mmapAddRangeMerge s.physMmap base count).1 with
  | true =>
    obtain ⟨hinv, hfree⟩ := h.added hf hadd
    refine .kept true _ ((hcall true hadd).bind (Outcome.returns_pure true _)) hinv
      (fun _ k hk => .inl (hfree k hk)) ?_
    by_contra hc
    unfold MayGrow at hc
    push Not at hc
    rw [hiff.mpr ⟨hc.2.1, hc.2.2.1⟩] at hadd
    cases hadd
  | false =>
    by_cases hroom : physMmapMaxSize ≤ s.physMmap.maxRangeCount * 16 + count * 4096
    · -- the buffer has its greatest size
      have hfalse := hcall false hadd
      rw [mmapAddRangeMerge_false hadd] at hfalse
      refine .kept false s (hfalse.bind ?_) (h.release fun _ hn => hn.1) nofun (.inr (.inr (.inr hroom)))
      rw [if_neg (by decide)]
      refine (Outcome.returns_gets _ s).bind ?_
      simp only [physMmapMaxSize] at hsize
      rw [if_pos (by rw [wrap_of_lt (by omega)]; simp only [physMmapMaxSize] at hroom ⊢; omega)]
      exact Outcome.returns_pure false s
    · push Not at hroom
      obtain ⟨s', hret, hgrown⟩ := freePhysPages_extends h hf hadd hroom
      by_cases hone : count = 1
      · subst hone
        refine .kept true s' hret (h.extended hf hgrown (by omega)) (fun _ k hk => .inr ?_) (.inl rfl)
        obtain ⟨hle, hlt⟩ := hk
        obtain rfl : k = base / 4096 := by omega
        have harea : L.InArea (L.physMmapRangeBuf + 16 * s.physMmap.maxRangeCount) := ⟨by omega, by omega⟩
        refine ⟨_, ⟨harea.lower, ?_⟩, hgrown.self h harea rfl⟩
        rw [hgrown.maxRangeCount]
        omega
      · refine .lost s' hret hgrown (by omega) hroom ?_
        rintro (hc | hc | ⟨r, hr, hc⟩ | hc)
        · exact hone hc
        · exact absurd (hiff.mp hadd).1 (by omega)
        · exact (hiff.mp hadd).2 r hr hc
        · omega

/-- The second of the frames is nowhere. -/
theorem BufferGrown.loses (hs : BufferGrown L base count s s') (h : PhysInv L held s)
    (hf : MayGive held base count) (hcount : 2 ≤ count)
    (hroom : s.physMmap.maxRangeCount * 16 + count * 4096 < physMmapMaxSize) :
    4096 * (base / 4096 + 1) ∉ s'.physMmap.freePages ∧
      ∀ v, InBuffer L s' v → ¬MappedTo s' v (base / 4096 + 1) := by
  have hheld : held (base / 4096 + 1) := hf.held _ ⟨by omega, by omega⟩
  have hmax := hs.maxRangeCount
  refine ⟨fun hc => (h.heldFrame _ hheld).notFree (hs.pages hc), fun v hv hn => ?_⟩
  have hupper := hv.upper
  have harea : L.InArea v := ⟨hv.lower, by omega⟩
  by_cases hself : v / 4096 = (L.physMmapRangeBuf + 16 * s.physMmap.maxRangeCount) / 4096
  · have := (hs.self h ⟨by omega, by omega⟩ hself).det hn
    omega
  · have hold := hs.others harea hself hn
    by_cases hin : InBuffer L s v
    · exact (h.unused v _ hin hold).2.2 hheld
    · exact (h.behind v _ harea hin hold).1 hheld

theorem freesPhys_iff (h : PhysInv L held s) (hf : MayGive held base count) :
    FreesPhys L held s base count ↔ MayGrow s base count := by
  rcases freePhysPages_outcome h hf with ⟨r, s', hret, hinv, hframes, hgrow⟩ | ⟨s', hret, hgrown, hcount, hroom, hnot⟩
  · exact iff_of_true ⟨r, s', hret, hinv.toBufferBacked, hinv.size, hframes⟩ hgrow
  · refine iff_of_false ?_ hnot
    rintro ⟨r, t, hret', -, -, hframes⟩
    obtain ⟨rfl, rfl⟩ := hret.det hret'
    obtain ⟨hfree, hmapped⟩ := hgrown.loses h hf hcount hroom
    rcases hframes rfl (base / 4096 + 1) ⟨by omega, by omega⟩ with hc | ⟨v, hv, hc⟩
    · exact hfree hc
    · exact hmapped v hv hc

/-! ## Runs -/

/-- The states of the kernel after boot in which `free_phys_pages` has met `MayGrow` so far, with
the frames that are held. Frames are taken and given back; pages outside the area of the buffer
are mapped and unmapped; bytes outside the page tables are written. -/
inductive PhysRun (L : Layout) : Kernel → (Nat → Prop) → Prop where
  | boot {s : Kernel} {held : Nat → Prop} : s.physMmap.maxRangeCount = 256 → PhysInv L held s → PhysRun L s held
  | alloc {s s' : Kernel} {held : Nat → Prop} {n base : Nat} : PhysRun L s held → 1 ≤ n →
      (allocPhysPages n).Returns s base s' → PhysRun L s' (heldAfterAlloc held base n)
  | free {s s' : Kernel} {held : Nat → Prop} {base count : Nat} {r : Bool} : PhysRun L s held →
      MayGive held base count → MayGrow s base count → (freePhysPages L base count).Returns s r s' →
      PhysRun L s' (heldAfterFree held base count r)
  | mapPage {s s' : Kernel} {held : Nat → Prop} {v p flags : Nat} : PhysRun L s held → UserPage v → p < 2 ^ 64 →
      FlagsOk flags → NoLargePage s.mem s.cr3 v → (∀ w, L.InArea w → w / 4096 ≠ v / 4096) →
      (mapPage v p flags).Returns s () s' → PhysRun L s' held
  | unmapPage {s s' : Kernel} {held : Nat → Prop} {v k : Nat} : PhysRun L s held → UserPage v →
      ptAt s.mem s.cr3 v = some k → (∀ w, L.InArea w → w / 4096 ≠ v / 4096) →
      (unmapPage v).Returns s () s' → PhysRun L s' held
  | write {s s' : Kernel} {held : Nat → Prop} : PhysRun L s held → DataStep s s' → PhysRun L s' held

/-- Every state of a run satisfies the invariant. -/
theorem PhysRun.inv (h : PhysRun L s held) : PhysInv L held s := by
  induction h with
  | boot _ h => exact h
  | alloc _ hn hret ih =>
    obtain ⟨rfl, rfl⟩ := (returns_allocPhysPages _ _).det hret
    exact ih.alloc hn
  | free _ hf hgrow hret ih =>
    rcases freePhysPages_outcome ih hf with ⟨r, s', hret', hinv, -, -⟩ | ⟨-, -, -, -, -, hnot⟩
    · obtain ⟨rfl, rfl⟩ := hret.det hret'
      exact hinv
    · exact absurd hgrow hnot
  | mapPage _ hv hp hflags hl hout hret ih =>
    obtain ⟨taken, hm⟩ := hret.of_wp (mapPage_wp (E := fun _ => True) ih.tables ih.free hv hl hp hflags
      (.inl fun _ _ => trivial))
    exact ih.elsewhere (.of_mapped ih.free hm hout)
  | unmapPage _ hv hn hout hret ih =>
    obtain ⟨t, hret', hedit, hmap⟩ := unmapPage_spec ih.tables hv hn
    obtain ⟨-, rfl⟩ := hret.det hret'
    exact ih.elsewhere (.of_unmapped ih.free hedit hmap hout)
  | write _ hs ih => exact ih.elsewhere (.of_dataStep ih hs)

/-- **`phys_mmap` over runs.** As long as `MayGrow` is met, every slot of the buffer is mapped to a
frame of its own; and `free_phys_pages` keeps this, and loses no frame, exactly if `MayGrow` is met. -/
theorem freePhysPages_run_iff (L : Layout) (s : Kernel) (held : Nat → Prop) (hrun : PhysRun L s held) :
    BufferBacked L held s ∧ s.physMmap.maxRangeCount * 16 < physMmapMaxSize ∧
      ∀ base count, MayGive held base count → (FreesPhys L held s base count ↔ MayGrow s base count) :=
  ⟨hrun.inv.toBufferBacked, hrun.inv.size, fun _ _ hf => freesPhys_iff hrun.inv hf⟩

/-! ### A full map -/

/-- Four free pages and 255 times one, in a buffer of one page. -/
def fullMap : MemoryMap :=
  ⟨fun i => if i = 0 then ⟨0x100000, 4⟩ else ⟨0x100000 + 0x10000 * i, 1⟩, 256, 256⟩

theorem fullMap_wf : fullMap.Wf := by
  refine ⟨fun r hr => ?_, ?_, le_refl 256, by decide⟩
  · obtain ⟨i, hi, rfl⟩ := List.mem_map.mp hr
    obtain ⟨-, hlt⟩ := List.mem_range'_1.mp hi
    change i < 0 + 256 at hlt
    by_cases h0 : i = 0
    · subst h0
      exact ⟨by decide, by decide, by decide, by decide⟩
    · simp only [fullMap, if_neg h0]
      exact ⟨Nat.one_pos, by simp only; omega, by simp only; omega, by simp only [MemoryRange.endAddr]; omega⟩
  · refine List.pairwise_map.mpr (List.Pairwise.imp (fun hij => .inl ?_) List.pairwise_lt_range')
    rename_i i j
    have hj : j ≠ 0 := by omega
    by_cases h0 : i = 0
    · subst h0
      simp only [fullMap, if_neg hj, if_true, MemoryRange.endAddr]
      omega
    · simp only [fullMap, if_neg h0, if_neg hj, MemoryRange.endAddr]
      omega

theorem fullMap_page {a : Nat} (ha : a ∈ fullMap.freePages) : 0x100000 ≤ a ∧ a < 2 ^ 48 := by
  obtain ⟨r, hr, har⟩ := List.mem_flatMap.mp ha
  obtain ⟨i, hi, rfl⟩ := List.mem_map.mp hr
  obtain ⟨-, hlt⟩ := List.mem_range'_1.mp hi
  change i < 0 + 256 at hlt
  obtain ⟨hlower, hupper⟩ := MemoryRange.mem_pageList_bounds har
  by_cases h0 : i = 0
  · simp only [fullMap, h0, if_true, MemoryRange.endAddr] at hlower hupper
    omega
  · simp only [fullMap, if_neg h0, MemoryRange.endAddr] at hlower hupper
    omega

/-- A kernel with nothing but the window and the full map. -/
def fullKernel : Kernel := { windowOnly with physMmap := fullMap }

theorem freeFrames_fullKernel : FreeFrames fullKernel := by
  refine ⟨fullMap_wf, fun a ha => ?_⟩
  obtain ⟨hlower, hupper⟩ := fullMap_page ha
  refine ⟨⟨?_, hupper⟩, by omega, fun ht => ?_⟩
  · obtain ⟨r, hr, har⟩ := List.mem_flatMap.mp ha
    obtain ⟨i, -, rfl⟩ := MemoryRange.mem_pageList.mp har
    have := (fullMap_wf.ranges_wf r hr).aligned
    omega
  · have := isTable_windowOnly ht
    omega

/-- The buffer is mapped to frame 5. -/
@[irreducible] def fullBuffer : Kernel := (mapPage 0xFFFFFF0000000000 0x5000 pagingFlagReadWrite).after fullKernel

/-- Frames 6 and 7 are held. -/
theorem fullBuffer_run : PhysRun exampleLayout fullBuffer (fun k => k = 6 ∨ k = 7) ∧
    fullBuffer.physMmap = (takeFrames 3 fullMap).2 := by
  have hpage : UserPage 0xFFFFFF0000000000 := ⟨by decide, by decide, by decide⟩
  have hmissing : missingTables fullKernel.mem fullKernel.cr3 0xFFFFFF0000000000 = 3 :=
    missingTables_windowOnly hpage.slot
  have hcount : 256 ≤ fullMap.freePages.length := fullMap_wf.rangeCount_le
  obtain ⟨s', hret, hmap, taken, hm⟩ := mapPage_returns (s := fullKernel) (p := 0x5000) pageTables_windowOnly
    freeFrames_fullKernel hpage (noLargePage_windowOnly _ hpage.slot) (by decide) flagsOk_readWrite
    (by rw [hmissing]; exact takeFrames_nonzero fullMap_wf (show 3 ≤ fullMap.freePages.length by omega))
  rw [hmissing] at hmap
  have hs' : fullBuffer = s' := by
    unfold fullBuffer
    exact hret.after_eq
  obtain ⟨hpres, hframe⟩ := leaf_readWrite (p := 0x5000) ⟨by decide, by decide⟩
  have hself : ∀ {w n}, w / 4096 = 0xFFFFFF0000000000 / 4096 → MappedTo s' w n → n = 5 := by
    rintro w n hw ⟨pte, hwalk, rfl⟩
    rw [hm.walk_self hpage hw, if_pos hpres] at hwalk
    simp only [Option.some.injEq, Prod.mk.injEq, and_true] at hwalk
    rw [← hwalk, hframe]
  -- low frames are neither free nor tables
  have hlow : ∀ n, n < 256 → n ≠ 1 → ¬IsTable s'.mem s'.cr3 n ∧ 4096 * n ∉ s'.physMmap.freePages := by
    intro n hlt hne
    have hnot : 4096 * n ∉ fullKernel.physMmap.freePages := fun hc => by
      have := (fullMap_page hc).1
      omega
    exact ⟨(hm.frame freeFrames_fullKernel hnot fun ht => hne (isTable_windowOnly ht)).1,
      fun hc => hnot (hm.frames.symm.subset (List.mem_append_right _ hc))⟩
  have hmax : s'.physMmap.maxRangeCount = 256 := hm.maxRangeCount
  have hin : ∀ {v}, InBuffer exampleLayout s' v ↔ v / 4096 = 0xFFFFFF0000000000 / 4096 := by
    intro v
    constructor
    · rintro ⟨hlower, hupper⟩
      rw [hmax] at hupper
      simp only [exampleLayout] at hlower hupper
      omega
    · intro h
      refine ⟨?_, ?_⟩ <;> simp only [hmax, exampleLayout] <;> omega
  have hunmapped : ∀ v n, exampleLayout.InArea v → ¬InBuffer exampleLayout s' v → ¬MappedTo s' v n := by
    rintro v n hv hout ⟨pte, hwalk, -⟩
    rw [hm.others v hv.slot fun hc => hout (hin.mpr hc)] at hwalk
    obtain ⟨k, hk, -⟩ := ptAt_of_walk hwalk
    have hnone := tableAt_windowOnly (UpperOf.pd.mem (S := (· ≠ 511)) hv.slot).2
    rw [if_neg (by simp)] at hnone
    exact absurd (hk.symm.trans hnone) (by simp)
  rw [hs']
  refine ⟨.boot hmax ⟨⟨fun v hv => ?_, fun v w n hv hw _ _ => ?_, fun v n hv hn => ?_⟩, hm.pageTables, hm.free,
    by rw [hmax], by rw [hmax], by rw [hmax]; decide, fun v hv => hm.noLarge v hv.slot (noLargePage_windowOnly v hv.slot),
    fun v n hv hout hn => (hunmapped v n hv hout hn).elim, fun n hn => ?_⟩, hmap⟩
  · exact ⟨_, _, by rw [hm.walk_self hpage (hin.mp hv), if_pos hpres], rfl⟩
  · rw [hin.mp hv, hin.mp hw]
  · obtain rfl := hself (hin.mp hv) hn
    obtain ⟨ht, hf⟩ := hlow 5 (by decide) (by decide)
    exact ⟨ht, hf, by decide⟩
  · have hlt : n < 256 ∧ n ≠ 1 ∧ n ≠ 0 := by omega
    obtain ⟨ht, hf⟩ := hlow n hlt.1 hlt.2.1
    exact ⟨hlt.2.2, by omega, ht, hf⟩

/-- One frame is given back to the full map. -/
theorem freePhysPages_run_iff_oneFrame :
    FreesPhys exampleLayout (fun k => k = 6 ∨ k = 7) fullBuffer 0x6000 1 := by
  refine ((freePhysPages_run_iff exampleLayout _ _ fullBuffer_run.1).2.2 0x6000 1 ⟨le_rfl, by decide, ?_⟩).mpr (.inl rfl)
  rintro k ⟨hle, hlt⟩
  omega

/-- Two frames are given back to the full map, and the second of them is lost. -/
theorem freePhysPages_loses : PhysRun exampleLayout fullBuffer (fun k => k = 6 ∨ k = 7) ∧
    MayGive (fun k => k = 6 ∨ k = 7) 0x6000 2 ∧
    ¬FreesPhys exampleLayout (fun k => k = 6 ∨ k = 7) fullBuffer 0x6000 2 := by
  obtain ⟨hrun, hmap⟩ := fullBuffer_run
  have hf : MayGive (fun k => k = 6 ∨ k = 7) 0x6000 2 := by
    refine ⟨by decide, by decide, ?_⟩
    rintro k ⟨hle, hlt⟩
    omega
  refine ⟨hrun, hf, fun hc => ?_⟩
  have hcounts : (takeFrames 3 fullMap).2.rangeCount = 256 ∧ (takeFrames 3 fullMap).2.maxRangeCount = 256 :=
    ⟨rfl, rfl⟩
  rcases (freesPhys_iff hrun.inv hf).mp hc with hc | hc | ⟨r, hr, hc⟩ | hc
  · exact absurd hc (by decide)
  · rw [hmap, hcounts.1, hcounts.2] at hc
    exact absurd hc (by decide)
  · -- the free pages are all above one mebibyte
    have hr' := hr
    rw [hmap] at hr'
    have hne : ∀ a ∈ (takeFrames 3 fullMap).1, a ≠ 0 :=
      takeFrames_nonzero fullMap_wf (by have := fullMap_wf.rangeCount_le; change 256 ≤ _ at this; omega)
    have hperm := (takeFrames_pages fullMap_wf hne).2
    have hpos := (hrun.inv.free.wf.ranges_wf r hr).pos
    have hmem : r.baseAddr ∈ fullMap.freePages := hperm.symm.subset (List.mem_append_right _
      (List.mem_flatMap.mpr ⟨r, hr', MemoryRange.mem_pageList.mpr ⟨0, hpos, rfl⟩⟩))
    have := (fullMap_page hmem).1
    omega
  · rw [hmap, hcounts.2] at hc
    exact absurd hc (by decide)

end KoalemOS.Heap
