import KoalemOS.Heap.Layout
import KoalemOS.Mmap.FreePages
import Mathlib.Data.List.Perm.Subperm

/-!
# The free virtual pages (`src/kernel/memory.c`)

`virt_mmap` keeps its ranges in a buffer on the heap, which `krealloc` makes smaller when it is
less than half full and larger when it is full. What `krealloc` does to the rest of the kernel is
left open: it is a function of a state `H`, of which only `KreallocSpec` is known.

- `virtMmapReduce_spec`, `allocVirtPages_inv`, `freeVirtPages_inv`: every call keeps `VirtInv`
- `frees_of_pos`, `frees_iff_of_empty`: what `free_virt_pages` does with a buffer of one slot or
  more, and with a buffer of none
- `virtMmap_run_iff`: over every run
-/

namespace KoalemOS.Heap

open KoalemOS.Library KoalemOS.Mmap KoalemOS.Paging

/-! ## The buffer -/

/-- `sizeof(memory_range)` -/
abbrev sizeofMemoryRange : Nat := 16

/-- A block of the heap that holds ranges: how many fit in it, and what they are. -/
structure RangeBuffer where
  slots : Nat
  ranges : Nat → MemoryRange

/-- `krealloc` on a buffer: null or the new buffer, and the state of the kernel afterwards. -/
abbrev Krealloc (H : Type) := H → RangeBuffer → Nat → Option RangeBuffer × H

variable {H : Type}

/-- If it does not fail, `krealloc` returns a block of at least the size asked for, which starts
with the contents of the old one. -/
structure KreallocSpec (krealloc : Krealloc H) : Prop where
  size : ∀ h b size b', (krealloc h b size).1 = some b' → size / sizeofMemoryRange ≤ b'.slots
  contents : ∀ h b size b', (krealloc h b size).1 = some b' →
    ∀ i < b.slots, (i + 1) * sizeofMemoryRange ≤ size → b'.ranges i = b.ranges i

/-! ## The code -/

/-- `virt_mmap`, the slots of its buffer, and what else `krealloc` uses. -/
structure VirtState (H : Type) where
  virtMmap : MemoryMap
  slots : Nat
  heap : H

/-- `virt_mmap.memory_ranges` -/
def VirtState.buffer (s : VirtState H) : RangeBuffer := ⟨s.slots, s.virtMmap.memoryRanges⟩

/-- `virt_mmap.memory_ranges = new_ranges`, with a new `max_range_count`. -/
def VirtState.setBuffer (s : VirtState H) (newRanges : RangeBuffer) (maxRangeCount : Nat) (heap : H) : VirtState H where
  virtMmap := { s.virtMmap with memoryRanges := newRanges.ranges, maxRangeCount := maxRangeCount }
  slots := newRanges.slots
  heap := heap

variable (krealloc : Krealloc H)

/-- `virt_mmap_reduce` -/
def virtMmapReduce (s : VirtState H) : VirtState H :=
  if s.virtMmap.rangeCount * 2 < s.virtMmap.maxRangeCount then
    match krealloc s.heap s.buffer (s.virtMmap.maxRangeCount / 2 * sizeofMemoryRange) with
    | (some newRanges, heap) => s.setBuffer newRanges (s.virtMmap.maxRangeCount / 2) heap
    | (none, heap) => { s with heap := heap }
  else s

/-- `alloc_virt_pages`: the address of the first page, or 0. -/
def allocVirtPages (s : VirtState H) (pages : Nat) : Nat × VirtState H :=
  let (baseAddr, m) := mmapGetPages s.virtMmap pages
  if baseAddr ≠ 0 then (baseAddr, virtMmapReduce krealloc { s with virtMmap := m })
  else (0, { s with virtMmap := m })

/-- `free_virt_pages`, which calls itself once it has a larger buffer. -/
def freeVirtPages (baseAddr count : Nat) : Nat → VirtState H → Option (Bool × VirtState H)
  | 0, _ => none
  | fuel + 1, s =>
    let (added, m) := mmapAddRangeMerge s.virtMmap baseAddr count
    let t := { s with virtMmap := m }
    if added then some (true, virtMmapReduce krealloc t)
    else
      match krealloc t.heap t.buffer (m.rangeCount * 2 * sizeofMemoryRange) with
      | (none, heap) => some (false, { t with heap := heap })
      | (some newRanges, heap) => freeVirtPages baseAddr count fuel (t.setBuffer newRanges (m.rangeCount * 2) heap)

/-- The pages between the heap and the tables, as `init_virt_mmap` computes them. -/
def initialRange (L : Layout) : MemoryRange :=
  let «end» := 2 ^ 64 - 0x8000000000
  let start := wrap (L.kernelHeapStart + kernelHeapMaxSize)
  ⟨start, sub64 «end» start / 0x1000⟩

/-- `init_virt_mmap`, with the block `kmalloc` returns. -/
def initVirtMmap (L : Layout) (vRanges : RangeBuffer) (heap : H) : VirtState H where
  virtMmap := ⟨setSlot vRanges.ranges 0 (initialRange L), 1, 1⟩
  slots := vRanges.slots
  heap := heap

/-! ## The invariant -/

variable {krealloc} {R : MemoryRange} {m : MemoryMap} {s t : VirtState H} {b n fuel : Nat}

/-- The free ranges are well formed and within the range `R`, and the buffer has the slots it is
said to have. -/
structure VirtInv (R : MemoryRange) (s : VirtState H) : Prop where
  wf : s.virtMmap.Wf
  within : ∀ p ∈ s.virtMmap.freePages, p ∈ R.pageList
  capacity : s.virtMmap.maxRangeCount ≤ s.slots

/-- There are no more free ranges than pages. -/
theorem rangeCount_le (hwf : m.Wf) (hwithin : ∀ p ∈ m.freePages, p ∈ R.pageList) : m.rangeCount ≤ R.pages := by
  have hpages := hwf.rangeCount_le
  have hsub := (List.Nodup.subperm hwf.freePages_nodup hwithin).length_le
  have hlen : R.pageList.length = R.pages := by simp [MemoryRange.pageList]
  omega

/-- The buffer may get any number of slots that holds the ranges in use. -/
theorem VirtInv.setBuffer (hspec : KreallocSpec krealloc) (h : VirtInv R s) {k : Nat} {b' : RangeBuffer} {h' : H}
    (hk : krealloc s.heap s.buffer (k * sizeofMemoryRange) = (some b', h'))
    (hcount : s.virtMmap.rangeCount ≤ k) (hlt : k < 2 ^ 31) :
    VirtInv R (s.setBuffer b' k h') ∧ (s.setBuffer b' k h').virtMmap.freePages = s.virtMmap.freePages := by
  have hsome : (krealloc s.heap s.buffer (k * sizeofMemoryRange)).1 = some b' := congrArg Prod.fst hk
  have hsize := hspec.size _ _ _ _ hsome
  have hcap := h.capacity
  have hle := h.wf.count_le
  have hranges : (s.setBuffer b' k h').virtMmap.ranges = s.virtMmap.ranges := by
    refine slots_congr fun i _ hi => ?_
    replace hi : i < 0 + s.virtMmap.rangeCount := hi
    have hslot : i < s.slots := by omega
    exact hspec.contents _ _ _ _ hsome i hslot (Nat.mul_le_mul_right _ (by omega))
  have hfree : (s.setBuffer b' k h').virtMmap.freePages = s.virtMmap.freePages := by
    rw [MemoryMap.freePages, hranges]
    rfl
  refine ⟨⟨⟨?_, ?_, hcount, hlt⟩, ?_, ?_⟩, hfree⟩
  · rw [hranges]
    exact h.wf.ranges_wf
  · rw [hranges]
    exact h.wf.disjoint
  · rw [hfree]
    exact h.within
  · simp only [VirtState.setBuffer, sizeofMemoryRange] at hsize ⊢
    omega

/-- `krealloc` may change the rest of the kernel. -/
theorem VirtInv.setHeap (h : VirtInv R s) (heap : H) : VirtInv R { s with heap := heap } :=
  ⟨h.wf, h.within, h.capacity⟩

/-- **`virt_mmap_reduce`** keeps the ranges. -/
theorem virtMmapReduce_spec (hspec : KreallocSpec krealloc) (h : VirtInv R s) :
    VirtInv R (virtMmapReduce krealloc s) ∧
      (virtMmapReduce krealloc s).virtMmap.freePages = s.virtMmap.freePages := by
  have hlt := h.wf.max_lt
  unfold virtMmapReduce
  split_ifs with hreduce
  · cases hk : krealloc s.heap s.buffer (s.virtMmap.maxRangeCount / 2 * sizeofMemoryRange) with
    | mk r heap =>
      cases r with
      | none => exact ⟨h.setHeap heap, rfl⟩
      | some b' => exact h.setBuffer hspec hk (by omega) (by omega)
  · exact ⟨h, rfl⟩

/-! ## Taking pages -/

/-- What is free after taking pages was free before. -/
theorem freePages_mmapGetPages (hwf : m.Wf) (hn : 1 ≤ n) {p : Nat} (hp : p ∈ (mmapGetPages m n).2.freePages) :
    p ∈ m.freePages := by
  by_cases h0 : (mmapGetPages m n).1 = 0
  · rwa [(mmapGetPages_zero hwf).2 h0] at hp
  · exact (mmapGetPages_pages hwf hn h0).2.2.mem_iff.mpr (List.mem_append_right _ hp)

/-- **`alloc_virt_pages`** keeps the invariant. -/
theorem allocVirtPages_inv (hspec : KreallocSpec krealloc) (h : VirtInv R s) (hn : 1 ≤ n) :
    VirtInv R (allocVirtPages krealloc s n).2 := by
  have htaken : VirtInv R { s with virtMmap := (mmapGetPages s.virtMmap n).2 } := by
    refine ⟨mmapGetPages_wf h.wf hn, fun p hp => h.within p (freePages_mmapGetPages h.wf hn hp), ?_⟩
    show (mmapGetPages s.virtMmap n).2.maxRangeCount ≤ s.slots
    rw [(mmapGetPages_counts s.virtMmap n).1]
    exact h.capacity
  unfold allocVirtPages
  generalize mmapGetPages s.virtMmap n = r at htaken
  obtain ⟨baseAddr, m⟩ := r
  simp only at htaken ⊢
  split_ifs
  · exact (virtMmapReduce_spec hspec htaken).1
  · exact htaken

/-! ## Giving pages back -/

/-- The `n` pages from `b` on are allocated: pages of the range `R` that are not free. -/
structure Allocated (R : MemoryRange) (s : VirtState H) (b n : Nat) : Prop where
  pos : 1 ≤ n
  pages : ∀ p ∈ MemoryRange.pageList ⟨b, n⟩, p ∈ R.pageList ∧ p ∉ s.virtMmap.freePages

/-- Allocated pages may be added to the map. -/
theorem Allocated.canAdd (hR : R.Wf) (h : VirtInv R s) (ha : Allocated R s b n) :
    s.virtMmap.CanAdd ⟨b, n⟩ := by
  have hpos := ha.pos
  have hfirst : b ∈ MemoryRange.pageList ⟨b, n⟩ := MemoryRange.mem_pageList.mpr ⟨0, hpos, rfl⟩
  have hlast : b + 4096 * (n - 1) ∈ MemoryRange.pageList ⟨b, n⟩ :=
    MemoryRange.mem_pageList.mpr ⟨n - 1, by simp only; omega, rfl⟩
  obtain ⟨i, hi, hb⟩ := MemoryRange.mem_pageList.mp (ha.pages _ hfirst).1
  have hend := (MemoryRange.mem_pageList_bounds (ha.pages _ hlast).1).2
  have haligned := hR.aligned
  have hnonzero := hR.nonzero
  have hnoWrap := hR.noWrap
  have hrange : MemoryRange.Wf ⟨b, n⟩ := by
    simp only [MemoryRange.endAddr] at *
    exact ⟨hpos, by simp only; omega, by simp only; omega, by simp only [MemoryRange.endAddr]; omega⟩
  refine ⟨hrange, fun q hq => disjoint_of_pages (h.wf.ranges_wf q hq) hrange fun p hp hq' => ?_⟩
  exact (ha.pages p hp).2 (List.mem_flatMap.mpr ⟨q, hq, hq'⟩)

/-- What `k` calls of `krealloc`, one after the other, with the same size leave; `none` if one of
them fails. -/
def retries (krealloc : Krealloc H) (size : Nat) : Nat → H → RangeBuffer → Option (H × RangeBuffer)
  | 0, heap, buffer => some (heap, buffer)
  | k + 1, heap, buffer =>
    match krealloc heap buffer size with
    | (none, _) => none
    | (some newRanges, heap) => retries krealloc size k heap newRanges

/-- `krealloc` fails when it is asked, once or more often, for twice the slots in use. -/
def KreallocFails (krealloc : Krealloc H) (s : VirtState H) : Prop :=
  ∃ k, retries krealloc (s.virtMmap.rangeCount * 2 * sizeofMemoryRange) k s.heap s.buffer = none

/-- `free_virt_pages` returns: true, and the pages are free, or false, and nothing has changed
because `krealloc` has failed. -/
def Frees (krealloc : Krealloc H) (s : VirtState H) (b n : Nat) : Prop :=
  ∃ fuel r t, freeVirtPages krealloc b n fuel s = some (r, t) ∧
    (r = true → t.virtMmap.freePages.Perm (MemoryRange.pageList ⟨b, n⟩ ++ s.virtMmap.freePages)) ∧
    (r = false → t.virtMmap.freePages = s.virtMmap.freePages ∧ KreallocFails krealloc s)

/-- The range is added. -/
theorem freeVirtPages_added (fuel : Nat) (hspec : KreallocSpec krealloc) (hR : R.Wf) (h : VirtInv R s)
    (ha : Allocated R s b n) (hadd : (mmapAddRangeMerge s.virtMmap b n).1 = true) :
    ∃ t, freeVirtPages krealloc b n (fuel + 1) s = some (true, t) ∧ VirtInv R t ∧
      t.virtMmap.freePages.Perm (MemoryRange.pageList ⟨b, n⟩ ++ s.virtMmap.freePages) := by
  have hpos := ha.pos
  obtain ⟨hwf, hpages, -⟩ := mmapAddRangeMerge_pages h.wf (ha.canAdd hR h)
  have hmax := mmapAddRangeMerge_maxRangeCount s.virtMmap b n
  have hperm := hpages hadd
  rw [freeVirtPages]
  generalize mmapAddRangeMerge s.virtMmap b n = r at hadd hwf hmax hperm
  obtain ⟨added, m⟩ := r
  simp only at hadd hwf hmax hperm
  subst hadd
  have hadded : VirtInv R { s with virtMmap := m } := by
    refine ⟨hwf, fun p hp => ?_, ?_⟩
    · rcases List.mem_append.mp (hperm.mem_iff.mp hp) with hp | hp
      · exact (ha.pages p hp).1
      · exact h.within p hp
    · show m.maxRangeCount ≤ s.slots
      rw [hmax]
      exact h.capacity
  obtain ⟨hinv, hfree⟩ := virtMmapReduce_spec hspec hadded
  refine ⟨_, rfl, hinv, ?_⟩
  rw [hfree]
  exact hperm

/-- The buffer is full: `krealloc` decides. -/
theorem freeVirtPages_full (hR : R.Wf) (h : VirtInv R s) (ha : Allocated R s b n)
    (hadd : (mmapAddRangeMerge s.virtMmap b n).1 = false) :
    freeVirtPages krealloc b n (fuel + 1) s =
      match krealloc s.heap s.buffer (s.virtMmap.rangeCount * 2 * sizeofMemoryRange) with
      | (none, heap) => some (false, { s with heap := heap })
      | (some newRanges, heap) =>
        freeVirtPages krealloc b n fuel (s.setBuffer newRanges (s.virtMmap.rangeCount * 2) heap) := by
  obtain ⟨-, -, hsame⟩ := mmapAddRangeMerge_pages h.wf (ha.canAdd hR h)
  have hm := hsame hadd
  rw [freeVirtPages]
  generalize mmapAddRangeMerge s.virtMmap b n = r at hadd hm
  obtain ⟨added, m⟩ := r
  simp only at hadd hm
  subst hadd hm
  rfl

/-- A larger buffer changes nothing about what is allocated. -/
theorem Allocated.congr (ha : Allocated R s b n) (h : t.virtMmap.freePages = s.virtMmap.freePages) :
    Allocated R t b n :=
  ⟨ha.pos, fun p hp => by rw [h]; exact ha.pages p hp⟩

/-- The buffer gets twice the slots in use. -/
theorem VirtInv.doubled (hspec : KreallocSpec krealloc) (hR : R.pages < 2 ^ 30) (h : VirtInv R s)
    {b' : RangeBuffer} {heap : H}
    (hk : krealloc s.heap s.buffer (s.virtMmap.rangeCount * 2 * sizeofMemoryRange) = (some b', heap)) :
    VirtInv R (s.setBuffer b' (s.virtMmap.rangeCount * 2) heap) ∧
      (s.setBuffer b' (s.virtMmap.rangeCount * 2) heap).virtMmap.freePages = s.virtMmap.freePages := by
  have hcount := rangeCount_le h.wf h.within
  exact h.setBuffer hspec hk (by omega) (by omega)

/-- **`free_virt_pages`** keeps the invariant, if it returns. -/
theorem freeVirtPages_inv (hspec : KreallocSpec krealloc) (hR : R.Wf) (hsmall : R.pages < 2 ^ 30)
    (h : VirtInv R s) (ha : Allocated R s b n) {r : Bool}
    (hret : freeVirtPages krealloc b n fuel s = some (r, t)) :
    VirtInv R t ∧
      (r = true → t.virtMmap.freePages.Perm (MemoryRange.pageList ⟨b, n⟩ ++ s.virtMmap.freePages)) ∧
      (r = false → t.virtMmap.freePages = s.virtMmap.freePages ∧ KreallocFails krealloc s) := by
  induction fuel generalizing s with
  | zero => simp [freeVirtPages] at hret
  | succ fuel ih =>
    cases hadd : (mmapAddRangeMerge s.virtMmap b n).1 with
    | true =>
      obtain ⟨t', ht', hinv, hperm⟩ := freeVirtPages_added fuel hspec hR h ha hadd
      rw [ht'] at hret
      simp only [Option.some.injEq, Prod.mk.injEq] at hret
      obtain ⟨rfl, rfl⟩ := hret
      exact ⟨hinv, fun _ => hperm, nofun⟩
    | false =>
      rw [freeVirtPages_full hR h ha hadd] at hret
      cases hk : krealloc s.heap s.buffer (s.virtMmap.rangeCount * 2 * sizeofMemoryRange) with
      | mk res heap =>
        rw [hk] at hret
        cases res with
        | none =>
          simp only [Option.some.injEq, Prod.mk.injEq] at hret
          obtain ⟨rfl, rfl⟩ := hret
          refine ⟨h.setHeap heap, nofun, fun _ => ⟨rfl, 1, ?_⟩⟩
          simp only [retries, hk]
        | some b' =>
          obtain ⟨hinv, hfree⟩ := h.doubled hspec hsmall hk
          obtain ⟨hinv', hok, hfail⟩ := ih hinv (ha.congr hfree) hret
          rw [hfree] at hok hfail
          refine ⟨hinv', hok, fun hr => ⟨(hfail hr).1, ?_⟩⟩
          obtain ⟨-, k, hkfail⟩ := hfail hr
          refine ⟨k + 1, ?_⟩
          simp only [retries, hk]
          exact hkfail

/-- With a slot in the buffer `free_virt_pages` returns: a buffer of twice the slots in use has a
slot left. -/
theorem frees_of_pos (hspec : KreallocSpec krealloc) (hR : R.Wf) (hsmall : R.pages < 2 ^ 30) (h : VirtInv R s)
    (ha : Allocated R s b n) (hpos : 1 ≤ s.virtMmap.maxRangeCount) : Frees krealloc s b n := by
  have hreturns : ∃ fuel r t, freeVirtPages krealloc b n fuel s = some (r, t) := by
    cases hadd : (mmapAddRangeMerge s.virtMmap b n).1 with
    | true =>
      obtain ⟨t, ht, -, -⟩ := freeVirtPages_added 0 hspec hR h ha hadd
      exact ⟨1, true, t, ht⟩
    | false =>
      have hn := ha.pos
      have hfull : s.virtMmap.maxRangeCount ≤ s.virtMmap.rangeCount := by
        by_contra hroom
        rw [mmapAddRangeMerge_true (by omega) (by omega)] at hadd
        cases hadd
      cases hk : krealloc s.heap s.buffer (s.virtMmap.rangeCount * 2 * sizeofMemoryRange) with
      | mk res heap =>
        cases res with
        | none =>
          refine ⟨1, false, { s with heap := heap }, ?_⟩
          rw [freeVirtPages_full hR h ha hadd, hk]
        | some b' =>
          obtain ⟨hinv, hfree⟩ := h.doubled hspec hsmall hk
          obtain ⟨t, ht, -, -⟩ := freeVirtPages_added 0 hspec hR hinv (ha.congr hfree)
            (mmapAddRangeMerge_true (by omega) (by simp only [VirtState.setBuffer]; omega))
          refine ⟨2, true, t, ?_⟩
          rw [freeVirtPages_full hR h ha hadd, hk]
          exact ht
  obtain ⟨fuel, r, t, ht⟩ := hreturns
  exact ⟨fuel, r, t, ht, (freeVirtPages_inv hspec hR hsmall h ha ht).2⟩

/-! ## A buffer without slots -/

/-- Nothing can be added to a buffer without slots. -/
theorem mmapAddRangeMerge_empty (hm : m.rangeCount = 0) (hmax : m.maxRangeCount = 0) (b n : Nat) :
    (mmapAddRangeMerge m b n).1 = false := by
  unfold mmapAddRangeMerge
  split_ifs
  · rfl
  · rw [hm, mergeLoop, mmapAddRange, if_neg ‹_›, if_pos (by omega)]

/-- With a buffer without slots `free_virt_pages` does not get around the failing of `krealloc`. -/
theorem freeVirtPages_empty (hspec : KreallocSpec krealloc) (hR : R.Wf) (hsmall : R.pages < 2 ^ 30)
    (h : VirtInv R s) (ha : Allocated R s b n) (hmax : s.virtMmap.maxRangeCount = 0) {r : Bool}
    (hret : freeVirtPages krealloc b n fuel s = some (r, t)) : r = false := by
  induction fuel generalizing s with
  | zero => simp [freeVirtPages] at hret
  | succ fuel ih =>
    have hcount : s.virtMmap.rangeCount = 0 := by
      have := h.wf.count_le
      omega
    rw [freeVirtPages_full hR h ha (mmapAddRangeMerge_empty hcount hmax b n)] at hret
    cases hk : krealloc s.heap s.buffer (s.virtMmap.rangeCount * 2 * sizeofMemoryRange) with
    | mk res heap =>
      rw [hk] at hret
      cases res with
      | none =>
        simp only [Option.some.injEq, Prod.mk.injEq] at hret
        exact hret.1.symm
      | some b' =>
        obtain ⟨hinv, hfree⟩ := h.doubled hspec hsmall hk
        exact ih hinv (ha.congr hfree) (by simp only [VirtState.setBuffer]; omega) hret

/-- If `krealloc` fails at last, `free_virt_pages` returns. -/
theorem freeVirtPages_returns (hspec : KreallocSpec krealloc) (hR : R.Wf) (hsmall : R.pages < 2 ^ 30)
    (h : VirtInv R s) (ha : Allocated R s b n) (hmax : s.virtMmap.maxRangeCount = 0) {k : Nat}
    (hk : retries krealloc (s.virtMmap.rangeCount * 2 * sizeofMemoryRange) k s.heap s.buffer = none) :
    ∃ fuel r t, freeVirtPages krealloc b n fuel s = some (r, t) := by
  have hcount : s.virtMmap.rangeCount = 0 := by
    have := h.wf.count_le
    omega
  have hfull : ∀ f, freeVirtPages krealloc b n (f + 1) s = _ := fun f => freeVirtPages_full hR h ha
    (mmapAddRangeMerge_empty hcount hmax b n)
  induction k generalizing s with
  | zero => simp [retries] at hk
  | succ k ih =>
    rw [retries] at hk
    cases hres : krealloc s.heap s.buffer (s.virtMmap.rangeCount * 2 * sizeofMemoryRange) with
    | mk res heap =>
      rw [hres] at hk
      cases res with
      | none =>
        refine ⟨1, false, { s with heap := heap }, ?_⟩
        rw [hfull, hres]
      | some b' =>
        obtain ⟨hinv, hfree⟩ := h.doubled hspec hsmall hres
        have hmax' : (s.setBuffer b' (s.virtMmap.rangeCount * 2) heap).virtMmap.maxRangeCount = 0 := by
          simp only [VirtState.setBuffer]
          omega
        obtain ⟨fuel, r, t, ht⟩ := ih hinv (ha.congr hfree) hmax' hk hcount fun fuel =>
          freeVirtPages_full hR hinv (ha.congr hfree)
            (mmapAddRangeMerge_empty (m := (s.setBuffer b' _ heap).virtMmap) hcount hmax' b n)
        refine ⟨fuel + 1, r, t, ?_⟩
        rw [hfull, hres]
        exact ht

/-- With a buffer without slots `free_virt_pages` returns exactly if `krealloc` fails. -/
theorem frees_iff_of_empty (hspec : KreallocSpec krealloc) (hR : R.Wf) (hsmall : R.pages < 2 ^ 30)
    (h : VirtInv R s) (ha : Allocated R s b n) (hmax : s.virtMmap.maxRangeCount = 0) :
    Frees krealloc s b n ↔ KreallocFails krealloc s := by
  constructor
  · rintro ⟨fuel, r, t, ht, -, hfail⟩
    exact (hfail (freeVirtPages_empty hspec hR hsmall h ha hmax ht)).2
  · rintro ⟨k, hk⟩
    obtain ⟨fuel, r, t, ht⟩ := freeVirtPages_returns hspec hR hsmall h ha hmax hk
    exact ⟨fuel, r, t, ht, (freeVirtPages_inv hspec hR hsmall h ha ht).2⟩

/-! ## Runs -/

/-- The states of `virt_mmap` from `init_virt_mmap` on. Pages that are given back are allocated;
between the calls the rest of the kernel goes on. -/
inductive VirtRun (krealloc : Krealloc H) (L : Layout) : VirtState H → Prop where
  | init (vRanges : RangeBuffer) (heap : H) : 1 ≤ vRanges.slots → VirtRun krealloc L (initVirtMmap L vRanges heap)
  | alloc {s : VirtState H} {n : Nat} : VirtRun krealloc L s → 1 ≤ n →
      VirtRun krealloc L (allocVirtPages krealloc s n).2
  | free {s t : VirtState H} {b n fuel : Nat} {r : Bool} : VirtRun krealloc L s →
      Allocated (initialRange L) s b n → freeVirtPages krealloc b n fuel s = some (r, t) →
      VirtRun krealloc L t
  | elsewhere {s : VirtState H} (heap : H) : VirtRun krealloc L s → VirtRun krealloc L { s with heap := heap }

/-- The range from the end of the heap up to the window slot. -/
theorem initialRange_eq (L : Layout) : (initialRange L).baseAddr = L.kernelHeapStart + kernelHeapMaxSize ∧
    (initialRange L).pages = (0xFFFFFF8000000000 - (L.kernelHeapStart + kernelHeapMaxSize)) / 4096 := by
  have hupper := L.upper
  have hstart : (initialRange L).baseAddr = L.kernelHeapStart + kernelHeapMaxSize := wrap_of_lt (by omega)
  refine ⟨hstart, ?_⟩
  show sub64 (2 ^ 64 - 0x8000000000) (initialRange L).baseAddr / 0x1000 = _
  rw [hstart, sub64_of_le (by omega) (by omega)]
  omega

/-- The linker script leaves room for less than `2 ^ 30` pages. -/
theorem initialRange_wf (L : Layout) : (initialRange L).Wf ∧ (initialRange L).pages < 2 ^ 30 := by
  have hlower := L.lower
  have hbelow := L.buf_below
  have hupper := L.upper
  have haligned := L.heap_aligned
  obtain ⟨hstart, hpages⟩ := initialRange_eq L
  simp only [kernelHeapMaxSize, physMmapMaxSize] at *
  refine ⟨⟨?_, ?_, ?_, ?_⟩, ?_⟩
  · omega
  · omega
  · omega
  · rw [MemoryRange.endAddr]
    omega
  · omega

theorem initVirtMmap_inv (L : Layout) {vRanges : RangeBuffer} (heap : H) (h : 1 ≤ vRanges.slots) :
    VirtInv (initialRange L) (initVirtMmap L vRanges heap) := by
  have hranges : (initVirtMmap L vRanges heap).virtMmap.ranges = [initialRange L] := by
    simp [MemoryMap.ranges, MemoryMap.slots, initVirtMmap, setSlot]
  refine ⟨⟨?_, ?_, le_refl 1, show 1 < 2 ^ 31 by omega⟩, fun p hp => ?_, h⟩
  · rw [hranges]
    rintro r hr
    rw [List.mem_singleton.mp hr]
    exact (initialRange_wf L).1
  · rw [hranges]
    exact List.pairwise_singleton _ _
  · rw [MemoryMap.freePages, hranges] at hp
    simpa using hp

/-- Every state of a run satisfies the invariant. -/
theorem VirtRun.inv {L : Layout} (hspec : KreallocSpec krealloc) (h : VirtRun krealloc L s) :
    VirtInv (initialRange L) s := by
  obtain ⟨hR, hsmall⟩ := initialRange_wf L
  induction h with
  | init vRanges heap hslots => exact initVirtMmap_inv L heap hslots
  | alloc _ hn ih => exact allocVirtPages_inv hspec ih hn
  | free _ ha hret ih => exact (freeVirtPages_inv hspec hR hsmall ih ha hret).1
  | elsewhere heap _ ih => exact ih.setHeap heap

/-- **`virt_mmap` over runs.** The slots are always enough for the ranges in use, and
`free_virt_pages` does its work unless the buffer has no slot left and `krealloc` never fails. -/
theorem virtMmap_run_iff (L : Layout) (hspec : KreallocSpec krealloc) :
    (∀ s, VirtRun krealloc L s → s.virtMmap.maxRangeCount ≤ s.slots ∧
      s.virtMmap.rangeCount ≤ s.virtMmap.maxRangeCount) ∧
    ∀ s b n, VirtRun krealloc L s → Allocated (initialRange L) s b n →
      (Frees krealloc s b n ↔ (s.virtMmap.maxRangeCount = 0 → KreallocFails krealloc s)) := by
  obtain ⟨hR, hsmall⟩ := initialRange_wf L
  refine ⟨fun s hs => ⟨(hs.inv hspec).capacity, (hs.inv hspec).wf.count_le⟩, fun s b n hs ha => ?_⟩
  have hinv := hs.inv hspec
  by_cases hmax : s.virtMmap.maxRangeCount = 0
  · rw [frees_iff_of_empty hspec hR hsmall hinv ha hmax]
    simp [hmax]
  · exact iff_of_true (frees_of_pos hspec hR hsmall hinv ha (by omega)) fun h0 => absurd h0 hmax

/-! ### Two runs -/

/-- A `krealloc` that always finds a block of exactly the size asked for. -/
def exactKrealloc : Krealloc Unit := fun _ b size => (some ⟨size / sizeofMemoryRange, b.ranges⟩, ())

theorem exactKrealloc_spec : KreallocSpec exactKrealloc := by
  constructor
  · intro h b size b' hk
    obtain rfl := Option.some.inj hk
    exact le_refl _
  · intro h b size b' hk i _ _
    obtain rfl := Option.some.inj hk
    rfl

theorem exactKrealloc_retries (size k : Nat) (b : RangeBuffer) : retries exactKrealloc size k () b ≠ none := by
  induction k generalizing b with
  | zero => simp [retries]
  | succ k ih => exact ih _

/-- `virt_mmap` as `init_virt_mmap` leaves it, above the heap of the example. -/
def firstVirt : VirtState Unit := initVirtMmap exampleLayout ⟨1, fun _ => ⟨0, 0⟩⟩ ()

theorem firstVirt_run : VirtRun exactKrealloc exampleLayout firstVirt := VirtRun.init _ () (le_refl 1)

/-- One page is taken and given back. -/
theorem virtMmap_run_iff_onePage :
    Frees exactKrealloc (allocVirtPages exactKrealloc firstVirt 1).2 0xFFFFFF4001001000 1 := by
  have hrun := firstVirt_run.alloc (le_refl 1)
  have hranges : (allocVirtPages exactKrealloc firstVirt 1).2.virtMmap.ranges =
      [⟨0xFFFFFF4001002000, 67104766⟩] := by decide
  refine ((virtMmap_run_iff exampleLayout exactKrealloc_spec).2 _ _ _ hrun ⟨le_refl 1, ?_⟩).mpr fun h0 => ?_
  · intro p hp
    obtain ⟨i, hi, rfl⟩ := MemoryRange.mem_pageList.mp hp
    obtain rfl : i = 0 := by simpa using hi
    refine ⟨MemoryRange.mem_pageList.mpr ⟨0, by decide, by decide⟩, fun hfree => ?_⟩
    rw [MemoryMap.freePages, hranges, List.flatMap_singleton] at hfree
    have := (MemoryRange.mem_pageList_bounds hfree).1
    simp only at this
    omega
  · exact absurd h0 (by decide)

/-- All pages are taken, and `krealloc` gives the buffer up; then giving back the first page does
not end. -/
theorem freeVirtPages_endless : KreallocSpec exactKrealloc ∧
    VirtRun exactKrealloc exampleLayout (allocVirtPages exactKrealloc firstVirt 67104767).2 ∧
    Allocated (initialRange exampleLayout) (allocVirtPages exactKrealloc firstVirt 67104767).2 0xFFFFFF4001001000 1 ∧
    ∀ fuel, freeVirtPages exactKrealloc 0xFFFFFF4001001000 1 fuel
      (allocVirtPages exactKrealloc firstVirt 67104767).2 = none := by
  have hrun : VirtRun exactKrealloc exampleLayout (allocVirtPages exactKrealloc firstVirt 67104767).2 :=
    firstVirt_run.alloc (by decide)
  have hranges : (allocVirtPages exactKrealloc firstVirt 67104767).2.virtMmap.ranges = [] := by decide
  have ha : Allocated (initialRange exampleLayout) (allocVirtPages exactKrealloc firstVirt 67104767).2
      0xFFFFFF4001001000 1 := by
    refine ⟨le_refl 1, fun p hp => ?_⟩
    obtain ⟨i, hi, rfl⟩ := MemoryRange.mem_pageList.mp hp
    obtain rfl : i = 0 := by simpa using hi
    refine ⟨MemoryRange.mem_pageList.mpr ⟨0, by decide, by decide⟩, ?_⟩
    rw [MemoryMap.freePages, hranges]
    exact List.not_mem_nil
  refine ⟨exactKrealloc_spec, hrun, ha, fun fuel => ?_⟩
  obtain ⟨hR, hsmall⟩ := initialRange_wf exampleLayout
  have hinv := hrun.inv exactKrealloc_spec
  have hmax : (allocVirtPages exactKrealloc firstVirt 67104767).2.virtMmap.maxRangeCount = 0 := by decide
  by_contra hret
  obtain ⟨⟨r, t⟩, hret⟩ := Option.ne_none_iff_exists'.mp hret
  have hr := freeVirtPages_empty exactKrealloc_spec hR hsmall hinv ha hmax hret
  obtain ⟨-, k, hk⟩ := (freeVirtPages_inv exactKrealloc_spec hR hsmall hinv ha hret).2.2 hr
  exact exactKrealloc_retries _ k _ hk

end KoalemOS.Heap
