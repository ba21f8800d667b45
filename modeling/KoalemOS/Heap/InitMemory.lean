import KoalemOS.Heap.Clients
import KoalemOS.Heap.InitMmapTables
import KoalemOS.Heap.PhysMmap
import KoalemOS.Heap.VirtMmap

/-!
# From the memory map of the firmware to the heap (`src/kernel/memory.c`)

`init_memory_management` calls `init_mmap`, `init_heap` and `init_virt_mmap`: the frames of the memory map go
into `phys_mmap`, the first page of the heap becomes one block, and the first block that is taken holds the
range of `virt_mmap`. The kernel's own pages lie in slot 510 of the page tables, and nothing that `init_mmap`
unmaps does.

- `KernelPages`: what the loader has to have mapped
- `FramesTaken.firstPage`, `FramesTaken.physInv`: what `init_mmap` leaves of it
- `initMemoryManagement_ready`: the call returns, and all parts of the memory management are ready
- `BootedRun`: the runs that may follow, whose live blocks stay apart
-/

namespace KoalemOS.Heap

open KoalemOS.Library KoalemOS.Mmap KoalemOS.Paging KoalemOS.Smp

/-! ## The code -/

/-- `virt_mmap = (memory_map){.memory_ranges=v_ranges, .range_count=1, .max_range_count=1}` -/
def setVirtMmap (L : Layout) (vRanges : Nat) (s : Kernel) : Kernel :=
  { s with virtMmap := (initVirtMmap L ⟨1, s.virtMmap.memoryRanges⟩ s.mem).virtMmap, virtRanges := vRanges }

/-- `init_virt_mmap`, with its call of `kmalloc`. -/
def initVirtMmapRanges (L : Layout) : KernelM Unit := do
  let vRanges ← kmalloc sizeofMemoryRange
  writeWord vRanges (initialRange L).baseAddr
  writeWord (wrap (vRanges + 8)) (initialRange L).pages
  Outcome.modify (setVirtMmap L vRanges)

/-- `init_memory_management`, where `size` is `ap_boot_image_size`. -/
def initMemoryManagement (L : Layout) (size : Nat) (data : EfiMmapData) (fuel : Nat) : KernelM Unit := do
  initMmap size data fuel
  initHeap L
  initVirtMmapRanges L

/-! ## The pages of the kernel -/

/-- An address of the kernel, from the buffer of `phys_mmap` to the window slot. -/
structure Layout.Above (L : Layout) (v : Nat) : Prop where
  lower : L.physMmapRangeBuf ≤ v
  upper : v < 0xFFFFFF8000000000

/-- What the loader leaves: the first page of the heap and that of the buffer are mapped, each page of the
kernel has a frame of its own, and this is neither a page table nor a frame that the memory map calls usable. -/
structure KernelPages (L : Layout) (ds : List EfiMemoryDescriptor) (s : Kernel) : Prop where
  heapEnd : s.kernelHeapEnd = L.kernelHeapStart + 0x1000
  slots : s.physMmap.maxRangeCount = 256
  noLarge : ∀ v, L.Above v → NoLargePage s.mem s.cr3 v
  heap : ∃ n, MappedTo s L.kernelHeapStart n
  buffer : ∃ n, MappedTo s L.physMmapRangeBuf n
  own : ∀ v w n, L.Above v → L.Above w → MappedTo s v n → MappedTo s w n → v / 4096 = w / 4096
  frame : ∀ v n, L.Above v → MappedTo s v n → (n ≠ 0 ∧ n < 2 ^ 36) ∧ ¬IsTable s.mem s.cr3 n ∧
    ∀ d ∈ ds, d.type.usable = true → 4096 * n ∉ (descRange d).pageList

/-- The usable frames are none of the page tables, and what is unmapped are no pages of the kernel. -/
structure MapApart (size : Nat) (data : EfiMmapData) (ds : List EfiMemoryDescriptor) (s : Kernel) : Prop where
  frames : ∀ a ∈ framesUpTo size ds ds.length, FrameAddr a ∧ ¬IsTable s.mem s.cr3 (a / 4096)
  low : ∀ v ∈ pagesUpTo size data ds ds.length ++ arrayPages data (arrayPageCount data), index v 39 ≠ 510

section Addresses

variable {L : Layout} {m : Mem} {cr3 v w n : Nat}

theorem Layout.Above.slot (h : L.Above v) : index v 39 = 510 ∧ canonical v = true := slot_of_lt h.lower h.upper

theorem MappedTo.of_same_page {s : Kernel} (h : MappedTo s v n) (hw : w / 4096 = v / 4096) : MappedTo s w n := by
  obtain ⟨pte, hwalk, hframe⟩ := h
  refine ⟨pte, ?_, hframe⟩
  rw [walk, canonical_of_same_page hw, indices_of_same_page hw]
  exact hwalk

theorem Layout.above_heapStart (L : Layout) : L.Above L.kernelHeapStart := by
  have hupper := L.upper
  simp only [kernelHeapMaxSize] at hupper
  exact ⟨buf_le_start L, by omega⟩

/-- A walk that meets a large page ends there. -/
theorem noLargePage_of_walk (hroot : tableAt m cr3 [index v 39] = some n) (hc : canonical v = true)
    (hleaf : ∀ leaf, walk m cr3 v = some leaf → leaf.2 = 12) : NoLargePage m cr3 v := by
  intro p i hu e he hpres
  by_contra hlarge
  have hsize : pageSize e = true := by simpa using hlarge
  obtain ⟨k, hk, rfl⟩ := table_of_entries he
  -- a large leaf on the path would be where the walk ends
  have hends : ∀ shift, shift ≠ 12 → ¬LeafSlot v shift p i := fun shift hs hslot =>
    hs (hleaf _ (walk_of_leafSlot hc hslot hk hpres (.inr hsize)))
  cases hu with
  | pml4 =>
    rw [show ([index v 39] : List (Fin 512)) = [] ++ [index v 39] from rfl, tableAt_concat, hk,
      Option.bind_some] at hroot
    obtain ⟨-, hsmall, -⟩ := link_eq_some.mp hroot
    rw [hsize] at hsmall
    cases hsmall
  | pdpt => exact hends 30 (by decide) .size1G
  | pd => exact hends 21 (by decide) .size2M

/-- A walk that meets no large page ends at a small one. -/
theorem small_of_noLargePage (h : NoLargePage m cr3 v) {leaf : Nat × Nat} (hleaf : walk m cr3 v = some leaf) :
    leaf.2 = 12 := by
  obtain ⟨e, shift⟩ := leaf
  obtain ⟨-, p, i, n, hslot, hn, rfl, hpres, hsize⟩ := leafSlot_of_walk hleaf
  have hentry := entries_of_tableAt hn i
  cases hslot with
  | small => rfl
  | size2M => simp [h _ _ .pd _ hentry hpres] at hsize
  | size1G => simp [h _ _ .pdpt _ hentry hpres] at hsize

end Addresses

/-! ## What `init_mmap` leaves -/

section Left

variable {L : Layout} {size k : Nat} {data : EfiMmapData} {ds : List EfiMemoryDescriptor} {d l : EfiMemoryDescriptor}
  {s t : Kernel} {a v n : Nat} {F vs : List Nat}

theorem leftOf_pages (h : DescWf d) {unset : Bool} (hl : leftOf size unset d = some l)
    (ha : a ∈ (descRange l).pageList) :
    a ∈ (descRange d).pageList := by
  unfold leftOf at hl
  split_ifs at hl with hfits hexact
  · have hle : (0x1000 * d.numberOfPages).toNat ≤ 0x1000 * d.numberOfPages.toNat := by
      rw [UInt64.toNat_mul]
      exact Nat.mod_le _ _
    have hpages := apBootPages_le (hfits.2.2.trans hle)
    have hn : apBootPages size < d.numberOfPages.toNat := by omega
    have hmem := ((skipFrameZero_pages (h.without hn)).2 a).mp ⟨l, hl, ha⟩
    exact ((mem_pages_without h hn a).mp hmem.1).1
  · exact (((skipFrameZero_pages h).2 a).mp ⟨l, hl, ha⟩).1

/-- The frames that are given are frames of usable descriptors. -/
theorem mem_framesUpTo (hwf : MapWf ds) (ha : a ∈ framesUpTo size ds k) :
    ∃ d ∈ ds, d.type.usable = true ∧ a ∈ (descRange d).pageList := by
  obtain ⟨i, -, ha⟩ := List.mem_flatMap.mp ha
  cases hd : ds[i]? with
  | none => simp [hd] at ha
  | some d =>
    have hmem := List.mem_of_getElem? hd
    rw [hd, Option.elim_some, framesOf] at ha
    split_ifs at ha with husable
    · cases hl : leftOf size (unsetAt size ds i) d with
      | none => simp [hl] at ha
      | some l =>
        rw [hl] at ha
        exact ⟨d, hmem, husable, leftOf_pages (hwf.wf d hmem) hl ha⟩
    · cases ha

/-- The pages of the kernel are where they were. -/
theorem FramesTaken.walk_above (h : FramesTaken s F vs t) (hlow : ∀ v ∈ vs, index v 39 ≠ 510) (hv : L.Above v) :
    walk t.mem t.cr3 v = walk s.mem s.cr3 v := by
  apply h.walks.slots
  · simp [hv.slot.1]
  · intro x hx
    rw [hv.slot.1]
    exact (hlow x hx).symm

theorem FramesTaken.mappedTo (h : FramesTaken s F vs t) (hlow : ∀ v ∈ vs, index v 39 ≠ 510) (hv : L.Above v) :
    MappedTo t v n ↔ MappedTo s v n := by
  simp only [MappedTo, h.walk_above hlow hv]

theorem FramesTaken.noLarge (h : FramesTaken s F vs t) (hlow : ∀ v ∈ vs, index v 39 ≠ 510)
    (hkernel : KernelPages L ds s) (hv : L.Above v) : NoLargePage t.mem t.cr3 v := by
  -- the table behind entry 510 is there, for the heap has a page
  obtain ⟨n, hheap⟩ := hkernel.heap
  have hstart := L.above_heapStart
  obtain ⟨pte, hwalk, -⟩ := (h.mappedTo hlow hstart).mpr hheap
  obtain ⟨k, hk, -⟩ := ptAt_of_walk hwalk
  obtain ⟨j, hj⟩ := tableAt_of_isPrefix (q := [index L.kernelHeapStart 39]) hk ⟨_, rfl⟩
  rw [hstart.slot.1, ← hv.slot.1] at hj
  refine noLargePage_of_walk hj hv.slot.2 fun leaf hleaf => ?_
  rw [h.walk_above hlow hv] at hleaf
  exact small_of_noLargePage (hkernel.noLarge v hv) hleaf

/-- The frames left are free. -/
theorem FramesTaken.freeFrames (h : FramesTaken s F vs t) (hF : F.Nodup) (hgood : ∀ a ∈ F, GoodFrame s.mem s.cr3 a) :
    FreeFrames t := by
  have hsupply := h.supply (P := fun _ => True) (j := t.physMmap.freePages.length) hF fun a ha =>
    ⟨hgood a (List.mem_of_mem_take ha), trivial⟩
  refine ⟨hsupply.wf, fun a ha => (hsupply.good a ?_).1⟩
  rwa [List.take_length]

/-- A frame of the kernel is in no other use. -/
theorem FramesTaken.kernelFrame (h : FramesTaken s (framesUpTo size ds k) vs t) (hlow : ∀ v ∈ vs, index v 39 ≠ 510)
    (hkernel : KernelPages L ds s) (hwf : MapWf ds) (halign : ∀ a ∈ framesUpTo size ds k, a % 4096 = 0) (hv : L.Above v)
    (hn : MappedTo t v n) : (n ≠ 0 ∧ n < 2 ^ 36) ∧ ¬IsTable t.mem t.cr3 n ∧ 4096 * n ∉ t.physMmap.freePages := by
  obtain ⟨hbounds, hnot, husable⟩ := hkernel.frame v n hv ((h.mappedTo hlow hv).mp hn)
  have hgiven : 4096 * n ∉ framesUpTo size ds k := by
    intro hc
    obtain ⟨d, hd, hu, ha⟩ := mem_framesUpTo hwf hc
    exact husable d hd hu ha
  refine ⟨hbounds, fun htable => ?_, fun hfree => hgiven ?_⟩
  · rcases h.reach n htable with htable | hout
    · exact hnot htable
    · obtain ⟨a, ha, rfl⟩ := List.mem_map.mp hout
      have hmem : a ∈ framesUpTo size ds k := h.order ▸ List.mem_append_left _ ha
      have halign := halign a hmem
      apply hgiven
      rwa [show 4096 * (a / 4096) = a by omega]
  · exact h.order ▸ List.mem_append_right _ hfree

variable (h : FramesTaken s (framesUpTo size ds ds.length)
    (pagesUpTo size data ds ds.length ++ arrayPages data (arrayPageCount data)) t)
  (hranges : RangesWithin s k t) (hkernel : KernelPages L ds s) (hwf : MapWf ds) (hapart : MapApart size data ds s)
  (hnodup : (framesUpTo size ds ds.length).Nodup)

include h hranges hkernel hwf hapart hnodup

/-- The first page of the heap is there. -/
theorem FramesTaken.firstPage : FirstPage L t := by
  have hlow := hapart.low
  have hstart := L.above_heapStart
  have haligned := L.heap_aligned
  have hupper := L.upper
  simp only [kernelHeapMaxSize] at hupper
  obtain ⟨n, hn⟩ := hkernel.heap
  have hheap : MappedTo t L.kernelHeapStart n := (h.mappedTo hlow hstart).mpr hn
  obtain ⟨hbounds, hnot, hfree⟩ :=
    h.kernelFrame hlow hkernel hwf (fun a ha => (hapart.frames a ha).1.aligned) hstart hheap
  have hpage : ∀ v, L.Within (L.kernelHeapStart + 0x1000) v → v / 4096 = L.kernelHeapStart / 4096 := by
    rintro v ⟨hlo, hhi⟩
    omega
  refine ⟨⟨fun _ => n, fun v => t.mem (4096 * n + v % 4096), ⟨h.pageTables, fun v hv => hheap.of_same_page (hpage v hv),
    fun v w hv hw _ => (hpage v hv).trans (hpage w hw).symm, fun _ _ => hnot, fun _ _ => rfl,
    fun v h₁ h₂ => h.noLarge hlow hkernel ⟨h₁, h₂⟩, by omega, by omega, by omega⟩,
    ⟨h.freeFrames hnodup fun a ha => ⟨(hapart.frames a ha).1, framesUpTo_ne_zero hwf ha, (hapart.frames a ha).2⟩,
      fun _ _ => hfree, fun _ _ => hbounds, ?_, ?_⟩⟩, ?_⟩
  · rw [hranges.max, hkernel.slots]
  · rw [hranges.max, hkernel.slots]
    decide
  · rw [hranges.heapEnd, hkernel.heapEnd]

/-- The buffer of `phys_mmap` is there, and the heap holds its frame. -/
theorem FramesTaken.physInv : PhysInv L (MappedTo t L.kernelHeapStart) t := by
  have hlow := hapart.low
  have hstart := L.above_heapStart
  have hbufs := L.buf_below
  have haligned := L.buf_aligned
  have hmax : t.physMmap.maxRangeCount = 256 := hranges.max.trans hkernel.slots
  have hframe := fun v n hv hn => h.kernelFrame (v := v) (n := n) hlow hkernel hwf
    (fun a ha => (hapart.frames a ha).1.aligned) hv hn
  have hown : ∀ v w n, L.Above v → L.Above w → MappedTo t v n → MappedTo t w n → v / 4096 = w / 4096 :=
    fun v w n hv hw hvn hwn => hkernel.own v w n hv hw ((h.mappedTo hlow hv).mp hvn) ((h.mappedTo hlow hw).mp hwn)
  have harea : ∀ v, L.InArea v → L.Above v ∧ v / 4096 ≠ L.kernelHeapStart / 4096 := by
    rintro v ⟨hlo, hhi⟩
    have hheap := L.heap_aligned
    exact ⟨⟨hlo, by have := hstart.upper; omega⟩, by omega⟩
  have hbuffer : ∀ v, InBuffer L t v → v / 4096 = L.physMmapRangeBuf / 4096 := by
    rintro v ⟨hlo, hhi⟩
    rw [hmax] at hhi
    omega
  have hin : ∀ v, InBuffer L t v → L.InArea v := by
    rintro v ⟨hlo, hhi⟩
    rw [hmax] at hhi
    exact ⟨hlo, hhi.trans (Nat.add_lt_add_left (by decide) _)⟩
  have habove : L.Above L.physMmapRangeBuf := ⟨le_rfl, by have := hstart.upper; omega⟩
  refine ⟨⟨fun v hv => ?_, fun v w n hv hw _ _ => (hbuffer v hv).trans (hbuffer w hw).symm, fun v n hv hn => ?_⟩,
    h.pageTables,
    h.freeFrames hnodup fun a ha => ⟨(hapart.frames a ha).1, framesUpTo_ne_zero hwf ha, (hapart.frames a ha).2⟩,
    ?_, ?_, ?_, fun v hv => h.noLarge hlow hkernel (harea v hv).1, fun v n hv _ hn => ⟨fun hheld => ?_, ?_⟩,
    fun n hn => ?_⟩
  · obtain ⟨n, hn⟩ := hkernel.buffer
    exact ⟨n, ((h.mappedTo hlow habove).mpr hn).of_same_page (hbuffer v hv)⟩
  · obtain ⟨hv', hne⟩ := harea v (hin v hv)
    obtain ⟨-, hnot, hfree⟩ := hframe v n hv' hn
    exact ⟨hnot, hfree, fun hheld => hne (hown v _ n hv' hstart hn hheld)⟩
  · rw [hmax]
  · rw [hmax]
  · rw [hmax]
    decide
  · exact (harea v hv).2 (hown v _ n (harea v hv).1 hstart hn hheld)
  · exact (hframe v n (harea v hv).1 hn).2.2
  · obtain ⟨hbounds, hnot, hfree⟩ := hframe _ n hstart hn
    exact ⟨hbounds.1, hbounds.2, hnot, hfree⟩

end Left

/-! ## The first block -/

/-- The blocks after `init_virt_mmap`: one for the array of one range, and the rest of the first page. -/
def readyBlocks (L : Layout) : List Block := [⟨L.kernelHeapStart, 16, true⟩, ⟨L.kernelHeapStart + 48, 4016, false⟩]

section FirstBlock

variable {L : Layout} {F : Nat → Nat} {V : Mem} {s t : Kernel} {b : Block} {bs : List Block}

/-- A word that is stored in a block. -/
theorem HeapState.storeWord (h : HeapState L F V bs s) (hb : b ∈ bs) {v : Nat} (hlo : b.memory ≤ v)
    (hhi : v + 8 ≤ b.memory + b.size) (ha : v % 8 = 0) (x : Nat) :
    ∃ s', (writeWord v x).Returns s () s' ∧ HeapState L F (V.store64 v x) bs s' ∧ DataStep s s' := by
  have howns : ∀ w, v ≤ w → w < v + 8 → b.Owns w := fun w h₁ h₂ =>
    ⟨by omega, by simp only [Block.stop, Block.memory] at *; omega⟩
  have hfirst := h.within hb (howns v le_rfl (by omega))
  have hlast := h.within hb (howns (v + 7) (by omega) (by omega))
  obtain ⟨s', hret, hpages, hstep, hlast'⟩ := h.pages.writeWord ⟨hfirst.lower, by have := hlast.upper; omega, ha⟩ x
  refine ⟨s', hret, h.write hb hpages hstep hlast' fun w hw => Mem.storeLE_outside ?_, hstep⟩
  by_contra hc
  exact hw (howns w (by omega) (by omega))

/-- A word of a block is read. -/
theorem HeapState.readWord (h : HeapState L F V bs s) (hb : b ∈ bs) {v : Nat} (hlo : b.memory ≤ v)
    (hhi : v + 8 ≤ b.memory + b.size) (ha : v % 8 = 0) : (readWord v).Returns s (V.load64 v) s := by
  have howns : ∀ w, v ≤ w → w < v + 8 → b.Owns w := fun w h₁ h₂ =>
    ⟨by omega, by simp only [Block.stop, Block.memory] at *; omega⟩
  have hfirst := h.within hb (howns v le_rfl (by omega))
  have hlast := h.within hb (howns (v + 7) (by omega) (by omega))
  exact h.pages.readWord ⟨hfirst.lower, by have := hlast.upper; omega, ha⟩

/-- `virt_mmap` is no part of the heap. -/
theorem HeapState.setVirtMmap (h : HeapState L F V bs s) (vRanges : Nat) :
    HeapState L F V bs (setVirtMmap L vRanges s) := by
  obtain ⟨⟨htables, hmapped, hinj, hnot, hbytes, hnoLarge, halign, hstart, hend⟩,
    ⟨⟨hwf, hgood⟩, hfree, hframe, hbuffer, hsize⟩, hlinks, hfirst, hlast, harena, haligned, hne, hlimit, htail⟩ := h
  exact ⟨⟨htables, hmapped, hinj, hnot, hbytes, hnoLarge, halign, hstart, hend⟩,
    ⟨⟨hwf, hgood⟩, hfree, hframe, hbuffer, hsize⟩, hlinks, hfirst, hlast, harena, haligned, hne, hlimit, htail⟩

/-- `init_virt_mmap` on the heap of `init_heap`: its range lies in the first block. -/
theorem initVirtMmapRanges_returns (h : LaidOut L [firstBlock L] s) :
    ∃ u t, (initVirtMmapRanges L).Returns s () t ∧ t = setVirtMmap L (L.kernelHeapStart + 32) u ∧ DataStep s u ∧
      LaidOut L (readyBlocks L) t ∧ (readWord (L.kernelHeapStart + 32)).Returns t (initialRange L).baseAddr t ∧
      (readWord (L.kernelHeapStart + 40)).Returns t (initialRange L).pages t := by
  obtain ⟨htiles, F, V, hstate⟩ := h
  have haligned := L.heap_aligned
  have hupper := L.upper
  obtain ⟨hbase, hpages⟩ := initialRange_eq L
  simp only [kernelHeapMaxSize] at hupper hbase hpages
  have hend : s.kernelHeapEnd = L.kernelHeapStart + 4096 := htiles.2.symm
  -- the block is cut
  have hstate₀ : HeapState L F V ([] ++ firstBlock L :: []) s := hstate
  have hwp := hstate₀.kmalloc_first (E := fun _ => False) sizeofMemoryRange (by decide)
    ⟨rfl, show 16 ≤ 4064 by decide⟩ (by simp)
  obtain ⟨p, s₁, hcall, rfl, V₁, hstate₁, hstep₁, -⟩ := Outcome.returns_of_wp hwp fun _ _ _ hf => hf
  have hcut : [] ++ (Block.cut ⟨(firstBlock L).addr, (firstBlock L).size, true⟩ (unitUp sizeofMemoryRange) ++ []) =
      readyBlocks L := rfl
  rw [hcut] at hstate₁
  generalize hb : (⟨L.kernelHeapStart, 16, true⟩ : Block) = b at *
  have hmem : b ∈ readyBlocks L := by simp [readyBlocks, hb]
  have hbounds : b.memory = L.kernelHeapStart + 32 ∧ b.size = 16 := by simp [← hb, Block.memory]
  -- the range is stored
  obtain ⟨s₂, hret₂, hstate₂, hstep₂⟩ := hstate₁.storeWord hmem (v := L.kernelHeapStart + 32) (by omega) (by omega)
    (by omega) (initialRange L).baseAddr
  obtain ⟨u, hret₃, hstate₃, hstep₃⟩ := hstate₂.storeWord hmem (v := L.kernelHeapStart + 40) (by omega) (by omega)
    (by omega) (initialRange L).pages
  have hstep := (hstep₁.trans hstep₂).trans hstep₃
  have hend' : u.kernelHeapEnd = L.kernelHeapStart + 4096 := by rw [hstep.same, hend]
  -- the map is no part of the heap
  have hstate := hstate₃.setVirtMmap (L.kernelHeapStart + 32)
  refine ⟨u, _, ?_, rfl, hstep, ⟨?_, F, _, hstate⟩, ?_, ?_⟩
  · refine hcall.bind (hret₂.bind ?_)
    have hnext : wrap ((firstBlock L).memory + 8) = L.kernelHeapStart + 40 :=
      wrap_of_lt (show L.kernelHeapStart + 32 + 8 < 2 ^ 64 by omega)
    rw [hnext]
    exact hret₃.bind (Outcome.returns_modify _ u)
  · rw [show (setVirtMmap L (L.kernelHeapStart + 32) u).kernelHeapEnd = _ from hend']
    simp [readyBlocks, Tiles]
  · have hread := hstate.readWord hmem (v := L.kernelHeapStart + 32) (by omega) (by omega) (by omega)
    rwa [Mem.load64_store64_disjoint (by omega), Mem.load64_store64_same _ _ (by omega)] at hread
  · have hread := hstate.readWord hmem (v := L.kernelHeapStart + 40) (by omega) (by omega) (by omega)
    rwa [Mem.load64_store64_same _ _ (by omega)] at hread

end FirstBlock

/-! ## The whole call -/

/-- The memory management after `init_memory_management`. The one range of `virt_mmap` is the one that is kept in
its array. -/
structure MemoryReady (L : Layout) (t : Kernel) : Prop where
  heap : LaidOut L (readyBlocks L) t
  array : t.virtRanges = L.kernelHeapStart + 32
  virt : ∃ ranges, t.virtMmap = (initVirtMmap L ⟨1, ranges⟩ t.mem).virtMmap
  range : (readWord t.virtRanges).Returns t (initialRange L).baseAddr t
  pages : (readWord (t.virtRanges + 8)).Returns t (initialRange L).pages t
  phys : PhysRun L t (MappedTo t L.kernelHeapStart)

/-- The array of `virt_mmap` as a live block, with the bytes it holds. -/
def rangeArray (t : Kernel) : LiveBlock := ⟨t.virtRanges, sizeofMemoryRange, fun i => byteAt t (t.virtRanges + i)⟩

/-- The runs of clean calls after `init_memory_management`. -/
inductive BootedRun (L : Layout) (t : Kernel) : List LiveBlock → Kernel → Prop where
  | ready : BootedRun L t [rangeArray t] t
  | call {lives lives' : List LiveBlock} {u u' : Kernel} : BootedRun L t lives u → (op : HeapOp) →
      CallsCleanly u op → LiveCall L u lives op lives' u' → BootedRun L t lives' u'

section Whole

variable {L : Layout} {size fuel : Nat} {data : EfiMmapData} {ds : List EfiMemoryDescriptor} {s t u : Kernel}
  {lives : List LiveBlock}

/-- `init_heap` and `init_virt_mmap` on what `init_mmap` leaves. -/
theorem initHeap_ready (hpage : FirstPage L t) (hphys : PhysInv L (MappedTo t L.kernelHeapStart) t)
    (hmax : t.physMmap.maxRangeCount = 256) :
    ∃ u, (do initHeap L; initVirtMmapRanges L).Returns t () u ∧
      MemoryReady L u ∧ u.physMmap = t.physMmap ∧ u.allocLog = t.allocLog := by
  obtain ⟨t₁, hret₁, hlaid₁, hstep₁⟩ := initHeap_returns hpage
  obtain ⟨u, w, hret₂, rfl, hstep₂, hlaid₂, hrange, hpages⟩ := initVirtMmapRanges_returns hlaid₁
  have hstart := L.above_heapStart.slot
  have hslot : index L.kernelHeapStart 39 ≠ 511 := by simp [hstart.1]
  -- `first_heap_entry` is no part of the page tables
  have helse : Elsewhere L t t₁ := by
    have h := Elsewhere.of_dataStep hphys hstep₁
    exact ⟨h.tables, ⟨h.free.wf, h.free.good⟩, h.maxRangeCount, h.walk, h.noLarge, h.pages, h.notTable⟩
  have hphys₁ := hphys.elsewhere helse
  have helse₂ : Elsewhere L t₁ (setVirtMmap L (L.kernelHeapStart + 32) u) := by
    have h := Elsewhere.of_dataStep hphys₁ hstep₂
    exact ⟨h.tables, ⟨h.free.wf, h.free.good⟩, h.maxRangeCount, h.walk, h.noLarge, h.pages, h.notTable⟩
  have hphys₂ := hphys₁.elsewhere helse₂
  have hwalk : walk u.mem u.cr3 L.kernelHeapStart = walk t.mem t.cr3 L.kernelHeapStart :=
    (hstep₂.walk hslot).trans (hstep₁.walk hslot)
  have hmap : u.physMmap = t.physMmap := hstep₂.physMmap.trans hstep₁.physMmap
  have hlog : u.allocLog = t.allocLog := by
    have hlog₁ := congrArg Kernel.allocLog hstep₁.same
    rw [hstep₂.same]
    exact hlog₁
  refine ⟨_, hret₁.bind hret₂,
    ⟨hlaid₂, rfl, ⟨_, rfl⟩, hrange, hpages, .boot ?_ (hphys₂.release fun n hn => ?_)⟩, hmap, hlog⟩
  · rw [show (setVirtMmap L (L.kernelHeapStart + 32) u).physMmap = t.physMmap from hmap, hmax]
  · exact hn.congr hwalk.symm

/-- A run of clean calls serves the live blocks. -/
theorem BootedRun.servesAll (hready : MemoryReady L t) (h : BootedRun L t lives u) :
    ∃ bs, ServesAll L bs lives u := by
  induction h with
  | ready =>
    obtain ⟨⟨-, hheap⟩, harray, -⟩ := hready
    refine ⟨readyBlocks L, hheap, fun l hl => ?_, List.pairwise_singleton _ _⟩
    obtain rfl := List.mem_singleton.mp hl
    refine ⟨⟨L.kernelHeapStart, 16, true⟩, by simp [readyBlocks], rfl, harray.symm, le_rfl, fun i _ x hx => hx⟩
  | call _ op hok hcall ih =>
    obtain ⟨bs, hserves⟩ := ih
    exact hserves.call hok hcall

/-- **From the memory map to the heap.** With enough frames `init_memory_management` returns: the heap has one
block in use, the array of `virt_mmap`, and one free block; `virt_mmap` is the map that `alloc_virt_pages` starts
with, the buffer of `phys_mmap` is backed, and the frames have been handed out in the order of the memory map. The
live blocks are sound in every run that follows. -/
theorem initMemoryManagement_ready (hentry : AtEntry s) (hpt : PageTables s.mem s.cr3) (hmap : MapAt data ds s)
    (hwf : MapWf ds) (harray : ArrayMapped data s) (hspared : TablesSpared size data ds s)
    (henough : Enough size data ds s) (hkernel : KernelPages L ds s) (hapart : MapApart size data ds s)
    (hfuel : ds.length < fuel ∧ arrayPageCount data < fuel) :
    ∃ t, (initMemoryManagement L size data fuel).Returns s () t ∧ MemoryReady L t ∧
      handedOut t ++ t.physMmap.freePages = framesUpTo size ds ds.length ∧
      ∀ lives u, BootedRun L t lives u → Sound L lives u := by
  obtain ⟨t, hret, htaken, hranges, hnodup⟩ := initMmap_returns hentry hpt hmap hwf harray hspared henough hfuel
  have hpage := htaken.firstPage hranges hkernel hwf hapart hnodup
  have hphys := htaken.physInv hranges hkernel hwf hapart hnodup
  obtain ⟨u, hret', hready, hsame, hlog⟩ := initHeap_ready hpage hphys (hranges.max.trans hkernel.slots)
  refine ⟨u, hret.bind hret', hready, ?_, fun lives w hrun => ?_⟩
  · rw [handedOut, hlog, hsame]
    exact htaken.order
  · obtain ⟨bs, hserves⟩ := hrun.servesAll hready
    exact hserves.sound

end Whole

/-! ### A machine with two descriptors -/

/-- The pages of `l` are mapped, and nothing else. -/
structure PagesMapped (l : List (Nat × Nat)) (s : Kernel) : Prop where
  user : ∀ page ∈ l, UserPage page.1
  cr3 : s.cr3 = 0x1000
  tables : PageTables s.mem s.cr3
  free : FreeFrames s
  enough : 256 ≤ s.physMmap.freePages.length + 3 * l.length
  low : ∀ n < 256, n ≠ 1 → ¬IsTable s.mem s.cr3 n ∧ 4096 * n ∉ s.physMmap.freePages
  noLarge : ∀ w, index w 39 ≠ 511 → NoLargePage s.mem s.cr3 w
  mapped : ∀ page ∈ l, ∀ w, w / 4096 = page.1 / 4096 →
    walk s.mem s.cr3 w = some (page.2 ||| pagingFlagPresent ||| pagingFlagReadWrite, 12)
  others : ∀ w, index w 39 ≠ 511 → (∀ page ∈ l, w / 4096 ≠ page.1 / 4096) → walk s.mem s.cr3 w = none

theorem PagesMapped.nil : PagesMapped [] fullKernel where
  user := nofun
  cr3 := rfl
  tables := pageTables_windowOnly
  free := freeFrames_fullKernel
  enough := by
    have hcount : 256 ≤ fullMap.freePages.length := fullMap_wf.rangeCount_le
    have hmap : fullKernel.physMmap = fullMap := rfl
    rw [hmap]
    omega
  low n hlt hne := by
    refine ⟨fun ht => hne (isTable_windowOnly ht), fun hc => ?_⟩
    have hpage := (fullMap_page hc).1
    omega
  noLarge := noLargePage_windowOnly
  mapped := nofun
  others w hw _ := by
    by_contra hc
    obtain ⟨⟨e, shift⟩, hwalk⟩ := Option.ne_none_iff_exists'.mp hc
    obtain rfl : shift = 12 := small_of_noLargePage (noLargePage_windowOnly w hw) hwalk
    obtain ⟨k, hk, -⟩ := ptAt_of_walk hwalk
    have hnone := tableAt_windowOnly (UpperOf.pd.mem (S := (· ≠ 511)) hw).2
    rw [if_neg (by simp)] at hnone
    exact absurd (hk.symm.trans hnone) (by simp)

/-- One page more. -/
theorem PagesMapped.step {l : List (Nat × Nat)} {s : Kernel} {v p : Nat} (h : PagesMapped l s) (hv : UserPage v)
    (hp : FrameAddr p) (hnew : ∀ page ∈ l, v / 4096 ≠ page.1 / 4096) (hlen : l.length < 80) :
    PagesMapped (l ++ [(v, p)]) ((mapPage v p pagingFlagReadWrite).after s) := by
  have henough := h.enough
  have hmissing := missingTables_le s.mem s.cr3 v
  have hnonzero := takeFrames_nonzero h.free.wf
    (show missingTables s.mem s.cr3 v ≤ s.physMmap.freePages.length by omega)
  obtain ⟨s', hret, hmap, taken, hm⟩ := mapPage_returns (p := p) h.tables h.free hv (h.noLarge v hv.slot)
    (by have := hp.lt; omega) flagsOk_readWrite hnonzero
  rw [hret.after_eq]
  have hcount := (takeFrames_pages h.free.wf hnonzero).2.length_eq
  rw [List.length_append, takeFrames_length, ← hmap] at hcount
  refine ⟨fun page hpage => ?_, hm.cr3.trans h.cr3, hm.pageTables, hm.free, ?_, fun n hlt hne => ?_,
    fun w hw => hm.noLarge w hw (h.noLarge w hw), fun page hpage w hw => ?_, fun w hw hoff => ?_⟩
  · rcases List.mem_append.mp hpage with hpage | hpage
    · exact h.user page hpage
    · rwa [List.mem_singleton.mp hpage]
  · rw [List.length_append, List.length_singleton]
    omega
  · obtain ⟨hnot, hfree⟩ := h.low n hlt hne
    exact ⟨(hm.frame h.free hfree hnot).1, fun hc => hfree (hm.frames.symm.subset (List.mem_append_right _ hc))⟩
  · rcases List.mem_append.mp hpage with hpage | hpage
    · have hne : w / 4096 ≠ v / 4096 := by
        rw [hw]
        exact (hnew page hpage).symm
      have hold := h.mapped page hpage w hw
      have hslot : index w 39 ≠ 511 := by
        rw [index_of_same_page hw (by decide)]
        exact (h.user page hpage).slot
      rw [hm.others w hslot hne, hold]
    · obtain rfl := List.mem_singleton.mp hpage
      rw [hm.walk_self hv hw, if_pos (leaf_readWrite hp).1]
  · rw [hm.others w hw (hoff (v, p) (by simp)),
      h.others w hw fun page hpage => hoff page (List.mem_append_left _ hpage)]

/-- Pages that are mapped one after the other. -/
theorem exists_pagesMapped (l : List (Nat × Nat)) (h : ∀ page ∈ l, UserPage page.1 ∧ FrameAddr page.2)
    (hnew : l.Pairwise fun x y => x.1 / 4096 ≠ y.1 / 4096) (hlen : l.length ≤ 80) : ∃ s, PagesMapped l s := by
  induction l using List.reverseRecOn with
  | nil => exact ⟨_, PagesMapped.nil⟩
  | append_singleton l page ih =>
    obtain ⟨hold, -, hpair⟩ := List.pairwise_append.mp hnew
    rw [List.length_append, List.length_singleton] at hlen
    obtain ⟨s, hs⟩ := ih (fun x hx => h x (List.mem_append_left _ hx)) hold (by omega)
    obtain ⟨hv, hp⟩ := h page (by simp)
    exact ⟨_, hs.step hv hp (fun x hx => (hpair x hx page (by simp)).symm) (by omega)⟩

/-- The heap, the buffer, the array, and the pages of the second descriptor. -/
def machinePages : List (Nat × Nat) :=
  [(0xFFFFFF0001001000, 0x5000), (0xFFFFFF0000000000, 0x6000), (0x16000, 0x16000), (0x40000, 0x40000),
    (0x41000, 0x41000), (0x42000, 0x42000)]

/-- The types, addresses and numbers of pages. -/
def machineWords : List (Fin 512 × Nat) := [(16, 4), (17, 0x10000), (19, 6), (22, 7), (23, 0x40000), (25, 3)]

/-- Room for the boot image, and three pages. -/
def machineMap : List EfiMemoryDescriptor := [⟨.bootServicesData, 0x10000, 6⟩, ⟨.conventionalMemory, 0x40000, 3⟩]

/-- The kernel that the loader starts, with the array in frame 22. -/
def machine (s : Kernel) : Kernel :=
  { s with
    mem := storeWords s.mem machineWords
    physMmap := ⟨fun _ => ⟨0, 0⟩, 0, 256⟩
    kernelHeapEnd := 0xFFFFFF0001002000
    apBootPaddrUnset := true
    allocLog := [] }

/-- The pages that are unmapped. -/
theorem machine_unmaps :
    pagesUpTo 0x5022 (arrayOf 2) machineMap 2 ++ arrayPages (arrayOf 2) (arrayPageCount (arrayOf 2)) =
      [0x40000, 0x41000, 0x42000, 0x16000] := by
  decide

theorem machineWords_lt : ∀ w ∈ machineWords, w.2 < 2 ^ 64 := by
  decide

section Machine

variable {s : Kernel} (h : PagesMapped machinePages s)

include h

/-- The words of the array lie in no page table. -/
theorem machine_step : DataStep { machine s with mem := s.mem } (machine s) := by
  refine ⟨rfl, fun n ht => rows_storeWords s.mem machineWords_lt ?_⟩
  rintro rfl
  exact (h.low 22 (by decide) (by decide)).1 ht

theorem machine_walk {w : Nat} (hw : index w 39 ≠ 511) : walk (machine s).mem (machine s).cr3 w = walk s.mem s.cr3 w :=
  (machine_step h).walk hw

theorem machine_isTable {n : Nat} (hlt : n < 256) (hne : n ≠ 1) :
    ¬IsTable (machine s).mem (machine s).cr3 n := fun ht =>
  (h.low n hlt hne).1 (((machine_step h).isTable n).mp ht)

/-- All pages are small. -/
theorem machine_small (w : Nat) (hw : index w 39 ≠ 511) : largeShift (machine s).mem (machine s).cr3 w = none := by
  rw [largeShift, machine_walk h hw]
  cases hwalk : walk s.mem s.cr3 w with
  | none => rfl
  | some leaf => simp [small_of_noLargePage (h.noLarge w hw) hwalk]

theorem machine_word (i : Fin 512) {x : Nat}
    (hx : ∀ T : Tables Nat (Fin 512) Nat, machineWords.foldl (fun T w => T.set 22 w.1 w.2) T 22 i = x) :
    (readWord (4096 * 22 + 8 * i)).Returns (machine s) x (machine s) := by
  have hi := i.isLt
  have hslot : index (4096 * 22 + 8 * i) 39 ≠ 511 := by
    simp only [ne_eq, Fin.ext_iff, index, show ((511 : Fin 512) : Nat) = 511 from rfl]
    omega
  have hword : tables (machine s).mem 22 i = x := by
    show tables (storeWords s.mem machineWords) 22 i = x
    rw [tables_storeWords s.mem machineWords_lt]
    exact hx _
  rw [← hword]
  refine readEntry ?_
  rw [Paging.translate, machine_walk h hslot, h.mapped (0x16000, 0x16000) (by simp [machinePages]) _ (by omega),
    Option.map_some, leafAddr_small, (leaf_readWrite ⟨by decide, by decide⟩).2]
  refine congrArg some ?_
  omega

theorem machine_map : MapAt (arrayOf 2) machineMap (machine s) := by
  refine ⟨by decide, rfl, by decide, fun k d hd => ?_⟩
  match k with
  | 0 =>
    obtain rfl := Option.some.inj hd
    exact (machine_word h 16 fun _ => rfl).bind ((machine_word h 17 fun _ => rfl).bind
      ((machine_word h 19 fun _ => rfl).bind (Outcome.returns_pure _ _)))
  | 1 =>
    obtain rfl := Option.some.inj hd
    exact (machine_word h 22 fun _ => rfl).bind ((machine_word h 23 fun _ => rfl).bind
      ((machine_word h 25 fun _ => rfl).bind (Outcome.returns_pure _ _)))
  | k + 2 => cases hd

theorem machine_spared : ArrayMapped (arrayOf 2) (machine s) ∧ TablesSpared 0x5022 (arrayOf 2) machineMap (machine s) ∧
    Enough 0x5022 (arrayOf 2) machineMap (machine s) := by
  have hpages : ∀ v ∈ [0x40000, 0x41000, 0x42000, 0x16000],
      UserPage v ∧ walk (machine s).mem (machine s).cr3 v ≠ none := by
    intro v hv
    have huser : UserPage v ∧ ∃ page ∈ machinePages, v / 4096 = page.1 / 4096 := by
      simp only [List.mem_cons, List.not_mem_nil, or_false] at hv
      rcases hv with rfl | rfl | rfl | rfl <;> refine ⟨⟨by decide, by decide, by decide⟩, ?_⟩ <;> simp [machinePages]
    obtain ⟨huser, page, hpage, hsame⟩ := huser
    refine ⟨huser, ?_⟩
    rw [machine_walk h huser.slot, h.mapped page hpage v hsame]
    simp
  -- small pages cost no tables
  have hfree : ∀ vs, vs <+: [0x40000, 0x41000, 0x42000, 0x16000] →
      tablesFor (largeShift (machine s).mem (machine s).cr3) vs = 0 := fun vs hvs =>
    tablesFor_eq_zero fun v hv => machine_small h v (hpages v (hvs.subset hv)).1.slot
  have hpre : ∀ k ≤ 2, pagesUpTo 0x5022 (arrayOf 2) machineMap k <+: [0x40000, 0x41000, 0x42000, 0x16000] := by
    intro k hk
    rw [← machine_unmaps]
    exact (pagesUpTo_isPrefix hk).trans (List.prefix_append _ _)
  have hall : tablesFor (largeShift (machine s).mem (machine s).cr3)
      (pagesUpTo 0x5022 (arrayOf 2) machineMap 2 ++ arrayPages (arrayOf 2) (arrayPageCount (arrayOf 2))) = 0 :=
    hfree _ (machine_unmaps ▸ List.prefix_rfl)
  refine ⟨⟨by decide, by decide, by decide, fun w hlo hhi => ?_⟩, ⟨fun v hv => ?_, fun a ha => ?_, fun k hk a ha => ?_⟩,
    ⟨show machineMap.countP (fun d => d.type.usable) ≤ 256 by decide, fun k hk => ?_, ?_, by decide⟩⟩
  · have hend : (arrayOf 2).efiMmapEnd = 0x160E0 := by decide
    rw [hend] at hhi
    simp only [arrayOf] at hlo
    have hslot : index w 39 ≠ 511 := by
      simp only [ne_eq, Fin.ext_iff, index, show ((511 : Fin 512) : Nat) = 511 from rfl]
      omega
    refine ⟨hslot, _, (machine_walk h hslot).trans (h.mapped (0x16000, 0x16000) (by simp [machinePages]) w (by omega)),
      .inl rfl, ?_⟩
    rw [leafAddr_small, (leaf_readWrite ⟨by decide, by decide⟩).2]
    rw [show (4096 * (0x16000 / 4096) + w % 4096) / 4096 = 22 by omega]
    exact machine_isTable h (by decide) (by decide)
  · exact hpages v (machine_unmaps ▸ hv)
  · rw [show machineMap.length = 2 from rfl, hall] at ha
    cases ha
  · rw [hfree _ (hpre (k + 1) hk)] at ha
    cases ha
  · rw [hfree _ (hpre (k + 1) hk)]
    exact Nat.zero_le _
  · rw [show machineMap.length = 2 from rfl, hall]
    exact Nat.zero_le _

/-- The pages of the kernel are the heap and the buffer. -/
theorem machine_above {v n : Nat} (hv : exampleLayout.Above v) (hn : MappedTo (machine s) v n) :
    v / 4096 = 0xFFFFFF0001001 ∧ n = 5 ∨ v / 4096 = 0xFFFFFF0000000 ∧ n = 6 := by
  obtain ⟨hlo, hhi⟩ := id hv
  simp only [exampleLayout] at hlo
  have hslot : index v 39 ≠ 511 := by simp [hv.slot.1]
  obtain ⟨pte, hwalk, rfl⟩ := hn
  rw [machine_walk h hslot] at hwalk
  -- a page that is mapped is one of the list
  obtain ⟨page, hpage, hsame⟩ : ∃ page ∈ machinePages, v / 4096 = page.1 / 4096 := by
    by_contra hc
    push Not at hc
    rw [h.others v hslot hc] at hwalk
    cases hwalk
  rw [h.mapped page hpage v hsame] at hwalk
  have hpte := congrArg Prod.fst (Option.some.inj hwalk)
  simp only [machinePages, List.mem_cons, List.not_mem_nil, or_false] at hpage
  rcases hpage with rfl | rfl | rfl | rfl | rfl | rfl <;> simp only at hsame hpte
  · exact .inl ⟨by omega, by rw [← hpte]; decide⟩
  · exact .inr ⟨by omega, by rw [← hpte]; decide⟩
  all_goals omega

theorem machine_kernelPages : KernelPages exampleLayout machineMap (machine s) := by
  have hmapped : ∀ page ∈ machinePages, FrameAddr page.2 → MappedTo (machine s) page.1 (page.2 / 4096) := by
    intro page hpage hframe
    have hslot := (h.user page hpage).slot
    exact ⟨_, (machine_walk h hslot).trans (h.mapped page hpage _ rfl), (leaf_readWrite hframe).2⟩
  refine ⟨rfl, rfl, fun v hv => ?_,
    ⟨_, hmapped (0xFFFFFF0001001000, 0x5000) (by simp [machinePages]) ⟨by decide, by decide⟩⟩,
    ⟨_, hmapped (0xFFFFFF0000000000, 0x6000) (by simp [machinePages]) ⟨by decide, by decide⟩⟩,
    fun v w n hv hw hvn hwn => ?_,
    fun v n hv hn => ?_⟩
  · have hslot : index v 39 ≠ 511 := by simp [hv.slot.1]
    exact (machine_step h).noLarge hslot (h.noLarge v hslot)
  · have hv' := machine_above h hv hvn
    have hw' := machine_above h hw hwn
    omega
  · have hfive : n = 5 ∨ n = 6 := (machine_above h hv hn).imp And.right And.right
    refine ⟨by omega, machine_isTable h (by omega) (by omega), fun d hd _ hmem => ?_⟩
    have hbounds := MemoryRange.mem_pageList_bounds hmem
    simp only [machineMap, List.mem_cons, List.not_mem_nil, or_false] at hd
    rcases hd with rfl | rfl
    · have hlow : 0x10000 ≤ 4096 * n := hbounds.1
      omega
    · have hlow : 0x40000 ≤ 4096 * n := hbounds.1
      omega

theorem machine_apart : MapApart 0x5022 (arrayOf 2) machineMap (machine s) := by
  have hframes : framesUpTo 0x5022 machineMap 2 = [0x40000, 0x41000, 0x42000] := by decide
  refine ⟨fun a ha => ?_, fun v hv => ?_⟩
  · rw [show machineMap.length = 2 from rfl, hframes] at ha
    simp only [List.mem_cons, List.not_mem_nil, or_false] at ha
    refine ⟨⟨by omega, by omega⟩, machine_isTable h (by omega) (by omega)⟩
  · rw [show machineMap.length = 2 from rfl, machine_unmaps] at hv
    revert v
    decide

end Machine

/-- There is such a machine, and its memory map is well formed. -/
theorem exists_machine : MapWf machineMap ∧ ∃ s, PagesMapped machinePages s := by
  refine ⟨⟨?_, List.pairwise_pair.mpr (.inl (by decide))⟩, exists_pagesMapped machinePages (fun page hpage => ?_)
    (by simp [machinePages]) (by decide)⟩
  · simp only [machineMap, List.forall_mem_cons, List.not_mem_nil, false_imp_iff, implies_true, and_true]
    exact ⟨⟨by decide, by decide, by decide⟩, ⟨by decide, by decide, by decide⟩⟩
  · simp only [machinePages, List.mem_cons, List.not_mem_nil, or_false] at hpage
    rcases hpage with rfl | rfl | rfl | rfl | rfl | rfl <;>
      exact ⟨⟨by decide, by decide, by decide⟩, by decide, by decide⟩

theorem machine_atEntry (s : Kernel) : AtEntry (machine s) := ⟨rfl, show 256 < 2 ^ 31 by decide, rfl, rfl⟩

/-- The first descriptor is the boot image, and the frames of the second are handed out or free. -/
theorem initMmap_frames_machine : ∃ s t, (initMmap 0x5022 (arrayOf 2) 3).Returns (machine s) () t ∧
    FramesOfMap 0x5022 machineMap t := by
  obtain ⟨hwf, s, h⟩ := exists_machine
  have hpt := (machine_step h).pageTables h.tables
  obtain ⟨harray, hspared, henough⟩ := machine_spared h
  have hkept := hspared.descriptorsKept (machine_atEntry s) hpt (machine_map h) hwf harray
  have hfuel : machineMap.length < 3 ∧ arrayPageCount (arrayOf 2) < 3 := by decide
  obtain ⟨t, hret, -⟩ :=
    initMmap_returns (machine_atEntry s) hpt (machine_map h) hwf harray hspared henough hfuel
  exact ⟨s, t, hret, initMmap_frames (machine_atEntry s) (machine_map h) hwf hkept hret⟩

/-- No page is large, and all three frames are left. -/
theorem initMemoryManagement_ready_machine : ∃ s t,
    (initMemoryManagement exampleLayout 0x5022 (arrayOf 2) 3).Returns s () t ∧ MemoryReady exampleLayout t ∧
      handedOut t ++ t.physMmap.freePages = [0x40000, 0x41000, 0x42000] := by
  obtain ⟨hwf, s, h⟩ := exists_machine
  obtain ⟨harray, hspared, henough⟩ := machine_spared h
  obtain ⟨t, hret, hready, horder, -⟩ :=
    initMemoryManagement_ready (machine_atEntry s) ((machine_step h).pageTables h.tables) (machine_map h) hwf harray
      hspared henough (machine_kernelPages h) (machine_apart h)
      (show machineMap.length < 3 ∧ arrayPageCount (arrayOf 2) < 3 by decide)
  exact ⟨_, t, hret, hready, horder.trans (by decide)⟩

end KoalemOS.Heap
