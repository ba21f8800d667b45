import KoalemOS.Heap.VirtMappings
import KoalemOS.Paging.Kept
import KoalemOS.Smp.ApBoot

/-!
# The physical memory map at boot (`init_mmap` of `src/kernel/memory.c`)

`init_mmap` goes through the memory map of the firmware. The frames of the usable descriptors go to
`phys_mmap`, but for those of the boot image of the application processors and frame 0, and the pages
of all descriptors but the kernel's own are unmapped. Splitting a large page takes frames for page
tables out of the map that is still being filled.

- `initMmapRound`, `initMmap`: the loop and what is around it
- `InitMmapRun`: the loop after any number of descriptors
- `Accounts`: the frames handed out and the free frames, together
- `withoutPages_range`, `skipFrameZero_pages`: what is left of a descriptor

The array of descriptors is read through the MMU, each descriptor when its turn comes.
-/

namespace KoalemOS.Heap

open KoalemOS.Library KoalemOS.Mmap KoalemOS.Paging KoalemOS.Smp

/-! ## The memory map of the firmware -/

/-- `efi_mmap_data` -/
structure EfiMmapData where
  descriptors : Nat
  mmapSize : Nat
  descriptorSize : Nat

namespace EfiMmapData

/-- `efi_mmap_end` -/
def efiMmapEnd (data : EfiMmapData) : Nat := wrap (data.descriptors + data.mmapSize)

/-- Where descriptor `k` lies. -/
def descAddr (data : EfiMmapData) (k : Nat) : Nat := data.descriptors + k * data.descriptorSize

end EfiMmapData

/-- `EFI_MEMORY_TYPE` -/
def efiMemoryType : Nat → EfiMemoryType
  | 1 => .loaderCode
  | 2 => .loaderData
  | 3 => .bootServicesCode
  | 4 => .bootServicesData
  | 7 => .conventionalMemory
  | 14 => .persistentMemory
  | 0x80000000 => .kernel
  | _ => .other

/-- `cur_desc = *((EFI_MEMORY_DESCRIPTOR*)cur_desc_ptr)` -/
def readDescriptor (curDescPtr : Nat) : KernelM EfiMemoryDescriptor := do
  let type ← readWord curDescPtr
  let physicalStart ← readWord (wrap (curDescPtr + 8))
  let numberOfPages ← readWord (wrap (curDescPtr + 24))
  return ⟨efiMemoryType (type % 2 ^ 32), .ofNat physicalStart, .ofNat numberOfPages⟩

/-! ## One descriptor -/

/-- `pgcnt`: the pages of the boot image. -/
def apBootPages (size : Nat) : Nat := if size % 0x1000 ≠ 0 then size / 0x1000 + 1 else size / 0x1000

/-- `cur_desc.NumberOfPages -= n`, `cur_desc.PhysicalStart += 0x1000*n` -/
def withoutPages (d : EfiMemoryDescriptor) (n : Nat) : EfiMemoryDescriptor :=
  { d with
    numberOfPages := d.numberOfPages - .ofNat n
    physicalStart := d.physicalStart + 0x1000 * .ofNat n }

/-- The first descriptor that has room for the boot image gives its first pages for it. Nothing is
returned where the source leaves the switch. -/
def takeApBoot (size : Nat) (d : EfiMemoryDescriptor) : KernelM (Option EfiMemoryDescriptor) := do
  let apBootPaddrUnset ← Outcome.gets Kernel.apBootPaddrUnset
  if apBootPaddrUnset ∧ d.physicalStart.toNat ≤ 0xFF000 ∧ size ≤ (0x1000 * d.numberOfPages).toNat then
    Outcome.modify fun s => { s with apBootPaddrUnset := false, apBootPaddr := d.physicalStart.toNat }
    if d.numberOfPages.toNat = apBootPages size then return none
    else return some (withoutPages d (apBootPages size))
  else return some d

/-- Frame 0 is left out. -/
def skipFrameZero (d : EfiMemoryDescriptor) : Option EfiMemoryDescriptor :=
  if d.physicalStart = 0 then
    if d.numberOfPages < 2 then none else some (withoutPages d 1)
  else some d

/-- `mmap_add_range(&phys_mmap, ...)`, or panic. -/
def addFrames (d : EfiMemoryDescriptor) : KernelM Unit := do
  let added ← Outcome.gets fun s => mmapAddRange s.physMmap d.physicalStart.toNat d.numberOfPages.toNat
  Outcome.modify fun s => { s with physMmap := added.2 }
  if ¬added.1 then kernelPanic "phys_mmap too large"

/-- The case of the usable types. What is left of the descriptor falls through to `default`. -/
def giveFrames (size : Nat) (d : EfiMemoryDescriptor) : KernelM (Option EfiMemoryDescriptor) := do
  let left ← takeApBoot size d
  match left.bind skipFrameZero with
  | none => return none
  | some d =>
    addFrames d
    return some d

/-- The case of all other types: the pages are unmapped, but for those of the array. -/
def unmapDescriptor (data : EfiMmapData) (d : EfiMemoryDescriptor) : KernelM Unit :=
  Outcome.loop 0 d.numberOfPages.toNat fun i =>
    let addr := wrap (d.physicalStart.toNat + i * 0x1000)
    if addr < pageBase data.descriptors ∨ addr > pageBase data.efiMmapEnd then unmapPageFixSize addr
    else pure ()

/-- `switch(cur_desc.Type)` -/
def useDescriptor (size : Nat) (data : EfiMmapData) (d : EfiMemoryDescriptor) : KernelM Unit := do
  if d.type = .kernel then return ()
  else if d.type.usable then
    match ← giveFrames size d with
    | none => return ()
    | some left => unmapDescriptor data left
  else unmapDescriptor data d

/-- The body of the loop. -/
def initMmapRound (size : Nat) (data : EfiMmapData) (curDescPtr : Nat) : KernelM Unit := do
  let curDesc ← readDescriptor curDescPtr
  useDescriptor size data curDesc

/-! ## The whole map -/

/-- `while(cur_desc_ptr < efi_mmap_end)`, on fuel. -/
def descriptorLoop (size : Nat) (data : EfiMmapData) : Nat → Nat → KernelM Unit
  | 0, _ => Outcome.stop .endless
  | fuel + 1, curDescPtr =>
    if curDescPtr < data.efiMmapEnd then do
      initMmapRound size data curDescPtr
      descriptorLoop size data fuel (wrap (curDescPtr + data.descriptorSize))
    else pure ()

/-- The last loop, which unmaps the array, on fuel. -/
def unmapArray (last : Nat) : Nat → Nat → KernelM Unit
  | 0, _ => Outcome.stop .endless
  | fuel + 1, page =>
    if page ≤ last then do
      unmapPageFixSize page
      unmapArray last fuel (wrap (page + 0x1000))
    else pure ()

/-- `init_mmap`, where `size` is `ap_boot_image_size`. -/
def initMmap (size : Nat) (data : EfiMmapData) (fuel : Nat) : KernelM Unit := do
  descriptorLoop size data fuel data.descriptors
  let apBootPaddrUnset ← Outcome.gets Kernel.apBootPaddrUnset
  if apBootPaddrUnset then kernelPanic "no space for AP bootstrap code"
  unmapArray data.efiMmapEnd fuel (pageBase data.descriptors)

/-- From `s` to the last state the loop has used the first `k` descriptors. -/
inductive InitMmapRun (size : Nat) (data : EfiMmapData) (s : Kernel) : Nat → Kernel → Prop where
  | start : InitMmapRun size data s 0 s
  | round {k : Nat} {t t' : Kernel} (h : InitMmapRun size data s k t)
      (hround : (initMmapRound size data (data.descAddr k)).Returns t () t') : InitMmapRun size data s (k + 1) t'

/-! ## What the loops leave alone -/

section Kept

variable {I : Kernel → Prop}

theorem keeps_readDescriptor (v : Nat) : Outcome.Keeps I (readDescriptor v) :=
  (keeps_readWord _).bind fun _ => (keeps_readWord _).bind fun _ => (keeps_readWord _).bind fun _ =>
    Outcome.keeps_pure _

variable (hmem : ∀ s (m : Mem), I s → I { s with mem := m }) (halloc : ∀ s, I s → I (s.allocated 1))

include hmem halloc

theorem keeps_unmapDescriptor (data : EfiMmapData) (d : EfiMemoryDescriptor) :
    Outcome.Keeps I (unmapDescriptor data d) :=
  Outcome.Keeps.loop 0 _ fun _ _ _ => (keeps_unmapPageFixSize hmem halloc _).ite (Outcome.keeps_pure _)

theorem keeps_unmapArray (last fuel page : Nat) : Outcome.Keeps I (unmapArray last fuel page) := by
  induction fuel generalizing page with
  | zero => exact Outcome.keeps_stop _
  | succ fuel ih => exact ((keeps_unmapPageFixSize hmem halloc page).bind fun _ => ih _).ite (Outcome.keeps_pure _)

end Kept

/-! ## Frames handed out and free frames -/

/-- The frames `alloc_phys_pages` has handed out. -/
def handedOut (s : Kernel) : List Nat := s.allocLog.flatMap fun e => MemoryRange.pageList ⟨e.base, e.pages⟩

/-- The frames handed out and the free ones are those of `F`, each of them once. -/
structure Accounts (F : Nat → Prop) (s : Kernel) : Prop where
  wf : s.physMmap.Wf
  nodup : (handedOut s ++ s.physMmap.freePages).Nodup
  mem : ∀ a, a ∈ handedOut s ++ s.physMmap.freePages ↔ F a

section Accounting

variable {F G : Nat → Prop} {s : Kernel} {r : MemoryRange}

theorem Accounts.congr (h : Accounts F s) (hFG : ∀ a, F a ↔ G a) : Accounts G s :=
  ⟨h.wf, h.nodup, fun a => (h.mem a).trans (hFG a)⟩

/-- A frame that is handed out is free no more. -/
theorem Accounts.alloc (h : Accounts F s) : Accounts F (s.allocated 1) := by
  obtain ⟨hwf, hnodup, hmem⟩ := h
  by_cases hzero : (mmapGetPages s.physMmap 1).1 = 0
  · have hsame : s.allocated 1 = s := by
      unfold Kernel.allocated
      simp only [hzero, if_true, (mmapGetPages_zero hwf).2 hzero]
    rw [hsame]
    exact ⟨hwf, hnodup, hmem⟩
  · obtain ⟨hwf', hperm⟩ := takeFrame_pages hwf hzero
    have hout : handedOut (s.allocated 1) = handedOut s ++ [(mmapGetPages s.physMmap 1).1] := by
      simp only [handedOut, Kernel.allocated, if_neg hzero, List.flatMap_append, List.flatMap_singleton, pageList_one]
    have hall : (handedOut s ++ s.physMmap.freePages).Perm
        (handedOut (s.allocated 1) ++ (s.allocated 1).physMmap.freePages) := by
      rw [hout, List.append_assoc]
      exact hperm.append_left _
    exact ⟨hwf', hall.nodup_iff.mp hnodup, fun a => hall.mem_iff.symm.trans (hmem a)⟩

/-- The frames of a range that is added. -/
theorem Accounts.add (h : Accounts F s) (hr : r.Wf) (hnew : ∀ a ∈ r.pageList, ¬F a)
    (hok : (mmapAddRange s.physMmap r.baseAddr r.pages).1 = true) :
    Accounts (fun a => F a ∨ a ∈ r.pageList)
      { s with physMmap := (mmapAddRange s.physMmap r.baseAddr r.pages).2 } := by
  obtain ⟨hwf, hnodup, hmem⟩ := h
  have hadd : s.physMmap.CanAdd r := by
    refine ⟨hr, fun q hq => disjoint_of_pages (hwf.ranges_wf q hq) hr fun a ha hc => ?_⟩
    exact hnew a ha ((hmem a).mp (List.mem_append_right _ (List.mem_flatMap.mpr ⟨q, hq, hc⟩)))
  obtain ⟨hwf', hpages, -⟩ := mmapAddRange_pages hwf hadd
  have hall : (r.pageList ++ (handedOut s ++ s.physMmap.freePages)).Perm
      (handedOut s ++ (mmapAddRange s.physMmap r.baseAddr r.pages).2.freePages) := by
    rw [← List.append_assoc]
    refine (List.perm_append_comm.append_right _).trans ?_
    rw [List.append_assoc]
    exact (hpages hok).symm.append_left _
  refine ⟨hwf', hall.nodup_iff.mp ?_, fun a => hall.mem_iff.symm.trans ?_⟩
  · exact List.nodup_append.mpr ⟨r.pageList_nodup, hnodup, fun a ha b hb hab => hnew a ha ((hmem a).mp (hab ▸ hb))⟩
  · rw [List.mem_append, hmem a, or_comm]

end Accounting

/-! ## The frames of a descriptor -/

/-- The pages of a descriptor. -/
def descRange (d : EfiMemoryDescriptor) : MemoryRange := ⟨d.physicalStart.toNat, d.numberOfPages.toNat⟩

/-- The pages of a descriptor are whole pages of the address space, and at least one. -/
structure DescWf (d : EfiMemoryDescriptor) : Prop where
  pos : 0 < d.numberOfPages.toNat
  aligned : d.physicalStart.toNat % 4096 = 0
  noWrap : d.physicalStart.toNat + 4096 * d.numberOfPages.toNat ≤ 2 ^ 64

/-- Rounded up, the boot image fits where it fits. -/
theorem apBootPages_le {size pages : Nat} (h : size ≤ 0x1000 * pages) : apBootPages size ≤ pages := by
  unfold apBootPages
  split <;> omega

section Descriptors

variable {d l : EfiMemoryDescriptor} {n : Nat}

/-- A descriptor without its first pages, as long as it keeps one. -/
theorem withoutPages_range (h : DescWf d) (hn : n < d.numberOfPages.toNat) :
    descRange (withoutPages d n) = ⟨d.physicalStart.toNat + 4096 * n, d.numberOfPages.toNat - n⟩ := by
  have hpages := d.numberOfPages.toNat_lt
  have hwrap := h.noWrap
  have hle : (UInt64.ofNat n) ≤ d.numberOfPages := by
    rw [UInt64.le_iff_toNat_le, UInt64.toNat_ofNat']
    omega
  simp only [descRange, withoutPages, UInt64.toNat_sub_of_le _ _ hle, UInt64.toNat_add, UInt64.toNat_mul,
    UInt64.toNat_ofNat', MemoryRange.mk.injEq]
  constructor
  · show (_ + 4096 * (n % 2 ^ 64) % 2 ^ 64) % 2 ^ 64 = _
    omega
  · omega

theorem DescWf.without (h : DescWf d) (hn : n < d.numberOfPages.toNat) : DescWf (withoutPages d n) := by
  have hrange := withoutPages_range h hn
  simp only [descRange, MemoryRange.mk.injEq] at hrange
  obtain ⟨hpos, haligned, hwrap⟩ := h
  exact ⟨by omega, by omega, by omega⟩

/-- The pages are the first ones and the others. -/
theorem mem_pages_without (h : DescWf d) (hn : n < d.numberOfPages.toNat) (a : Nat) :
    a ∈ (descRange (withoutPages d n)).pageList ↔
      a ∈ (descRange d).pageList ∧ a ∉ MemoryRange.pageList ⟨d.physicalStart.toNat, n⟩ := by
  rw [withoutPages_range h hn]
  simp only [MemoryRange.mem_pageList, descRange]
  constructor
  · rintro ⟨i, hi, rfl⟩
    refine ⟨⟨n + i, by omega, by omega⟩, ?_⟩
    rintro ⟨j, hj, heq⟩
    omega
  · rintro ⟨⟨i, hi, rfl⟩, hnot⟩
    have hle : n ≤ i := by
      by_contra hc
      exact hnot ⟨i, by omega, rfl⟩
    exact ⟨i - n, by omega, by omega⟩

/-- What is added to the map is a range of the map, and has all pages but frame 0. -/
theorem skipFrameZero_pages (h : DescWf d) :
    (∀ l, skipFrameZero d = some l → (descRange l).Wf) ∧
      ∀ a, (∃ l, skipFrameZero d = some l ∧ a ∈ (descRange l).pageList) ↔ a ∈ (descRange d).pageList ∧ a ≠ 0 := by
  obtain ⟨hpos, haligned, hwrap⟩ := id h
  have hzero : d.physicalStart = 0 ↔ d.physicalStart.toNat = 0 := by
    rw [← UInt64.toNat_inj]
    rfl
  have htwo : d.numberOfPages < 2 ↔ d.numberOfPages.toNat < 2 := UInt64.lt_iff_toNat_lt
  unfold skipFrameZero
  split_ifs with hstart hfew
  · -- frame 0 alone
    rw [hzero] at hstart
    rw [htwo] at hfew
    refine ⟨nofun, fun a => ⟨nofun, ?_⟩⟩
    rintro ⟨ha, hne⟩
    obtain ⟨i, hi, rfl⟩ := MemoryRange.mem_pageList.mp ha
    simp only [descRange] at hi hne
    omega
  · rw [hzero] at hstart
    rw [htwo] at hfew
    have hn : 1 < d.numberOfPages.toNat := by omega
    have hwf := h.without hn
    have hrange := withoutPages_range h hn
    refine ⟨fun l hl => ?_, fun a => ?_⟩
    · rw [← Option.some.inj hl, hrange]
      exact ⟨by simp only; omega, by simp only; omega, by simp only; omega, by simp only [MemoryRange.endAddr]; omega⟩
    · simp only [Option.some.injEq, exists_eq_left', mem_pages_without h hn, pageList_one, List.mem_singleton, hstart]
  · rw [hzero] at hstart
    refine ⟨fun l hl => ?_, fun a => ?_⟩
    · rw [← Option.some.inj hl]
      exact ⟨hpos, haligned, Nat.pos_of_ne_zero hstart, hwrap⟩
    · simp only [Option.some.injEq, exists_eq_left']
      refine ⟨fun ha => ⟨ha, ?_⟩, And.left⟩
      have hle := (MemoryRange.mem_pageList_bounds ha).1
      simp only [descRange] at hle
      omega

end Descriptors

end KoalemOS.Heap
