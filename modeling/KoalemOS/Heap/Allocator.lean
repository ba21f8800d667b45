import KoalemOS.Paging.MapPage

/-!
# The kernel heap (`src/kernel/memory.c`)

The heap is a region of pages behind `kernel_heap_start`, tiled by entries: a header of
32 bytes (`size`, `used`, `last`, `next`) and `size` bytes behind it. The entries form a
doubly linked list in address order.

- `kmalloc`: first fit, or a new entry on fresh pages behind the heap
- `krealloc`: in place where the entry behind is free, else a new block and a copy
- `kfree`: merges with free neighbours, and trims the heap when the last entry is free

Every access goes through the MMU.
-/

namespace KoalemOS.Heap

open KoalemOS.Library KoalemOS.Mmap KoalemOS.Paging

/-! ## Where the heap is -/

/-- `KERNEL_HEAP_MAX_SIZE` -/
abbrev kernelHeapMaxSize : Nat := 0x4000000000

/-- `KERNEL_HEAP_INIT_SIZE` -/
abbrev kernelHeapInitSize : Nat := 0x1000

/-- `phys_mmap_max_size` -/
abbrev physMmapMaxSize : Nat := 0x1000000

/-- The addresses the linker script gives to the buffer of `phys_mmap` and to the heap:
page-aligned, one behind the other, in slot 510 of the PML4. -/
structure Layout where
  physMmapRangeBuf : Nat
  kernelHeapStart : Nat
  buf_aligned : physMmapRangeBuf % 4096 = 0
  heap_aligned : kernelHeapStart % 4096 = 0
  lower : 0xFFFFFF0000000000 ≤ physMmapRangeBuf
  buf_below : physMmapRangeBuf + 0x1000 + physMmapMaxSize ≤ kernelHeapStart
  upper : kernelHeapStart + kernelHeapMaxSize < 0xFFFFFF8000000000

/-! ## Entries (`heap_entry`) -/

/-- `sizeof(heap_entry)` -/
abbrev sizeofHeapEntry : Nat := 32

/-- `alignof(max_align_t)` -/
abbrev alignofMaxAlign : Nat := 16

/-- `sizeof(max_align_t)` -/
abbrev sizeofMaxAlign : Nat := 32

/-- `entry->memory` -/
def memoryOf (e : Nat) : Nat := wrap (e + sizeofHeapEntry)

/-- `entry->size` -/
def entrySize (e : Nat) : KernelM Nat := readWord e

/-- `entry->used` -/
def entryUsed (e : Nat) : KernelM Bool := do
  let b ← readByte (wrap (e + 8))
  return b ≠ 0

/-- `entry->last` -/
def entryLast (e : Nat) : KernelM Nat := readWord (wrap (e + 16))

/-- `entry->next` -/
def entryNext (e : Nat) : KernelM Nat := readWord (wrap (e + 24))

/-- `entry->size = x` -/
def setSize (e x : Nat) : KernelM Unit := writeWord e x

/-- `entry->used = u` -/
def setUsed (e : Nat) (u : Bool) : KernelM Unit := writeByte (wrap (e + 8)) (if u then 1 else 0)

/-- `entry->last = x` -/
def setLast (e x : Nat) : KernelM Unit := writeWord (wrap (e + 16)) x

/-- `entry->next = x` -/
def setNext (e x : Nat) : KernelM Unit := writeWord (wrap (e + 24)) x

/-- `*entry = (heap_entry){...}` -/
def writeEntry (e size : Nat) (used : Bool) (last next : Nat) : KernelM Unit := do
  setSize e size
  setUsed e used
  setLast e last
  setNext e next

/-- `last_heap_entry = e` -/
def setLastHeapEntry (e : Nat) : KernelM Unit :=
  Outcome.modify fun s => { s with lastHeapEntry := e }

/-- `if(entry->next) entry->next->last = x; else last_heap_entry = x;` -/
def linkBack (e x : Nat) : KernelM Unit := do
  let next ← entryNext e
  if next ≠ 0 then setLast next x else setLastHeapEntry x

/-- `entry->next = next`, and the way back. -/
def linkTo (e next : Nat) : KernelM Unit := do
  setNext e next
  linkBack e e

/-- Take the entry behind `last` out of the list. -/
def unlinkEntry (e last : Nat) : KernelM Unit := do
  linkBack e last
  let next ← entryNext e
  setNext last next

/-- Put a free entry behind the first `size` bytes of an entry; `resize` gives the first
part its new size. -/
def splitEntry (e size : Nat) (resize : KernelM Unit) : KernelM Unit := do
  let nextEntry := wrap (memoryOf e + size)
  let whole ← entrySize e
  let next ← entryNext e
  writeEntry nextEntry (sub64 whole (wrap (size + sizeofHeapEntry))) false e next
  resize
  linkBack e nextEntry
  setNext e nextEntry

/-- Split an entry that has room for a further one. -/
def cutEntry (e size : Nat) (resize : KernelM Unit) : KernelM Unit := do
  let whole ← entrySize e
  if whole > wrap (size + sizeofHeapEntry + sizeofMaxAlign) then splitEntry e size resize
  else pure ()

/-! ## `init_heap` -/

/-- `init_heap` -/
def initHeap (L : Layout) : KernelM Unit := do
  setLastHeapEntry L.kernelHeapStart
  writeEntry L.kernelHeapStart (kernelHeapInitSize - sizeofHeapEntry) false 0 0
  Outcome.modify fun s => { s with firstHeapEntry := s.lastHeapEntry }

/-! ## `kmalloc` -/

/-- `!entry->used && entry->size >= size` -/
def entryFits (e size : Nat) : KernelM Bool := do
  let used ← entryUsed e
  if used then return false
  else
    let whole ← entrySize e
    return whole ≥ size

/-- The loop of `kmalloc` from entry `e`: the first entry that fits, or 0. -/
def findFree (size : Nat) : Nat → Nat → KernelM Nat
  | 0, _ => Outcome.stop .endless
  | fuel + 1, e =>
    if e = 0 then return 0
    else do
      let fits ← entryFits e size
      if fits then return e
      else
        let next ← entryNext e
        findFree size fuel next

/-- The number of steps after which a walk along the list has repeated an entry. -/
abbrev listFuel : Nat := 2 ^ 64

/-- Make the memory at `entry` a free entry, the last one. -/
def appendEntry (entry size : Nat) : KernelM Unit := do
  let last ← Outcome.gets (·.lastHeapEntry)
  writeEntry entry size false last 0
  setNext last entry
  setLastHeapEntry entry

/-- Map fresh pages behind the heap and make them one entry; 0 without frames. -/
def extendHeap (size : Nat) : KernelM Nat := do
  let pageCount := wrap (size + sizeofHeapEntry) / 0x1000 + 1
  let paddr ← allocPhysPages pageCount
  if paddr = 0 then return 0
  else
    let entry ← Outcome.gets (·.kernelHeapEnd)
    Outcome.loop 0 pageCount fun i =>
      mapPage (wrap (entry + i * 0x1000)) (wrap (paddr + i * 0x1000)) pagingFlagReadWrite
    appendEntry entry (sub64 (0x1000 * pageCount) sizeofHeapEntry)
    Outcome.modify fun s =>
      { s with kernelHeapEnd := wrap (s.kernelHeapEnd + pageCount * 0x1000) }
    return entry

/-- Take an entry into use and cut off what is too much. -/
def takeEntry (e size : Nat) : KernelM Nat := do
  setUsed e true
  cutEntry e size (setSize e size)
  return memoryOf e

/-- `kmalloc` -/
def kmalloc (size : Nat) : KernelM Nat := do
  let size := alignUp size alignofMaxAlign
  let first ← Outcome.gets (·.firstHeapEntry)
  let found ← findFree size listFuel first
  if found ≠ 0 then takeEntry found size
  else
    let entry ← extendHeap size
    if entry ≠ 0 then takeEntry entry size else return 0

/-! ## `kfree` -/

/-- `free_phys_pages`: when the buffer of `phys_mmap` is full, the pages extend it. -/
def freePhysPages (L : Layout) (base count : Nat) : KernelM Bool := do
  let added ← fun s =>
    (.ok (mmapAddRangeMerge s.physMmap base count).1,
      { s with physMmap := (mmapAddRangeMerge s.physMmap base count).2 })
  if added then return true
  else
    let max ← Outcome.gets (·.physMmap.maxRangeCount)
    if wrap (max * 16 + count * 0x1000) ≥ physMmapMaxSize then return false
    else
      mapPage (wrap (L.physMmapRangeBuf + 16 * max)) base pagingFlagReadWrite
      Outcome.modify fun s =>
        { s with physMmap := { s.physMmap with
            maxRangeCount := s.physMmap.maxRangeCount + count * 0x1000 / 16 } }
      return true

/-- `!candidate->used && first->memory + first->size == second` -/
def canMerge (candidate first second : Nat) : KernelM Bool := do
  let used ← entryUsed candidate
  if used then return false
  else
    let size ← entrySize first
    return wrap (memoryOf first + size) = second

/-- Merge a freed entry into the entry before it; the entry that contains it now. -/
def mergeLast (e : Nat) : KernelM Nat := do
  let last ← entryLast e
  if last = 0 then return e
  else
    let joins ← canMerge last last e
    if joins then
      let lastSize ← entrySize last
      let size ← entrySize e
      setSize last (wrap (lastSize + (sizeofHeapEntry + size)))
      unlinkEntry e last
      return last
    else return e

/-- Merge the entry behind a freed one into it. -/
def mergeNext (e : Nat) : KernelM Unit := do
  let next ← entryNext e
  if next = 0 then return ()
  else
    let joins ← canMerge next e next
    if joins then
      let size ← entrySize e
      let nextSize ← entrySize next
      setSize e (wrap (size + (sizeofHeapEntry + nextSize)))
      let nextNext ← entryNext next
      linkTo e nextNext
    else return ()

/-- Drop the last entry, or let it end where the heap will end. -/
def endHeapAt (e newEnd : Nat) : KernelM Unit :=
  if e = newEnd then do
    let last ← entryLast e
    setLastHeapEntry last
    setNext last 0
  else setSize e (sub64 (sub64 newEnd e) sizeofHeapEntry)

/-- Give the pages behind the last entry back. The loop that is to unmap them starts
above its bound. -/
def trimHeap (L : Layout) (e : Nat) : KernelM Unit := do
  let newEnd := alignUp e 0x1000
  endHeapAt e newEnd
  let heapEnd ← Outcome.gets (·.kernelHeapEnd)
  let base ← physAddrOf newEnd
  let _ ← freePhysPages L base (sub64 heapEnd newEnd / 0x1000)
  Outcome.loop heapEnd (newEnd - heapEnd) unmapPage
  Outcome.modify fun s => { s with kernelHeapEnd := newEnd }

/-- Trim the heap when the entry is the last of several and leaves room. -/
def trimIfLast (L : Layout) (e : Nat) : KernelM Unit := do
  let next ← entryNext e
  if next ≠ 0 then return ()
  else
    let last ← entryLast e
    let heapEnd ← Outcome.gets (·.kernelHeapEnd)
    if last ≠ 0 ∧ alignUp (wrap (memoryOf e + sizeofMaxAlign)) 0x1000 ≠ heapEnd then trimHeap L e
    else return ()

/-- `kfree` -/
def kfree (L : Layout) (ptr : Nat) : KernelM Unit := do
  let entry := sub64 ptr sizeofHeapEntry
  setUsed entry false
  let entry ← mergeLast entry
  mergeNext entry
  trimIfLast L entry

/-! ## `memcpy` and `memmove` (`src/libc/string.c`) -/

/-- `((uint8_t*)dest)[i] = ((uint8_t*)src)[i]` -/
def copyByte (dest src i : Nat) : KernelM Unit := do
  let b ← readByte (wrap (src + i))
  writeByte (wrap (dest + i)) b

/-- `((uint64_t*)dest)[i] = ((uint64_t*)src)[i]` -/
def copyWord (dest src i : Nat) : KernelM Unit := do
  let x ← readWord (wrap (src + 8 * i))
  writeWord (wrap (dest + 8 * i)) x

/-- `memcpy`: from the last byte down. -/
def memcpy (dest src count : Nat) : KernelM Unit := do
  Outcome.loop 0 (count % 8) fun i => copyByte dest src (count / 8 * 8 + (count % 8 - 1 - i))
  Outcome.loop 0 (count / 8) fun i => copyWord dest src (count / 8 - 1 - i)

/-- `memmove`: from the last byte down when the destination is above. -/
def memmove (dest src count : Nat) : KernelM Unit :=
  if dest > src then memcpy dest src count
  else if src > dest then do
    Outcome.loop 0 (count / 8) fun i => copyWord dest src i
    Outcome.loop 0 (count % 8) fun i => copyByte dest src (count / 8 * 8 + i)
  else return ()

/-! ## `krealloc` -/

/-- `entry->next && !entry->next->used` -/
def nextIsFree (e : Nat) : KernelM Bool := do
  let next ← entryNext e
  if next = 0 then return false
  else
    let used ← entryUsed next
    return !used

/-- Shrink an entry by moving the header of the free entry behind it down. The size of
the entry itself stays what it was. -/
def moveNextDown (e size : Nat) : KernelM Unit := do
  let next ← entryNext e
  memmove (wrap (memoryOf e + size)) next sizeofHeapEntry
  let next := wrap (memoryOf e + size)
  setNext e next
  let nextSize ← entrySize next
  let whole ← entrySize e
  setSize next (wrap (nextSize + sub64 whole size))
  linkBack next next

/-- Shrink an entry by splitting it, if a further entry fits. -/
def shrinkBySplit (e size : Nat) : KernelM Unit := do
  let whole ← entrySize e
  if sub64 whole size ≥ sizeofHeapEntry + sizeofMaxAlign then
    splitEntry e size (setSize e size)
  else return ()

/-- Shrink an entry. -/
def shrinkEntry (e size : Nat) : KernelM Unit := do
  let free ← nextIsFree e
  if free then moveNextDown e size else shrinkBySplit e size

/-- The loop that looks for room behind an entry: the entry it ends at and the value of
`tot_size`, which is set to the last entry's size instead of summing up. -/
def growLoop (size : Nat) : Nat → Nat → Nat → KernelM (Nat × Nat)
  | 0, _, _ => Outcome.stop .endless
  | fuel + 1, cur, tot =>
    if tot < size then do
      let next ← entryNext cur
      if next = 0 then return (0, tot)
      else
        let used ← entryUsed next
        if used then return (next, tot)
        else
          let nextSize ← entrySize next
          growLoop size fuel next (wrap (nextSize + sizeofHeapEntry))
    else return (cur, tot)

/-- `entry->size -= next_entry->size + sizeof(heap_entry)` -/
def subtractNext (e nextEntry : Nat) : KernelM Unit := do
  let whole ← entrySize e
  let nextSize ← entrySize nextEntry
  setSize e (sub64 whole (wrap (nextSize + sizeofHeapEntry)))

/-- Take over the entries up to `cur`, and cut off what is too much. -/
def growInto (e cur tot size : Nat) : KernelM Unit := do
  let next ← entryNext cur
  linkTo e next
  setSize e tot
  cutEntry e size (subtractNext e (wrap (memoryOf e + size)))

/-- The part of `krealloc` that keeps the block where it is; whether it has. -/
def kreallocInPlace (e size : Nat) : KernelM Bool := do
  let whole ← entrySize e
  if size < whole then
    shrinkEntry e size
    return true
  else if size = whole then return true
  else
    let found ← growLoop size listFuel e whole
    if found.2 ≥ size then
      growInto e found.1 found.2 size
      return true
    else return false

/-- The part of `krealloc` that copies the block to a new one; 0 without room. -/
def kreallocCopy (ptr e size : Nat) : KernelM Nat := do
  let new ← kmalloc size
  if new = 0 then return 0
  else
    let whole ← entrySize e
    memcpy new ptr whole
    return new

/-- `krealloc` -/
def krealloc (L : Layout) (ptr size : Nat) : KernelM Nat := do
  let size := alignUp size alignofMaxAlign
  let entry := sub64 ptr sizeofHeapEntry
  let inPlace ← kreallocInPlace entry size
  if inPlace then return ptr
  else
    let new ← kreallocCopy ptr entry size
    if new = 0 then return 0
    else
      kfree L ptr
      return new

end KoalemOS.Heap
