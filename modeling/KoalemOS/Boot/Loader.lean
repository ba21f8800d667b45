import KoalemOS.Library.Outcome
import KoalemOS.Paging.Machine

/-!
# The boot loader (`src/boot/boot.c`, `src/boot/paging.c`)

The loader runs on the firmware's identity mapping, so its accesses are physical.
It builds the kernel's page tables in frames that the firmware allocates and copies
the `PT_LOAD` segments of the kernel file to frames of their own.

- `BootServices`: the firmware's page allocator
- `addPageMapping`: maps one page, creating the tables that are missing
- `loadSegment`, `loadKernel`: the load loop of `efi_main`
-/

namespace KoalemOS.Boot

open KoalemOS.Library KoalemOS.Paging

/-! ## The firmware -/

/-- The firmware's page allocator, with states in `F`. `allocatePages` is `AllocatePages`
for any pages: it returns an address, or a status other than `EFI_SUCCESS`. The laws
are its documentation: the pages lie in the memory that is mapped identically, and they
are not in use before the call. -/
structure BootServices (F : Type) where
  allocatePages : F → Nat → Except Nat Nat × F
  /-- the frames the firmware has not got to give -/
  inUse : F → Nat → Prop
  aligned : ∀ st pages addr st', allocatePages st pages = (.ok addr, st') → addr % 4096 = 0
  mapped : ∀ st pages addr st', allocatePages st pages = (.ok addr, st') →
    addr + 4096 * pages ≤ 2 ^ 47
  fresh : ∀ st pages addr st', allocatePages st pages = (.ok addr, st') →
    ∀ f, inUse st f → ¬(addr / 4096 ≤ f ∧ f < addr / 4096 + pages)
  taken : ∀ st pages addr st', allocatePages st pages = (.ok addr, st') →
    ∀ f, inUse st' f ↔ inUse st f ∨ addr / 4096 ≤ f ∧ f < addr / 4096 + pages

/-- Physical memory and the state of the firmware. -/
structure Loader (F : Type) where
  mem : Mem
  firmware : F

/-- Computations of the loader; they stop with a status. -/
abbrev BootM (F : Type) := Outcome Nat (Loader F)

variable {F : Type}

/-- `bs->AllocatePages`, with the return on failure. -/
def allocatePages (bs : BootServices F) (pages : Nat) : BootM F Nat := fun s =>
  ((bs.allocatePages s.firmware pages).1,
    { s with firmware := (bs.allocatePages s.firmware pages).2 })

/-- A load of `n` bytes. -/
def readPhys (a n : Nat) : BootM F Nat := Outcome.gets fun s => s.mem.loadLE a n

/-- A store of a 64-bit word. -/
def writePhys (a x : Nat) : BootM F Unit := Outcome.modify fun s => { s with mem := s.mem.store64 a x }

/-- A store of a byte. -/
def writePhysByte (a : Nat) (b : UInt8) : BootM F Unit :=
  Outcome.modify fun s => { s with mem := s.mem.storeByte a b }

/-! ## `add_page_mapping` -/

/-- `page_size` -/
inductive PageSize where
  | size4K
  | size2M
  | size1G
  deriving DecidableEq

/-- `NEXT_STRUCT` -/
def nextStruct (e : Nat) : Nat := e &&& 0xFFFFFFFFFFFFF000

/-- Allocate and zero a table, and point the entry at `entryAddr` to it. -/
def newTable (bs : BootServices F) (entryAddr : Nat) : BootM F Unit := do
  let addr ← allocatePages bs 1
  Outcome.loop 0 512 fun k => writePhys (addr + 8 * k) 0
  writePhys entryAddr (addr ||| pagingFlagPresent ||| pagingFlagReadWrite)

/-- Make an entry present. -/
def ensurePresent (bs : BootServices F) (entryAddr : Nat) : BootM F Unit := do
  let e ← readPhys entryAddr 8
  if present e then pure () else newTable bs entryAddr

/-- The table behind entry `i` of the table at `table`, created when missing. -/
def nextTable (bs : BootServices F) (table : Nat) (i : Fin 512) : BootM F Nat := do
  ensurePresent bs (table + 8 * i)
  let e ← readPhys (table + 8 * i) 8
  writePhys (table + 8 * i) (e ||| pagingFlagReadWrite)
  let e ← readPhys (table + 8 * i) 8
  return nextStruct e

/-- The leaf entry of a large page. -/
def largeEntry (paddr : Nat) : Nat :=
  paddr ||| pagingFlagPageSize ||| pagingFlagReadWrite ||| pagingFlagPresent

/-- The leaf entry of a small page. -/
def leafEntry (paddr : Nat) : Nat := paddr ||| pagingFlagPresent ||| pagingFlagReadWrite

/-- `add_page_mapping`; `PML4_INDEX_OF` and its siblings are `index`. -/
def addPageMapping (bs : BootServices F) (pml4 vaddr paddr : Nat) (size : PageSize) :
    BootM F Unit := do
  let pdpt ← nextTable bs pml4 (index vaddr 39)
  if size = .size1G then writePhys (pdpt + 8 * index vaddr 30) (largeEntry paddr)
  else
    let pd ← nextTable bs pdpt (index vaddr 30)
    if size = .size2M then writePhys (pd + 8 * index vaddr 21) (largeEntry paddr)
    else
      let pt ← nextTable bs pd (index vaddr 21)
      writePhys (pt + 8 * index vaddr 12) (leafEntry paddr)

/-! ## The kernel file (`include/common/elf.h`) -/

/-- The fields of `elf64_program_header` that the load loop reads. -/
structure ProgramHeader where
  type : Nat
  offset : Nat
  vaddr : Nat
  filesz : Nat
  memsz : Nat
  deriving DecidableEq, Repr

/-- `PT_LOAD` -/
abbrev ptLoad : Nat := 1

/-- The program header at an address. -/
def headerAt (m : Mem) (a : Nat) : ProgramHeader where
  type := m.loadLE a 4
  offset := m.load64 (a + 8)
  vaddr := m.load64 (a + 16)
  filesz := m.load64 (a + 32)
  memsz := m.load64 (a + 40)

/-- `ph->vaddr & 0xFFFFFFFFFFFFF000` -/
def ProgramHeader.startPage (ph : ProgramHeader) : Nat := ph.vaddr &&& 0xFFFFFFFFFFFFF000

/-- The pages allocated for a segment. -/
def ProgramHeader.pages (ph : ProgramHeader) : Nat := wrap (ph.memsz / 4096 + 2)

/-! ## The load loop of `efi_main` -/

/-- Map the pages of a segment from `offset` on, with `k` to go; a page up to
`lastAllocatedPage` is skipped. Returns the new `last_allocated_page`. -/
def mapSegment (bs : BootServices F) (pml4 addr startPage : Nat) :
    Nat → Nat → Nat → BootM F Nat
  | 0, _, lastAllocatedPage => pure lastAllocatedPage
  | k + 1, offset, lastAllocatedPage =>
    if wrap (startPage + offset) ≤ lastAllocatedPage then
      mapSegment bs pml4 addr startPage k (offset + 0x1000) lastAllocatedPage
    else do
      addPageMapping bs pml4 (wrap (startPage + offset)) (wrap (addr + offset)) .size4K
      mapSegment bs pml4 addr startPage k (offset + 0x1000) (wrap (startPage + offset))

/-- Copy the file bytes of a segment and zero the rest. -/
def copySegment (elf addr : Nat) (ph : ProgramHeader) : BootM F Unit := do
  let vaddrOffset := ph.vaddr - ph.startPage
  Outcome.loop 0 ph.filesz fun offset => do
    let b ← Outcome.gets fun s => s.mem (wrap (elf + ph.offset + offset))
    writePhysByte (wrap (addr + vaddrOffset + offset)) b
  Outcome.loop ph.filesz (ph.memsz - ph.filesz) fun offset =>
    writePhysByte (wrap (addr + vaddrOffset + offset)) 0

/-- Load a segment to frames of its own. -/
def loadSegment (bs : BootServices F) (pml4 elf : Nat) (ph : ProgramHeader)
    (lastAllocatedPage : Nat) : BootM F Nat := do
  let addr ← allocatePages bs ph.pages
  let lastAllocatedPage ←
    mapSegment bs pml4 addr ph.startPage (wrap (ph.pages * 0x1000) / 0x1000) 0 lastAllocatedPage
  copySegment elf addr ph
  return lastAllocatedPage

/-- The body of the load loop; other types of headers are passed over. -/
def loadHeader (bs : BootServices F) (pml4 elf : Nat) (ph : ProgramHeader)
    (lastAllocatedPage : Nat) : BootM F Nat :=
  if ph.type = ptLoad then loadSegment bs pml4 elf ph lastAllocatedPage
  else pure lastAllocatedPage

/-- The load loop from header `i` on, with `k` headers to go. -/
def loadSegments (bs : BootServices F) (pml4 elf pheadersStart pheaderSize : Nat) :
    Nat → Nat → Nat → BootM F Unit
  | 0, _, _ => pure ()
  | k + 1, i, lastAllocatedPage => do
    let ph ← Outcome.gets fun s => headerAt s.mem (wrap (pheadersStart + pheaderSize * i))
    let lastAllocatedPage ← loadHeader bs pml4 elf ph lastAllocatedPage
    loadSegments bs pml4 elf pheadersStart pheaderSize k (i + 1) lastAllocatedPage

/-- The load loop of `efi_main`, for the kernel file at `elf`: `phoff`, `phentsize` and
`phnum` are read from the ELF header. -/
def loadKernel (bs : BootServices F) (pml4 elf : Nat) : BootM F Unit := do
  let phoff ← readPhys (elf + 32) 8
  let phentsize ← readPhys (elf + 54) 2
  let phnum ← readPhys (elf + 56) 2
  loadSegments bs pml4 elf (wrap (elf + phoff)) phentsize phnum 0 0

end KoalemOS.Boot
