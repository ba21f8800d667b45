import KoalemOS.Paging.Machine

/-!
# Editing page tables through the recursive window (`src/kernel/memory.c`)

Slot 511 of the PML4 points at the PML4 itself, so that the tables appear at fixed
virtual addresses: `pml4eAddrOf`, `pdpteAddrOf`, `pdeAddrOf` and `pteAddrOf` give the
address of the entry of each level for a virtual address. `mapPage` and `unmapPage`
read and write the entries there. `mapPage` is cut into one definition for each level
of missing tables and one for the leaf entry, in source order.
-/

namespace KoalemOS.Paging

open KoalemOS.Library KoalemOS.Mmap

/-! ## The window -/

/-- `PML4E_ADDR_OF` -/
def pml4eAddrOf (v : Nat) : Nat := 0xFFFFFFFFFFFFF000 ||| (v &&& 0xFF8000000000) >>> 36

/-- `PDPTE_ADDR_OF` -/
def pdpteAddrOf (v : Nat) : Nat := 0xFFFFFFFFFFE00000 ||| (v &&& 0xFFFFC0000000) >>> 27

/-- `PDE_ADDR_OF` -/
def pdeAddrOf (v : Nat) : Nat := 0xFFFFFFFFC0000000 ||| (v &&& 0xFFFFFFE00000) >>> 18

/-- `PTE_ADDR_OF` -/
def pteAddrOf (v : Nat) : Nat := 0xFFFFFF8000000000 ||| (v &&& 0xFFFFFFFFF000) >>> 9

/-- `PHYS_ADDR_OF` -/
def physAddrOf (v : Nat) : KernelM Nat := do
  let pte ← readWord (pteAddrOf v)
  return (pte &&& 0xFFFFFFFFF000) + (v &&& 0xFFF)

/-! ## `map_page` -/

/-- Link a new table, zero its entries through the window, and give the link its final
flags. -/
def linkTable (entryAddr e e' : Nat) (slotAddr : Nat → Nat) : KernelM Unit := do
  writeWord entryAddr e
  Outcome.loop 0 512 fun i => writeWord (slotAddr i) 0
  writeWord entryAddr e'

/-- The PDPT of the page, allocated and zeroed when missing. -/
def mapPagePdpt (v flags : Nat) : KernelM Unit := do
  let pml4e ← readWord (pml4eAddrOf v)
  if present pml4e then orWord (pml4eAddrOf v) flags
  else
    let pdpt ← allocPhysPages 1
    if pdpt ≠ 0 then
      linkTable (pml4eAddrOf v) (pdpt ||| pagingFlagPresent ||| pagingFlagReadWrite)
        (pdpt ||| pagingFlagPresent ||| flags) fun i =>
          pdpteAddrOf (wrap ((v &&& 0xFFFFFF8000000000) + 0x40000000 * i))
    else kernelPanic "no space for PDPT"

/-- The PD of the page, allocated and zeroed when missing. -/
def mapPagePd (v flags : Nat) : KernelM Unit := do
  let pdpte ← readWord (pdpteAddrOf v)
  if present pdpte then orWord (pdpteAddrOf v) flags
  else
    let pd ← allocPhysPages 1
    if pd ≠ 0 then
      let pml4e ← readWord (pml4eAddrOf v)
      orWord (pml4eAddrOf v) pagingFlagReadWrite
      linkTable (pdpteAddrOf v) (pd ||| pagingFlagPresent ||| pagingFlagReadWrite)
        (pd ||| pagingFlagPresent ||| flags) fun i =>
          pdeAddrOf (wrap ((v &&& 0xFFFFFFFFC0000000) + 0x200000 * i))
      writeWord (pml4eAddrOf v) pml4e
    else kernelPanic "no space for PD"

/-- The PT of the page, allocated and zeroed when missing. -/
def mapPagePt (v flags : Nat) : KernelM Unit := do
  let pde ← readWord (pdeAddrOf v)
  if present pde then orWord (pdeAddrOf v) flags
  else
    let pt ← allocPhysPages 1
    if pt ≠ 0 then
      let pml4e ← readWord (pml4eAddrOf v)
      orWord (pml4eAddrOf v) pagingFlagReadWrite
      let pdpte ← readWord (pdpteAddrOf v)
      orWord (pdpteAddrOf v) pagingFlagReadWrite
      linkTable (pdeAddrOf v) (pt ||| pagingFlagPresent ||| pagingFlagReadWrite ||| flags)
        (pt ||| pagingFlagPresent ||| flags) fun i =>
          pteAddrOf (wrap ((v &&& 0xFFFFFFFFFFE00000) + 0x1000 * i))
      writeWord (pdpteAddrOf v) pdpte
      writeWord (pml4eAddrOf v) pml4e
    else kernelPanic "no space for PT"

/-- Write the leaf entry of a page, with the three entries above it writable meanwhile. -/
def writePte (v pte : Nat) : KernelM Unit := do
  let pml4e ← readWord (pml4eAddrOf v)
  orWord (pml4eAddrOf v) pagingFlagReadWrite
  let pdpte ← readWord (pdpteAddrOf v)
  orWord (pdpteAddrOf v) pagingFlagReadWrite
  let pde ← readWord (pdeAddrOf v)
  orWord (pdeAddrOf v) pagingFlagReadWrite
  writeWord (pteAddrOf v) pte
  writeWord (pdeAddrOf v) pde
  writeWord (pdpteAddrOf v) pdpte
  writeWord (pml4eAddrOf v) pml4e

/-- `map_page` -/
def mapPage (v p flags : Nat) : KernelM Unit := do
  mapPagePdpt v flags
  mapPagePd v flags
  mapPagePt v flags
  writePte v (p ||| pagingFlagPresent ||| flags)

/-! ## `unmap_page` -/

/-- `unmap_page` -/
def unmapPage (v : Nat) : KernelM Unit := writePte v 0

/-- Clear the PDPT entry of a 1 GiB page, with the entry above it writable meanwhile. -/
def clearPdpte (v : Nat) : KernelM Unit := do
  let pml4e ← readWord (pml4eAddrOf v)
  orWord (pml4eAddrOf v) pagingFlagReadWrite
  writeWord (pdpteAddrOf v) 0
  writeWord (pml4eAddrOf v) pml4e

/-- Clear the PD entry of a 2 MiB page, with the entries above it writable meanwhile. -/
def clearPde (v : Nat) : KernelM Unit := do
  let pml4e ← readWord (pml4eAddrOf v)
  orWord (pml4eAddrOf v) pagingFlagReadWrite
  let pdpte ← readWord (pdpteAddrOf v)
  orWord (pdpteAddrOf v) pagingFlagReadWrite
  writeWord (pdeAddrOf v) 0
  writeWord (pdpteAddrOf v) pdpte
  writeWord (pml4eAddrOf v) pml4e

/-- Map the `count` pages of a large page one by one. -/
def splitPage (v p flags count : Nat) : KernelM Unit :=
  Outcome.loop 0 count fun i => mapPage (wrap (v + 0x1000 * i)) (wrap (p + 0x1000 * i)) flags

/-- `unmap_page_fix_size`: a large page is split into small ones first. -/
def unmapPageFixSize (v : Nat) : KernelM Unit := do
  let pdpte ← readWord (pdpteAddrOf v)
  if pageSize pdpte then
    clearPdpte v
    splitPage (alignDown v 0x40000000) (pdpte &&& 0xFFFFFFFFF000) (pdpte &&& 0x3E) 0x40000
  else
    let pde ← readWord (pdeAddrOf v)
    if pageSize pde then
      clearPde v
      splitPage (alignDown v 0x200000) (pde &&& 0xFFFFFFFFF000) (pde &&& 0x3E) 0x200
  unmapPage v

end KoalemOS.Paging
