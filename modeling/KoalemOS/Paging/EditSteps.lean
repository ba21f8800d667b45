import KoalemOS.Library.AtomicSteps
import KoalemOS.Paging.Refinement

/-!
# `map_page` and `unmap_page` one access at a time (`src/kernel/memory.c`)

Other processors translate addresses while one of them edits the page tables, and between any two of
its accesses. So the editor is given here as a program of single accesses (`mapPageSteps`,
`unmapPageSteps`), which in one go is the editor of `MapPage` (`run_mapPageSteps`).
-/

namespace KoalemOS.Paging

open KoalemOS.Library KoalemOS.Mmap

/-! ## The code -/

/-- An access of the editor to what processors share. -/
inductive TableOp where
  /-- `*(uint64_t*)v` -/
  | read (v : Nat)
  /-- `*(uint64_t*)v = x` -/
  | write (v x : Nat)
  /-- `alloc_phys_pages(1)` -/
  | allocFrame

/-- What an access answers. -/
abbrev TableOp.Answer : TableOp → Type
  | .read _ => Nat
  | .write _ _ => Unit
  | .allocFrame => Nat

/-- Programs of the editor. -/
abbrev EditM := Prog Stop TableOp.Answer

/-- `*(uint64_t*)v` -/
def readStep (v : Nat) : EditM Nat := Prog.perform (TableOp.read v)

/-- `*(uint64_t*)v = x` -/
def writeStep (v x : Nat) : EditM Unit := Prog.perform (TableOp.write v x)

/-- `alloc_phys_pages(1)` -/
def allocStep : EditM Nat := Prog.perform TableOp.allocFrame

/-- `*(uint64_t*)v |= x` -/
def orSteps (v x : Nat) : EditM Unit := do
  let e ← readStep v
  writeStep v (e ||| x)

/-- `linkTable` -/
def linkTableSteps (entryAddr e e' : Nat) (slotAddr : Nat → Nat) : EditM Unit := do
  writeStep entryAddr e
  Prog.loop 0 512 fun i => writeStep (slotAddr i) 0
  writeStep entryAddr e'

/-- `mapPagePdpt` -/
def mapPagePdptSteps (v flags : Nat) : EditM Unit := do
  let pml4e ← readStep (pml4eAddrOf v)
  if present pml4e then orSteps (pml4eAddrOf v) flags
  else
    let pdpt ← allocStep
    if pdpt ≠ 0 then
      linkTableSteps (pml4eAddrOf v) (pdpt ||| pagingFlagPresent ||| pagingFlagReadWrite)
        (pdpt ||| pagingFlagPresent ||| flags) fun i =>
          pdpteAddrOf (wrap ((v &&& 0xFFFFFF8000000000) + 0x40000000 * i))
    else Prog.stop (.kernelPanic "no space for PDPT")

/-- `mapPagePd` -/
def mapPagePdSteps (v flags : Nat) : EditM Unit := do
  let pdpte ← readStep (pdpteAddrOf v)
  if present pdpte then orSteps (pdpteAddrOf v) flags
  else
    let pd ← allocStep
    if pd ≠ 0 then
      let pml4e ← readStep (pml4eAddrOf v)
      orSteps (pml4eAddrOf v) pagingFlagReadWrite
      linkTableSteps (pdpteAddrOf v) (pd ||| pagingFlagPresent ||| pagingFlagReadWrite)
        (pd ||| pagingFlagPresent ||| flags) fun i =>
          pdeAddrOf (wrap ((v &&& 0xFFFFFFFFC0000000) + 0x200000 * i))
      writeStep (pml4eAddrOf v) pml4e
    else Prog.stop (.kernelPanic "no space for PD")

/-- `mapPagePt` -/
def mapPagePtSteps (v flags : Nat) : EditM Unit := do
  let pde ← readStep (pdeAddrOf v)
  if present pde then orSteps (pdeAddrOf v) flags
  else
    let pt ← allocStep
    if pt ≠ 0 then
      let pml4e ← readStep (pml4eAddrOf v)
      orSteps (pml4eAddrOf v) pagingFlagReadWrite
      let pdpte ← readStep (pdpteAddrOf v)
      orSteps (pdpteAddrOf v) pagingFlagReadWrite
      linkTableSteps (pdeAddrOf v) (pt ||| pagingFlagPresent ||| pagingFlagReadWrite ||| flags)
        (pt ||| pagingFlagPresent ||| flags) fun i =>
          pteAddrOf (wrap ((v &&& 0xFFFFFFFFFFE00000) + 0x1000 * i))
      writeStep (pdpteAddrOf v) pdpte
      writeStep (pml4eAddrOf v) pml4e
    else Prog.stop (.kernelPanic "no space for PT")

/-- `writePte` -/
def writePteSteps (v pte : Nat) : EditM Unit := do
  let pml4e ← readStep (pml4eAddrOf v)
  orSteps (pml4eAddrOf v) pagingFlagReadWrite
  let pdpte ← readStep (pdpteAddrOf v)
  orSteps (pdpteAddrOf v) pagingFlagReadWrite
  let pde ← readStep (pdeAddrOf v)
  orSteps (pdeAddrOf v) pagingFlagReadWrite
  writeStep (pteAddrOf v) pte
  writeStep (pdeAddrOf v) pde
  writeStep (pdpteAddrOf v) pdpte
  writeStep (pml4eAddrOf v) pml4e

/-- `map_page` -/
def mapPageSteps (v p flags : Nat) : EditM Unit := do
  mapPagePdptSteps v flags
  mapPagePdSteps v flags
  mapPagePtSteps v flags
  writePteSteps v (p ||| pagingFlagPresent ||| flags)

/-- `unmap_page` -/
def unmapPageSteps (v : Nat) : EditM Unit := writePteSteps v 0

/-! ## In one go -/

/-- An access of a kernel that is alone. -/
def TableOp.exec : (o : TableOp) → KernelM o.Answer
  | .read v => readWord v
  | .write v x => writeWord v x
  | .allocFrame => allocPhysPages 1

@[simp] theorem run_readStep (v : Nat) : (readStep v).run TableOp.exec = readWord v :=
  Prog.run_perform TableOp.exec (.read v)

@[simp] theorem run_writeStep (v x : Nat) : (writeStep v x).run TableOp.exec = writeWord v x :=
  Prog.run_perform TableOp.exec (.write v x)

@[simp] theorem run_allocStep : allocStep.run TableOp.exec = allocPhysPages 1 :=
  Prog.run_perform TableOp.exec .allocFrame

@[simp] theorem run_orSteps (v x : Nat) : (orSteps v x).run TableOp.exec = orWord v x := by
  simp only [orSteps, orWord, Prog.run_bind, run_readStep, run_writeStep]

@[simp] theorem run_linkTableSteps (entryAddr e e' : Nat) (slotAddr : Nat → Nat) :
    (linkTableSteps entryAddr e e' slotAddr).run TableOp.exec = linkTable entryAddr e e' slotAddr := by
  simp only [linkTableSteps, linkTable, Prog.run_bind, Prog.run_loop, run_writeStep]

theorem run_writePteSteps (v pte : Nat) : (writePteSteps v pte).run TableOp.exec = writePte v pte := by
  simp only [writePteSteps, writePte, Prog.run_bind, run_readStep, run_orSteps, run_writeStep]

/-- In one go the program is `map_page`. -/
theorem run_mapPageSteps (v p flags : Nat) : (mapPageSteps v p flags).run TableOp.exec = mapPage v p flags := by
  simp only [mapPageSteps, mapPagePdptSteps, mapPagePdSteps, mapPagePtSteps, mapPage, mapPagePdpt, mapPagePd,
    mapPagePt, Prog.run_bind, Prog.run_ite, run_readStep, run_orSteps, run_writeStep, run_allocStep,
    run_linkTableSteps, run_writePteSteps]
  rfl

/-- In one go the program is `unmap_page`. -/
theorem run_unmapPageSteps (v : Nat) : (unmapPageSteps v).run TableOp.exec = unmapPage v :=
  run_writePteSteps v 0

end KoalemOS.Paging
