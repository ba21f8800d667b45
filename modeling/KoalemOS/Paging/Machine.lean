import KoalemOS.Library.ByteMemory
import KoalemOS.Library.Outcome
import KoalemOS.Library.TableTree
import KoalemOS.Library.Words
import KoalemOS.Mmap.Basic

/-!
# The machine the kernel's memory management runs on

One thread of the kernel, its physical memory and the MMU. Every access of the kernel
goes to a virtual address that the tables in memory translate at that moment.

- `walk`, `translate`: the four-level walk of the hardware
- `Kernel`: physical memory, `cr3` and the static variables of `memory.c`
- `readWord`, `writeWord`, `readByte`, `writeByte`: accesses through the MMU
- `allocPhysPages`: takes frames from `phys_mmap`

Left out are the mutexes (one thread), the TLB (`invalidate_tlbs_for` keeps it in step)
and write protection (`CR0.WP` is clear). The range buffers of the memory maps are kept
beside the memory, as the slots of `MemoryMap`.
-/

namespace KoalemOS.Paging

open KoalemOS.Library KoalemOS.Mmap

/-! ## Page table entries (`include/common/paging.h`) -/

/-- `PAGING_FLAG_PRESENT` -/
abbrev pagingFlagPresent : Nat := 1

/-- `PAGING_FLAG_READ_WRITE` -/
abbrev pagingFlagReadWrite : Nat := 2

/-- `PAGING_FLAG_PAGE_SIZE` -/
abbrev pagingFlagPageSize : Nat := 128

/-- Bit 0 of an entry. -/
def present (e : Nat) : Bool := e % 2 = 1

/-- Bit 7 of an entry: it maps a large page instead of linking to a table. -/
def pageSize (e : Nat) : Bool := e / 128 % 2 = 1

/-- The number of the frame an entry points to, bits 12 to 51. -/
def frameOf (e : Nat) : Nat := e / 4096 % 2 ^ 40

/-! ## The hardware walk -/

/-- A table has 512 entries. -/
instance neZero_entries : NeZero 512 := ⟨by decide⟩

/-- The table index of an address at the level whose entries map `2 ^ shift` bytes. -/
def index (v shift : Nat) : Fin 512 := ⟨v / 2 ^ shift % 512, Nat.mod_lt _ (by decide)⟩

/-- Bits 47 to 63 of an address are equal. -/
def canonical (v : Nat) : Bool := v < 2 ^ 47 || (2 ^ 64 - 2 ^ 47 ≤ v && v < 2 ^ 64)

/-- The tables in memory, by frame number and index. -/
def tables (m : Mem) : Tables Nat (Fin 512) Nat := fun n i => m.load64 (4096 * n + 8 * i)

/-- The four table indices of an address. -/
def indices (v : Nat) : List (Fin 512) := [index v 39, index v 30, index v 21, index v 12]

/-- What an entry with the page size bit maps, by the number of levels below it: a page of
2 MiB or 1 GiB, and nothing in the PML4, where the bit is reserved. -/
def largeLeaf (e : Nat) : Nat → Option (Nat × Nat)
  | 1 => some (e, 21)
  | 2 => some (e, 30)
  | _ => none

/-- The walk from table `n` along the remaining indices: the leaf entry and the number of
address bits its page spans. -/
def walkFrom (T : Tables Nat (Fin 512) Nat) (n : Nat) : List (Fin 512) → Option (Nat × Nat)
  | [] => none
  | i :: rest =>
    if ¬present (T n i) then none
    else if rest = [] then some (T n i, 12)
    else if pageSize (T n i) then largeLeaf (T n i) rest.length
    else walkFrom T (frameOf (T n i)) rest

/-- The hardware walk of an address. -/
def walk (m : Mem) (cr3 v : Nat) : Option (Nat × Nat) :=
  if canonical v then walkFrom (tables m) (frameOf cr3) (indices v) else none

/-- The physical address that a leaf entry and the page offset give. -/
def leafAddr (leaf : Nat × Nat) (v : Nat) : Nat :=
  leaf.1 / 2 ^ leaf.2 % 2 ^ (52 - leaf.2) * 2 ^ leaf.2 + v % 2 ^ leaf.2

/-- The leaf entry of a small page gives its frame. -/
theorem leafAddr_small (e v : Nat) : leafAddr (e, 12) v = 4096 * frameOf e + v % 4096 := by
  show e / 2 ^ 12 % 2 ^ 40 * 2 ^ 12 + v % 2 ^ 12 = _
  unfold frameOf
  omega

/-- The physical address of a virtual address. -/
def translate (m : Mem) (cr3 v : Nat) : Option Nat := (walk m cr3 v).map fun leaf => leafAddr leaf v

/-! ## The kernel -/

/-- Why a computation of the kernel ends early: `kernel_panic`, a page fault, or a list
that has no end. -/
inductive Stop where
  | kernelPanic (message : String)
  | pageFault (vaddr : Nat)
  | endless
  deriving DecidableEq

/-- A call of `alloc_phys_pages` that found frames, and the memory at that moment. -/
structure AllocEvent where
  base : Nat
  pages : Nat
  mem : Mem

/-- Physical memory, the root of the page tables, and the static variables of
`memory.c` and `ap_boot.c` that memory management uses. `allocLog` is ghost. -/
structure Kernel where
  mem : Mem
  cr3 : Nat
  physMmap : MemoryMap
  virtMmap : MemoryMap
  /-- `virt_mmap.memory_ranges`, the heap block of the range buffer -/
  virtRanges : Nat
  kernelHeapEnd : Nat
  firstHeapEntry : Nat
  lastHeapEntry : Nat
  apBootPaddrUnset : Bool
  apBootPaddr : Nat
  allocLog : List AllocEvent

/-- Computations of the kernel. -/
abbrev KernelM := Outcome Stop Kernel

/-- `kernel_panic` -/
def kernelPanic {α : Type} (message : String) : KernelM α := Outcome.stop (.kernelPanic message)

/-! ## Accesses through the MMU -/

/-- Translate, or fault. -/
def mmu (v : Nat) : KernelM Nat := fun s =>
  match translate s.mem s.cr3 v with
  | some a => (.ok a, s)
  | none => (.error (.pageFault v), s)

/-- Change the physical memory. -/
def modifyMem (f : Mem → Mem) : KernelM Unit := Outcome.modify fun s => { s with mem := f s.mem }

/-- `*(uint64_t*)v` -/
def readWord (v : Nat) : KernelM Nat := do
  let a ← mmu v
  Outcome.gets fun s => s.mem.load64 a

/-- `*(uint64_t*)v = x` -/
def writeWord (v x : Nat) : KernelM Unit := do
  let a ← mmu v
  modifyMem fun m => m.store64 a x

/-- `*(uint64_t*)v |= x` -/
def orWord (v x : Nat) : KernelM Unit := do
  let e ← readWord v
  writeWord v (e ||| x)

/-- `*(uint8_t*)v` -/
def readByte (v : Nat) : KernelM UInt8 := do
  let a ← mmu v
  Outcome.gets fun s => s.mem a

/-- `*(uint8_t*)v = x` -/
def writeByte (v : Nat) (x : UInt8) : KernelM Unit := do
  let a ← mmu v
  modifyMem fun m => m.storeByte a x

/-! ## Physical pages -/

/-- The state after frames have been taken from `phys_mmap`. -/
def Kernel.allocated (s : Kernel) (pages : Nat) : Kernel :=
  let base := (mmapGetPages s.physMmap pages).1
  { s with
    physMmap := (mmapGetPages s.physMmap pages).2
    allocLog := if base = 0 then s.allocLog else s.allocLog ++ [⟨base, pages, s.mem⟩] }

/-- `alloc_phys_pages` -/
def allocPhysPages (pages : Nat) : KernelM Nat := fun s =>
  (.ok (mmapGetPages s.physMmap pages).1, s.allocated pages)

@[simp] theorem allocated_mem (s : Kernel) (pages : Nat) : (s.allocated pages).mem = s.mem := rfl

@[simp] theorem allocated_cr3 (s : Kernel) (pages : Nat) : (s.allocated pages).cr3 = s.cr3 := rfl

@[simp] theorem allocated_physMmap (s : Kernel) (pages : Nat) :
    (s.allocated pages).physMmap = (mmapGetPages s.physMmap pages).2 := rfl

theorem returns_allocPhysPages (s : Kernel) (pages : Nat) :
    (allocPhysPages pages).Returns s (mmapGetPages s.physMmap pages).1 (s.allocated pages) := rfl

end KoalemOS.Paging
