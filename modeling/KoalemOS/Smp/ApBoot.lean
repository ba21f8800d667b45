import KoalemOS.Paging.Machine
import Mathlib.Data.Fintype.Basic

/-!
# The boot image of the application processors (`src/ap_boot/boot.s`, `src/kernel/ap_boot.c`)

`boot_aps` copies an image to the address that `init_mmap` has picked below 1 MiB and starts all
application processors in it. Each of them goes from real mode through protected mode to long mode,
and on its way writes where the image lies into descriptor table pointers, far pointers and page
tables that all of them share.

- `ApBootImage`, `dataSection`: the image, with its labels
- `Cpu`, `apInstr`: a processor, and its next access to memory with the instructions around it
- `ApBoot.run`: any number of processors, in the order of a schedule
- `apBootPaddr`: the choice of the address

An access is atomic. Registers that no instruction reads (`ss`, `es`, `fs`, `gs`, the flags) are left
out, and memory is seen without caches.
-/

namespace KoalemOS.Smp

open KoalemOS.Library

/-! ## The image -/

/-- The image as it is linked: where `.data` begins behind the code, and where the labels lie
that the code is entered at. Addresses of 16 bits reach all of it. -/
structure ApBootImage where
  text : Mem
  /-- `_pm_jmp_target` -/
  pmJmpTarget : Nat
  /-- `_lm_jmp_target` -/
  lmJmpTarget : Nat
  /-- `_ap_bootstrap_end` -/
  apBootstrapEnd : Nat
  data : Nat
  pm_lt : pmJmpTarget < data
  lm_lt : lmJmpTarget < data
  end_lt : apBootstrapEnd < data
  aligned : data % 0x1000 = 0
  reach : data + 0x4022 ≤ 0x10000

/-- What the directives of `.data` put where: offset, width and value. All the rest is zero. -/
def dataDirectives : List (Nat × Nat × Nat) :=
  -- `gdt32`, `gdtr32`
  [(0, 8, 0), (0x8, 8, 0xCF9A000000FFFF), (0x10, 8, 0xCF92000000FFFF), (0x18, 2, 23), (0x1A, 4, 0),
    -- `gdt64`, `gdtr64`
    (0x1E, 8, 0), (0x26, 8, 0x209A0000000000), (0x30, 2, 0), (0x32, 2, 15), (0x34, 4, 0),
    -- `pml4`, `pdpt`, `pd`
    (0x1000, 8, 1 ||| 2), (0x2000, 8, 1 ||| 2), (0x3000, 8, 1 ||| 2 ||| 0x80),
    -- `pm_jmp`, `lm_jmp`
    (0x4000, 4, 0), (0x4004, 2, 8), (0x4008, 4, 0), (0x400C, 2, 8),
    -- `start_fun_addr`, `cr3_val`, `ap_count_done`, `ap_count`
    (0x400E, 8, 0), (0x4016, 8, 0), (0x401E, 2, 0), (0x4020, 2, 0)]

/-- `.data` -/
def dataSection : Mem := dataDirectives.foldl (fun m d => m.storeLE d.1 d.2.1 d.2.2) fun _ => 0

namespace ApBootImage

variable (I : ApBootImage)

abbrev gdt32 : Nat := I.data
abbrev gdtr32 : Nat := I.data + 0x18
abbrev gdt64 : Nat := I.data + 0x1E
abbrev gdtr64 : Nat := I.data + 0x32
abbrev pml4 : Nat := I.data + 0x1000
abbrev pdpt : Nat := I.data + 0x2000
abbrev pd : Nat := I.data + 0x3000
abbrev pmJmp : Nat := I.data + 0x4000
abbrev lmJmp : Nat := I.data + 0x4008
abbrev startFunAddr : Nat := I.data + 0x400E
abbrev cr3Val : Nat := I.data + 0x4016
abbrev apCountDone : Nat := I.data + 0x401E
abbrev apCount : Nat := I.data + 0x4020

/-- `ap_boot_image_size` -/
abbrev size : Nat := I.data + 0x4022

/-- `ap_boot_image` -/
def bytes : Mem := fun x => if x < I.data then I.text x else dataSection (x - I.data)

end ApBootImage

/-! ## A processor -/

/-- Which access of a processor comes next. -/
inductive BootLoc where
  /-- `_ap_bootstrap_start`: `lock inc word ptr [ap_count]` -/
  | start
  /-- `mov word ptr [gdtr32+2], ax` -/
  | gdtrLow
  /-- `mov word ptr [gdtr32+4], bx` -/
  | gdtrHigh
  | lgdt32
  /-- `mov word ptr [pm_jmp], ax` -/
  | pmJmpLow
  /-- `mov word ptr [pm_jmp+2], bx` -/
  | pmJmpHigh
  /-- `data32 ljmp [pm_jmp]` -/
  | pmLjmp
  /-- `_pm_jmp_target`: `mov ds, ax` -/
  | pmSegments
  /-- `mov dword ptr gdtr64+2[ebp], eax` -/
  | gdtr64Base
  /-- `mov dword ptr lm_jmp[ebp], eax` -/
  | lmJmp
  /-- `lock or dword ptr pml4[ebp], eax` -/
  | orPml4
  /-- `lock or dword ptr pdpt[ebp], eax` -/
  | orPdpt
  | lgdt64
  /-- `ljmp lm_jmp[ebp]` -/
  | lmLjmp
  /-- `_lm_jmp_target`: `lock inc word ptr ap_count_done[ebp]` -/
  | countDone
  /-- `mov rax, cr3_val[ebp]` -/
  | cr3Val
  /-- `_ap_bootstrap_end`: `mov rax, start_fun_addr[ebp]` -/
  | startFunAddr
  /-- `_kernel_start` -/
  | kernelStart
  /-- `__ap_load_init_stack` -/
  | apLoadInitStack
  /-- `call __tls_create_bsp` -/
  | tlsCreateBsp
  /-- a fault, or a jump to another place -/
  | lost
  deriving DecidableEq

/-- The registers of a processor; `dsBase` is where the segment of `ds` begins. -/
structure Cpu where
  loc : BootLoc
  rax : Nat
  rbx : Nat
  rcx : Nat
  rdx : Nat
  rsi : Nat
  rdi : Nat
  rbp : Nat
  cs : Nat
  dsBase : Nat
  gdtrLimit : Nat
  gdtrBase : Nat
  cr0 : Nat
  cr3 : Nat
  cr4 : Nat
  efer : Nat
  deriving DecidableEq

/-- The low 16 bits of a register. -/
def low16 (r : Nat) : Nat := r % 2 ^ 16

/-- The low 32 bits of a register; a write to them clears the others. -/
def low32 (r : Nat) : Nat := r % 2 ^ 32

/-- A write to the low 16 bits keeps the others. -/
def set16 (r x : Nat) : Nat := r / 2 ^ 16 * 2 ^ 16 + x % 2 ^ 16

/-- Where a segment begins, from its descriptor. -/
def descriptorBase (d : Nat) : Nat := d / 2 ^ 16 % 2 ^ 24 + d / 2 ^ 56 % 2 ^ 8 * 2 ^ 24

/-- The descriptor is present, and of a code segment of 32 bits. -/
def isCode32 (d : Nat) : Bool :=
  d / 2 ^ 47 % 2 = 1 ∧ d / 2 ^ 43 % 4 = 3 ∧ d / 2 ^ 53 % 2 = 0 ∧ d / 2 ^ 54 % 2 = 1

/-- The descriptor is present, and of a code segment of 64 bits. -/
def isCode64 (d : Nat) : Bool :=
  d / 2 ^ 47 % 2 = 1 ∧ d / 2 ^ 43 % 4 = 3 ∧ d / 2 ^ 53 % 2 = 1 ∧ d / 2 ^ 54 % 2 = 0

/-- The descriptor is present, and of a writable data segment. -/
def isData (d : Nat) : Bool := d / 2 ^ 47 % 2 = 1 ∧ d / 2 ^ 43 % 4 = 2 ∧ d / 2 ^ 41 % 2 = 1

namespace Cpu

/-- INIT and SIPI: the processor begins at `vec << 12` in real mode, and its general registers are zero. -/
def afterSipi (vec : Nat) : Cpu :=
  ⟨.start, 0, 0, 0, 0, 0, 0, 0, vec * 0x100, 0, 0xFFFF, 0, 0x60000010, 0, 0, 0⟩

/-- `CR0.PG` -/
def paging (c : Cpu) : Bool := c.cr0 / 2 ^ 31 % 2 = 1

/-- Paging is on, with `CR4.PAE` and `IA32_EFER.LME`. -/
def longMode (c : Cpu) : Bool := c.paging ∧ c.cr4 / 2 ^ 5 % 2 = 1 ∧ c.efer / 2 ^ 8 % 2 = 1

/-- The physical address of a linear address. Paging other than that of long mode is not modelled. -/
def linear (c : Cpu) (m : Mem) (a : Nat) : Option Nat :=
  if ¬c.paging then some a else if c.longMode then Paging.translate m c.cr3 a else none

/-- A load of `n` bytes. -/
def load (c : Cpu) (m : Mem) (a n : Nat) : Option Nat := (c.linear m a).map fun x => m.loadLE x n

/-- The descriptor of a selector. -/
def descriptor (c : Cpu) (m : Mem) (sel : Nat) : Option Nat :=
  if sel / 8 * 8 + 7 ≤ c.gdtrLimit then c.load m (c.gdtrBase + sel / 8 * 8) 8 else none

/-- The code at `a` is found where it lies. -/
def fetch (c : Cpu) (m : Mem) (a : Nat) : Option Unit := if c.linear m a = some a then some () else none

/-- `label[ebp]` in 32-bit code -/
def ebpAddr (c : Cpu) (label : Nat) : Nat := low32 (c.dsBase + low32 (label + c.rbp))

/-- `mov ax, cs` to `mov si, ax`: the base address is left in `di:si`. -/
def loadBase (c : Cpu) : Cpu :=
  let base := low16 c.cs * 0x10
  { c with
    dsBase := base
    rax := set16 c.rax base
    rdx := set16 c.rdx (base / 2 ^ 16)
    rdi := set16 c.rdi (base / 2 ^ 16)
    rsi := set16 c.rsi base }

/-- `lea ax, [label]`, `mov bx, 0`, `add ax, si`, `adc bx, di`. -/
def addBase (c : Cpu) (label : Nat) : Cpu :=
  let sum := low16 label + low16 c.rsi
  { c with rax := set16 c.rax sum, rbx := set16 c.rbx (low16 c.rdi + sum / 2 ^ 16) }

/-- `mov eax, cr0`, `or eax, x`, `mov cr0, eax`. -/
def orCr0 (c : Cpu) (x : Nat) : Cpu :=
  let eax := low32 c.cr0 ||| x
  { c with rax := eax, cr0 := eax }

/-- `mov ecx, 0xC0000080` to `wrmsr`. -/
def enableLongMode (c : Cpu) : Cpu :=
  let eax := low32 c.efer ||| 0x100
  let edx := c.efer / 2 ^ 32
  { c with rcx := 0xC0000080, rax := eax, rdx := edx, efer := edx * 2 ^ 32 + eax }

end Cpu

/-- `lock inc word ptr` -/
def inc16 (m : Mem) (a : Nat) : Mem := m.storeLE a 2 (m.loadLE a 2 + 1)

/-- The next access of a processor, and the instructions around it; nothing if it faults or jumps
away. The image `I` lies at `paddr`, and `kernelStart` is the address of `_kernel_start`. -/
def apInstr (I : ApBootImage) (paddr kernelStart : Nat) (m : Mem) (c : Cpu) : Option (Mem × Cpu) :=
  match c.loc with
  -- real mode
  | .start => do
    let c := c.loadBase
    return (inc16 m (c.dsBase + I.apCount), { c with loc := .gdtrLow })
  | .gdtrLow => do
    let c := c.addBase I.gdt32
    return (m.storeLE (c.dsBase + (I.gdtr32 + 2)) 2 (low16 c.rax), { c with loc := .gdtrHigh })
  | .gdtrHigh => return (m.storeLE (c.dsBase + (I.gdtr32 + 4)) 2 (low16 c.rbx), { c with loc := .lgdt32 })
  | .lgdt32 =>
    -- with operands of 16 bits, 24 bits of the base are used
    return (m, { c with
      gdtrLimit := m.loadLE (c.dsBase + I.gdtr32) 2
      gdtrBase := m.loadLE (c.dsBase + (I.gdtr32 + 2)) 4 % 2 ^ 24
      loc := .pmJmpLow })
  | .pmJmpLow => do
    let c := c.addBase I.pmJmpTarget
    return (m.storeLE (c.dsBase + I.pmJmp) 2 (low16 c.rax), { c with loc := .pmJmpHigh })
  | .pmJmpHigh => return (m.storeLE (c.dsBase + (I.pmJmp + 2)) 2 (low16 c.rbx), { c with loc := .pmLjmp })
  | .pmLjmp => do
    let c := c.orCr0 1
    let offset ← c.load m (c.dsBase + I.pmJmp) 4
    let sel ← c.load m (c.dsBase + (I.pmJmp + 4)) 2
    let d ← c.descriptor m sel
    if isCode32 d ∧ descriptorBase d + offset = paddr + I.pmJmpTarget then
      return (m, { c with cs := sel, loc := .pmSegments })
    else none
  -- protected mode
  | .pmSegments => do
    let d ← c.descriptor m 16
    if isData d then return (m, { c with rax := set16 c.rax 0, dsBase := descriptorBase d, loc := .gdtr64Base })
    else none
  | .gdtr64Base => do
    let ebp := set16 (low32 (set16 c.rbp c.rdi * 2 ^ 16)) c.rsi
    let c := { c with rbp := ebp, rax := low32 (I.gdt64 + ebp) }
    return (m.storeLE (c.ebpAddr (I.gdtr64 + 2)) 4 c.rax, { c with loc := .lmJmp })
  | .lmJmp => do
    let c := { c with rax := low32 (I.lmJmpTarget + c.rbp) }
    return (m.storeLE (c.ebpAddr I.lmJmp) 4 c.rax, { c with loc := .orPml4 })
  | .orPml4 => do
    let c := { c with cr4 := low32 c.cr4 ||| 0x20, rax := low32 (I.pdpt + c.rbp) }
    let a := c.ebpAddr I.pml4
    return (m.storeLE a 4 (m.loadLE a 4 ||| c.rax), { c with loc := .orPdpt })
  | .orPdpt => do
    let c := { c with rax := low32 (I.pd + c.rbp) }
    let a := c.ebpAddr I.pdpt
    return (m.storeLE a 4 (m.loadLE a 4 ||| c.rax), { c with loc := .lgdt64 })
  | .lgdt64 => do
    let c := ({ c with cr3 := low32 (I.pml4 + c.rbp) }.enableLongMode).orCr0 0x80000000
    c.fetch m (paddr + I.pmJmpTarget)
    let limit ← c.load m (c.ebpAddr I.gdtr64) 2
    let base ← c.load m (c.ebpAddr (I.gdtr64 + 2)) 4
    return (m, { c with gdtrLimit := limit, gdtrBase := base, loc := .lmLjmp })
  | .lmLjmp => do
    c.fetch m (paddr + I.pmJmpTarget)
    let offset ← c.load m (c.ebpAddr I.lmJmp) 4
    let sel ← c.load m (c.ebpAddr (I.lmJmp + 4)) 2
    let d ← c.descriptor m sel
    if isCode64 d ∧ offset = paddr + I.lmJmpTarget then return (m, { c with cs := sel, loc := .countDone })
    else none
  -- long mode: segments begin at zero
  | .countDone => do
    let c := { c with rax := set16 c.rax 0, dsBase := 0 }
    c.fetch m (paddr + I.lmJmpTarget)
    let a ← c.linear m (c.ebpAddr I.apCountDone)
    return (inc16 m a, { c with loc := .cr3Val })
  | .cr3Val => do
    c.fetch m (paddr + I.lmJmpTarget)
    let rax ← c.load m (c.ebpAddr I.cr3Val) 8
    return (m, { c with rax := rax, cr3 := rax, loc := .startFunAddr })
  | .startFunAddr => do
    c.fetch m (paddr + I.apBootstrapEnd)
    let rax ← c.load m (c.ebpAddr I.startFunAddr) 8
    if rax = kernelStart then return (m, { c with rax := rax, loc := .kernelStart }) else none
  -- `src/kernel/kernel_start.s`
  | .kernelStart => do
    let rax := c.cr0 &&& 0xFFFFFFFFFFFFFFFB ||| 0x2
    let c := { c with rbx := c.rdi, cr4 := c.cr4 ||| 0x600, cr0 := rax, rax := rax }
    return (m, { c with loc := if c.rbx = 0 then .apLoadInitStack else .tlsCreateBsp })
  | .apLoadInitStack | .tlsCreateBsp | .lost => return (m, c)

/-! ## All processors -/

/-- What `boot_aps` starts with: physical memory, the kernel's root that `__ap_boot_get_cr3`
returns, and the address of `_kernel_start`. The kernel's page tables show the image where it lies:
`init_mmap` leaves its pages as the firmware has mapped them. -/
structure BootSetup (paddr size : Nat) where
  mem : Mem
  cr3 : Nat
  kernelStart : Nat
  cr3_lt : cr3 < 2 ^ 64
  start_lt : kernelStart < 2 ^ 64
  identity : ∀ m : Mem, (∀ a, a < paddr ∨ paddr + size ≤ a → m a = mem a) →
    ∀ x, paddr ≤ x → x < paddr + size → Paging.translate m cr3 x = some x

/-- `boot_aps`, up to `send_init_sipi_sipi`: the image is copied, and two of its words are set. -/
def BootSetup.copied (I : ApBootImage) {paddr : Nat} (K : BootSetup paddr I.size) : Mem :=
  let m : Mem := fun a => if paddr ≤ a ∧ a < paddr + I.size then I.bytes (a - paddr) else K.mem a
  let m := m.store64 (paddr + I.size - 12) K.cr3
  m.store64 (paddr + I.size - 20) K.kernelStart

/-- Memory and the processors. -/
structure ApBoot (P : Type) where
  mem : Mem
  cpu : P → Cpu

namespace ApBoot

variable {P : Type} {I : ApBootImage} {paddr : Nat}

/-- `send_init_sipi_sipi((uintptr_t)ap_boot_paddr>>12)` -/
def sent (P : Type) (K : BootSetup paddr I.size) : ApBoot P :=
  ⟨K.copied I, fun _ => Cpu.afterSipi (paddr / 2 ^ 12 % 2 ^ 8)⟩

variable [DecidableEq P]

/-- Processor `p` takes its next step. -/
def step (K : BootSetup paddr I.size) (s : ApBoot P) (p : P) : ApBoot P :=
  let r := (apInstr I paddr K.kernelStart s.mem (s.cpu p)).getD (s.mem, { s.cpu p with loc := .lost })
  ⟨r.1, Function.update s.cpu p r.2⟩

/-- The processors take their steps in the order of the schedule. -/
def run (K : BootSetup paddr I.size) (schedule : List P) : ApBoot P := schedule.foldl (step K) (sent P K)

end ApBoot

/-! ## The choice of the address -/

/-- `EFI_MEMORY_TYPE`, as `init_mmap` tells them apart. -/
inductive EfiMemoryType where
  | loaderCode
  | loaderData
  | bootServicesCode
  | bootServicesData
  | conventionalMemory
  | persistentMemory
  /-- `EFI_MEM_TYPE_KERNEL` -/
  | kernel
  | other
  deriving DecidableEq

/-- The cases of `init_mmap` that give their frames to `phys_mmap`. -/
def EfiMemoryType.usable : EfiMemoryType → Bool
  | .loaderCode | .loaderData | .bootServicesCode | .bootServicesData | .conventionalMemory
  | .persistentMemory => true
  | .kernel | .other => false

/-- `EFI_MEMORY_DESCRIPTOR`, as far as it is read. -/
structure EfiMemoryDescriptor where
  type : EfiMemoryType
  physicalStart : UInt64
  numberOfPages : UInt64

/-- `ap_boot_paddr` after the loop of `init_mmap`; nothing if `ap_boot_paddr_unset` is left. -/
def apBootPaddr (size : Nat) : List EfiMemoryDescriptor → Option Nat
  | [] => none
  | d :: ds =>
    if d.type.usable ∧ d.physicalStart.toNat ≤ 0xFF000 ∧ size ≤ (0x1000 * d.numberOfPages).toNat then
      some d.physicalStart.toNat
    else apBootPaddr size ds

end KoalemOS.Smp
