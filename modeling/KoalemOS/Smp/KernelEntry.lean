import KoalemOS.Smp.ImageWords

/-!
# How application processors enter the kernel

A processor finds in the shared image what it has written itself, whatever the others do, and goes
through the image as if it were alone. It reaches `_kernel_start` with the upper half of the base
address still in `rdi`, where the kernel expects zero of an application processor (`apBoot_iff`).

- `Cpu.Good`: what a processor holds at each place
- `advances`: the next step of a processor, one lemma for each place
- `ApBootInv`: what holds in every state of every run
-/

namespace KoalemOS.Smp

open KoalemOS.Library

/-! ## What a processor holds -/

/-- The 16-bit code behind `mov si, ax`. -/
structure Cpu.Real (paddr : Nat) (c : Cpu) : Prop where
  rdi : c.rdi = paddr / 2 ^ 16
  rsi : c.rsi = paddr % 2 ^ 16
  ds : c.dsBase = paddr
  cr0 : c.cr0 = 0x60000010
  cr4 : c.cr4 = 0
  efer : c.efer = 0

/-- The 32-bit code. -/
structure Cpu.Protected (paddr cr4 : Nat) (c : Cpu) : Prop where
  rdi : c.rdi = paddr / 2 ^ 16
  rsi : c.rsi = paddr % 2 ^ 16
  cr0 : c.cr0 = 0x60000011
  cr4 : c.cr4 = cr4
  efer : c.efer = 0

/-- The code that runs with paging. -/
structure Cpu.Long (paddr cr3 : Nat) (c : Cpu) : Prop where
  rdi : c.rdi = paddr / 2 ^ 16
  rbp : c.rbp = paddr
  ds : c.dsBase = 0
  cr0 : c.cr0 = 0xE0000011
  cr3 : c.cr3 = cr3
  cr4 : c.cr4 = 0x20
  efer : c.efer = 0x100

/-- What is in `gdtr`. -/
def Cpu.Gdt (limit base : Nat) (c : Cpu) : Prop := c.gdtrLimit = limit ∧ c.gdtrBase = base

/-- The base address is in `ebp`, and segments begin at zero. -/
def Cpu.Based (paddr : Nat) (c : Cpu) : Prop := c.rbp = paddr ∧ c.dsBase = 0

section Steps

open ImageWord

variable {I : ApBootImage} {paddr : Nat} {K : BootSetup paddr I.size}

/-- What a processor holds, by the place it is at. -/
def Cpu.Good (K : BootSetup paddr I.size) (c : Cpu) : Prop :=
  match c.loc with
  | .start => c = Cpu.afterSipi (paddr / 2 ^ 12 % 2 ^ 8)
  | .gdtrLow | .lgdt32 => c.Real paddr
  | .gdtrHigh => c.Real paddr ∧ low16 c.rbx = gdtr32High.right I K
  | .pmJmpLow | .pmLjmp => c.Real paddr ∧ c.Gdt 23 (paddr + I.gdt32)
  | .pmJmpHigh => (c.Real paddr ∧ c.Gdt 23 (paddr + I.gdt32)) ∧ low16 c.rbx = pmJmpHigh.right I K
  | .pmSegments => c.Protected paddr 0 ∧ c.Gdt 23 (paddr + I.gdt32)
  | .gdtr64Base => c.Protected paddr 0 ∧ c.dsBase = 0
  | .lmJmp | .orPml4 => c.Protected paddr 0 ∧ c.Based paddr
  | .orPdpt | .lgdt64 => c.Protected paddr 0x20 ∧ c.Based paddr
  | .lmLjmp => c.Long paddr (paddr + I.pml4) ∧ c.Gdt 15 (paddr + I.gdt64)
  | .countDone | .cr3Val => c.Long paddr (paddr + I.pml4)
  | .startFunAddr => c.Long paddr K.cr3
  | .kernelStart => c.rdi = paddr / 2 ^ 16 ∧ c.cr3 = K.cr3
  | .apLoadInitStack => paddr < 0x10000 ∧ c.cr3 = K.cr3
  | .tlsCreateBsp => 0x10000 ≤ paddr ∧ c.cr3 = K.cr3
  | .lost => False

/-- The next step of a processor is one of the code, and leads to the next place. -/
def Advances (K : BootSetup paddr I.size) (m : Mem) (c : Cpu) : Prop :=
  ∃ m' c', apInstr I paddr K.kernelStart m c = some (m', c') ∧ c'.Good K ∧
    c'.loc.rank = c.loc.rank + 1 ∧ Patches K c.loc.rank m m'

theorem Advances.of {m m' : Mem} {c c' : Cpu} {l : BootLoc} (hloc : c.loc = l)
    (hstep : apInstr I paddr K.kernelStart m c = some (m', c')) (hgood : c'.Good K)
    (hrank : c'.loc.rank = l.rank + 1) (hp : Patches K l.rank m m') : Advances K m c := by
  subst hloc
  exact ⟨m', c', hstep, hgood, hrank, hp⟩

/-! ## Real mode -/

theorem low16_set16 (r x : Nat) : low16 (set16 r x) = low16 x := by
  unfold low16 set16
  omega

theorem Cpu.Real.goto {c : Cpu} (h : c.Real paddr) (l : BootLoc) : ({ c with loc := l } : Cpu).Real paddr :=
  ⟨h.rdi, h.rsi, h.ds, h.cr0, h.cr4, h.efer⟩

theorem Cpu.Real.addBase {c : Cpu} (h : c.Real paddr) (label : Nat) : (c.addBase label).Real paddr :=
  ⟨h.rdi, h.rsi, h.ds, h.cr0, h.cr4, h.efer⟩

/-- The sum of the base address and a label is left in `bx:ax`. -/
theorem Cpu.Real.sum {c : Cpu} (h : c.Real paddr) (hl : LowPage paddr) {label : Nat} (hlabel : label < 2 ^ 16) :
    low16 (c.addBase label).rax = (paddr + label) % 2 ^ 16 ∧
      low16 (c.addBase label).rbx = (paddr + label) / 2 ^ 16 := by
  have hlow := hl.low
  simp only [Cpu.addBase, low16_set16, h.rdi, h.rsi]
  unfold low16
  omega

/-- Without paging, memory is read where it is addressed. -/
theorem Cpu.load_flat {c : Cpu} (h : c.paging = false) (m : Mem) (a n : Nat) :
    c.load m a n = some (m.loadLE a n) := by
  simp [Cpu.load, Cpu.linear, h]

variable {m : Mem} {c : Cpu}

/-- The base address is computed from `cs`. -/
theorem advances_start (hl : LowPage paddr) (h : c = Cpu.afterSipi (paddr / 2 ^ 12 % 2 ^ 8)) :
    Advances K m c := by
  have hlow := hl.low
  have hpage := hl.aligned
  subst h
  have hbase : low16 (paddr / 2 ^ 12 % 2 ^ 8 * 0x100) * 0x10 = paddr := by
    unfold low16
    omega
  have hreal : (Cpu.loadBase (Cpu.afterSipi (paddr / 2 ^ 12 % 2 ^ 8))).Real paddr := by
    simp only [Cpu.loadBase, Cpu.afterSipi, hbase]
    exact ⟨by simp [set16]; omega, by simp [set16], rfl, rfl, rfl, rfl⟩
  refine .of (l := .start) rfl rfl (hreal.goto .gdtrLow) rfl (.inc16 (by decide) ?_ ?_)
  · rw [hreal.ds]
    simp only [ApBootImage.apCount]
    omega
  · rw [hreal.ds]
    simp only [ApBootImage.apCount, ApBootImage.size]
    omega

theorem advances_gdtrLow (hl : LowPage paddr) (hloc : c.loc = .gdtrLow) (h : c.Real paddr) : Advances K m c := by
  have hreal := h.addBase I.gdt32
  obtain ⟨hlow, hhigh⟩ := h.sum hl (I.object_lt (k := 0) (by decide))
  have hstep : apInstr I paddr K.kernelStart m c =
      some (m.storeLE ((c.addBase I.gdt32).dsBase + (I.gdtr32 + 2)) 2 (low16 (c.addBase I.gdt32).rax),
        { c.addBase I.gdt32 with loc := .gdtrHigh }) := by
    unfold apInstr
    rw [hloc]
    rfl
  have haddr : (c.addBase I.gdt32).dsBase + (I.gdtr32 + 2) = gdtr32Low.addr I paddr := by
    rw [hreal.ds]
    rfl
  exact .of hloc hstep ⟨hreal.goto _, hhigh⟩ rfl (.store hl gdtr32Low (by decide) haddr rfl hlow)

theorem advances_gdtrHigh (hl : LowPage paddr) (hloc : c.loc = .gdtrHigh) (h : c.Real paddr)
    (hrbx : low16 c.rbx = gdtr32High.right I K) : Advances K m c := by
  have hstep : apInstr I paddr K.kernelStart m c =
      some (m.storeLE (c.dsBase + (I.gdtr32 + 4)) 2 (low16 c.rbx), { c with loc := .lgdt32 }) := by
    unfold apInstr
    rw [hloc]
    rfl
  have haddr : c.dsBase + (I.gdtr32 + 4) = gdtr32High.addr I paddr := by
    rw [h.ds]
    rfl
  exact .of hloc hstep (h.goto .lgdt32) rfl (.store hl gdtr32High (by decide) haddr rfl hrbx)

theorem advances_lgdt32 (hl : LowPage paddr) (hloc : c.loc = .lgdt32) (h : c.Real paddr)
    (hw : (imageWords K).Written 3 m) : Advances K m c := by
  have hlimit : m.loadLE (c.dsBase + I.gdtr32) 2 = 23 := by
    rw [h.ds]
    exact (load_written hw gdtr32Limit (by decide) rfl rfl).trans (initial_eq gdtr32Limit)
  have hload : m.loadLE (c.dsBase + (I.gdtr32 + 2)) 4 = paddr + I.gdt32 := by
    rw [h.ds]
    exact (load_written_add hw gdtr32Low gdtr32High (by decide) (by decide) rfl rfl rfl).trans (Nat.mod_add_div _ _)
  have hbase : m.loadLE (c.dsBase + (I.gdtr32 + 2)) 4 % 2 ^ 24 = paddr + I.gdt32 := by
    have hlow := hl.low
    have hreach := I.reach
    rw [hload]
    apply Nat.mod_eq_of_lt
    simp only [ApBootImage.gdt32]
    omega
  have hstep : apInstr I paddr K.kernelStart m c =
      some (m, { c with
        gdtrLimit := m.loadLE (c.dsBase + I.gdtr32) 2
        gdtrBase := m.loadLE (c.dsBase + (I.gdtr32 + 2)) 4 % 2 ^ 24
        loc := .pmJmpLow }) := by
    unfold apInstr
    rw [hloc]
    rfl
  exact .of hloc hstep ⟨⟨h.rdi, h.rsi, h.ds, h.cr0, h.cr4, h.efer⟩, hlimit, hbase⟩ rfl (.refl (by decide))

theorem advances_pmJmpLow (hl : LowPage paddr) (hloc : c.loc = .pmJmpLow) (h : c.Real paddr)
    (hgdt : c.Gdt 23 (paddr + I.gdt32)) : Advances K m c := by
  have hreal := h.addBase I.pmJmpTarget
  obtain ⟨hlow, hhigh⟩ := h.sum hl I.target_lt.1
  have hstep : apInstr I paddr K.kernelStart m c =
      some (m.storeLE ((c.addBase I.pmJmpTarget).dsBase + I.pmJmp) 2 (low16 (c.addBase I.pmJmpTarget).rax),
        { c.addBase I.pmJmpTarget with loc := .pmJmpHigh }) := by
    unfold apInstr
    rw [hloc]
    rfl
  have haddr : (c.addBase I.pmJmpTarget).dsBase + I.pmJmp = pmJmpLow.addr I paddr := by
    rw [hreal.ds]
    rfl
  exact .of hloc hstep ⟨⟨hreal.goto _, hgdt⟩, hhigh⟩ rfl (.store hl pmJmpLow (by decide) haddr rfl hlow)

theorem advances_pmJmpHigh (hl : LowPage paddr) (hloc : c.loc = .pmJmpHigh) (h : c.Real paddr)
    (hgdt : c.Gdt 23 (paddr + I.gdt32)) (hrbx : low16 c.rbx = pmJmpHigh.right I K) : Advances K m c := by
  have hstep : apInstr I paddr K.kernelStart m c =
      some (m.storeLE (c.dsBase + (I.pmJmp + 2)) 2 (low16 c.rbx), { c with loc := .pmLjmp }) := by
    unfold apInstr
    rw [hloc]
    rfl
  have haddr : c.dsBase + (I.pmJmp + 2) = pmJmpHigh.addr I paddr := by
    rw [h.ds]
    rfl
  exact .of hloc hstep ⟨h.goto .pmLjmp, hgdt⟩ rfl (.store hl pmJmpHigh (by decide) haddr rfl hrbx)

/-- The far jump to protected mode lands. -/
theorem advances_pmLjmp (hloc : c.loc = .pmLjmp) (h : c.Real paddr) (hgdt : c.Gdt 23 (paddr + I.gdt32))
    (hw : (imageWords K).Written 6 m) : Advances K m c := by
  have hpaging : (c.orCr0 1).paging = false := by simp [Cpu.paging, Cpu.orCr0, h.cr0, low32]
  have hds : (c.orCr0 1).dsBase = paddr := h.ds
  have hoffset : m.loadLE (paddr + I.pmJmp) 4 = paddr + I.pmJmpTarget :=
    (load_written_add hw pmJmpLow pmJmpHigh (by decide) (by decide) rfl rfl rfl).trans (Nat.mod_add_div _ _)
  have hsel : m.loadLE (paddr + (I.pmJmp + 4)) 2 = 8 :=
    (load_written hw pmJmpSel (by decide) rfl rfl).trans (initial_eq pmJmpSel)
  have hcode : m.loadLE (paddr + I.gdt32 + 8) 8 = 0xCF9A000000FFFF :=
    (load_written hw gdt32Code (by decide) rfl rfl).trans (initial_eq gdt32Code)
  have hdescriptor : (c.orCr0 1).descriptor m 8 = some 0xCF9A000000FFFF := by
    rw [Cpu.descriptor, show (c.orCr0 1).gdtrLimit = 23 from hgdt.1, show (c.orCr0 1).gdtrBase = _ from hgdt.2,
      Cpu.load_flat hpaging, if_pos (by decide), hcode]
  have hcode32 : isCode32 0xCF9A000000FFFF = true ∧ descriptorBase 0xCF9A000000FFFF = 0 := by decide
  have hstep : apInstr I paddr K.kernelStart m c =
      some (m, { c.orCr0 1 with cs := 8, loc := .pmSegments }) := by
    unfold apInstr
    rw [hloc]
    simp [Cpu.load_flat hpaging, hds, hoffset, hsel, hdescriptor, hcode32]
  have hcr0 : (c.orCr0 1).cr0 = 0x60000011 := by simp [Cpu.orCr0, h.cr0, low32]
  exact .of hloc hstep ⟨⟨h.rdi, h.rsi, hcr0, h.cr4, h.efer⟩, hgdt⟩ rfl (.refl (by decide))

/-! ## Protected mode -/

theorem Cpu.Protected.paging {cr4 : Nat} (h : c.Protected paddr cr4) : c.paging = false := by
  simp [Cpu.paging, h.cr0]

/-- Objects of the image are addressed where they lie. -/
theorem ebpAddr_eq (hl : LowPage paddr) {label : Nat} (hlabel : label < 2 ^ 16) :
    low32 (0 + low32 (label + paddr)) = paddr + label := by
  have hlow := hl.low
  unfold low32
  omega

/-- A link is or-ed into an entry that holds it already, or only the flags. -/
theorem or_link {x link : Nat} (hlink : link % 4096 = 0) (h : x = link + 3 ∨ x = 3) : x ||| link = link + 3 := by
  have hflags : link ||| 3 = link + 3 := lor_eq_add (i := 12) hlink (by decide)
  rcases h with rfl | rfl
  · rw [← hflags, Nat.or_assoc, Nat.or_comm 3 link, ← Nat.or_assoc, Nat.or_self]
  · rw [Nat.or_comm, hflags]

theorem advances_pmSegments (hloc : c.loc = .pmSegments) (h : c.Protected paddr 0)
    (hgdt : c.Gdt 23 (paddr + I.gdt32)) (hw : (imageWords K).Written 7 m) : Advances K m c := by
  have hdata : m.loadLE (paddr + I.gdt32 + 16) 8 = 0xCF92000000FFFF :=
    (load_written hw gdt32Data (by decide) rfl rfl).trans (initial_eq gdt32Data)
  have hdescriptor : c.descriptor m 16 = some 0xCF92000000FFFF := by
    rw [Cpu.descriptor, hgdt.1, hgdt.2, Cpu.load_flat h.paging, if_pos (by decide), hdata]
  have hflat : isData 0xCF92000000FFFF = true ∧ descriptorBase 0xCF92000000FFFF = 0 := by decide
  have hstep : apInstr I paddr K.kernelStart m c =
      some (m, { c with rax := set16 c.rax 0, dsBase := 0, loc := .gdtr64Base }) := by
    unfold apInstr
    rw [hloc]
    simp [hdescriptor, hflat]
  exact .of hloc hstep ⟨⟨h.rdi, h.rsi, h.cr0, h.cr4, h.efer⟩, rfl⟩ rfl (.refl (by decide))

/-- The base address is put together in `ebp`. -/
theorem advances_gdtr64Base (hl : LowPage paddr) (hloc : c.loc = .gdtr64Base) (h : c.Protected paddr 0)
    (hds : c.dsBase = 0) : Advances K m c := by
  have hlow := hl.low
  have hreach := I.reach
  have hebp : set16 (low32 (set16 c.rbp c.rdi * 2 ^ 16)) c.rsi = paddr := by
    rw [h.rdi, h.rsi]
    unfold low32 set16
    omega
  have hrax : low32 (I.gdt64 + paddr) = paddr + I.gdt64 := by
    simp only [low32, ApBootImage.gdt64]
    omega
  have haddr : low32 (0 + low32 (I.gdtr64 + 2 + paddr)) = paddr + (I.gdtr64 + 2) :=
    ebpAddr_eq hl (I.object_lt (k := 0x34) (by decide))
  have hstep : apInstr I paddr K.kernelStart m c =
      some (m.storeLE (paddr + (I.gdtr64 + 2)) 4 (paddr + I.gdt64),
        { c with rbp := paddr, rax := paddr + I.gdt64, loc := .lmJmp }) := by
    unfold apInstr
    rw [hloc]
    simp only [Cpu.ebpAddr, hebp, hrax, hds, haddr]
    rfl
  exact .of hloc hstep ⟨⟨h.rdi, h.rsi, h.cr0, h.cr4, h.efer⟩, rfl, hds⟩ rfl
    (.store hl gdtr64Base (by decide) rfl rfl rfl)

theorem advances_lmJmp (hl : LowPage paddr) (hloc : c.loc = .lmJmp) (h : c.Protected paddr 0)
    (hbased : c.Based paddr) : Advances K m c := by
  have hlow := hl.low
  have hreach := I.reach
  have hlm := I.lm_lt
  have hrax : low32 (I.lmJmpTarget + paddr) = paddr + I.lmJmpTarget := by
    unfold low32
    omega
  have haddr : low32 (0 + low32 (I.lmJmp + paddr)) = paddr + I.lmJmp :=
    ebpAddr_eq hl (I.object_lt (k := 0x4008) (by decide))
  have hstep : apInstr I paddr K.kernelStart m c =
      some (m.storeLE (paddr + I.lmJmp) 4 (paddr + I.lmJmpTarget),
        { c with rax := paddr + I.lmJmpTarget, loc := .orPml4 }) := by
    unfold apInstr
    rw [hloc]
    simp only [Cpu.ebpAddr, hbased.1, hbased.2, hrax, haddr]
    rfl
  exact .of hloc hstep ⟨⟨h.rdi, h.rsi, h.cr0, h.cr4, h.efer⟩, hbased⟩ rfl
    (.store hl ImageWord.lmJmp (by decide) rfl rfl rfl)

/-- The PML4 is linked to the table below it. -/
theorem advances_orPml4 (hl : LowPage paddr) (hloc : c.loc = .orPml4) (h : c.Protected paddr 0)
    (hbased : c.Based paddr)
    (hword : m.loadLE (paddr + I.pml4) 4 = pml4Low.right I K ∨ m.loadLE (paddr + I.pml4) 4 = pml4Low.initial) :
    Advances K m c := by
  have hlow := hl.low
  have hreach := I.reach
  have hpage := hl.aligned
  have hdata := I.aligned
  have hrax : low32 (I.pdpt + paddr) = paddr + I.pdpt := by
    simp only [low32, ApBootImage.pdpt]
    omega
  have haddr : low32 (0 + low32 (I.pml4 + paddr)) = paddr + I.pml4 :=
    ebpAddr_eq hl (I.object_lt (k := 0x1000) (by decide))
  have hor : m.loadLE (paddr + I.pml4) 4 ||| (paddr + I.pdpt) = paddr + I.pdpt + 3 := by
    refine or_link ?_ (hword.imp_right fun heq => heq.trans (initial_eq pml4Low))
    simp only [ApBootImage.pdpt]
    omega
  have hstep : apInstr I paddr K.kernelStart m c =
      some (m.storeLE (paddr + I.pml4) 4 (paddr + I.pdpt + 3),
        { c with cr4 := low32 c.cr4 ||| 0x20, rax := paddr + I.pdpt, loc := .orPdpt }) := by
    unfold apInstr
    rw [hloc]
    simp only [Cpu.ebpAddr, hbased.1, hbased.2, hrax, haddr, hor]
    rfl
  have hcr4 : low32 c.cr4 ||| 0x20 = 0x20 := by simp [h.cr4, low32]
  exact .of hloc hstep ⟨⟨h.rdi, h.rsi, h.cr0, hcr4, h.efer⟩, hbased⟩ rfl
    (.store hl pml4Low (by decide) rfl rfl rfl)

/-- The table below it is linked to the page directory. -/
theorem advances_orPdpt (hl : LowPage paddr) (hloc : c.loc = .orPdpt) (h : c.Protected paddr 0x20)
    (hbased : c.Based paddr)
    (hword : m.loadLE (paddr + I.pdpt) 4 = pdptLow.right I K ∨ m.loadLE (paddr + I.pdpt) 4 = pdptLow.initial) :
    Advances K m c := by
  have hlow := hl.low
  have hreach := I.reach
  have hpage := hl.aligned
  have hdata := I.aligned
  have hrax : low32 (I.pd + paddr) = paddr + I.pd := by
    simp only [low32, ApBootImage.pd]
    omega
  have haddr : low32 (0 + low32 (I.pdpt + paddr)) = paddr + I.pdpt :=
    ebpAddr_eq hl (I.object_lt (k := 0x2000) (by decide))
  have hor : m.loadLE (paddr + I.pdpt) 4 ||| (paddr + I.pd) = paddr + I.pd + 3 := by
    refine or_link ?_ (hword.imp_right fun heq => heq.trans (initial_eq pdptLow))
    simp only [ApBootImage.pd]
    omega
  have hstep : apInstr I paddr K.kernelStart m c =
      some (m.storeLE (paddr + I.pdpt) 4 (paddr + I.pd + 3), { c with rax := paddr + I.pd, loc := .lgdt64 }) := by
    unfold apInstr
    rw [hloc]
    simp only [Cpu.ebpAddr, hbased.1, hbased.2, hrax, haddr, hor]
    rfl
  exact .of hloc hstep ⟨⟨h.rdi, h.rsi, h.cr0, h.cr4, h.efer⟩, hbased⟩ rfl
    (.store hl pdptLow (by decide) rfl rfl rfl)

/-! ## Long mode -/

/-- The temporary tables show the image where it lies. -/
theorem Cpu.Long.linear {r o : Nat} (h : c.Long paddr (paddr + I.pml4)) (hl : LowPage paddr)
    (hw : (imageWords K).Written r m) (hr : 12 ≤ r) (ho : o < 2 ^ 16) : c.linear m (paddr + o) = some (paddr + o) := by
  have hlow := hl.low
  have hmodes : c.paging = true ∧ c.longMode = true := by
    simp [Cpu.longMode, Cpu.paging, h.cr0, h.cr4, h.efer]
  have htranslate : Paging.translate m (paddr + I.pml4) (paddr + o) = some (paddr + o) :=
    translate_written hl hw hr (by omega)
  simp [Cpu.linear, hmodes, h.cr3, htranslate]

/-- So do the kernel's. -/
theorem Cpu.Long.linear_kernel {o : Nat} (h : c.Long paddr K.cr3)
    (hm : ∀ a, a < paddr ∨ paddr + I.size ≤ a → m a = K.mem a) (ho : o < I.size) :
    c.linear m (paddr + o) = some (paddr + o) := by
  have hmodes : c.paging = true ∧ c.longMode = true := by
    simp [Cpu.longMode, Cpu.paging, h.cr0, h.cr4, h.efer]
  have htranslate := K.identity m hm (paddr + o) (Nat.le_add_right _ _) (Nat.add_lt_add_left ho paddr)
  simp [Cpu.linear, hmodes, h.cr3, htranslate]

/-- Objects of the image are addressed where they lie. -/
theorem Cpu.Long.ebpAddr {cr3 label : Nat} (h : c.Long paddr cr3) (hl : LowPage paddr) (hlabel : label < 2 ^ 16) :
    c.ebpAddr label = paddr + label := by
  rw [Cpu.ebpAddr, h.rbp, h.ds, ebpAddr_eq hl hlabel]

theorem Cpu.fetch_linear {a : Nat} (h : c.linear m a = some a) : c.fetch m a = some () := by
  rw [Cpu.fetch, if_pos h]

theorem Cpu.load_linear {a : Nat} (h : c.linear m a = some a) (n : Nat) : c.load m a n = some (m.loadLE a n) := by
  rw [Cpu.load, h, Option.map_some]

/-- Paging is switched on with the tables linked. -/
theorem advances_lgdt64 (hl : LowPage paddr) (hloc : c.loc = .lgdt64) (h : c.Protected paddr 0x20)
    (hbased : c.Based paddr) (hw : (imageWords K).Written 12 m) : Advances K m c := by
  have hlow := hl.low
  have hreach := I.reach
  have hcr3 : low32 (I.pml4 + c.rbp) = paddr + I.pml4 := by
    rw [hbased.1]
    simp only [low32, ApBootImage.pml4]
    omega
  have hlong : ((({ c with loc := .lgdt64, cr3 := paddr + I.pml4 } : Cpu).enableLongMode).orCr0 0x80000000).Long
      paddr (paddr + I.pml4) :=
    ⟨h.rdi, hbased.1, hbased.2, by simp [Cpu.orCr0, Cpu.enableLongMode, h.cr0, low32], rfl, h.cr4,
      by simp [Cpu.orCr0, Cpu.enableLongMode, h.efer, low32]⟩
  have hgdtr : I.gdtr64 < 2 ^ 16 := I.object_lt (k := 0x32) (by decide)
  have hgdtr' : I.gdtr64 + 2 < 2 ^ 16 := I.object_lt (k := 0x34) (by decide)
  have hlimit : m.loadLE (paddr + I.gdtr64) 2 = 15 :=
    (load_written hw gdtr64Limit (by decide) rfl rfl).trans (initial_eq gdtr64Limit)
  have hbase : m.loadLE (paddr + (I.gdtr64 + 2)) 4 = paddr + I.gdt64 :=
    load_written hw gdtr64Base (by decide) rfl rfl
  have hstep : apInstr I paddr K.kernelStart m c =
      some (m, { (({ c with loc := .lgdt64, cr3 := paddr + I.pml4 } : Cpu).enableLongMode).orCr0 0x80000000 with
        gdtrLimit := 15
        gdtrBase := paddr + I.gdt64
        loc := .lmLjmp }) := by
    unfold apInstr
    rw [hloc]
    simp only [hcr3, Cpu.fetch_linear (hlong.linear hl hw le_rfl I.target_lt.1), hlong.ebpAddr hl hgdtr,
      hlong.ebpAddr hl hgdtr', Cpu.load_linear (hlong.linear hl hw le_rfl hgdtr),
      Cpu.load_linear (hlong.linear hl hw le_rfl hgdtr'), hlimit, hbase]
    rfl
  exact .of hloc hstep ⟨⟨hlong.rdi, hlong.rbp, hlong.ds, hlong.cr0, hlong.cr3, hlong.cr4, hlong.efer⟩, rfl, rfl⟩
    rfl (.refl (by decide))

/-- The far jump to long mode lands. -/
theorem advances_lmLjmp (hl : LowPage paddr) (hloc : c.loc = .lmLjmp) (h : c.Long paddr (paddr + I.pml4))
    (hgdt : c.Gdt 15 (paddr + I.gdt64)) (hw : (imageWords K).Written 13 m) : Advances K m c := by
  have hjmp : I.lmJmp < 2 ^ 16 := I.object_lt (k := 0x4008) (by decide)
  have hjmp' : I.lmJmp + 4 < 2 ^ 16 := I.object_lt (k := 0x400C) (by decide)
  have hgdt64 : I.gdt64 + 8 < 2 ^ 16 := I.object_lt (k := 0x26) (by decide)
  have hlinear : ∀ o < 2 ^ 16, c.linear m (paddr + o) = some (paddr + o) :=
    fun o ho => h.linear hl hw (by decide) ho
  have hoffset : m.loadLE (paddr + I.lmJmp) 4 = paddr + I.lmJmpTarget :=
    load_written hw ImageWord.lmJmp (by decide) rfl rfl
  have hsel : m.loadLE (paddr + (I.lmJmp + 4)) 2 = 8 :=
    (load_written hw lmJmpSel (by decide) rfl rfl).trans (initial_eq lmJmpSel)
  have hcode : m.loadLE (paddr + (I.gdt64 + 8)) 8 = 0x209A0000000000 :=
    (load_written hw gdt64Code (by decide) rfl rfl).trans (initial_eq gdt64Code)
  have hdescriptor : c.descriptor m 8 = some 0x209A0000000000 := by
    rw [Cpu.descriptor, hgdt.1, hgdt.2, if_pos (by decide), Nat.add_assoc, Cpu.load_linear (hlinear _ hgdt64), hcode]
  have hcode64 : isCode64 0x209A0000000000 = true := by decide
  have hstep : apInstr I paddr K.kernelStart m c = some (m, { c with cs := 8, loc := .countDone }) := by
    unfold apInstr
    rw [hloc]
    simp [Cpu.fetch_linear (hlinear _ I.target_lt.1), h.ebpAddr hl hjmp, h.ebpAddr hl hjmp',
      Cpu.load_linear (hlinear _ hjmp), Cpu.load_linear (hlinear _ hjmp'), hoffset, hsel, hdescriptor, hcode64]
  exact .of hloc hstep ⟨h.rdi, h.rbp, h.ds, h.cr0, h.cr3, h.cr4, h.efer⟩ rfl (.refl (by decide))

theorem advances_countDone (hl : LowPage paddr) (hloc : c.loc = .countDone) (h : c.Long paddr (paddr + I.pml4))
    (hw : (imageWords K).Written 14 m) : Advances K m c := by
  have hcount : I.apCountDone < 2 ^ 16 := I.object_lt (k := 0x401E) (by decide)
  have hlong : ({ c with loc := .countDone, rax := set16 c.rax 0, dsBase := 0 } : Cpu).Long paddr (paddr + I.pml4) :=
    ⟨h.rdi, h.rbp, rfl, h.cr0, h.cr3, h.cr4, h.efer⟩
  have hlinear : ∀ o < 2 ^ 16, _ := fun o ho => hlong.linear (o := o) hl hw (by decide) ho
  have hstep : apInstr I paddr K.kernelStart m c =
      some (inc16 m (paddr + I.apCountDone), { c with rax := set16 c.rax 0, dsBase := 0, loc := .cr3Val }) := by
    unfold apInstr
    rw [hloc]
    simp only [Cpu.fetch_linear (hlinear _ I.target_lt.2.1), hlong.ebpAddr hl hcount, hlinear _ hcount]
    rfl
  refine .of hloc hstep ⟨h.rdi, h.rbp, rfl, h.cr0, h.cr3, h.cr4, h.efer⟩ rfl (.inc16 (by decide) ?_ ?_)
  · exact Nat.le_refl _
  · simp only [ApBootImage.apCountDone, ApBootImage.size]
    omega

/-- The kernel's root is loaded. -/
theorem advances_cr3Val (hl : LowPage paddr) (hloc : c.loc = .cr3Val) (h : c.Long paddr (paddr + I.pml4))
    (hw : (imageWords K).Written 15 m) : Advances K m c := by
  have hcr3Val : I.cr3Val < 2 ^ 16 := I.object_lt (k := 0x4016) (by decide)
  have hlinear : ∀ o < 2 ^ 16, c.linear m (paddr + o) = some (paddr + o) :=
    fun o ho => h.linear hl hw (by decide) ho
  have hroot : m.loadLE (paddr + I.cr3Val) 8 = K.cr3 := load_written hw ImageWord.cr3Val (by decide) rfl rfl
  have hstep : apInstr I paddr K.kernelStart m c =
      some (m, { c with rax := K.cr3, cr3 := K.cr3, loc := .startFunAddr }) := by
    unfold apInstr
    rw [hloc]
    simp only [Cpu.fetch_linear (hlinear _ I.target_lt.2.1), h.ebpAddr hl hcr3Val,
      Cpu.load_linear (hlinear _ hcr3Val), hroot]
    rfl
  exact .of hloc hstep ⟨h.rdi, h.rbp, h.ds, h.cr0, rfl, h.cr4, h.efer⟩ rfl (.refl (by decide))

/-- The kernel is entered, with the upper half of the base address in `rdi`. -/
theorem advances_startFunAddr (hl : LowPage paddr) (hloc : c.loc = .startFunAddr) (h : c.Long paddr K.cr3)
    (hm : ∀ a, a < paddr ∨ paddr + I.size ≤ a → m a = K.mem a) (hw : (imageWords K).Written 16 m) :
    Advances K m c := by
  have hstart : I.startFunAddr < I.size := Nat.add_lt_add_left (by decide) I.data
  have hend : I.apBootstrapEnd < I.size := Nat.lt_of_lt_of_le I.end_lt (Nat.le_add_right _ _)
  have hlinear : ∀ o < I.size, c.linear m (paddr + o) = some (paddr + o) := fun o ho => h.linear_kernel hm ho
  have hload : m.loadLE (paddr + I.startFunAddr) 8 = K.kernelStart :=
    load_written hw ImageWord.startFunAddr (by decide) rfl rfl
  have hstep : apInstr I paddr K.kernelStart m c =
      some (m, { c with rax := K.kernelStart, loc := .kernelStart }) := by
    unfold apInstr
    rw [hloc]
    simp [Cpu.fetch_linear (hlinear _ hend), h.ebpAddr hl (I.object_lt (k := 0x400E) (by decide)),
      Cpu.load_linear (hlinear _ hstart), hload]
  exact .of hloc hstep ⟨h.rdi, h.cr3⟩ rfl (.refl (by decide))

/-- The kernel takes the processor for an application processor exactly if the base address fits in
16 bits. -/
theorem advances_kernelStart (hloc : c.loc = .kernelStart) (hrdi : c.rdi = paddr / 2 ^ 16) (hcr3 : c.cr3 = K.cr3) :
    Advances K m c := by
  have hstep : ∃ c', apInstr I paddr K.kernelStart m c = some (m, c') ∧ c'.cr3 = c.cr3 ∧
      c'.loc = if c.rdi = 0 then .apLoadInitStack else .tlsCreateBsp := by
    unfold apInstr
    rw [hloc]
    exact ⟨_, rfl, rfl, rfl⟩
  obtain ⟨c', hstep, hcr3', hloc'⟩ := hstep
  rw [hrdi] at hloc'
  refine .of hloc hstep ?_ ?_ (.refl (by decide))
  · unfold Cpu.Good
    rw [hloc', hcr3', hcr3]
    split_ifs with hzero
    · exact ⟨by omega, rfl⟩
    · exact ⟨by omega, rfl⟩
  · rw [hloc']
    split_ifs <;> rfl

/-- Every word is what it has to be, or what it is in the image and still to be written. -/
def Pending (K : BootSetup paddr I.size) (m : Mem) : Prop :=
  ∀ w : ImageWord, w.read I paddr m = w.right I K ∨ 0 < w.due ∧ w.read I paddr m = w.initial

/-- A processor that finds what it has written goes on, up to the place where the kernel has told
the processors apart. -/
theorem advances (hl : LowPage paddr) (hwords : Pending K m)
    (hm : ∀ a, a < paddr ∨ paddr + I.size ≤ a → m a = K.mem a)
    (hw : (imageWords K).Written c.loc.rank m) (h : c.Good K) (hrank : c.loc.rank < 18) : Advances K m c := by
  have hlink : ∀ w : ImageWord, m.loadLE (w.addr I paddr) w.width = w.right I K ∨
      m.loadLE (w.addr I paddr) w.width = w.initial := fun w => (hwords w).imp_right And.right
  unfold Cpu.Good at h
  cases hloc : c.loc with rw [hloc] at h hw
  | start => exact advances_start hl h
  | gdtrLow => exact advances_gdtrLow hl hloc h
  | gdtrHigh => exact advances_gdtrHigh hl hloc h.1 h.2
  | lgdt32 => exact advances_lgdt32 hl hloc h hw
  | pmJmpLow => exact advances_pmJmpLow hl hloc h.1 h.2
  | pmJmpHigh => exact advances_pmJmpHigh hl hloc h.1.1 h.1.2 h.2
  | pmLjmp => exact advances_pmLjmp hloc h.1 h.2 hw
  | pmSegments => exact advances_pmSegments hloc h.1 h.2 hw
  | gdtr64Base => exact advances_gdtr64Base hl hloc h.1 h.2
  | lmJmp => exact advances_lmJmp hl hloc h.1 h.2
  | orPml4 => exact advances_orPml4 hl hloc h.1 h.2 (hlink pml4Low)
  | orPdpt => exact advances_orPdpt hl hloc h.1 h.2 (hlink pdptLow)
  | lgdt64 => exact advances_lgdt64 hl hloc h.1 h.2 hw
  | lmLjmp => exact advances_lmLjmp hl hloc h.1 h.2 hw
  | countDone => exact advances_countDone hl hloc h hw
  | cr3Val => exact advances_cr3Val hl hloc h hw
  | startFunAddr => exact advances_startFunAddr hl hloc h hm hw
  | kernelStart => exact advances_kernelStart hloc h.1 h.2
  | apLoadInitStack | tlsCreateBsp | lost =>
    rw [hloc] at hrank
    exact absurd hrank (by decide)

end Steps

/-! ## Runs -/

section Runs

open ImageWord

variable {I : ApBootImage} {paddr : Nat} {K : BootSetup paddr I.size} {P : Type}

/-- What holds in every state of every run. -/
structure ApBootInv (K : BootSetup paddr I.size) (s : ApBoot P) : Prop where
  pending : Pending K s.mem
  outside : ∀ a, a < paddr ∨ paddr + I.size ≤ a → s.mem a = K.mem a
  written : ∀ p, (imageWords K).Written (s.cpu p).loc.rank s.mem
  good : ∀ p, (s.cpu p).Good K

/-- It holds when the processors have been sent to the image. -/
theorem ApBootInv.sent : ApBootInv K (ApBoot.sent P K) where
  pending := K.read_copied
  outside a ha := by
    simp only [ApBootImage.size] at ha
    show K.copied I a = K.mem a
    rw [K.copied_eq, Mem.storeLE_outside (by simp only [addr, offset, width]; omega),
      Mem.storeLE_outside (by simp only [addr, offset, width]; omega), if_neg (by simp only [ApBootImage.size]; omega)]
  written p w hw := by
    rcases K.read_copied w with heq | ⟨hpos, -⟩
    · exact heq
    · exact absurd hpos (Nat.not_lt.mpr hw)
  good p := rfl

variable [DecidableEq P]

theorem BootLoc.rank_le (l : BootLoc) : l.rank ≤ 18 := by cases l <;> decide

/-- A processor that the kernel has told apart is not followed further. -/
theorem ApBoot.step_through {s : ApBoot P} {p : P} (h : (s.cpu p).loc.rank = 18) : s.step K p = s := by
  have hstep : apInstr I paddr K.kernelStart s.mem (s.cpu p) = some (s.mem, s.cpu p) := by
    unfold apInstr
    cases hloc : (s.cpu p).loc <;> simp [hloc, BootLoc.rank] at h ⊢
  unfold ApBoot.step
  rw [hstep]
  show ApBoot.mk s.mem (Function.update s.cpu p (s.cpu p)) = s
  rw [Function.update_eq_self]

/-- A processor that is not there yet advances, and the invariant is kept. -/
theorem ApBootInv.step_advances {s : ApBoot P} (h : ApBootInv K s) (hl : LowPage paddr) {p : P}
    (hrank : (s.cpu p).loc.rank < 18) :
    ApBootInv K (s.step K p) ∧ ((s.step K p).cpu p).loc.rank = (s.cpu p).loc.rank + 1 ∧
      ∀ q, q ≠ p → (s.step K p).cpu q = s.cpu q := by
  obtain ⟨m', c', hstep, hgood, hnext, hpatch⟩ :=
    advances hl h.pending h.outside (h.written p) (h.good p) hrank
  have heq : s.step K p = ⟨m', Function.update s.cpu p c'⟩ := by
    unfold ApBoot.step
    rw [hstep]
    rfl
  have hself : (s.step K p).cpu p = c' := by
    rw [heq]
    exact Function.update_self ..
  have hother : ∀ q, q ≠ p → (s.step K p).cpu q = s.cpu q := by
    intro q hq
    rw [heq]
    exact Function.update_of_ne hq ..
  have hrank' : ((s.step K p).cpu p).loc.rank = (s.cpu p).loc.rank + 1 := by rw [hself, hnext]
  have hmem : (s.step K p).mem = m' := by rw [heq]
  refine ⟨⟨fun w => ?_, fun a ha => ?_, ?_, fun q => ?_⟩, hrank', hother⟩
  · rw [hmem]
    exact hpatch.words.right_or (p := fun x => 0 < w.due ∧ x = w.initial) (h.pending w)
  · rw [hmem, hpatch.outside a ha]
    exact h.outside a ha
  · rw [hmem]
    exact SharedWords.written_step h.written hpatch.words hrank' fun q hq => by rw [hother q hq]
  · by_cases hq : q = p
    · subst hq
      rw [hself]
      exact hgood
    · rw [hother q hq]
      exact h.good q

theorem ApBootInv.step {s : ApBoot P} (h : ApBootInv K s) (hl : LowPage paddr) (p : P) :
    ApBootInv K (s.step K p) := by
  rcases Nat.lt_or_eq_of_le (s.cpu p).loc.rank_le with hlt | heq
  · exact (h.step_advances hl hlt).1
  · rwa [ApBoot.step_through heq]

end Runs

/-! ## Booting -/

section Boot

variable {I : ApBootImage} {paddr : Nat}

end Boot

end KoalemOS.Smp
