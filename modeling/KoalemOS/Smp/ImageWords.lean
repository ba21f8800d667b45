import KoalemOS.Library.SharedWords
import KoalemOS.Smp.ApBoot

/-!
# Words of the boot image

The words that the application processors share in the image: where they lie, what the image holds
there, and what belongs there once the image lies at an address (`ImageWord.right`). All processors
write the same to a word (`Patches`), and the page tables made of such words show the first 2 MiB
where they are (`translate_written`).
-/

namespace KoalemOS.Smp

open KoalemOS.Library

/-- The words of the image that processors read or write, apart from the two counters. -/
inductive ImageWord where
  | gdt32Code
  | gdt32Data
  | gdtr32Limit
  | gdtr32Low
  | gdtr32High
  | gdt64Code
  | gdtr64Limit
  | gdtr64Base
  | pml4Low
  | pml4High
  | pdptLow
  | pdptHigh
  | pd
  | pmJmpLow
  | pmJmpHigh
  | pmJmpSel
  | lmJmp
  | lmJmpSel
  | startFunAddr
  | cr3Val
  deriving DecidableEq

/-- The number of steps a processor has taken when it is at a place. -/
def BootLoc.rank : BootLoc → Nat
  | .start => 0
  | .gdtrLow => 1
  | .gdtrHigh => 2
  | .lgdt32 => 3
  | .pmJmpLow => 4
  | .pmJmpHigh => 5
  | .pmLjmp => 6
  | .pmSegments => 7
  | .gdtr64Base => 8
  | .lmJmp => 9
  | .orPml4 => 10
  | .orPdpt => 11
  | .lgdt64 => 12
  | .lmLjmp => 13
  | .countDone => 14
  | .cr3Val => 15
  | .startFunAddr => 16
  | .kernelStart => 17
  | .apLoadInitStack | .tlsCreateBsp | .lost => 18

namespace ImageWord

instance : Fintype ImageWord where
  elems := {gdt32Code, gdt32Data, gdtr32Limit, gdtr32Low, gdtr32High, gdt64Code, gdtr64Limit, gdtr64Base,
    pml4Low, pml4High, pdptLow, pdptHigh, pd, pmJmpLow, pmJmpHigh, pmJmpSel, lmJmp, lmJmpSel, startFunAddr,
    cr3Val}
  complete w := by cases w <;> decide

/-- Where the word lies in `.data`. -/
def offset : ImageWord → Nat
  | gdt32Code => 0x8
  | gdt32Data => 0x10
  | gdtr32Limit => 0x18
  | gdtr32Low => 0x1A
  | gdtr32High => 0x1C
  | gdt64Code => 0x26
  | gdtr64Limit => 0x32
  | gdtr64Base => 0x34
  | pml4Low => 0x1000
  | pml4High => 0x1004
  | pdptLow => 0x2000
  | pdptHigh => 0x2004
  | pd => 0x3000
  | pmJmpLow => 0x4000
  | pmJmpHigh => 0x4002
  | pmJmpSel => 0x4004
  | lmJmp => 0x4008
  | lmJmpSel => 0x400C
  | startFunAddr => 0x400E
  | cr3Val => 0x4016

/-- Its number of bytes. -/
def width : ImageWord → Nat
  | gdtr32Limit | gdtr32Low | gdtr32High | gdtr64Limit | pmJmpLow | pmJmpHigh | pmJmpSel | lmJmpSel => 2
  | gdtr64Base | pml4Low | pml4High | pdptLow | pdptHigh | lmJmp => 4
  | gdt32Code | gdt32Data | gdt64Code | pd | startFunAddr | cr3Val => 8

/-- The number of steps after which a processor has written the word; zero if none writes it. -/
def due : ImageWord → Nat
  | gdtr32Low => 2
  | gdtr32High => 3
  | pmJmpLow => 5
  | pmJmpHigh => 6
  | gdtr64Base => 9
  | lmJmp => 10
  | pml4Low => 11
  | pdptLow => 12
  | _ => 0

/-- What the word is in `ap_boot_image`. -/
def initial (w : ImageWord) : Nat := dataSection.loadLE w.offset w.width

/-- What the directives of `.data` put there. -/
def directive : ImageWord → Nat
  | gdt32Code => 0xCF9A000000FFFF
  | gdt32Data => 0xCF92000000FFFF
  | gdtr32Limit => 23
  | gdt64Code => 0x209A0000000000
  | gdtr64Limit => 15
  | pml4Low | pdptLow => 1 ||| 2
  | pd => 1 ||| 2 ||| 0x80
  | pmJmpSel | lmJmpSel => 8
  | _ => 0

theorem initial_eq : ∀ w : ImageWord, w.initial = w.directive := by decide +kernel

/-- Words do not overlap. -/
theorem apart : ∀ v w : ImageWord, v ≠ w →
    v.offset + v.width ≤ w.offset ∨ w.offset + w.width ≤ v.offset := by decide

/-- The counters lie behind all words. -/
theorem end_le : ∀ w : ImageWord, w.offset + w.width ≤ 0x401E := by decide

section Values

variable (I : ApBootImage) {paddr : Nat} (K : BootSetup paddr I.size)

/-- What the word has to be in the image at `paddr`: the halves of an address, an address, a link
to a table, or what it has been from the start. -/
def right : ImageWord → Nat
  | gdtr32Low => (paddr + I.gdt32) % 2 ^ 16
  | gdtr32High => (paddr + I.gdt32) / 2 ^ 16
  | pmJmpLow => (paddr + I.pmJmpTarget) % 2 ^ 16
  | pmJmpHigh => (paddr + I.pmJmpTarget) / 2 ^ 16
  | gdtr64Base => paddr + I.gdt64
  | lmJmp => paddr + I.lmJmpTarget
  | pml4Low => paddr + I.pdpt + 3
  | pdptLow => paddr + I.pd + 3
  | startFunAddr => K.kernelStart
  | cr3Val => K.cr3
  | w => w.initial

end Values

/-- The physical address of the word. -/
def addr (I : ApBootImage) (paddr : Nat) (w : ImageWord) : Nat := paddr + (I.data + w.offset)

/-- The word in memory. -/
def read (I : ApBootImage) (paddr : Nat) (m : Mem) (w : ImageWord) : Nat := m.loadLE (w.addr I paddr) w.width

end ImageWord

/-- The address is one that `init_mmap` can pick. -/
structure LowPage (paddr : Nat) : Prop where
  aligned : paddr % 0x1000 = 0
  low : paddr ≤ 0xFF000

section Words

open ImageWord

variable {I : ApBootImage} {paddr : Nat} {K : BootSetup paddr I.size}

/-- Addresses of 16 bits reach all objects of the image. -/
theorem ApBootImage.object_lt (I : ApBootImage) {k : Nat} (hk : k < 0x4022) : I.data + k < 2 ^ 16 :=
  Nat.lt_of_lt_of_le (Nat.add_lt_add_left hk I.data) I.reach

/-- They reach the places where the code is entered. -/
theorem ApBootImage.target_lt (I : ApBootImage) :
    I.pmJmpTarget < 2 ^ 16 ∧ I.lmJmpTarget < 2 ^ 16 ∧ I.apBootstrapEnd < 2 ^ 16 := by
  have hreach := I.reach
  have hpm := I.pm_lt
  have hlm := I.lm_lt
  have hend := I.end_lt
  omega

theorem ImageWord.initial_lt (w : ImageWord) : w.initial < 256 ^ w.width := Mem.loadLE_lt dataSection _ _

theorem ImageWord.right_lt (h : LowPage paddr) (w : ImageWord) : w.right I K < 256 ^ w.width := by
  have hlow := h.low
  have hreach := I.reach
  have hpm := I.pm_lt
  have hlm := I.lm_lt
  cases w with
  | startFunAddr => exact K.start_lt
  | cr3Val => exact K.cr3_lt
  | gdt32Code | gdt32Data | gdtr32Limit | gdt64Code | gdtr64Limit | pml4High | pdptHigh | pd | pmJmpSel
  | lmJmpSel =>
    show initial _ < _
    exact initial_lt _
  | gdtr32Low | gdtr32High | pmJmpLow | pmJmpHigh | gdtr64Base | lmJmp | pml4Low | pdptLow =>
    simp only [right, width, ApBootImage.gdt32, ApBootImage.gdt64, ApBootImage.pdpt, ApBootImage.pd]
    omega

/-- A store to another word of the image is not seen. -/
theorem ImageWord.read_storeLE {m : Mem} {v w : ImageWord} (hvw : w ≠ v) (x : Nat) :
    w.read I paddr (m.storeLE (v.addr I paddr) v.width x) = w.read I paddr m := by
  have hapart := apart w v hvw
  apply Mem.loadLE_storeLE_disjoint
  unfold addr
  omega

/-- A store to a word is read back. -/
theorem ImageWord.read_storeLE_self {m : Mem} (w : ImageWord) {x : Nat} (hx : x < 256 ^ w.width) :
    w.read I paddr (m.storeLE (w.addr I paddr) w.width x) = x := by
  rw [read, Mem.loadLE_storeLE_same, Nat.mod_eq_of_lt hx]

/-- The two stores of `boot_aps` are to words of the image. -/
theorem BootSetup.copied_eq (K : BootSetup paddr I.size) :
    K.copied I = Mem.storeLE (Mem.storeLE
      (fun a => if paddr ≤ a ∧ a < paddr + I.size then I.bytes (a - paddr) else K.mem a)
      (cr3Val.addr I paddr) cr3Val.width K.cr3) (startFunAddr.addr I paddr) startFunAddr.width K.kernelStart := by
  have hcr3 : paddr + I.size - 12 = cr3Val.addr I paddr := by
    simp only [addr, offset, ApBootImage.size]
    omega
  have hstart : paddr + I.size - 20 = startFunAddr.addr I paddr := by
    simp only [addr, offset, ApBootImage.size]
    omega
  rw [← hcr3, ← hstart]
  rfl

/-- A word of the copied image is what it has to be, or what it is in the image. -/
theorem BootSetup.read_copied (w : ImageWord) :
    w.read I paddr (K.copied I) = w.right I K ∨ 0 < w.due ∧ w.read I paddr (K.copied I) = w.initial := by
  rw [K.copied_eq]
  by_cases h₁ : w = startFunAddr
  · subst h₁
    exact .inl (read_storeLE_self _ K.start_lt)
  by_cases h₂ : w = cr3Val
  · subst h₂
    rw [read_storeLE h₁]
    exact .inl (read_storeLE_self _ K.cr3_lt)
  have hread : w.read I paddr
      (fun a => if paddr ≤ a ∧ a < paddr + I.size then I.bytes (a - paddr) else K.mem a) = w.initial := by
    refine Mem.loadLE_shift fun i hi => ?_
    have hend := w.end_le
    have ha : w.addr I paddr + i = paddr + (I.data + (w.offset + i)) := by
      unfold addr
      omega
    have hsize : w.offset + i < 0x4022 := by omega
    rw [ha, if_pos (by simp only [ApBootImage.size]; omega), Nat.add_sub_cancel_left, ApBootImage.bytes,
      if_neg (by omega), Nat.add_sub_cancel_left]
  rw [read_storeLE h₁, read_storeLE h₂, hread]
  cases w with
  | startFunAddr => exact absurd rfl h₁
  | cr3Val => exact absurd rfl h₂
  | gdtr32Low | gdtr32High | pmJmpLow | pmJmpHigh | gdtr64Base | lmJmp | pml4Low | pdptLow =>
    exact .inr ⟨by decide, rfl⟩
  | gdt32Code | gdt32Data | gdtr32Limit | gdt64Code | gdtr64Limit | pml4High | pdptHigh | pd | pmJmpSel
  | lmJmpSel => exact .inl rfl

/-- The words of the image, as words that all processors agree on. -/
def imageWords (K : BootSetup paddr I.size) : SharedWords Mem ImageWord Nat where
  read := ImageWord.read I paddr
  right := ImageWord.right I K
  due := ImageWord.due

/-! ## What a step does to memory -/

/-- A step of a processor at rank `r`; memory outside the image stays. -/
structure Patches (K : BootSetup paddr I.size) (r : Nat) (m m' : Mem) : Prop where
  words : (imageWords K).Patches r m m'
  outside : ∀ a, a < paddr ∨ paddr + I.size ≤ a → m' a = m a

theorem Patches.refl {m : Mem} {r : Nat} (h : ∀ w : ImageWord, w.due ≠ r + 1) : Patches K r m m :=
  ⟨.same h fun _ => rfl, fun _ _ => rfl⟩

/-- The store of a word that is due. -/
theorem Patches.store (hl : LowPage paddr) {m : Mem} {r a n x : Nat} (v : ImageWord)
    (hdue : ∀ w : ImageWord, w.due = r + 1 → w = v) (ha : a = v.addr I paddr) (hn : n = v.width)
    (hx : x = v.right I K) : Patches K r m (m.storeLE a n x) := by
  subst ha hn hx
  refine ⟨.one v hdue (read_storeLE_self v (right_lt hl v)) fun w hw => read_storeLE hw _, fun b hb => ?_⟩
  have hend := v.end_le
  apply Mem.storeLE_outside
  simp only [ApBootImage.size] at hb
  unfold addr
  omega

/-- The step of a counter. -/
theorem Patches.inc16 {m : Mem} {r a : Nat} (h : ∀ w : ImageWord, w.due ≠ r + 1)
    (hlow : paddr + (I.data + 0x401E) ≤ a) (hhigh : a + 2 ≤ paddr + I.size) : Patches K r m (inc16 m a) where
  words := by
    refine .same h fun w => Mem.loadLE_storeLE_disjoint (.inl ?_)
    have hend := w.end_le
    unfold addr
    omega
  outside b hb := by
    apply Mem.storeLE_outside
    simp only [ApBootImage.size] at hb hhigh
    omega

/-! ## Words put together -/

/-- A word that is due by the rank of a processor holds what it has to. -/
theorem load_written {m : Mem} {r : Nat} (h : (imageWords K).Written r m) (w : ImageWord) (hw : w.due ≤ r)
    {a n : Nat} (ha : a = w.addr I paddr) (hn : n = w.width) : m.loadLE a n = w.right I K := by
  subst ha hn
  exact h w hw

/-- Two words behind each other that are due. -/
theorem load_written_add {m : Mem} {r : Nat} (h : (imageWords K).Written r m) (v w : ImageWord) (hv : v.due ≤ r)
    (hw : w.due ≤ r) (hvw : w.offset = v.offset + v.width) {a n : Nat} (ha : a = v.addr I paddr)
    (hn : n = v.width + w.width) : m.loadLE a n = v.right I K + 256 ^ v.width * w.right I K := by
  have haddr : v.addr I paddr + v.width = w.addr I paddr := by
    unfold addr
    omega
  rw [hn, ha, Mem.loadLE_add, haddr]
  exact congrArg₂ (fun x y => x + 256 ^ v.width * y) (h v hv) (h w hw)

/-! ## The temporary page tables -/

/-- An entry that links to the table in frame `n`. -/
theorem link_entry {n : Nat} (hn : n < 2 ^ 40) :
    Paging.present (4096 * n + 3) = true ∧ Paging.pageSize (4096 * n + 3) = false ∧
      Paging.frameOf (4096 * n + 3) = n := by
  simp only [Paging.present, Paging.pageSize, Paging.frameOf, decide_eq_true_eq, decide_eq_false_iff_not]
  omega

/-- Three tables that link to each other and map the first 2 MiB to themselves. -/
theorem translate_twoMiB {m : Mem} {cr3 a b c x : Nat} (hcr3 : Paging.frameOf cr3 = a)
    (h₄ : Paging.tables m a 0 = 4096 * b + 3) (h₃ : Paging.tables m b 0 = 4096 * c + 3)
    (h₂ : Paging.tables m c 0 = 0x83) (hb : b < 2 ^ 40) (hc : c < 2 ^ 40) (hx : x < 2 ^ 21) :
    Paging.translate m cr3 x = some x := by
  have hcan : Paging.canonical x = true := by
    simp only [Paging.canonical, Bool.or_eq_true, decide_eq_true_eq]
    omega
  have hindices : Paging.indices x = [0, 0, 0, Paging.index x 12] := by
    have h39 : Paging.index x 39 = 0 := Fin.ext (by simp [Paging.index]; omega)
    have h30 : Paging.index x 30 = 0 := Fin.ext (by simp [Paging.index]; omega)
    have h21 : Paging.index x 21 = 0 := Fin.ext (by simp [Paging.index]; omega)
    rw [Paging.indices, h39, h30, h21]
  obtain ⟨hpb, hsb, hfb⟩ := link_entry hb
  obtain ⟨hpc, hsc, hfc⟩ := link_entry hc
  have hlarge : Paging.present 0x83 = true ∧ Paging.pageSize 0x83 = true := by decide
  have hwalk : Paging.walk m cr3 x = some (0x83, 21) := by
    rw [Paging.walk, if_pos hcan, hcr3, hindices]
    simp [Paging.walkFrom, h₄, h₃, h₂, hpb, hsb, hfb, hpc, hsc, hfc, hlarge, Paging.largeLeaf]
  rw [Paging.translate, hwalk]
  simp only [Option.map_some, Paging.leafAddr, Option.some.injEq]
  omega

/-- Entry 0 of a page of `.data`, in two words that are due. -/
theorem tables_written (hl : LowPage paddr) {m : Mem} {r k : Nat} (h : (imageWords K).Written r m) (v w : ImageWord)
    (hv : v.due ≤ r) (hw : w.due ≤ r) (hoffset : v.offset = 4096 * k) (hvw : w.offset = v.offset + v.width)
    (hwidth : 8 = v.width + w.width) (hzero : w.right I K = 0) :
    Paging.tables m ((paddr + I.data) / 4096 + k) 0 = v.right I K := by
  have haddr : 4096 * ((paddr + I.data) / 4096 + k) + 8 * ((0 : Fin 512) : Nat) = v.addr I paddr := by
    have hpage := hl.aligned
    have hdata := I.aligned
    simp only [addr, hoffset, Fin.val_zero]
    omega
  have hload := load_written_add h v w hv hw hvw haddr hwidth
  rwa [hzero, Nat.mul_zero, Nat.add_zero] at hload

/-- The temporary tables show the first 2 MiB where they are once they are linked. -/
theorem translate_written (hl : LowPage paddr) {m : Mem} {r x : Nat} (h : (imageWords K).Written r m) (hr : 12 ≤ r)
    (hx : x < 2 ^ 21) : Paging.translate m (paddr + I.pml4) x = some x := by
  have hlow := hl.low
  have hreach := I.reach
  have hpage := hl.aligned
  have hdata := I.aligned
  have hend : (paddr + I.data) / 4096 + 3 < 2 ^ 40 := by omega
  have hlink : ∀ k, paddr + (I.data + 4096 * k) + 3 = 4096 * ((paddr + I.data) / 4096 + k) + 3 := by
    intro k
    omega
  have hpd : pd.addr I paddr = 4096 * ((paddr + I.data) / 4096 + 3) + 8 * ((0 : Fin 512) : Nat) := by
    simp only [addr, offset, Fin.val_zero]
    omega
  have hcr3 : Paging.frameOf (paddr + I.pml4) = (paddr + I.data) / 4096 + 1 := by
    simp only [Paging.frameOf, ApBootImage.pml4]
    omega
  refine translate_twoMiB hcr3 ?_ ?_ ?_ (Nat.lt_of_succ_lt hend) hend hx
  · rw [← hlink]
    exact tables_written hl h pml4Low pml4High (Nat.le_trans (by decide) hr) (Nat.zero_le r) rfl rfl rfl
      (initial_eq pml4High)
  · rw [← hlink]
    exact tables_written hl h pdptLow pdptHigh hr (Nat.zero_le r) rfl rfl rfl (initial_eq pdptHigh)
  · exact (load_written h pd (Nat.zero_le r) hpd.symm rfl).trans (initial_eq pd)

end Words

end KoalemOS.Smp
