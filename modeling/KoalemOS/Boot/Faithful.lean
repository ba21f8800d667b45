import KoalemOS.Boot.Completes

/-!
# When the kernel is loaded faithfully

Two pages more than `memsz / 4096` are mapped for a segment, and the load loop leaves
pages alone that are mapped already. A segment that starts on such a page is copied to
frames that are not mapped there. `loadKernel_faithful_iff` says for which files every
byte is found where the file has it.
-/

namespace KoalemOS.Boot

open KoalemOS.Library KoalemOS.Paging

variable {F : Type} {bs : BootServices F} {S : Fin 512 → Prop} {pml4 elf len : Nat}
  {s₀ s s' : Loader F}

/-- Every byte of every segment is mapped, to what the file says. -/
def Faithful (m : Mem) (pml4 elf : Nat) (m' : Mem) : Prop :=
  ∀ ph ∈ loadable (headers m elf), ∀ k < ph.memsz,
    ∃ a, translate m' pml4 (ph.vaddr + k) = some a ∧ m' a = segmentByte m elf ph k

/-! ## The condition -/

/-- No segment with bytes starts on page 0, nor at or below the last page mapped for a
segment before it. -/
def PagesApart (ps : List ProgramHeader) : Prop :=
  (∀ ph ∈ ps, 0 < ph.memsz → ph.startPage ≠ 0) ∧
    ps.Pairwise fun p q => 0 < q.memsz → p.lastPage < q.startPage

/-- The condition in the order of the load loop. -/
theorem pagesApart_iff {ps : List ProgramHeader} :
    PagesApart ps ↔ ∀ pre ph post, ps = pre ++ ph :: post → 0 < ph.memsz →
      lastAfter pre < ph.startPage := by
  constructor
  · rintro ⟨hzero, hpair⟩ pre ph post rfl hm
    refine lastAfter_lt_iff.mpr ⟨?_, fun p hp => ?_⟩
    · exact Nat.pos_of_ne_zero (hzero ph (by simp) hm)
    · exact (List.pairwise_append.mp hpair).2.2 p hp ph List.mem_cons_self hm
  · intro h
    refine ⟨fun ph hph hm => ?_, ?_⟩
    · obtain ⟨pre, post, rfl⟩ := List.append_of_mem hph
      have := h pre ph post rfl hm
      omega
    · induction ps using List.reverseRecOn with
      | nil => exact List.Pairwise.nil
      | append_singleton ps q ih =>
        refine List.pairwise_append.mpr ⟨ih fun pre ph post hs => ?_, List.pairwise_singleton _ _,
          fun p hp r hr hm => ?_⟩
        · exact h pre ph (post ++ [q]) (by rw [hs]; simp)
        · rw [List.mem_singleton.mp hr] at hm ⊢
          exact (lastAfter_lt_iff.mp (h ps q [] rfl hm)).2 p hp

/-! ## Whatever unused memory holds -/

/-- Memory with other contents in the frames that are not in use. -/
def SameInUse (bs : BootServices F) (s : Loader F) (m : Mem) : Prop :=
  ∀ x, bs.inUse s.firmware (x / 4096) → m x = s.mem x

theorem headers_eq {m : Mem} (hfile : KernelFile s.mem elf len) (hbound : elf + len ≤ 2 ^ 47)
    (h : ∀ x, elf ≤ x → x < elf + len → m x = s.mem x) : headers m elf = headers s.mem elf := by
  have hlen := hfile.header
  have hload : ∀ a n, elf ≤ a → a + n ≤ elf + len → m.loadLE a n = s.mem.loadLE a n :=
    fun a n h1 h2 => Mem.loadLE_congr fun x h3 h4 => h x (by omega) (by omega)
  unfold headers headersFrom
  rw [hload _ _ (by omega) (by omega), hload _ _ (by omega) (by omega),
    hload _ _ (by omega) (by omega)]
  refine List.map_congr_left fun i hi => headerAt_eq fun x h1 h2 => ?_
  have htable := hfile.table i (by simpa using hi)
  rw [wrap_of_lt (x := elf + _) (by omega), wrap_of_lt (by omega)] at h1 h2
  exact h x (by omega) (by omega)

theorem Ready.sameInUse {m : Mem} (h : Ready bs pml4 elf len s) (hm : SameInUse bs s m) :
    Ready bs pml4 elf len { s with mem := m } ∧ headers m elf = headers s.mem elf ∧
      emptySlots m pml4 = emptySlots s.mem pml4 := by
  have hfile : ∀ x, elf ≤ x → x < elf + len → m x = s.mem x :=
    fun x h1 h2 => hm x (h.fileInUse x h1 h2)
  have hrow : tables m (frameOf pml4) = tables s.mem (frameOf pml4) := by
    refine row_eq_of_bytes_eq fun x hx => hm x ?_
    rw [hx]
    exact h.rootInUse
  have hslots : emptySlots m pml4 = emptySlots s.mem pml4 := by
    unfold emptySlots
    rw [hrow]
  have hheaders := headers_eq h.file h.bound hfile
  have hlen := h.file.header
  have hload : ∀ k n, k + n ≤ 64 → m.loadLE (elf + k) n = s.mem.loadLE (elf + k) n := fun k n hk =>
    Mem.loadLE_congr fun x h1 h2 => hfile x (by omega) (by omega)
  have hself : present (tables m (frameOf pml4) 511) = true := by
    rw [hrow]
    exact h.selfMap
  have hkernel : KernelFile m elf len := by
    refine ⟨hlen, fun i hi => ?_, ?_, ?_, ?_⟩
    · rw [hload 56 2 (by decide)] at hi
      rw [hload 32 8 (by decide), hload 54 2 (by decide)]
      exact h.file.table i hi
    · rw [hheaders]
      exact h.file.sizes
    · rw [hheaders]
      exact h.file.ranges
    · rw [hheaders]
      exact h.file.disjoint
  have htarget : ∀ ph ∈ loadable (headers m elf), Target (emptySlots m pml4) ph := by
    rw [hheaders, hslots]
    exact h.target
  exact ⟨⟨h.root, h.rootInUse, hself, h.bound, h.fileInUse, h.fileApart, hkernel, htarget⟩,
    hheaders, hslots⟩

theorem segmentByte_eq {m : Mem} (h : Ready bs pml4 elf len s) (hm : SameInUse bs s m)
    {ph : ProgramHeader} (hph : ph ∈ loadable (headers s.mem elf)) (k : Nat) :
    segmentByte m elf ph k = segmentByte s.mem elf ph k := by
  unfold segmentByte
  split_ifs with hk
  · have := h.file.ranges ph hph
    exact hm _ (h.fileInUse _ (by omega) (by omega))
  · rfl

/-- A segment that starts on a page left alone shows what was in memory before. -/
theorem Loaded.unfaithful {ps pre post : List ProgramHeader} {ph : ProgramHeader} {a : Nat}
    (hl : Loaded bs S pml4 elf len s₀ ps s) (hts : ∀ q ∈ ps, Target S q)
    (hdisj : ps.Pairwise fun p q => ∀ k < p.memsz, ∀ l < q.memsz, p.vaddr + k ≠ q.vaddr + l)
    (hps : ps = pre ++ ph :: post) (hm : 0 < ph.memsz) (hlast : ph.startPage ≤ lastAfter pre)
    (htr : translate s.mem pml4 ph.vaddr = some a) :
    ¬bs.inUse s₀.firmware (a / 4096) ∧ s.mem a = s₀.mem a := by
  have hmem : ph ∈ ps := by simp [hps]
  have ht := hts ph hmem
  have hstart := ht.startPage_eq.1
  have hslot : S (index ph.vaddr 39) := by
    have hslot := ht.slots 0 (by omega)
    have hlt := ht.startPage_eq.2
    rw [Nat.mul_zero, Nat.add_zero, wrap_of_lt (by omega)] at hslot
    rwa [index_of_same_page (w := ph.vaddr) (by omega) (by decide)] at hslot
  obtain ⟨pre', q, post', i, hps', hi, hlast', hidx, hs⟩ := hl.mapped _ a ht.canonical hslot htr
  refine ⟨hs.fresh, ?_⟩
  rw [hs.byte, if_neg]
  rintro ⟨h1, h2⟩
  -- the byte shown would be a byte of segment `q` with the address of the first of `ph`
  have htq := hts q (by simp [hps'])
  have hqstart := htq.startPage_eq.1
  set y := q.startPage + 4096 * i + ph.vaddr % 4096 with hy
  have hcy : canonical y = true := by
    have := htq.bytes (y - q.vaddr) (by omega)
    rwa [show q.vaddr + (y - q.vaddr) = y by omega] at this
  have hpage : ph.vaddr / 4096 = y / 4096 :=
    same_page_of_indices ht.canonical hcy (hidx.trans (indices_of_same_page (by omega)))
  have hyv : y = ph.vaddr := by omega
  rw [hps'] at hps
  rcases List.append_eq_append_iff.mp hps with ⟨r, rfl, hr⟩ | ⟨r, rfl, hr⟩
  · cases r with
    | nil =>
      obtain ⟨rfl, rfl⟩ := List.cons.inj hr
      rw [List.append_nil] at hlast
      omega
    | cons x r =>
      obtain ⟨rfl, rfl⟩ := List.cons.inj hr
      rw [hps', List.pairwise_append] at hdisj
      have := (List.pairwise_cons.mp hdisj.2.1).1 ph (by simp)
      exact this (y - q.vaddr) (by omega) 0 hm (by omega)
  · cases r with
    | nil =>
      obtain ⟨rfl, rfl⟩ := List.cons.inj hr
      rw [List.append_nil] at hlast'
      omega
    | cons x r =>
      obtain ⟨rfl, rfl⟩ := List.cons.inj hr
      rw [hps', List.append_assoc, List.pairwise_append] at hdisj
      have := (List.pairwise_cons.mp hdisj.2.1).1 q (by simp)
      exact this 0 hm (y - q.vaddr) (by omega) (by omega)

/-- Otherwise there is something the unused frames can hold, such that a byte is wrong. -/
theorem exists_unfaithful (h : Ready bs pml4 elf len s)
    (halloc : ∀ m, SameInUse bs s m →
      ∃ s', (loadKernel bs pml4 elf).Returns { s with mem := m } () s')
    (hnot : ¬PagesApart (loadable (headers s.mem elf))) :
    ∃ m s', SameInUse bs s m ∧ (loadKernel bs pml4 elf).Returns { s with mem := m } () s' ∧
      ¬Faithful s.mem pml4 elf s'.mem := by
  rw [pagesApart_iff] at hnot
  push Not at hnot
  obtain ⟨pre, ph, post, hps, hm, hlast⟩ := hnot
  have hph : ph ∈ loadable (headers s.mem elf) := by simp [hps]
  -- fill the unused frames with another byte than the first of the segment
  classical
  set m : Mem := fun x =>
    if bs.inUse s.firmware (x / 4096) then s.mem x else segmentByte s.mem elf ph 0 + 1
  have hsame : SameInUse bs s m := fun x hx => if_pos hx
  obtain ⟨s', hret⟩ := halloc m hsame
  obtain ⟨hready, hheaders, -⟩ := h.sameInUse hsame
  refine ⟨m, s', hsame, hret, fun hfaithful => ?_⟩
  obtain ⟨a, htr, hbyte⟩ := hfaithful ph hph 0 hm
  rw [Nat.add_zero] at htr
  obtain ⟨hfree, hold⟩ := (loadKernel_loaded hready hret).unfaithful hready.target
    hready.file.disjoint (hheaders ▸ hps) hm hlast htr
  have hfill : m a = segmentByte s.mem elf ph 0 + 1 := if_neg hfree
  rw [hbyte] at hold
  have hne : segmentByte s.mem elf ph 0 ≠ segmentByte s.mem elf ph 0 + 1 := by simp
  exact hne (hold.trans hfill)

/-- Segments whose pages lie apart are found where the file has them. -/
theorem faithful_of_pagesApart (h : Ready bs pml4 elf len s) {m : Mem} (hsame : SameInUse bs s m)
    (hret : (loadKernel bs pml4 elf).Returns { s with mem := m } () s')
    (hapart : PagesApart (loadable (headers s.mem elf))) : Faithful s.mem pml4 elf s'.mem := by
  intro ph hph k hk
  obtain ⟨hready, hheaders, -⟩ := h.sameInUse hsame
  obtain ⟨pre, post, hps⟩ := List.append_of_mem hph
  have hlast := pagesApart_iff.mp hapart pre ph post hps (by omega)
  obtain ⟨a, htr, hs⟩ := (loadKernel_loaded hready hret).loaded pre ph post
    (by rw [← hps]; exact congrArg _ hheaders) hlast k hk
  refine ⟨a, htr, ?_⟩
  rw [hs.byte, if_pos ⟨by omega, by omega⟩, Nat.add_sub_cancel_left]
  exact segmentByte_eq h hsame hph k

/-- **When the kernel is loaded faithfully.** Let the page allocator succeed. Whatever the
frames hold that are not in use before: after the load loop every byte of every
`PT_LOAD` segment is mapped to the byte of the file, or to zero beyond `filesz`, if and
only if no segment with bytes starts on page 0, nor at or below the last page that is
mapped for a segment before it. -/
theorem loadKernel_faithful_iff (h : Ready bs pml4 elf len s)
    (halloc : ∀ m, SameInUse bs s m →
      ∃ s', (loadKernel bs pml4 elf).Returns { s with mem := m } () s') :
    (∀ m s', SameInUse bs s m → (loadKernel bs pml4 elf).Returns { s with mem := m } () s' →
      Faithful s.mem pml4 elf s'.mem) ↔ PagesApart (loadable (headers s.mem elf)) := by
  constructor
  · intro hall
    by_contra hnot
    obtain ⟨m, s', hsame, hret, hunfaithful⟩ := exists_unfaithful h halloc hnot
    exact hunfaithful (hall m s' hsame hret)
  · exact fun hapart m s' hsame hret => faithful_of_pagesApart h hsame hret hapart

/-! ## Two files -/

/-- A firmware that gives the frames from `st` on, up to the end of the identity mapping. -/
def bumpAllocator : BootServices Nat where
  allocatePages st pages :=
    if st + pages ≤ 2 ^ 35 then (.ok (4096 * st), st + pages) else (.error 9, st)
  inUse st f := f < st
  aligned st pages addr st' h := by
    split_ifs at h <;> simp at h
    omega
  mapped st pages addr st' h := by
    split_ifs at h <;> simp at h
    omega
  fresh st pages addr st' h f hf := by
    split_ifs at h <;> simp at h
    omega
  taken st pages addr st' h f := by
    split_ifs at h <;> simp at h
    omega

theorem hasRoom_bumpAllocator : HasRoom bumpAllocator fun st => 2 ^ 35 - st := by
  intro st pages hpos h
  dsimp only at h
  refine ⟨4096 * st, st + pages, if_pos (by omega), ?_⟩
  dsimp only
  omega

/-- A file of two segments in 12 KiB at `0x100000`: 4096 bytes at the start of the kernel's
addresses, and one byte at `vaddr`. The PML4 is frame 80, and frame 512 is the first one
that is not in use. -/
def twoSegments (vaddr : Nat) : Loader Nat where
  mem := [(0x50ff8, 8, 0x50003), (0x100020, 8, 64), (0x100036, 2, 56), (0x100038, 2, 2),
    (0x100040, 4, 1), (0x100048, 8, 0x1000), (0x100050, 8, 0xFFFFFF1000000000),
    (0x100060, 8, 0x1000), (0x100068, 8, 0x1000),
    (0x100078, 4, 1), (0x100080, 8, 0x2000), (0x100088, 8, vaddr),
    (0x100098, 8, 1), (0x1000a0, 8, 1)].foldl
      (fun m f => m.storeLE f.1 f.2.1 f.2.2) fun _ => 0
  firmware := 512

/-- The headers of the two segments. -/
def twoHeaders (vaddr : Nat) : List ProgramHeader :=
  [⟨1, 0x1000, 0xFFFFFF1000000000, 0x1000, 0x1000⟩, ⟨1, 0x2000, vaddr, 1, 1⟩]

/-- Kernel addresses have slot 510, which is empty. -/
theorem target_twoSegments {vaddr : Nat} {ph : ProgramHeader}
    (hslot : present (tables (twoSegments vaddr).mem 80 510) = false)
    (hlow : 0xFFFFFF1000000000 ≤ ph.vaddr) (hhigh : ph.vaddr ≤ 0xFFFFFF1000100000)
    (hm : ph.memsz ≤ 0x1000) : Target (emptySlots (twoSegments vaddr).mem 0x50000) ph := by
  have hmask : ph.startPage = ph.vaddr / 2 ^ 12 % 2 ^ 52 * 2 ^ 12 := land_shifted_mask ph.vaddr 12 52
  refine ⟨canonical_iff.mpr (by omega), fun k hk => canonical_iff.mpr (by omega), fun i hi => ?_⟩
  have hindex : index (wrap (ph.startPage + 4096 * i)) 39 = 510 := by
    rw [wrap_of_lt (by omega)]
    apply Fin.ext
    show (ph.startPage + 4096 * i) / 2 ^ 39 % 512 = 510
    omega
  unfold emptySlots
  rw [hindex]
  exact hslot

theorem ready_twoSegments {vaddr : Nat} (hlow : 0xFFFFFF1000001000 ≤ vaddr)
    (hhigh : vaddr ≤ 0xFFFFFF1000100000)
    (hslot : present (tables (twoSegments vaddr).mem 80 510) = false)
    (hself : present (tables (twoSegments vaddr).mem 80 511) = true)
    (hfields : (twoSegments vaddr).mem.loadLE 0x100020 8 = 64 ∧
      (twoSegments vaddr).mem.loadLE 0x100036 2 = 56 ∧
      (twoSegments vaddr).mem.loadLE 0x100038 2 = 2)
    (hheaders : headers (twoSegments vaddr).mem 0x100000 = twoHeaders vaddr) :
    Ready bumpAllocator 0x50000 0x100000 0x3000 (twoSegments vaddr) ∧
      loadable (headers (twoSegments vaddr).mem 0x100000) = twoHeaders vaddr := by
  have hload : loadable (headers (twoSegments vaddr).mem 0x100000) = twoHeaders vaddr := by
    rw [hheaders]
    rfl
  obtain ⟨hphoff, hsize, hcount⟩ := hfields
  have hall : ∀ ph ∈ twoHeaders vaddr, ph.filesz ≤ ph.memsz ∧ ph.offset + ph.filesz ≤ 0x3000 ∧
      Target (emptySlots (twoSegments vaddr).mem 0x50000) ph := by
    intro ph hph
    simp only [twoHeaders, List.mem_cons, List.not_mem_nil, or_false] at hph
    rcases hph with rfl | rfl
    · exact ⟨by decide, by decide, target_twoSegments hslot (by decide) (by decide) (by decide)⟩
    · exact ⟨Nat.le_refl 1, show 0x2000 + 1 ≤ 0x3000 by decide, target_twoSegments hslot
        (show 0xFFFFFF1000000000 ≤ vaddr by omega) hhigh (show 1 ≤ 0x1000 by decide)⟩
  refine ⟨⟨⟨by decide, by decide⟩, ?_, hself, by decide, fun x _ _ => ?_, fun x _ _ => ?_,
    ⟨by decide, fun i hi => ?_, ?_, ?_, ?_⟩, ?_⟩, hload⟩
  · show frameOf 0x50000 < 512
    decide
  · show x / 4096 < 512
    omega
  · show x / 4096 ≠ 80
    omega
  · rw [hcount] at hi
    rw [hphoff, hsize]
    omega
  · rw [hload]
    exact fun ph hph => (hall ph hph).1
  · rw [hload]
    exact fun ph hph => (hall ph hph).2.1
  · rw [hload]
    refine List.pairwise_pair.mpr fun k hk l hl => ?_
    dsimp only at hk hl ⊢
    omega
  · rw [hload]
    exact fun ph hph => (hall ph hph).2.2

/-- The firmware has enough memory for the file. -/
theorem halloc_twoSegments {vaddr : Nat}
    (h : Ready bumpAllocator 0x50000 0x100000 0x3000 (twoSegments vaddr))
    (hload : loadable (headers (twoSegments vaddr).mem 0x100000) = twoHeaders vaddr) (m : Mem)
    (hm : SameInUse bumpAllocator (twoSegments vaddr) m) :
    ∃ s', (loadKernel bumpAllocator 0x50000 0x100000).Returns
      { twoSegments vaddr with mem := m } () s' := by
  obtain ⟨hready, hheaders, -⟩ := h.sameInUse hm
  refine loadKernel_returns hasRoom_bumpAllocator hready ?_
  have hcost : ((twoHeaders vaddr).map ProgramHeader.cost).sum = 20 := by
    simp [twoHeaders, ProgramHeader.cost]
  show ((loadable (headers m 0x100000)).map ProgramHeader.cost).sum ≤ 2 ^ 35 - 512
  rw [hheaders, hload, hcost]
  decide

/-- When the second segment follows the first one on the next page, it is not found there. -/
theorem loadKernel_unfaithful_nextPage : ∃ m s',
    SameInUse bumpAllocator (twoSegments 0xFFFFFF1000001000) m ∧
      (loadKernel bumpAllocator 0x50000 0x100000).Returns
        { twoSegments 0xFFFFFF1000001000 with mem := m } () s' ∧
      ¬Faithful (twoSegments 0xFFFFFF1000001000).mem 0x50000 0x100000 s'.mem := by
  obtain ⟨hready, hload⟩ := @ready_twoSegments 0xFFFFFF1000001000 (by decide) (by decide)
    (by decide +kernel) (by decide +kernel) (by decide +kernel) (by decide +kernel)
  refine exists_unfaithful hready (halloc_twoSegments hready hload) ?_
  rw [hload]
  rintro ⟨-, hpair⟩
  exact absurd (List.pairwise_pair.mp hpair) (by decide)

/-- When it is three pages further, it is. -/
theorem loadKernel_faithful_iff_threePages : ¬∃ m s',
    SameInUse bumpAllocator (twoSegments 0xFFFFFF1000003000) m ∧
      (loadKernel bumpAllocator 0x50000 0x100000).Returns
        { twoSegments 0xFFFFFF1000003000 with mem := m } () s' ∧
      ¬Faithful (twoSegments 0xFFFFFF1000003000).mem 0x50000 0x100000 s'.mem := by
  obtain ⟨hready, hload⟩ := @ready_twoSegments 0xFFFFFF1000003000 (by decide) (by decide)
    (by decide +kernel) (by decide +kernel) (by decide +kernel) (by decide +kernel)
  have hfaithful := (loadKernel_faithful_iff hready (halloc_twoSegments hready hload)).mpr ?_
  · rintro ⟨m, s', hm, hret, hnot⟩
    exact hnot (hfaithful m s' hm hret)
  rw [hload]
  refine ⟨fun ph hph _ => ?_, List.pairwise_pair.mpr (by decide)⟩
  simp only [twoHeaders, List.mem_cons, List.not_mem_nil, or_false] at hph
  rcases hph with rfl | rfl <;> decide

end KoalemOS.Boot
