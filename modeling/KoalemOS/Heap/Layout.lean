import KoalemOS.Heap.Kmalloc

/-!
# The layout invariant

`LaidOut L bs s`: the entries of the heap are the blocks `bs`, which fill the addresses from
`kernel_heap_start` to `kernel_heap_end`. `kmalloc_correct` says that `kmalloc` keeps it.
-/

namespace KoalemOS.Heap

open KoalemOS.Library KoalemOS.Library.LinkedList KoalemOS.Mmap KoalemOS.Paging

variable {L : Layout} {F : Nat → Nat} {V V' : Mem} {s s' : Kernel} {b c : Block}
  {bs bs' xs ys : List Block} {size : Nat} {E : Stop → Prop}

/-- The entries of the heap are `bs`, and they fill the heap. -/
def LaidOut (L : Layout) (bs : List Block) (s : Kernel) : Prop :=
  Tiles L.kernelHeapStart bs s.kernelHeapEnd ∧ ∃ F V, HeapState L F V bs s

/-- What a read of the byte at `v` returns. -/
def byteAt (s : Kernel) (v : Nat) : Option UInt8 := (translate s.mem s.cr3 v).map s.mem

theorem Pages.byteAt {e v : Nat} (h : Pages L e F V s) (hv : L.Within e v) : byteAt s v = some (V v) := by
  rw [Heap.byteAt, h.translate hv, Option.map_some, h.bytes v hv]

theorem HeapState.within (h : HeapState L F V bs s) (hb : b ∈ bs) {v : Nat} (hv : b.Owns v) :
    L.Within s.kernelHeapEnd v := by
  have hbound := h.arena.bounds hb
  obtain ⟨h₁, h₂⟩ := hv
  simp only [Block.memory] at h₁
  exact ⟨by omega, by omega⟩

/-- A block has kept its bytes. -/
def SameBytes (b : Block) (s s' : Kernel) : Prop := ∀ v, b.Owns v → byteAt s' v = byteAt s v

theorem HeapState.sameBytes {F' : Nat → Nat} (h : HeapState L F V bs s) (h' : HeapState L F' V' bs' s')
    (hb : b ∈ bs) (hb' : b ∈ bs') (hV : ∀ v, b.Owns v → V' v = V v) : SameBytes b s s' := by
  intro v hv
  rw [h'.pages.byteAt (h'.within hb' hv), h.pages.byteAt (h.within hb hv), hV v hv]

/-! ## `init_heap` -/

/-- The first page of the heap is there. -/
structure FirstPage (L : Layout) (s : Kernel) : Prop where
  pages : ∃ F V, Pages L (L.kernelHeapStart + 0x1000) F V s ∧ Owned L (L.kernelHeapStart + 0x1000) F s
  heapEnd : s.kernelHeapEnd = L.kernelHeapStart + 0x1000

/-- The block `init_heap` makes of the first page. -/
def firstBlock (L : Layout) : Block := ⟨L.kernelHeapStart, 4064, false⟩

/-- **`init_heap`.** The first page becomes one free block. -/
theorem initHeap_returns (h : FirstPage L s) :
    ∃ s', (initHeap L).Returns s () s' ∧ LaidOut L [firstBlock L] s' ∧ DataStep s { s' with
      firstHeapEntry := s.firstHeapEntry } := by
  obtain ⟨⟨F, V, hp, ho⟩, hend⟩ := h
  have hlower := L.lower
  have hbuf := L.buf_below
  have haligned := L.heap_aligned
  have hupper := L.upper
  simp only [kernelHeapMaxSize] at hupper
  have hspaced : Spaced L.kernelHeapStart [firstBlock L] (L.kernelHeapStart + 0x1000) :=
    ⟨le_rfl, by simp only [firstBlock, Block.memory]; exact Nat.add_le_add_left (by decide) _⟩
  have hroom : Room L (L.kernelHeapStart + 0x1000) (fun _ => False) (addrs [firstBlock L]) := by
    refine Room.of_spaced hspaced (fun b hb => ?_) fun b _ v hv => hv.elim
    rw [List.mem_singleton.mp hb]
    simp only [firstBlock]
    omega
  have hheld : Held L (L.kernelHeapStart + 0x1000) F (fun _ => False) V s (addrs [firstBlock L]) (header V)
      s.lastHeapEntry s := ⟨hroom, ⟨V, hp, fun _ _ => rfl, fun _ _ => rfl⟩, rfl, DataStep.refl s⟩
  have hwp : Outcome.wp (fun _ => False) (initHeap L) (fun _ s' => LaidOut L [firstBlock L] s' ∧
      DataStep s { s' with firstHeapEntry := s.firstHeapEntry }) s := by
    refine Outcome.wp_bind (Outcome.wp_mono (hheld.setLastHeapEntry L.kernelHeapStart) fun _ s₁ h₁ => ?_)
    refine Outcome.wp_bind (Outcome.wp_mono (h₁.writeEntry (a := L.kernelHeapStart) (by simp [firstBlock])
      (by decide) (by decide) (by decide)) fun _ s₂ h₂ => ?_)
    have hlisted : Listed L (L.kernelHeapStart + 0x1000) F (fun _ => False) V s [firstBlock L] s₂ :=
      ⟨⟨_, h₂, Function.update_self .., trivial⟩, hspaced⟩
    have hstep := hlisted.step
    refine Outcome.wp_of_returns (Outcome.returns_modify _ s₂) ?_
    generalize hs₃ : { s₂ with firstHeapEntry := s₂.lastHeapEntry } = s₃
    have hend₃ : s₃.kernelHeapEnd = L.kernelHeapStart + 0x1000 := by
      rw [← hs₃, hstep.same]
      exact hend
    have hlisted₃ : Listed L s₃.kernelHeapEnd F (fun _ => False) V s₃ [firstBlock L] s₃ := by
      rw [hend₃]
      exact hlisted.of_eq (by rw [← hs₃]) (by rw [← hs₃]) (by rw [← hs₃])
    have htiles : Tiles L.kernelHeapStart [firstBlock L] s₃.kernelHeapEnd := by
      rw [hend₃]
      exact ⟨rfl, rfl⟩
    have hstate := HeapState.of_listed hlisted₃ ?_ ?_ htiles.arena (by simp) ?_ (.inl ?_)
    · obtain ⟨V', hstate, -⟩ := hstate
      refine ⟨⟨htiles, F, V', hstate⟩, ?_⟩
      rw [← hs₃]
      exact ⟨by rw [hstep.same], hstep.rows⟩
    · rw [hend₃]
      exact (hstep.owned ho).of_eq (by rw [← hs₃]) (by rw [← hs₃]) (by rw [← hs₃])
    · rw [← hs₃]
      exact hlisted.last
    · rw [hend₃]
      simp only [kernelHeapMaxSize]
      omega
    · rw [roomAtEnd_singleton]
      exact (by decide : 32 ≤ 4064)
  obtain ⟨_, s', hret, hpost⟩ := Outcome.returns_of_wp hwp fun _ _ _ hf => hf
  exact ⟨s', hret, hpost⟩

/-! ### A first heap -/

/-- The buffer of `phys_mmap` at the start of slot 510, the heap behind it. -/
def exampleLayout : Layout where
  physMmapRangeBuf := 0xFFFFFF0000000000
  kernelHeapStart := 0xFFFFFF0001001000
  buf_aligned := by decide
  heap_aligned := by decide
  lower := by decide
  buf_below := by decide
  upper := by decide

/-- The first page of the heap is mapped to frame 5, by a kernel with nothing but the window. -/
@[irreducible] def bootHeap : Kernel :=
  { (mapPage 0xFFFFFF0001001000 0x5000 pagingFlagReadWrite).after windowOnly with
    kernelHeapEnd := 0xFFFFFF0001002000 }

/-- The heap `init_heap` makes of it. -/
@[irreducible] def firstHeap : Kernel := (initHeap exampleLayout).after bootHeap

theorem bootHeap_firstPage : FirstPage exampleLayout bootHeap ∧
    bootHeap.physMmap = (takeFrames 3 windowOnly.physMmap).2 ∧
    ∃ n, ptAt bootHeap.mem bootHeap.cr3 0xFFFFFF0001001000 = some n := by
  have hv : UserPage 0xFFFFFF0001001000 := ⟨by decide, by decide, by decide⟩
  have hmissing := missingTables_windowOnly hv.slot
  obtain ⟨s', hret, hmap, taken, hm⟩ := mapPage_returns (p := 0x5000) pageTables_windowOnly
    freeFrames_windowOnly hv (noLargePage_windowOnly _ hv.slot) (by decide) flagsOk_readWrite
    (by rw [hmissing]; decide)
  rw [hmissing] at hmap
  obtain ⟨hmem, hcr3, hmap', hend⟩ : bootHeap.mem = s'.mem ∧ bootHeap.cr3 = s'.cr3 ∧
      bootHeap.physMmap = s'.physMmap ∧ bootHeap.kernelHeapEnd = 0xFFFFFF0001002000 := by
    unfold bootHeap
    rw [hret.after_eq]
    exact ⟨rfl, rfl, rfl, rfl⟩
  obtain ⟨n, hn, -⟩ := hm.ptAt
  -- the heap is empty before the page is mapped
  have hempty : ∀ v, ¬exampleLayout.Within 0xFFFFFF0001001000 v := by
    rintro v ⟨h₁, h₂⟩
    simp only [exampleLayout] at h₁
    omega
  have howned : Owned exampleLayout (0xFFFFFF0001001000 + 4096) (fun _ => 5) windowOnly :=
    ⟨freeFrames_windowOnly, fun v hv => by decide, fun v hv => by decide, by decide, by decide⟩
  have hpages : Pages exampleLayout 0xFFFFFF0001001000 (fun _ => 5)
      (fun v => windowOnly.mem (4096 * 5 + v % 4096)) windowOnly := by
    refine ⟨pageTables_windowOnly, fun v hv => (hempty v hv).elim, fun v _ hv => (hempty v hv).elim,
      fun v hv => (hempty v hv).elim, fun v hv => (hempty v hv).elim, fun v h₁ h₂ =>
      noLargePage_windowOnly v ?_, by decide, by decide, by decide⟩
    rw [(slot_of_lt h₁ h₂).1]
    decide
  obtain ⟨hpres, hframe⟩ := leaf_readWrite (p := 0x5000) ⟨by decide, by decide⟩
  have hmapped := hpages.mapNext howned hm ⟨by rw [Nat.or_right_comm]; exact hpres, ?_⟩ (by decide)
    (fun w hw => (hempty w hw).elim) (fun ht => ?_) fun i hi => ?_
  · refine ⟨⟨⟨_, _, hmapped.of_mem_eq hmem hcr3, (howned.mapped hm).of_eq hmem hcr3 hmap'⟩, hend⟩,
      hmap'.trans hmap, n, ?_⟩
    rw [hmem, hcr3]
    exact hn
  · exact hframe
  · have hone := isTable_windowOnly ht
    omega
  · have hmod : (0xFFFFFF0001001000 + i) % 4096 = i := by omega
    simp only [hmod]

theorem firstHeap_laidOut : (initHeap exampleLayout).Returns bootHeap () firstHeap ∧
    LaidOut exampleLayout [firstBlock exampleLayout] firstHeap ∧
    firstHeap.physMmap = (takeFrames 3 windowOnly.physMmap).2 ∧
    ∃ n, ptAt firstHeap.mem firstHeap.cr3 0xFFFFFF0001001000 = some n := by
  obtain ⟨hpage, hmap, n, hn⟩ := bootHeap_firstPage
  obtain ⟨s', hret, hlaid, hstep⟩ := initHeap_returns hpage
  have hfirst : firstHeap = s' := by
    unfold firstHeap
    exact hret.after_eq
  rw [hfirst]
  exact ⟨hret, hlaid, hstep.physMmap.trans hmap, n, hstep.ptAt_some (by decide) hn⟩

/-! ## `kmalloc` -/

/-- What `kmalloc` guarantees when it returns `p` in `s'`. -/
inductive KmallocPost (L : Layout) (size : Nat) (bs : List Block) (s : Kernel) (p : Nat) (s' : Kernel) :
    Prop where
  | none : p = 0 → s' = s → (∀ b ∈ bs, ¬b.Fits (unitUp size)) →
      (mmapGetPages s.physMmap (pageCount (unitUp size))).1 = 0 → KmallocPost L size bs s p s'
  | some (bs' : List Block) (c : Block) : LaidOut L bs' s' → p % 16 = 0 → c ∈ bs' → c.memory = p →
      c.used = true → size ≤ c.size →
      ((∃ b ∈ bs, b.addr = c.addr ∧ b.used = false) ∨ c.addr = s.kernelHeapEnd) →
      (∀ b ∈ bs, b.used = true → b ∈ bs' ∧ SameBytes b s s') →
      (∀ b ∈ bs', b.used = true → b = c ∨ b ∈ bs) → KmallocPost L size bs s p s'

/-- `kmalloc` on a heap that is laid out. -/
theorem kmalloc_wp (h : LaidOut L bs s) (hw : WithinLimit L s size)
    (hE : (∃ b ∈ bs, b.Fits (unitUp size)) ∨
      ∀ i < pageCount (unitUp size), MayMap E s (s.kernelHeapEnd + 4096 * i)) :
    Outcome.wp E (kmalloc size) (fun p s' => KmallocPost L size bs s p s') s := by
  obtain ⟨htiles, F, V, hstate⟩ := h
  obtain ⟨hsize, hlimit⟩ := hw
  refine Outcome.wp_mono (hstate.kmalloc (by omega) (fun hnone => hlimit (hstate.findFree_none hnone)) hE)
    fun p s' hpost => ?_
  rcases hpost with ⟨rfl, rfl, hnone, hzero⟩ | ⟨F', V', bs₁, b, bs', hsupply, htaken, rfl, hstate', hkept⟩
  · exact .none rfl rfl hnone hzero
  have hup : size ≤ unitUp size := by
    unfold unitUp
    omega
  obtain ⟨⟨c, hc, haddr, hused, hfit, -⟩, hold, hnew⟩ := htaken.used
  obtain ⟨hb, hfree, -⟩ := htaken.mem
  obtain ⟨hsub, hfrom⟩ := hsupply.mem
  have halign := hstate'.aligned c hc
  refine .some bs' c ⟨htaken.tiles (hsupply.tiles htiles), F', V', hstate'⟩ ?_ hc ?_ hused (hup.trans hfit) ?_
    (fun d hd hdused => ⟨hold d (hsub d hd) hdused, ?_⟩) fun d hd hdused => ?_
  · simp only [Block.memory]
    omega
  · simp only [Block.memory, haddr]
  · rcases hfrom b hb with hb | ⟨hend, -⟩
    · exact .inl ⟨b, hb, haddr.symm, hfree⟩
    · exact .inr (haddr.trans hend)
  · exact hstate.sameBytes hstate' hd (hold d (hsub d hd) hdused) fun v hv => hkept v ⟨d, hd, hdused, hv⟩
  · rcases hnew d hd hdused with heq | hd₁
    · exact .inl (hstate'.arena.eq_of_addr hd hc (heq.trans haddr.symm))
    · rcases hfrom d hd₁ with hd₁ | ⟨-, hdfree⟩
      · exact .inr hd₁
      · rw [hdfree] at hdused
        cases hdused

/-- **`kmalloc` keeps the layout.** On a heap whose entries fill it, for a size the heap can
grow by, when `map_page` does not panic: `kmalloc` finds no free entry with room and no
frames, returns 0 and has changed nothing; or it returns an aligned pointer to an entry that
was free or is new, and is used now, the heap is filled by its entries again, and every other
used entry is where it was and holds what it held. -/
theorem kmalloc_correct (h : LaidOut L bs s) (hw : WithinLimit L s size)
    (hpanic : ∀ e t, (kmalloc size).Stops s e t → ¬IsPanic e) :
    ∃ p s', (kmalloc size).Returns s p s' ∧ KmallocPost L size bs s p s' :=
  Outcome.returns_of_wp (kmalloc_wp h hw (.inr fun _ _ => .inl fun _ he => he)) hpanic

/-- 100 bytes of the first page. -/
theorem kmalloc_correct_firstHeap : ∃ p s', (kmalloc 100).Returns firstHeap p s' ∧
    KmallocPost exampleLayout 100 [firstBlock exampleLayout] firstHeap p s' := by
  have hlaid := firstHeap_laidOut.2.1
  have hend : firstHeap.kernelHeapEnd = 0xFFFFFF0001002000 := hlaid.1.2.symm
  have hw : WithinLimit exampleLayout firstHeap 100 := by
    refine ⟨by decide, fun _ _ => ?_⟩
    rw [hend]
    decide
  have hfits : ∃ b ∈ [firstBlock exampleLayout], b.Fits (unitUp 100) :=
    ⟨_, List.mem_singleton_self _, rfl, by decide⟩
  have hwp := kmalloc_wp (E := fun _ => False) hlaid hw (.inl hfits)
  have hreturns : ∀ e t, ¬(kmalloc 100).Stops firstHeap e t := fun e t hstop => hstop.of_wp hwp
  exact kmalloc_correct hlaid hw fun e t hstop => absurd hstop (hreturns e t)

end KoalemOS.Heap
