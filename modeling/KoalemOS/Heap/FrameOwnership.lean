import KoalemOS.Heap.Trimming

/-!
# Who owns the frames of the heap

`kfree` gives the frames behind the last entry back to `phys_mmap`, but the loop that is to
unmap their pages starts above its bound. As long as no `kfree` of a run makes the heap
shorter, no frame is free and mapped by the heap, and of a further `kfree` the pages it gives
back are unmapped exactly when there are none (`heapFrames_run`).
-/

namespace KoalemOS.Heap

open KoalemOS.Library KoalemOS.Library.LinkedList KoalemOS.Mmap KoalemOS.Paging

variable {L : Layout} {F : Nat → Nat} {V : Mem} {s s' : Kernel} {b c c' : Block}
  {bs bs' xs xs' ys ys' : List Block} {size top : Nat} {ops : List HeapOp} {live : Live}
  {ok : Kernel → HeapOp → Prop}

/-! ## Frames -/

/-- A run, and the highest end the heap has had: up to there the heap has mapped its pages. -/
inductive MappedRun (L : Layout) (ok : Kernel → HeapOp → Prop) : Live → Nat → Kernel → Prop where
  | init {s₀ s : Kernel} : FirstPage L s₀ → (initHeap L).Returns s₀ () s →
      MappedRun L ok (fun _ => none) s.kernelHeapEnd s
  | call {live live' : Live} {top : Nat} {s s' : Kernel} : MappedRun L ok live top s →
      (op : HeapOp) → ok s op → Call L live s op live' s' → MappedRun L ok live' (max top s'.kernelHeapEnd) s'

theorem HeapRun.mapped (h : HeapRun L ok ops live s) : ∃ top, MappedRun L ok live top s := by
  induction h with
  | init hpage hret => exact ⟨_, .init hpage hret⟩
  | call _ op hok hcall ih =>
    obtain ⟨top, hrun⟩ := ih
    exact ⟨_, hrun.call op hok hcall⟩

/-- No frame is free and mapped at a page of the heap. -/
def FramesApart (L : Layout) (top : Nat) (s : Kernel) : Prop :=
  ∀ v a, L.Within top v → translate s.mem s.cr3 v = some a → 4096 * (a / 4096) ∉ s.physMmap.freePages

/-- A frame that `free_phys_pages(PHYS_ADDR_OF(new_end), page_count)` is given. -/
def Given (s : Kernel) (newEnd a : Nat) : Prop :=
  ∃ base i, translate s.mem s.cr3 newEnd = some base ∧ i < (s.kernelHeapEnd - newEnd) / 4096 ∧
    a = base + 4096 * i

/-- A frame that is mapped at a page from `new_end` to the end of the heap. -/
def MappedBehind (s : Kernel) (newEnd a : Nat) : Prop :=
  ∃ i < (s.kernelHeapEnd - newEnd) / 4096, translate s.mem s.cr3 (newEnd + 4096 * i) = some a

/-- From `s` to `s'` the frames given back are those that were mapped at the pages the heap has
lost, and these are mapped no more. -/
structure ReturnsFrames (s s' : Kernel) : Prop where
  given : ∀ a, Given s s'.kernelHeapEnd a ↔ MappedBehind s s'.kernelHeapEnd a
  unmapped : ∀ v, s'.kernelHeapEnd ≤ v → v < s.kernelHeapEnd → translate s'.mem s'.cr3 v = none

theorem ReturnsFrames.of_eq (h : s'.kernelHeapEnd = s.kernelHeapEnd) : ReturnsFrames s s' := by
  refine ⟨fun a => ⟨?_, ?_⟩, fun v h₁ h₂ => by omega⟩
  · rintro ⟨base, i, -, hi, -⟩
    omega
  · rintro ⟨i, hi, -⟩
    omega

theorem HeapState.framesApart (h : HeapState L F V bs s) : FramesApart L s.kernelHeapEnd s := by
  intro v a hv ha
  rw [h.pages.translate hv] at ha
  obtain rfl := Option.some.inj ha
  have hnot := h.owned.notFree v hv
  rwa [show (4096 * F (v / 4096) + v % 4096) / 4096 = F (v / 4096) by omega]

/-! ## The end of the heap -/

/-- A freed block makes the heap no shorter. -/
def KeepsHeapEnd (L : Layout) (s : Kernel) (ptr : Nat) : Prop :=
  ∀ bs b, LaidOut L bs s → b ∈ bs → b.memory = ptr → ∀ xs c ys, Joined bs b xs c ys →
    Trims s.kernelHeapEnd xs c ys → pageUp c.addr = s.kernelHeapEnd

/-- With a used block behind it, a block that is freed makes the heap no shorter. -/
theorem HeapState.keepsHeapEnd {d : Block} (h : HeapState L F V bs s) (hb : b ∈ bs) (hd : d ∈ bs)
    (hused : d.used = true) (hlt : b.addr < d.addr) : KeepsHeapEnd L s b.memory := by
  intro bs₁ b₁ hlaid hb₁ hmem xs c ys hjoined htrims
  obtain ⟨rfl, rfl⟩ := h.same_block hb hlaid.filled.1 hb₁ hmem
  exact absurd htrims (hjoined.not_trims h.arena hd hused hlt)

/-- The call is none of `krealloc`, and a block it frees makes the heap no shorter. -/
def NeverShortens (L : Layout) (s : Kernel) : HeapOp → Prop
  | .krealloc _ _ => False
  | .kfree ptr => KeepsHeapEnd L s ptr
  | _ => True

/-! ## Calls -/

theorem kmalloc_end_le (h : LaidOut L bs s) (hw : WithinLimit L s size) {p : Nat}
    (hret : (kmalloc size).Returns s p s') : s.kernelHeapEnd ≤ s'.kernelHeapEnd := by
  obtain ⟨-, F, V, hstate⟩ := h
  obtain ⟨hsize, hlimit⟩ := hw
  have hwp := hstate.kmalloc (E := IsPanic) (by omega) (fun hnone => hlimit (hstate.findFree_none hnone))
    (.inr fun _ _ => .inl fun _ he => he)
  rcases hret.of_wp hwp with ⟨-, rfl, -⟩ | ⟨F', V', bs₁, b, bs', hsupply, -⟩
  · exact Nat.le_refl _
  · cases hsupply with
    | reuse _ hstep => rw [hstep.same]
    | extend hext hstep =>
      rw [hstep.same]
      show s.kernelHeapEnd ≤ Kernel.kernelHeapEnd _
      rw [hext.heapEnd]
      exact Nat.le_add_right _ _

/-- A `kfree` that makes the heap no shorter trims it cleanly. -/
theorem KeepsHeapEnd.freesCleanly {ptr : Nat} (h : KeepsHeapEnd L s ptr) : FreesCleanly L s (.kfree ptr) := by
  intro bs b hlaid hb hptr xs c ys hjoined htrims
  have hend := h bs b hlaid hb hptr xs c ys hjoined htrims
  obtain ⟨htiles, F, V, hstate⟩ := hlaid
  have hbound := (Tiles.arena (hjoined.placed htiles)).bounds (b := c) (by simp)
  simp only [Block.stop] at hbound
  refine ⟨fun hcross => ?_, fun i hi => ?_⟩
  · unfold pageUp at hend
    omega
  · rw [hend, Nat.sub_self] at hi
    exact absurd hi (Nat.not_lt_zero i)

/-- Where the heap ends when a block has been freed; its pages up to the old end are still mapped. -/
theorem kfree_heapEnd (h : LaidOut L bs s) (hb : b ∈ bs) (hret : (kfree L b.memory).Returns s () s') :
    ∃ xs c ys bs', Joined bs b xs c ys ∧ Trimmed s.kernelHeapEnd xs c ys bs' s'.kernelHeapEnd ∧
      L.kernelHeapStart ≤ s'.kernelHeapEnd ∧ s'.kernelHeapEnd ≤ s.kernelHeapEnd ∧
      ∀ v, L.Within s.kernelHeapEnd v → ∃ a, translate s'.mem s'.cr3 v = some a := by
  obtain ⟨htiles, F, V, hstate⟩ := h
  obtain ⟨xs, ys, rfl⟩ := List.append_of_mem hb
  have hwp := hstate.kfree (E := IsPanic) (.inl fun _ he => he)
  obtain ⟨xs', b₁, c, ys', bs', hlast, hnext, htrimmed, hremains, -⟩ := hret.of_wp hwp
  have hjoined : Joined (xs ++ b :: ys) b xs' c ys' := .mk hlast hnext
  have hbound := (Tiles.arena (hjoined.placed htiles)).bounds (b := c) (by simp)
  simp only [Block.stop] at hbound
  have he := hstate.pages.endAligned
  have hstart : L.kernelHeapStart ≤ s'.kernelHeapEnd := by
    by_cases htrims : Trims s.kernelHeapEnd xs' c ys'
    · rw [(htrimmed.ended htrims).2]
      exact hbound.1.trans (pageUp_bounds he (by omega)).1
    · rw [(htrimmed.eq_keep htrims).2]
      exact Placed.le (fun b _ => b.addr_le_stop) hstate.arena
  obtain ⟨V', hpages, -⟩ := hremains.listed.bytes
  exact ⟨xs', c, ys', bs', hjoined, htrimmed, hstart, (htrimmed.end_le he (by omega)).1, fun v hv =>
    ⟨_, hpages.translate hv⟩⟩

theorem LaidOut.nodup (h : LaidOut L bs s) : bs.Nodup := h.1.arena.spaced.nodup.of_map

/-- A block that makes the heap no shorter leaves its end. -/
theorem KeepsHeapEnd.heapEnd (h : KeepsHeapEnd L s b.memory) (hlaid : LaidOut L bs s) (hb : b ∈ bs)
    (hret : (kfree L b.memory).Returns s () s') : s'.kernelHeapEnd = s.kernelHeapEnd := by
  obtain ⟨xs, c, ys, bs', hjoined, htrimmed, -⟩ := kfree_heapEnd hlaid hb hret
  by_cases htrims : Trims s.kernelHeapEnd xs c ys
  · rw [(htrimmed.ended htrims).2]
    exact h bs b hlaid hb rfl xs c ys hjoined htrims
  · exact (htrimmed.eq_keep htrims).2

/-- **`kfree`.** The frames it gives back are those of pages that are mapped no more exactly when
there are none: the heap is no shorter. -/
theorem returnsFrames_iff (hlaid : LaidOut L bs s) (hb : b ∈ bs) (hret : (kfree L b.memory).Returns s () s') :
    ReturnsFrames s s' ↔ KeepsHeapEnd L s b.memory := by
  constructor
  · intro hreturns bs₂ b₂ hlaid₂ hb₂ hmem xs c ys hjoined htrims
    rw [← hmem] at hret
    obtain ⟨xs', c', ys', bs', hjoined', htrimmed, hstart, hle, hmapped⟩ := kfree_heapEnd hlaid₂ hb₂ hret
    obtain ⟨rfl, rfl, rfl⟩ := hjoined.unique hjoined' hlaid₂.nodup
    rw [← (htrimmed.ended htrims).2]
    -- a page behind a lower end would still be mapped
    by_contra hne
    have hlt : s'.kernelHeapEnd < s.kernelHeapEnd := Nat.lt_of_le_of_ne hle hne
    obtain ⟨a, ha⟩ := hmapped _ ⟨hstart, hlt⟩
    rw [hreturns.unmapped _ (Nat.le_refl _) hlt] at ha
    cases ha
  · intro hkeeps
    exact .of_eq (hkeeps.heapEnd hlaid hb hret)

/-- A store into a live block leaves the end of the heap. -/
theorem WellFormed.store_heapEnd {bs : List Block} {p n v : Nat} {x : UInt8} (h : WellFormed L live bs s)
    (hp : live p = some n) (hv : p ≤ v ∧ v < p + n) (hret : (writeByte v x).Returns s () s') :
    s'.kernelHeapEnd = s.kernelHeapEnd := by
  obtain ⟨b, hb, -, rfl, hn⟩ := h.ofLive p n hp
  obtain ⟨-, F, V, hstate⟩ := h.laidOut
  have howns : b.Owns v := by
    simp only [Block.Owns, Block.memory, Block.stop] at hv ⊢
    omega
  obtain ⟨t, hret', -, hend⟩ := hstate.store hb howns x
  obtain ⟨-, rfl⟩ := hret.det hret'
  exact hend

/-! ## Runs -/

/-- In a run that never makes the heap shorter the blocks fill the heap, and it has never been
longer. -/
theorem MappedRun.wellFormed (h : MappedRun L (NeverShortens L) live top s) :
    (∃ bs, WellFormed L live bs s) ∧ top = s.kernelHeapEnd := by
  induction h with
  | init hpage hret => exact ⟨⟨_, initHeap_wellFormed hpage hret⟩, rfl⟩
  | call hrun op hok hcall ih =>
    obtain ⟨⟨bs, hwf⟩, rfl⟩ := ih
    cases hcall with
    | kmalloc _ hw hret =>
      have hwp := kmalloc_wp (E := IsPanic) hwf.laidOut hw (.inr fun _ _ => .inl fun _ he => he)
      exact ⟨hwf.kmalloc (hret.of_wp hwp), Nat.max_eq_right (kmalloc_end_le hwf.laidOut hw hret)⟩
    | krealloc _ _ _ _ => exact hok.elim
    | kfree hptr hret =>
      have hkeeps : KeepsHeapEnd L _ _ := hok
      obtain ⟨b, hb, -, rfl, -⟩ := hwf.ofLive _ _ hptr
      refine ⟨(hwf.kfree_step hptr hkeeps.freesCleanly hret).2, ?_⟩
      rw [hkeeps.heapEnd hwf.laidOut hb hret, Nat.max_self]
    | store hptr h₁ h₂ hret =>
      refine ⟨⟨bs, hwf.store hptr ⟨h₁, h₂⟩ hret⟩, ?_⟩
      rw [hwf.store_heapEnd hptr ⟨h₁, h₂⟩ hret, Nat.max_self]

/-- **The frames of the heap.** In a run of `kmalloc` and `kfree` in which no block that is freed
makes the heap shorter, no frame is free and mapped by the heap; and a further `kfree` gives
back the frames of pages that are mapped no more exactly when it makes the heap no shorter. -/
theorem heapFrames_run (h : MappedRun L (NeverShortens L) live top s) :
    FramesApart L top s ∧ ∀ ptr n s', live ptr = some n → (kfree L ptr).Returns s () s' →
      (ReturnsFrames s s' ↔ KeepsHeapEnd L s ptr) := by
  obtain ⟨⟨bs, hwf⟩, rfl⟩ := h.wellFormed
  refine ⟨?_, fun ptr n s' hptr hret => ?_⟩
  · obtain ⟨-, F, V, hstate⟩ := hwf.laidOut
    exact hstate.framesApart
  · obtain ⟨b, hb, -, rfl, -⟩ := hwf.ofLive ptr n hptr
    exact returnsFrames_iff hwf.laidOut hb hret

/-- Behind the first of three blocks the second has been freed, and then the first is. -/
theorem heapFrames_run_firstHeap : ∃ live top s s', HeapRun exampleLayout (NeverShortens exampleLayout)
      [.kmalloc 64, .kmalloc 64, .kmalloc 64, .kfree 0xFFFFFF0001001080] live s ∧
    MappedRun exampleLayout (NeverShortens exampleLayout) live top s ∧ FramesApart exampleLayout top s ∧
    live 0xFFFFFF0001001020 = some 64 ∧ (kfree exampleLayout 0xFFFFFF0001001020).Returns s () s' ∧
    ReturnsFrames s s' := by
  obtain ⟨live, F, s, hlive, h⟩ := firstHeap_gap (NeverShortens exampleLayout) (fun _ _ => trivial)
    fun hstate hb hd hused hlt => hstate.keepsHeapEnd hb hd hused hlt
  obtain ⟨V, hstate⟩ := h.state
  have hkeeps : KeepsHeapEnd exampleLayout s 0xFFFFFF0001001020 :=
    hstate.keepsHeapEnd (b := ⟨0xFFFFFF0001001000, 64, true⟩) (d := ⟨0xFFFFFF00010010C0, 64, true⟩)
      (by simp) (by simp) rfl (by decide)
  obtain ⟨s', -, -, -, -, -, hret, -⟩ := h.free (n := 64) hlive (by simp [RoomAtEnd]) hkeeps
  obtain ⟨top, hrun⟩ := h.run.mapped
  obtain ⟨hframes, hiff⟩ := heapFrames_run hrun
  exact ⟨live, top, s, s', h.run, hrun, hframes, hlive, hret, (hiff _ _ _ hlive hret).mpr hkeeps⟩

/-- A block of two pages behind the first page is freed: the heap ends where it began, and its
pages are still mapped. -/
theorem heapFrames_run_shortens : ∃ live top s s', MappedRun exampleLayout (fun _ => NoKrealloc) live top s ∧
    live 0xFFFFFF0001002020 = some 8128 ∧ (kfree exampleLayout 0xFFFFFF0001002020).Returns s () s' ∧
    ¬ReturnsFrames s s' := by
  obtain ⟨F₀, h₀⟩ := firstHeap_tracked fun _ => NoKrealloc
  have hphys := firstHeap_laidOut.2.2.1
  replace h₀ : Tracked _ [] _ F₀ ([] ++ firstBlock exampleLayout :: []) _ firstHeap := h₀
  -- the first page is full, and the heap gets two more
  obtain ⟨s₁, h₁, hphys₁⟩ := h₀.first 4064 trivial (by decide) ⟨rfl, by decide⟩ (by simp)
  replace h₁ : Tracked _ [.kmalloc 4064] _ F₀ [⟨0xFFFFFF0001001000, 4064, true⟩] 0xFFFFFF0001002000 s₁ := h₁
  have hpages : pageCount (unitUp 8128) = 2 := by decide
  obtain ⟨s₂, h₂⟩ := h₁.extend 8128 trivial (by decide) (by decide) (by decide) (by simp [Block.Fits])
    (by rw [hphys₁, hphys, hpages]; decide)
  replace h₂ : Tracked _ [.kmalloc 4064, .kmalloc 8128] _ _ ([⟨0xFFFFFF0001001000, 4064, true⟩] ++
      ⟨0xFFFFFF0001002000, 8160, true⟩ :: []) 0xFFFFFF0001004000 s₂ := h₂
  -- the last block is cut off at the start of its first page
  obtain ⟨s₃, xs', b₁, c, ys', bs', hret, hlast, hnext, htrimmed, ⟨K, V₀, hremains⟩, -⟩ :=
    h₂.free (n := 8128) (by decide) (by simp [RoomAtEnd]) trivial
  replace hlast : LastMerged ([] ++ [⟨0xFFFFFF0001001000, 4064, true⟩]) _ xs' b₁ := hlast
  obtain ⟨rfl, rfl⟩ := hlast.eq_keep rfl
  obtain ⟨rfl, rfl⟩ := hnext.eq_nil
  have hend := (htrimmed.ended ⟨rfl, by simp, by decide⟩).2
  replace hend : s₃.kernelHeapEnd = 0xFFFFFF0001002000 := hend
  obtain ⟨top, hrun⟩ := h₂.run.mapped
  refine ⟨_, top, s₂, s₃, hrun, by decide, hret, fun hreturns => ?_⟩
  have hunmapped := hreturns.unmapped 0xFFFFFF0001002000 hend.le (by rw [h₂.heapEnd]; decide)
  obtain ⟨V', hpagesLeft, -⟩ := hremains.listed.bytes
  rw [hpagesLeft.translate ⟨by decide, by decide⟩] at hunmapped
  cases hunmapped

end KoalemOS.Heap
