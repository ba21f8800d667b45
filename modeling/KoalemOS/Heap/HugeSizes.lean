import KoalemOS.Heap.Growing

/-!
# Sizes near the end of the addresses

A request is rounded up to 16 bytes, gets a header and becomes a number of pages, all modulo
2^64. Up to 2^64 - 48 nothing wraps. Above, the rounded size is 0, or a size whose header wraps:
then one page is taken for it, and the entry comes to record more than there is
(`sizes_recorded_iff`).
-/

namespace KoalemOS.Heap

open KoalemOS.Library KoalemOS.Library.LinkedList KoalemOS.Mmap KoalemOS.Paging

variable {L : Layout} {e : Nat} {F : Nat → Nat} {K : Nat → Prop} {V V₀ : Mem} {s₀ s s' : Kernel} {b c : Block}
  {bs xs ys : List Block} {size p : Nat}

/-! ## What is asked of the calls -/

/-- The entry behind `p` records `size` bytes at least, and they lie in the heap. -/
structure Recorded (s : Kernel) (p size : Nat) : Prop where
  entry : ∃ n, (entrySize (sub64 p sizeofHeapEntry)).Returns s n s ∧ size ≤ n
  inside : p + size ≤ s.kernelHeapEnd

/-- What `kmalloc` returns, and `krealloc` for any used block, is 0 or recorded with its size. -/
def RecordsSize (L : Layout) (bs : List Block) (s : Kernel) (size : Nat) : Prop :=
  (∀ p s', (kmalloc size).Returns s p s' → p ≠ 0 → Recorded s' p size) ∧
    ∀ b ∈ bs, b.used = true → ∀ p s', (krealloc L b.memory size).Returns s p s' → p ≠ 0 → Recorded s' p size

/-- The pages that are asked for, when no entry has room for a request, are within the limit of the
heap. -/
def GrowsWithin (L : Layout) (bs : List Block) (s : Kernel) (size : Nat) : Prop :=
  (∀ b ∈ bs, ¬b.Fits (alignUp size alignofMaxAlign)) →
    ∀ count, count = wrap (alignUp size alignofMaxAlign + sizeofHeapEntry) / 0x1000 + 1 →
      (mmapGetPages s.physMmap count).1 ≠ 0 → s.kernelHeapEnd + 4096 * count ≤ L.kernelHeapStart + kernelHeapMaxSize

/-- The size and its header can be rounded. Or there is nothing to return: no free entry has room
for the rounded size, no frame is free, and where the size is rounded to 0 no block is used. -/
def SizeFits (bs : List Block) (s : Kernel) (size : Nat) : Prop :=
  size + 48 ≤ 2 ^ 64 ∨ (∀ b ∈ bs, ¬b.Fits (alignUp size alignofMaxAlign)) ∧ (mmapGetPages s.physMmap 1).1 = 0 ∧
    (size + 16 ≤ 2 ^ 64 ∨ ∀ b ∈ bs, b.used = false)

/-! ## Rounding -/

/-- The last sizes are rounded to 0. -/
theorem alignUp_last (h : 2 ^ 64 < size + 16) (hlt : size < 2 ^ 64) : alignUp size alignofMaxAlign = 0 := by
  have hdown := alignDown_two_pow (x := size - 1) (k := 4) (by omega) (by decide)
  have hsub : sub64 size 1 = size - 1 := sub64_of_le (by omega) hlt
  unfold alignUp
  rw [hsub, show alignofMaxAlign = 2 ^ 4 from rfl, hdown, show (size - 1) / 2 ^ 4 * 2 ^ 4 + 2 ^ 4 = 2 ^ 64 by omega]
  decide

/-- Those before them are rounded to the last two units. -/
theorem alignUp_huge (h : size + 16 ≤ 2 ^ 64) (hgt : 2 ^ 64 < size + 48) :
    alignUp size alignofMaxAlign = 2 ^ 64 - 32 ∨ alignUp size alignofMaxAlign = 2 ^ 64 - 16 := by
  rw [alignUp_unit h]
  unfold unitUp
  omega

/-- `kmalloc` sees only the rounded size. -/
theorem kmalloc_congr {size' : Nat} (h : alignUp size alignofMaxAlign = alignUp size' alignofMaxAlign) :
    kmalloc size = kmalloc size' := by
  unfold kmalloc
  rw [h]

theorem krealloc_congr {size' ptr : Nat} (h : alignUp size alignofMaxAlign = alignUp size' alignofMaxAlign) :
    krealloc L ptr size = krealloc L ptr size' := by
  unfold krealloc
  rw [h]

theorem alignUp_zero : alignUp 0 alignofMaxAlign = 0 := by decide

/-- A size that large is in no heap. -/
theorem Recorded.size_le (h : Recorded s p size) (hend : s.kernelHeapEnd ≤ 0xFFFFFF8000000000) :
    size + 48 ≤ 2 ^ 64 := by
  have hin := h.inside
  omega

/-! ## Sizes that are not rounded over the end -/

theorem Listed.recorded (h : Listed L e F K V₀ s₀ bs s) (hc : c ∈ bs) (hsize : size ≤ c.size)
    (hin : c.memory + size ≤ s.kernelHeapEnd) : Recorded s c.memory size := by
  have hlt := h.addr_lt hc
  obtain ⟨xs, ys, rfl⟩ := List.append_of_mem hc
  have hentry : sub64 c.memory sizeofHeapEntry = c.addr := by
    simp only [Block.memory, sizeofHeapEntry]
    rw [sub64_of_le (by omega) (by omega)]
    omega
  refine ⟨⟨c.size, ?_, hsize⟩, hin⟩
  rw [hentry]
  exact h.entrySize

theorem HeapState.recorded (h : HeapState L F V bs s) (hc : c ∈ bs) (hsize : size ≤ c.size) :
    Recorded s c.memory size := by
  have hlisted : Listed L s.kernelHeapEnd F (fun _ => False) V s bs s := h.listed fun v hv => hv.elim
  have hbound := (h.arena.bounds hc).2
  refine hlisted.recorded hc hsize ?_
  simp only [Block.stop, Block.memory] at hbound ⊢
  omega

theorem GrowsWithin.endWithin (h : GrowsWithin L bs s size) (hsize : size + 48 ≤ 2 ^ 64) :
    EndWithin L (unitUp size) bs s := by
  obtain ⟨-, hlt, hunit⟩ := unitUp_le hsize
  intro hnone hfound
  refine h (by rwa [hunit]) (pageCount (unitUp size)) ?_ hfound
  rw [hunit, wrap_of_lt hlt]
  rfl

/-- `kmalloc` of such a size. -/
theorem HeapState.kmalloc_recorded (h : HeapState L F V bs s) (hsize : size + 48 ≤ 2 ^ 64)
    (hlimit : GrowsWithin L bs s size) :
    Outcome.wp IsPanic (Heap.kmalloc size) (fun p s' => p ≠ 0 → Recorded s' p size) s := by
  refine Outcome.wp_mono (h.kmalloc hsize (hlimit.endWithin hsize) (.inr fun _ _ => .inl fun _ he => he))
    fun p s' hs => ?_
  rcases hs with ⟨hp, -⟩ | ⟨F', V', bs₁, b, bs', -, htaken, rfl, hstate, -⟩
  · exact fun hne => absurd hp hne
  · intro _
    obtain ⟨⟨c, hc, haddr, -, hfits, -⟩, -⟩ := htaken.used
    have hmem : b.memory = c.memory := by simp only [Block.memory, haddr]
    rw [hmem]
    exact hstate.recorded hc ((unitUp_le hsize).1.trans hfits)

/-- A block that stays in its place. -/
theorem HeapState.stays_recorded (h : HeapState L F V (xs ++ b :: ys) s) (hsize : size + 48 ≤ 2 ^ 64)
    (hstays : b.size < unitUp size → ∃ ns c zs, Absorbs (unitUp size) ys ns c zs) :
    ∃ s', (Heap.krealloc L b.memory size).Returns s b.memory s' ∧ Recorded s' b.memory size := by
  obtain ⟨t, out, hret, hresized, hlisted⟩ := h.krealloc_stays size (by omega) hstays
  obtain ⟨hend, -⟩ := h.resized hresized hlisted
  obtain ⟨c, rest, rfl, haddr, -, hcsize, -⟩ := hresized.cases
  have hle := (unitUp_le hsize).1
  have hmem : b.memory = c.memory := by simp only [Block.memory, haddr]
  refine ⟨t, hret, ?_⟩
  rw [hmem]
  refine hlisted.recorded (by simp) (hle.trans hcsize) ?_
  rw [← hmem, hend]
  have hbound := h.arena.bounds (b := b) (by simp)
  simp only [Block.stop, Block.memory] at hbound ⊢
  by_cases hlt : b.size < unitUp size
  · -- the room ends behind the block that is taken over
    obtain ⟨ns, d, zs, habs⟩ := hstays hlt
    have hd : d ∈ ys := by
      rw [habs.split]
      simp
    have hfits := habs.fits
    have hbehind := h.arena.around.2 d hd
    have hdbound := (h.arena.bounds (b := d) (by simp [hd])).2
    simp only [Block.stop] at hbehind hdbound
    omega
  · omega

/-- A block before the one that the heap is trimmed to is within the new end. -/
theorem Trimmed.stop_le {e' : Nat} {bs' : List Block} (h : Trimmed e xs b ys bs' e')
    (ha : Arena L.kernelHeapStart (xs ++ b :: ys) e) (he : e % 4096 = 0) (hc : c ∈ xs ++ b :: ys) (hne : c ≠ b) :
    c.stop ≤ e' := by
  by_cases htrims : Trims e xs b ys
  · obtain ⟨-, rfl⟩ := h.ended htrims
    have hbound := (Arena.bounds ha (b := b) (by simp)).2
    simp only [Block.stop] at hbound
    have hbefore : c ∈ xs := by
      have hlast := htrims.last
      subst hlast
      simp only [List.mem_append, List.mem_singleton] at hc
      exact hc.resolve_right hne
    exact ((Arena.around ha).1 c hbefore).trans (pageUp_bounds he (by omega)).1
  · obtain ⟨-, rfl⟩ := h.eq_keep htrims
    exact (Arena.bounds ha hc).2

/-- `krealloc` of such a size. -/
theorem HeapState.krealloc_recorded (h : HeapState L F V (xs ++ b :: ys) s) (hused : b.used = true)
    (hsize : size + 48 ≤ 2 ^ 64) (hlimit : GrowsWithin L (xs ++ b :: ys) s size) :
    Outcome.wp IsPanic (Heap.krealloc L b.memory size) (fun p s' => p ≠ 0 → Recorded s' p size) s := by
  by_cases hstays : b.size < unitUp size → ∃ ns c zs, Absorbs (unitUp size) ys ns c zs
  · obtain ⟨s', hret, hrec⟩ := h.stays_recorded hsize hstays
    exact Outcome.wp_of_returns hret fun _ => hrec
  · rw [Classical.not_imp] at hstays
    obtain ⟨hlt, hno⟩ := hstays
    have hnone : ∀ ns c zs, ¬Absorbs (unitUp size) ys ns c zs := fun ns c zs habs => hno ⟨ns, c, zs, habs⟩
    refine Outcome.wp_mono (h.krealloc_moves hused hlt hsize hnone (hlimit.endWithin hsize) fun _ he => he)
      fun p s' hs => ?_
    rcases hs with ⟨hp, -⟩ | ⟨-, F', V', bs₁, d, bs', t, hcopied, xs', c, ys', bs'', hjoined, htrimmed, hremains⟩
    · exact fun hne => absurd hp hne
    · intro _
      -- the new block is still there when the old one has been freed
      obtain ⟨hsupply, htaken, rfl, hstate', -⟩ := hcopied
      obtain ⟨⟨a, ha, haaddr, haused, hafits, -⟩, -⟩ := htaken.used
      have hne : a ≠ b := by
        rintro rfl
        exact hsupply.fresh h htaken (by simp) hused haaddr
      have hmem : d.memory = a.memory := by simp only [Block.memory, haaddr]
      have hfits : size ≤ a.size := (unitUp_le hsize).1.trans hafits
      have hleft : a ∈ xs' ++ ys' := hjoined.used ha hne haused
      have hmemLeft : a ∈ xs' ++ c :: ys' := by
        simp only [List.mem_append, List.mem_cons] at hleft ⊢
        tauto
      have hac : a ≠ c := by
        rintro rfl
        rw [hjoined.free] at haused
        cases haused
      have hstop := htrimmed.stop_le (hjoined.placed hstate'.arena) hstate'.pages.endAligned hmemLeft hac
      rw [hmem]
      refine hremains.listed.recorded ((htrimmed.used hjoined.free haused).mpr hleft) hfits ?_
      simp only [Block.stop, Block.memory] at hstop ⊢
      omega

/-! ## Sizes whose header wraps -/

theorem DataStep.heapEnd (h : DataStep s s') : s'.kernelHeapEnd = s.kernelHeapEnd := by rw [h.same]

/-- A header is written somewhere in the heap. -/
theorem Pages.writeEntry (h : Pages L e F V s) {a : Nat} (hlow : L.kernelHeapStart ≤ a) (hhigh : a + 32 ≤ e)
    (ha : a % 8 = 0) (size last next : Nat) (used : Bool) :
    ∃ s', (Heap.writeEntry a size used last next).Returns s () s' ∧ Pages L e F ((((V.store64 a size).storeByte
      (a + 8) (if used then 1 else 0)).store64 (a + 16) last).store64 (a + 24) next) s' ∧ DataStep s s' := by
  have hend := h.end_le
  obtain ⟨s₁, hret₁, hp₁, hstep₁, -⟩ := h.writeWord (v := a) ⟨hlow, by omega, ha⟩ size
  obtain ⟨s₂, hret₂, hp₂, hstep₂, -⟩ := hp₁.writeByte (v := a + 8) ⟨by omega, by omega⟩ (if used then 1 else 0)
  obtain ⟨s₃, hret₃, hp₃, hstep₃, -⟩ := hp₂.writeWord (v := a + 16) ⟨by omega, by omega, by omega⟩ last
  obtain ⟨s₄, hret₄, hp₄, hstep₄, -⟩ := hp₃.writeWord (v := a + 24) ⟨by omega, by omega, by omega⟩ next
  refine ⟨s₄, ?_, hp₄, ((hstep₁.trans hstep₂).trans hstep₃).trans hstep₄⟩
  unfold Heap.writeEntry setSize setUsed setLast setNext
  rw [wrap_of_lt (show a + 8 < 2 ^ 64 by omega), wrap_of_lt (show a + 16 < 2 ^ 64 by omega),
    wrap_of_lt (show a + 24 < 2 ^ 64 by omega)]
  exact hret₁.bind (hret₂.bind (hret₃.bind hret₄))

/-- A word of zeros. -/
theorem byte_of_load64_zero {m : Mem} {a : Nat} (h : m.load64 a = 0) : m a = 0 := by
  have hzero : Mem.load64 (fun _ => 0) a = 0 := by simp [Mem.load64, Mem.loadLE]
  exact Mem.byte_eq_of_loadLE_eq (h.trans hzero.symm) (Nat.le_refl a) (Nat.lt_add_of_pos_right (by decide))

/-- The new header overlaps the one of its entry, and leaves it without a next one. -/
theorem next_of_overlap {m : Mem} {a k : Nat} (hk : k = 0 ∨ k = 16) (x y z : Nat) (h : m.load64 (a + 24) = 0) :
    Mem.load64 (((((m.store64 (a + k) x).storeByte (a + k + 8) 0).store64 (a + k + 16) y).store64 (a + k + 24) 0).store64
      a z) (a + 24) = 0 := by
  rw [Mem.load64_store64_disjoint (.inr (by omega))]
  rcases hk with rfl | rfl
  · exact Mem.load64_store64_same _ _ (by decide)
  · rw [Mem.load64_store64_disjoint (.inl (by omega)), Mem.load64_store64_disjoint (.inl (by omega)), ← h]
    refine Mem.loadLE_congr fun v h₁ h₂ => ?_
    by_cases hv : v = a + 24
    · subst hv
      exact (Mem.storeByte_same _ _ _).trans (byte_of_load64_zero h).symm
    · rw [Mem.storeByte_other _ (by omega)]
      exact Mem.storeLE_outside (by omega)

/-- `takeEntry` on the page that was taken for such a size. -/
theorem HeapState.takeEntry_huge {a k : Nat} (h : HeapState L F V (bs ++ [⟨a, 4064, false⟩]) s)
    (hk : k = 0 ∨ k = 16) : ∃ s', (Heap.takeEntry a (2 ^ 64 - 32 + k)).Returns s (a + 32) s' ∧ DataStep s s' := by
  have hbound := h.arena.bounds (b := ⟨a, 4064, false⟩) (by simp)
  have halign := h.aligned ⟨a, 4064, false⟩ (by simp)
  have hend := h.pages.end_le
  simp only [Block.stop] at hbound halign
  have hnode : header V a = ⟨⟨4064, false⟩, _, 0⟩ := Chain.node h.links
  have hsize : V.load64 a = 4064 := congrArg (fun n => n.val.size) hnode
  have hnext : V.load64 (a + 24) = 0 := congrArg (fun n => n.next) hnode
  have hin : ∀ i, i ≤ 24 → i % 8 = 0 → L.WordIn s.kernelHeapEnd (a + i) := fun i _ _ =>
    ⟨by omega, by omega, by omega⟩
  -- the entry is used
  obtain ⟨s₁, hret₁, hp₁, hstep₁, -⟩ := h.pages.writeByte (v := a + 8) ⟨by omega, by omega⟩ 1
  generalize hV₁ : V.storeByte (a + 8) 1 = V₁ at hp₁
  have hload : ∀ i, i = 0 ∨ i = 24 → V₁.load64 (a + i) = V.load64 (a + i) := fun i hi => by
    rw [← hV₁]
    exact Mem.loadLE_congr fun v h₁ h₂ => Mem.storeByte_other _ (by omega)
  have hsize₁ := (hload 0 (.inl rfl)).trans hsize
  have hnext₁ := (hload 24 (.inr rfl)).trans hnext
  have hreadSize := hp₁.readWord (hin 0 (by decide) (by decide))
  have hreadNext := hp₁.readWord (hin 24 (by decide) (by decide))
  rw [hsize₁] at hreadSize
  rw [hnext₁] at hreadNext
  -- the header of the rest overlaps its own
  obtain ⟨s₂, hret₂, hp₂, hstep₂⟩ := hp₁.writeEntry (a := a + k) (by omega) (by omega) (by omega)
    (sub64 4064 k) a 0 false
  obtain ⟨s₃, hret₃, hp₃, hstep₃, -⟩ := hp₂.writeWord (hin 0 (by decide) (by decide)) (2 ^ 64 - 32 + k)
  have hreadNext₃ := hp₃.readWord (hin 24 (by decide) (by decide))
  have hzero : Mem.load64 _ (a + 24) = 0 := next_of_overlap hk (sub64 4064 k) a (2 ^ 64 - 32 + k) hnext₁
  replace hreadNext₃ : (readWord (a + 24)).Returns s₃ 0 s₃ := by
    rw [← hzero]
    exact hreadNext₃
  generalize hs₄ : { s₃ with lastHeapEntry := a + k } = s₄
  have hp₄ : Pages L s.kernelHeapEnd F _ s₄ := hp₃.of_mem_eq (by rw [← hs₄]) (by rw [← hs₄])
  have hstep₄ : DataStep s₃ s₄ := by
    rw [← hs₄]
    exact ⟨rfl, fun _ _ => rfl⟩
  obtain ⟨s₅, hret₅, -, hstep₅, -⟩ := hp₄.writeWord (v := a + 24) ⟨by omega, by omega, by omega⟩ (a + k)
  refine ⟨s₅, ?_, (((hstep₁.trans hstep₂).trans hstep₃).trans hstep₄).trans hstep₅⟩
  have hmemory : memoryOf a = a + 32 := wrap_of_lt (show a + 32 < 2 ^ 64 by omega)
  have hheader : wrap (2 ^ 64 - 32 + k + sizeofHeapEntry) = k := by
    unfold wrap sizeofHeapEntry
    omega
  have hroom : 4064 > wrap (2 ^ 64 - 32 + k + sizeofHeapEntry + sizeofMaxAlign) := by
    unfold wrap sizeofHeapEntry sizeofMaxAlign
    omega
  have hrest : wrap (a + 32 + (2 ^ 64 - 32 + k)) = a + k := by
    unfold wrap
    omega
  have hlink : (linkBack a (a + k)).Returns s₃ () s₄ := by
    unfold linkBack entryNext
    rw [wrap_of_lt (show a + 24 < 2 ^ 64 by omega)]
    refine hreadNext₃.bind ?_
    rw [if_neg (by decide), ← hs₄]
    exact Outcome.returns_modify _ s₃
  have hcut : (cutEntry a (2 ^ 64 - 32 + k) (setSize a (2 ^ 64 - 32 + k))).Returns s₁ () s₅ := by
    unfold cutEntry splitEntry entrySize entryNext setSize setNext
    rw [wrap_of_lt (show a + 24 < 2 ^ 64 by omega), hmemory, hrest, hheader]
    refine hreadSize.bind ?_
    rw [if_pos hroom]
    exact hreadSize.bind (hreadNext.bind (hret₂.bind (hret₃.bind (hlink.bind hret₅))))
  unfold Heap.takeEntry setUsed
  rw [wrap_of_lt (show a + 8 < 2 ^ 64 by omega), hmemory]
  exact hret₁.bind (hcut.bind (Outcome.returns_pure _ s₅))

/-- No free entry has room for such a size. -/
theorem HeapState.no_fits_huge (h : HeapState L F V bs s) (hsize : 2 ^ 64 ≤ size + 32) : ∀ b ∈ bs, ¬b.Fits size := by
  rintro b hb ⟨-, hle⟩
  have hlt := h.stop_lt hb
  simp only [Block.stop] at hlt
  omega

/-- `kmalloc` for such a size takes a page, when it finds one. -/
theorem HeapState.kmalloc_huge (h : HeapState L F V bs s) (hle : size + 16 ≤ 2 ^ 64) (hgt : 2 ^ 64 < size + 48)
    (hlimit : GrowsWithin L bs s size) :
    ((mmapGetPages s.physMmap 1).1 = 0 → (Heap.kmalloc size).Returns s 0 s) ∧
      ((mmapGetPages s.physMmap 1).1 ≠ 0 → Outcome.wp IsPanic (Heap.kmalloc size)
        (fun p s' => p ≠ 0 ∧ s'.kernelHeapEnd ≤ 0xFFFFFF8000000000) s) := by
  obtain ⟨k, hk, hround⟩ : ∃ k, (k = 0 ∨ k = 16) ∧ alignUp size alignofMaxAlign = 2 ^ 64 - 32 + k := by
    rcases alignUp_huge hle hgt with hround | hround
    · exact ⟨0, .inl rfl, hround⟩
    · exact ⟨16, .inr rfl, hround⟩
  have hnone : ∀ b ∈ bs, ¬b.Fits (2 ^ 64 - 32 + k) := h.no_fits_huge (by omega)
  have hcount : wrap (2 ^ 64 - 32 + k + sizeofHeapEntry) / 0x1000 + 1 = 1 := by
    unfold wrap sizeofHeapEntry
    omega
  unfold Heap.kmalloc
  rw [hround]
  have hfirst := Outcome.returns_gets (ε := Stop) Kernel.firstHeapEntry s
  have hfind := h.findFree_none hnone
  refine ⟨fun hzero => hfirst.bind (hfind.bind ?_), fun hfound => ?_⟩
  · rw [if_neg (by decide)]
    refine (h.extendHeap_none hcount hzero).bind ?_
    rw [if_neg (by decide)]
    exact Outcome.returns_pure 0 s
  · have hbound := hlimit (by rwa [hround]) 1 (by rw [hround, hcount]) hfound
    refine Outcome.wp_bind_returns hfirst (Outcome.wp_bind_returns hfind ?_)
    rw [if_neg (by decide)]
    refine Outcome.wp_bind (Outcome.wp_mono (h.extendHeap_pages hcount (fun _ => hbound) fun _ _ => .inl fun _ he => he)
      fun a s₁ hs => ?_)
    rcases hs with ⟨-, -, hzero⟩ | ⟨rfl, -, -, -, -, V', hstate, -⟩
    · exact absurd hzero hfound
    have hne : s.kernelHeapEnd ≠ 0 := by
      have hstart := h.pages.start_le
      have hlower := L.lower
      have hbuf := L.buf_below
      omega
    obtain ⟨s₂, hret, hstep⟩ := hstate.takeEntry_huge hk
    rw [if_pos hne]
    refine Outcome.wp_of_returns hret ⟨by omega, ?_⟩
    rw [hstep.heapEnd]
    exact hstate.pages.end_le

/-- `krealloc` for such a size finds no room, and no page. -/
theorem HeapState.krealloc_huge (h : HeapState L F V (xs ++ b :: ys) s) (hle : size + 16 ≤ 2 ^ 64)
    (hgt : 2 ^ 64 < size + 48) (hlimit : GrowsWithin L (xs ++ b :: ys) s size)
    (hzero : (mmapGetPages s.physMmap 1).1 = 0) : (Heap.krealloc L b.memory size).Returns s 0 s := by
  have hround : 2 ^ 64 ≤ alignUp size alignofMaxAlign + 32 ∧ alignUp size alignofMaxAlign + 16 ≤ 2 ^ 64 := by
    rcases alignUp_huge hle hgt with hround | hround <;> rw [hround] <;> decide
  have hunit : alignUp size alignofMaxAlign % 16 = 0 := by
    rw [alignUp_unit hle]
    exact unitUp_mod size
  have hagain : alignUp (alignUp size alignofMaxAlign) alignofMaxAlign = alignUp size alignofMaxAlign := by
    rw [alignUp_unit hround.2]
    exact unitUp_of_mod hunit
  have hmalloc := (h.kmalloc_huge hle hgt hlimit).1 hzero
  rw [← kmalloc_congr hagain] at hmalloc
  unfold Heap.krealloc
  rw [h.entry_eq (b := b) (by simp)]
  generalize alignUp size alignofMaxAlign = r at *
  have hsizes : ∀ c ∈ xs ++ b :: ys, c.size + 32 < r := fun c hc => by
    have hbound := (h.arena.bounds hc).2
    have hend := h.pages.end_le
    simp only [Block.stop] at hbound
    omega
  obtain ⟨done, t, hret, hpost⟩ := Outcome.returns_of_wp (h.kreallocInPlace (E := fun _ => False) hunit)
    fun _ _ _ hf => hf
  have hbsize := hsizes b (by simp)
  have hstays : (Heap.kreallocInPlace b.addr r).Returns s false s := by
    rcases hpost with ⟨-, out, hresized, -⟩ | ⟨rfl, rfl, -⟩
    · cases hresized with
      | same heq => omega
      | moveDown hlt _ => omega
      | split hlt _ _ => omega
      | @absorb _ _ ns zs c _ habs _ =>
        have hc := hsizes c (by rw [habs.split]; simp)
        have hfits := habs.fits
        omega
    · exact hret
  have hcopy : (Heap.kreallocCopy b.memory b.addr r).Returns s 0 s := by
    refine hmalloc.bind ?_
    rw [if_pos rfl]
    exact Outcome.returns_pure 0 s
  refine hstays.bind ?_
  rw [if_neg (by decide)]
  refine hcopy.bind ?_
  rw [if_pos rfl]
  exact Outcome.returns_pure 0 s

/-! ## When the sizes come out -/

/-- The last sizes are those of requests for nothing. -/
theorem HeapState.kmalloc_last (h : HeapState L F V bs s) (hgt : 2 ^ 64 < size + 16) (hlt : size < 2 ^ 64)
    (hlimit : GrowsWithin L bs s size) :
    Outcome.wp IsPanic (Heap.kmalloc size) (fun p s' => s'.kernelHeapEnd ≤ 0xFFFFFF8000000000 ∧
      (p = 0 → (∀ b ∈ bs, ¬b.Fits 0) ∧ (mmapGetPages s.physMmap 1).1 = 0) ∧
      ((∀ b ∈ bs, ¬b.Fits 0) → (mmapGetPages s.physMmap 1).1 = 0 → p = 0)) s := by
  have hround := alignUp_last hgt hlt
  have hend : EndWithin L (unitUp 0) bs s := fun hnone => hlimit (by rwa [hround]) 1 (by rw [hround]; rfl)
  rw [kmalloc_congr (hround.trans alignUp_zero.symm)]
  have hzeroSize : 0 + 48 ≤ 2 ^ 64 := by decide
  refine Outcome.wp_mono (h.kmalloc hzeroSize hend (.inr fun _ _ => .inl fun _ he => he)) fun p s' hs => ?_
  rcases hs with ⟨rfl, rfl, hnone, hzero⟩ | ⟨F', V', bs₁, d, bs', hsupply, htaken, rfl, hstate, -⟩
  · exact ⟨h.pages.end_le, fun _ => ⟨hnone, hzero⟩, fun _ _ => rfl⟩
  · refine ⟨hstate.pages.end_le, fun hp => ?_, fun hnone hzero => ?_⟩
    · simp only [Block.memory] at hp
      omega
    · cases hsupply with
      | reuse hfit _ =>
        obtain ⟨b, hb, hfits⟩ := hfit
        exact absurd hfits (hnone b hb)
      | extend hext _ => exact absurd hzero hext.found

/-- **Sizes up to 2^64.** On a heap, when the pages asked for are within its limit and `kmalloc` does
not panic: what `kmalloc` and `krealloc` return is recorded with its size, exactly when the size and
its header can be rounded, or there is nothing to return. -/
theorem sizes_recorded_iff (h : HeapState L F V bs s) (hlt : size < 2 ^ 64) (hlimit : GrowsWithin L bs s size)
    (hpanic : ∀ e t, (kmalloc size).Stops s e t → ¬IsPanic e) : RecordsSize L bs s size ↔ SizeFits bs s size := by
  by_cases hsize : size + 48 ≤ 2 ^ 64
  · -- nothing wraps
    refine iff_of_true ⟨fun p s' hret => hret.of_wp (h.kmalloc_recorded hsize hlimit), fun b hb hused p s' hret => ?_⟩
      (.inl hsize)
    obtain ⟨xs, ys, rfl⟩ := List.append_of_mem hb
    exact hret.of_wp (h.krealloc_recorded hused hsize hlimit)
  by_cases hle : size + 16 ≤ 2 ^ 64
  · -- the header wraps
    obtain ⟨hnone, hsome⟩ := h.kmalloc_huge hle (by omega) hlimit
    constructor
    · rintro ⟨hkmalloc, -⟩
      refine .inr ⟨h.no_fits_huge ?_, ?_, .inl hle⟩
      · rcases alignUp_huge hle (by omega) with hround | hround <;> rw [hround] <;> decide
      · by_contra hfound
        obtain ⟨p, s', hret, hp, hend⟩ := Outcome.returns_of_wp (hsome hfound) hpanic
        exact hsize ((hkmalloc p s' hret hp).size_le hend)
    · intro hfits
      obtain ⟨-, hzero, -⟩ := hfits.resolve_left hsize
      refine ⟨fun p s' hret hp => absurd ?_ hp, fun b hb hused p s' hret hp => absurd ?_ hp⟩
      · exact (hret.det (hnone hzero)).1
      · obtain ⟨xs, ys, rfl⟩ := List.append_of_mem hb
        exact (hret.det (h.krealloc_huge hle (by omega) hlimit hzero)).1
  · -- the size is rounded to 0
    have hround := alignUp_last (by omega) hlt
    have hwp := h.kmalloc_last (by omega) hlt hlimit
    constructor
    · rintro ⟨hkmalloc, hkrealloc⟩
      obtain ⟨p, s', hret, hend, hzero, -⟩ := Outcome.returns_of_wp hwp hpanic
      have hp : p = 0 := by
        by_contra hp
        exact hsize ((hkmalloc p s' hret hp).size_le hend)
      obtain ⟨hnone, hpages⟩ := hzero hp
      refine .inr ⟨by rwa [hround], hpages, .inr fun b hb => ?_⟩
      by_contra hused
      rw [Bool.not_eq_false] at hused
      obtain ⟨xs, ys, rfl⟩ := List.append_of_mem hb
      -- a block that is resized to nothing stays in its place
      obtain ⟨t, out, hret', hresized, hlisted⟩ := h.krealloc_stays 0 (by decide) fun hgt =>
        absurd hgt (Nat.not_lt_zero _)
      rw [← krealloc_congr (hround.trans alignUp_zero.symm)] at hret'
      have hne : b.memory ≠ 0 := by
        simp only [Block.memory]
        omega
      refine hsize ((hkrealloc b hb hused _ t hret' hne).size_le ?_)
      rw [(h.resized hresized hlisted).1]
      exact h.pages.end_le
    · intro hfits
      obtain ⟨hnone, hpages, hfree⟩ := hfits.resolve_left hsize
      rw [hround] at hnone
      refine ⟨fun p s' hret hp => absurd ((hret.of_wp hwp).2.2 hnone hpages) hp, fun b hb hused => ?_⟩
      rw [hfree.resolve_left hle b hb] at hused
      cases hused

/-- 100 bytes of the first page. -/
theorem sizes_recorded_iff_firstHeap : RecordsSize exampleLayout [firstBlock exampleLayout] firstHeap 100 ↔
    SizeFits [firstBlock exampleLayout] firstHeap 100 := by
  obtain ⟨-, F, V, hstate⟩ := firstHeap_laidOut.2.1
  have hfirst : HeapState exampleLayout F V ([] ++ firstBlock exampleLayout :: []) firstHeap := hstate
  have hwp := hfirst.kmalloc_first (E := fun _ => False) 100 (by decide) ⟨rfl, by decide⟩ (by simp)
  have hreturns : ∀ e t, ¬(kmalloc 100).Stops firstHeap e t := fun e t hstop => hstop.of_wp hwp
  have hlimit : GrowsWithin exampleLayout [firstBlock exampleLayout] firstHeap 100 := fun hnone =>
    absurd ⟨rfl, by decide⟩ (hnone (firstBlock exampleLayout) (List.mem_singleton_self _))
  exact sizes_recorded_iff hstate (by decide) hlimit fun e t hstop => absurd hstop (hreturns e t)

/-- A request for 2^64 - 1 bytes is one for nothing: it is given an entry of no bytes. -/
theorem not_recordsSize_last : ∃ s, (kmalloc 0xFFFFFFFFFFFFFFFF).Returns firstHeap 0xFFFFFF0001001020 s ∧
    (entrySize 0xFFFFFF0001001000).Returns s 0 s ∧
    ¬RecordsSize exampleLayout [firstBlock exampleLayout] firstHeap 0xFFFFFFFFFFFFFFFF := by
  obtain ⟨-, F, V, hstate⟩ := firstHeap_laidOut.2.1
  have hfirst : HeapState exampleLayout F V ([] ++ firstBlock exampleLayout :: []) firstHeap := hstate
  have hwp := hfirst.kmalloc_first (E := fun _ => False) 0 (by decide) ⟨rfl, by decide⟩ (by simp)
  obtain ⟨p, s, hret, rfl, V', hstate', -⟩ := Outcome.returns_of_wp hwp fun _ _ _ hf => hf
  have hround : alignUp 0xFFFFFFFFFFFFFFFF alignofMaxAlign = alignUp 0 alignofMaxAlign :=
    (alignUp_last (by decide) (by decide)).trans alignUp_zero.symm
  rw [← kmalloc_congr hround] at hret
  have hlisted : Listed exampleLayout s.kernelHeapEnd F (fun _ => False) V' s
      ([] ++ ⟨0xFFFFFF0001001000, 0, true⟩ :: [⟨0xFFFFFF0001001020, 4032, false⟩]) s :=
    hstate'.listed fun v hv => hv.elim
  have hentry := hlisted.entrySize
  refine ⟨s, hret, hentry, fun hrecords => ?_⟩
  obtain ⟨n, hn, hle⟩ := (hrecords.1 _ s hret (by decide)).entry
  obtain ⟨rfl, -⟩ := hn.det hentry
  exact absurd hle (by decide)

end KoalemOS.Heap
