import KoalemOS.Heap.State

/-!
# `kmalloc` on a heap

`kmalloc` takes the first block with room, or puts one behind the others first
(`kmalloc_wp`). What the list of blocks is afterwards is said by `Taken`.
-/

namespace KoalemOS.Heap

open KoalemOS.Library KoalemOS.Library.LinkedList KoalemOS.Mmap KoalemOS.Paging

variable {L : Layout} {e : Nat} {F : Nat → Nat} {K : Nat → Prop} {V V₀ : Mem} {s₀ s s' : Kernel}
  {b c : Block} {bs xs ys : List Block} {size : Nat} {E : Stop → Prop}

/-! ## A block at the end -/

/-- `appendEntry` puts a free entry behind the others. -/
theorem Listed.appendEntry (h : Listed L e F K V₀ s₀ bs s) (hne : bs ≠ []) {a m : Nat}
    (hspaced : Spaced L.kernelHeapStart bs a) (ha : a % 16 = 0) (hend : a + 32 ≤ e) (hm : m < 2 ^ 64)
    (hclear : ∀ v, K v → v < a) :
    Outcome.wp E (appendEntry a m) (fun _ s' => Listed L e F K V₀ s₀ (bs ++ [⟨a, m, false⟩]) s') s := by
  have hspaced' : Spaced L.kernelHeapStart (bs ++ [⟨a, m, false⟩]) e :=
    Placed.append_cons_iff.mpr ⟨hspaced, hend⟩
  have hclear' : Clear K (bs ++ [⟨a, m, false⟩]) := by
    intro c hc v hv
    rcases List.mem_append.mp hc with hc | hc
    · exact h.clear c hc v hv
    · rw [List.mem_singleton.mp hc]
      exact .inl (hclear v hv)
  have haligned : Aligned (bs ++ [⟨a, m, false⟩]) := by
    intro c hc
    rcases List.mem_append.mp hc with hc | hc
    · exact h.aligned c hc
    · rw [List.mem_singleton.mp hc]
      exact ha
  obtain ⟨ps, p, rfl⟩ := (List.eq_nil_or_concat' bs).resolve_left hne
  obtain ⟨H, hheld, hlinks⟩ := h.held
  have hlt : p.addr + 32 < 2 ^ 64 := h.addr_lt (by simp)
  obtain ⟨hpa, -⟩ := Spaced.ne_around hspaced'
  simp only [lastOr_append, lastOr_cons, lastOr_nil] at hheld
  obtain ⟨n, hgrown⟩ := hheld.grow (Room.of_spaced hspaced' haligned hclear') (a := a) (fun c hc => by
    simp only [addrs, List.map_append, List.mem_append, List.map_cons, List.map_nil,
      List.mem_singleton] at hc ⊢
    tauto) (fun hc => by
    obtain ⟨c, hc, heq⟩ := List.mem_map.mp hc
    exact hpa c hc heq)
  have hmem : a ∈ addrs (ps ++ [p] ++ [⟨a, m, false⟩]) := by simp
  have hpmem : p.addr ∈ addrs (ps ++ [p] ++ [⟨a, m, false⟩]) := by simp
  have halt := hgrown.addr_lt hmem
  refine Outcome.wp_bind_returns (Outcome.returns_gets _ s) ?_
  rw [hgrown.lastEntry]
  refine Outcome.wp_bind (Outcome.wp_mono (hgrown.writeEntry hmem hm (by omega) (by decide)) fun _ s₁ h₁ => ?_)
  refine Outcome.wp_bind (Outcome.wp_mono (h₁.setNext hpmem (by omega)) fun _ s₂ h₂ => ?_)
  refine Outcome.wp_mono (h₂.setLastHeapEntry a) fun _ s₃ h₃ => ?_
  rw [Function.update_idem] at h₃
  have hpne : p.addr ≠ a := hpa p (by simp)
  have hpspaced : Spaced L.kernelHeapStart (ps ++ p :: []) e := h.spaced
  have hps := hpspaced.ne_around.1
  refine ⟨⟨_, by simpa using h₃, chain_append.mpr ⟨?_, ?_, trivial⟩⟩, hspaced'⟩
  · refine Chain.relinkNext hlinks ?_ fun x hx => ?_
    · rw [Function.update_self, Function.update_of_ne hpne]
      rfl
    · rw [Function.update_of_ne (hps x hx), Function.update_of_ne (hpa x (by simp [hx]))]
  · rw [Function.update_of_ne hpne.symm, Function.update_self]
    simp

/-! ## Fresh pages -/

/-- The pages `kmalloc` asks for. -/
def pageCount (size : Nat) : Nat := (size + 32) / 4096 + 1

/-- What is put behind the blocks when no block has room: the blocks, the frames and the end
of the heap afterwards. -/
structure Extended (size : Nat) (F : Nat → Nat) (bs : List Block) (s : Kernel)
    (F' : Nat → Nat) (bs' : List Block) (s' : Kernel) : Prop where
  noRoom : ∀ b ∈ bs, ¬b.Fits size
  found : (mmapGetPages s.physMmap (pageCount size)).1 ≠ 0
  frames : F' = extendFrames F s.kernelHeapEnd (mmapGetPages s.physMmap (pageCount size)).1
  blocks : bs' = bs ++ [⟨s.kernelHeapEnd, 4096 * pageCount size - 32, false⟩]
  heapEnd : s'.kernelHeapEnd = s.kernelHeapEnd + 4096 * pageCount size
  maxRangeCount : s'.physMmap.maxRangeCount = s.physMmap.maxRangeCount
  rangeCount : s'.physMmap.rangeCount ≤ s.physMmap.rangeCount

theorem allocated_zero (hwf : s.physMmap.Wf) {n : Nat} (h : (mmapGetPages s.physMmap n).1 = 0) :
    s.allocated n = s := by
  unfold Kernel.allocated
  rw [(mmapGetPages_zero hwf).2 h]
  simp only [h, if_true]

/-- The new block lies behind the others. -/
theorem Arena.snoc {lo hi : Nat} (h : Arena lo bs hi) {m : Nat} : Arena lo (bs ++ [⟨hi, m, false⟩]) (hi + 32 + m) :=
  Placed.append_cons_iff.mpr ⟨h, le_rfl⟩

theorem Tiles.snoc {lo hi : Nat} (h : Tiles lo bs hi) {m : Nat} : Tiles lo (bs ++ [⟨hi, m, false⟩]) (hi + 32 + m) :=
  Placed.append_cons_iff.mpr ⟨h, rfl⟩

theorem HeapState.inUse_lt (h : HeapState L F V bs s) {v : Nat} (hv : InUse bs v) : v < s.kernelHeapEnd := by
  obtain ⟨b, hb, -, -, hlt⟩ := hv
  exact hlt.trans_le (h.arena.bounds hb).2

theorem inUse_owned {v : Nat} (hv : InUse bs v) : ∃ b ∈ bs, b.Owns v := by
  obtain ⟨b, hb, -, howns⟩ := hv
  exact ⟨b, hb, howns⟩

/-- `extendHeap` finds no frames. -/
theorem HeapState.extendHeap_none {count : Nat} (h : HeapState L F V bs s)
    (hcount : wrap (size + sizeofHeapEntry) / 0x1000 + 1 = count) (hzero : (mmapGetPages s.physMmap count).1 = 0) :
    (Heap.extendHeap size).Returns s 0 s := by
  have hret := returns_allocPhysPages s count
  rw [allocated_zero h.owned.free.wf hzero, hzero] at hret
  unfold Heap.extendHeap
  rw [hcount]
  refine hret.bind ?_
  rw [if_pos rfl]
  exact Outcome.returns_pure _ s

/-- `extendHeap` puts a free block on `count` fresh pages behind the others. -/
theorem HeapState.extendHeap_pages {count : Nat} (h : HeapState L F V bs s)
    (hcount : wrap (size + sizeofHeapEntry) / 0x1000 + 1 = count)
    (hlimit : (mmapGetPages s.physMmap count).1 ≠ 0 →
      s.kernelHeapEnd + 4096 * count ≤ L.kernelHeapStart + kernelHeapMaxSize)
    (hE : ∀ i < count, MayMap E s (s.kernelHeapEnd + 4096 * i)) :
    Outcome.wp E (extendHeap size) (fun a s' =>
      a = 0 ∧ s' = s ∧ (mmapGetPages s.physMmap count).1 = 0 ∨
      a = s.kernelHeapEnd ∧ (mmapGetPages s.physMmap count).1 ≠ 0 ∧
        s'.kernelHeapEnd = s.kernelHeapEnd + 4096 * count ∧
        s'.physMmap.maxRangeCount = s.physMmap.maxRangeCount ∧ s'.physMmap.rangeCount ≤ s.physMmap.rangeCount ∧
        ∃ V', HeapState L (extendFrames F s.kernelHeapEnd (mmapGetPages s.physMmap count).1) V'
          (bs ++ [⟨s.kernelHeapEnd, 4096 * count - 32, false⟩]) s' ∧ ∀ v, InUse bs v → V' v = V v) s := by
  have hupper := L.upper
  have hlower := L.lower
  have hbuf := L.buf_below
  have hstart := h.pages.start_le
  have hend := h.pages.endAligned
  simp only [kernelHeapMaxSize] at hlimit hupper
  have hpos : 0 < count := by omega
  by_cases hfound : (mmapGetPages s.physMmap count).1 = 0
  · exact Outcome.wp_of_returns (h.extendHeap_none hcount hfound) (.inl ⟨rfl, rfl, hfound⟩)
  unfold Heap.extendHeap
  rw [hcount]
  refine Outcome.wp_bind_returns (returns_allocPhysPages s count) ?_
  rw [if_neg hfound]
  replace hlimit := hlimit hfound
  refine Outcome.wp_bind_returns (Outcome.returns_gets _ _) ?_
  have hentry : (s.allocated (count)).kernelHeapEnd = s.kernelHeapEnd := rfl
  rw [hentry]
  refine Outcome.wp_bind (Outcome.wp_mono (mapPages_wp h.pages h.owned hpos rfl hfound (by omega) hE)
    fun _ s₁ hs => ?_)
  obtain ⟨V₁, hp₁, ho₁, hV₁, hstep⟩ := hs
  have hlast₁ : s₁.lastHeapEntry = lastOr Block.addr 0 bs := by
    rw [hstep.same]
    exact h.last
  -- the list in the longer heap
  have hlisted : Listed L (s.kernelHeapEnd + 4096 * count)
      (extendFrames F s.kernelHeapEnd (mmapGetPages s.physMmap (count)).1) (InUse bs) V₁ s₁ bs s₁ := by
    have hspaced := Placed.upper h.arena.spaced (Nat.le_add_right s.kernelHeapEnd (4096 * count))
    have hheader : ∀ b ∈ bs, header V₁ b.addr = header V b.addr := fun b hb =>
      header_congr fun v _ hv => hV₁ v (by
        have hstop := (h.arena.bounds hb).2
        simp only [Block.stop] at hstop
        omega)
    refine ⟨⟨header V₁, ⟨Room.of_spaced hspaced h.aligned
      (clear_of_owned h.arena fun v hv => inUse_owned hv), ⟨V₁, hp₁, fun _ _ => rfl, fun _ _ => rfl⟩, hlast₁,
      DataStep.refl s₁⟩, h.links.congr hheader⟩, hspaced⟩
  have hm : sub64 (0x1000 * count) sizeofHeapEntry = 4096 * count - 32 :=
    sub64_of_le (by simp only [sizeofHeapEntry]; omega) (by omega)
  rw [hm]
  refine Outcome.wp_bind (Outcome.wp_mono (hlisted.appendEntry h.nonempty h.arena.spaced
    (a := s.kernelHeapEnd) (m := 4096 * count - 32) (by omega) (by omega) (by omega)
    fun v hv => h.inUse_lt hv) fun _ s₂ h₂ => ?_)
  have hsame := h₂.step.same
  have hmap := h₂.step.physMmap
  have hkend : s₂.kernelHeapEnd = s.kernelHeapEnd := by rw [hsame, hstep.same]; rfl
  refine Outcome.wp_bind_returns (Outcome.returns_modify _ s₂)
    (Outcome.wp_of_returns (Outcome.returns_pure _ _) (.inr ⟨rfl, ?_⟩))
  have hend' : wrap (s₂.kernelHeapEnd + count * 0x1000) =
      s.kernelHeapEnd + 4096 * count := by
    rw [hkend, wrap_of_lt (by omega), Nat.mul_comm]
  rw [hend']
  have ho₂ := h₂.step.owned ho₁
  have harena : Arena L.kernelHeapStart (bs ++ [⟨s.kernelHeapEnd, 4096 * count - 32, false⟩])
      (s.kernelHeapEnd + 4096 * count) := by
    have := h.arena.snoc (m := 4096 * count - 32)
    rwa [show s.kernelHeapEnd + 32 + (4096 * count - 32) =
      s.kernelHeapEnd + 4096 * count by omega] at this
  have hfirst : s₂.firstHeapEntry =
      headOr Block.addr 0 (bs ++ [⟨s.kernelHeapEnd, 4096 * count - 32, false⟩]) := by
    rw [hsame, hstep.same]
    obtain ⟨b, bs, rfl⟩ := List.exists_cons_of_ne_nil h.nonempty
    exact h.first
  have hroom : RoomAtEnd (bs ++ [⟨s.kernelHeapEnd, 4096 * count - 32, false⟩]) := by
    intro b hb
    rw [List.getLast?_concat] at hb
    rw [← Option.some.inj hb]
    show 32 ≤ 4096 * count - 32
    omega
  generalize hs₃ : { s₂ with kernelHeapEnd := s.kernelHeapEnd + 4096 * count } = s₃
  have hend₃ : s₃.kernelHeapEnd = s.kernelHeapEnd + 4096 * count := by rw [← hs₃]
  rw [← hend₃] at h₂ ho₂ harena hlimit
  have hlisted₂ : Listed L s₃.kernelHeapEnd _ _ _ s₃ _ s₃ :=
    h₂.of_eq (by rw [← hs₃]) (by rw [← hs₃]) (by rw [← hs₃])
  obtain ⟨V', hstate, hkept⟩ := HeapState.of_listed hlisted₂
    (ho₂.of_eq (by rw [← hs₃]) (by rw [← hs₃]) (by rw [← hs₃])) (by rw [← hs₃, hfirst]) harena (by simp)
    hlimit (.inl hroom)
  obtain ⟨hmax, hranges⟩ := mmapGetPages_counts s.physMmap count
  have hmap₃ : s₃.physMmap = s₁.physMmap := by rw [← hs₃, ← hmap]
  refine ⟨hfound, hend₃, ?_, ?_, V', hstate, fun v hv => ?_⟩
  · rw [hmap₃]
    exact hstep.maxRangeCount.trans hmax
  · rw [hmap₃]
    exact hstep.rangeCount.trans hranges
  · rw [hkept v hv, hV₁ v (h.inUse_lt hv)]

/-- `extendHeap` for a size that is not rounded over the end of the addresses. -/
theorem HeapState.extendHeap (h : HeapState L F V bs s) (hnoRoom : ∀ b ∈ bs, ¬b.Fits size)
    (hsize : size + 32 < 2 ^ 64) (hlimit : (mmapGetPages s.physMmap (pageCount size)).1 ≠ 0 →
      s.kernelHeapEnd + 4096 * pageCount size ≤ L.kernelHeapStart + kernelHeapMaxSize)
    (hE : ∀ i < pageCount size, MayMap E s (s.kernelHeapEnd + 4096 * i)) :
    Outcome.wp E (extendHeap size) (fun a s' =>
      a = 0 ∧ s' = s ∧ (mmapGetPages s.physMmap (pageCount size)).1 = 0 ∨
      a = s.kernelHeapEnd ∧ ∃ F' V' bs', Extended size F bs s F' bs' s' ∧ HeapState L F' V' bs' s' ∧
        ∀ v, InUse bs v → V' v = V v) s := by
  have hcount : wrap (size + sizeofHeapEntry) / 0x1000 + 1 = pageCount size := by
    rw [wrap_of_lt (show size + 32 < 2 ^ 64 by omega)]
    rfl
  refine Outcome.wp_mono (h.extendHeap_pages hcount hlimit hE) fun a s' hs => hs.imp_right ?_
  rintro ⟨ha, hfound, hend, hmax, hranges, V', hstate, hkept⟩
  exact ⟨ha, _, V', _, ⟨hnoRoom, hfound, rfl, rfl, hend, hmax, hranges⟩, hstate, hkept⟩

/-! ## A block is taken -/

theorem Arena.stop_le (h : Arena L.kernelHeapStart (xs ++ b :: ys) e) :
    b.stop ≤ headOr Block.addr e ys :=
  Placed.le_headOr (Placed.append_cons_iff.mp h).2

/-- `takeEntry` on a free block with room. -/
theorem HeapState.takeEntry (h : HeapState L F V (xs ++ b :: ys) s) (hfits : b.Fits size)
    (hfirst : ∀ x ∈ xs, ¬x.Fits size) (hsize : size % 16 = 0) :
    Outcome.wp E (takeEntry b.addr size) (fun p s' => p = b.memory ∧
      ∃ V', HeapState L F V' (xs ++ (Block.cut ⟨b.addr, b.size, true⟩ size ++ ys)) s' ∧
        DataStep s s' ∧ ∀ v, InUse (xs ++ b :: ys) v → V' v = V v) s := by
  have htaken : Taken size (xs ++ b :: ys) b (xs ++ (Block.cut ⟨b.addr, b.size, true⟩ size ++ ys)) :=
    .mk hfits hfirst
  have hlisted := h.listed fun v (hv : InUse (xs ++ b :: ys) v) => inUse_owned hv
  have hstop := h.stop_lt (b := b) (by simp)
  have hbound := h.arena.bounds (b := b) (by simp)
  have hlimit := h.limit
  have hle := hfits.2
  simp only [Block.stop, kernelHeapMaxSize] at hstop hbound hlimit
  have hclear : ∀ v, InUse (xs ++ b :: ys) v → ¬b.Owns v := by
    rintro v ⟨c, hc, hused, hv₁, hv₂⟩ ⟨hw₁, hw₂⟩
    have hne : b ≠ c := by
      rintro rfl
      rw [hfits.1] at hused
      cases hused
    have hapart := h.arena.apart (b := b) (c := c) (by simp) hc hne
    simp only [Block.memory, Block.stop] at hv₁ hv₂ hw₁ hw₂ hapart
    omega
  refine Outcome.wp_mono (hlisted.takeEntry hsize (by omega) h.arena.stop_le (by omega) hclear)
    fun p s' hs => ⟨hs.1, ?_⟩
  have hstep := hs.2.step
  have hend : s'.kernelHeapEnd = s.kernelHeapEnd := by rw [hstep.same]
  have hfirst' : s'.firstHeapEntry =
      headOr Block.addr 0 (xs ++ (Block.cut ⟨b.addr, b.size, true⟩ size ++ ys)) := by
    rw [hstep.same]
    refine h.first.trans ?_
    rcases Block.cut_cases ⟨b.addr, b.size, true⟩ size with hcut | ⟨-, hcut⟩ <;> rw [hcut] <;> simp
  have hlisted' := hs.2
  rw [← hend] at hlisted'
  have hne : xs ++ (Block.cut ⟨b.addr, b.size, true⟩ size ++ ys) ≠ [] := by
    rcases Block.cut_cases ⟨b.addr, b.size, true⟩ size with hcut | ⟨-, hcut⟩ <;> rw [hcut] <;> simp
  have htail : RoomAtEnd _ ∨ ∃ n, ptAt s'.mem s'.cr3 s.kernelHeapEnd = some n :=
    h.tail.imp htaken.roomAtEnd (Exists.imp fun n hn => hstep.ptAt_some h.slot_end hn)
  obtain ⟨V', hstate, hkept⟩ := HeapState.of_listed hlisted' (by rw [hend]; exact hstep.owned h.owned)
    hfirst' (by rw [hend]; exact htaken.arena h.arena) hne (by rw [hend]; exact h.limit) (by rwa [hend])
  exact ⟨V', hstate, hstep, hkept⟩

/-! ## `kmalloc` -/

/-- The blocks `kmalloc` chooses from: those of the heap, or one more on fresh pages. -/
inductive Supply (size : Nat) (F : Nat → Nat) (bs : List Block) (s : Kernel) :
    (Nat → Nat) → List Block → Kernel → Prop where
  | reuse {s' : Kernel} : (∃ b ∈ bs, b.Fits size) → DataStep s s' → Supply size F bs s F bs s'
  | extend {s₁ s' : Kernel} {F' : Nat → Nat} {bs' : List Block} :
      Extended size F bs s F' bs' s₁ → DataStep s₁ s' → Supply size F bs s F' bs' s'

/-- The supply is the blocks of the heap and perhaps a free one at its end. -/
theorem Supply.mem {F' : Nat → Nat} {bs' : List Block} (h : Supply size F bs s F' bs' s') :
    (∀ b ∈ bs, b ∈ bs') ∧ ∀ b ∈ bs', b ∈ bs ∨ b.addr = s.kernelHeapEnd ∧ b.used = false := by
  cases h with
  | reuse _ _ => exact ⟨fun _ hb => hb, fun _ hb => .inl hb⟩
  | extend hext _ =>
    rw [hext.blocks]
    refine ⟨fun b hb => List.mem_append_left _ hb, fun b hb => ?_⟩
    rcases List.mem_append.mp hb with hb | hb
    · exact .inl hb
    · rw [List.mem_singleton.mp hb]
      exact .inr ⟨rfl, rfl⟩

theorem Supply.tiles {F' : Nat → Nat} {bs' : List Block} {lo : Nat} (h : Supply size F bs s F' bs' s')
    (ht : Tiles lo bs s.kernelHeapEnd) : Tiles lo bs' s'.kernelHeapEnd := by
  cases h with
  | reuse _ hstep =>
    rw [hstep.same]
    exact ht
  | extend hext hstep =>
    rename_i s₁
    have hend : s'.kernelHeapEnd = s₁.kernelHeapEnd := by rw [hstep.same]
    have hpos : 0 < pageCount size := Nat.succ_pos _
    have hsnoc := ht.snoc (m := 4096 * pageCount size - 32)
    rwa [show s.kernelHeapEnd + 32 + (4096 * pageCount size - 32) =
      s.kernelHeapEnd + 4096 * pageCount size by omega, ← hext.blocks, ← hext.heapEnd, ← hend] at hsnoc

/-- The heap stays within the room that is reserved for it: when no entry has room and there
are frames, the pages the request needs are within the limit. -/
def WithinLimit (L : Layout) (s : Kernel) (size : Nat) : Prop :=
  size < 2 ^ 63 ∧
    ((findFree (unitUp size) listFuel s.firstHeapEntry).Returns s 0 s →
      (mmapGetPages s.physMmap (pageCount (unitUp size))).1 ≠ 0 →
      s.kernelHeapEnd + 4096 * pageCount (unitUp size) ≤ L.kernelHeapStart + kernelHeapMaxSize)

theorem HeapState.length_lt (h : HeapState L F V bs s) : bs.length < listFuel := by
  have hlen := h.arena.spaced.length_le
  have hend := h.pages.end_le
  simp only [listFuel]
  omega

/-- The loop of `kmalloc` finds nothing where no block fits. -/
theorem HeapState.findFree_none (h : HeapState L F V bs s) (hnone : ∀ b ∈ bs, ¬b.Fits size) :
    (Heap.findFree size listFuel s.firstHeapEntry).Returns s 0 s := by
  have hlisted : Listed L s.kernelHeapEnd F (InUse bs) V s ([] ++ bs) s := h.listed fun v hv => inUse_owned hv
  have hfind := hlisted.findFree_none h.length_lt hnone
  rwa [← h.first] at hfind

/-- The first of the blocks that fit. -/
theorem first_fit (h : ∃ b ∈ bs, b.Fits size) :
    ∃ xs b ys, bs = xs ++ b :: ys ∧ b.Fits size ∧ ∀ x ∈ xs, ¬x.Fits size := by
  induction bs with
  | nil => simp at h
  | cons c bs ih =>
    by_cases hc : c.Fits size
    · exact ⟨[], c, bs, rfl, hc, by simp⟩
    · obtain ⟨b, hb, hfits⟩ := h
      have hne : b ≠ c := by
        rintro rfl
        exact hc hfits
      obtain ⟨xs, d, ys, rfl, hd, hxs⟩ := ih ⟨b, (List.mem_cons.mp hb).resolve_left hne, hfits⟩
      exact ⟨c :: xs, d, ys, rfl, hd, List.forall_mem_cons.mpr ⟨hc, hxs⟩⟩

theorem unitUp_le {n : Nat} (h : n + 48 ≤ 2 ^ 64) : n ≤ unitUp n ∧ unitUp n + 32 < 2 ^ 64 ∧
    alignUp n alignofMaxAlign = unitUp n := by
  refine ⟨?_, ?_, alignUp_unit (by omega)⟩
  · unfold unitUp
    omega
  · unfold unitUp
    omega

/-- `kmalloc` with a free block that has room: it takes the first one. -/
theorem HeapState.kmalloc_first (h : HeapState L F V (xs ++ b :: ys) s) (size : Nat) (hsize : size + 48 ≤ 2 ^ 64)
    (hfits : b.Fits (unitUp size)) (hfirst : ∀ x ∈ xs, ¬x.Fits (unitUp size)) :
    Outcome.wp E (kmalloc size) (fun p s' => p = b.memory ∧
      ∃ V', HeapState L F V' (xs ++ (Block.cut ⟨b.addr, b.size, true⟩ (unitUp size) ++ ys)) s' ∧
        DataStep s s' ∧ ∀ v, InUse (xs ++ b :: ys) v → V' v = V v) s := by
  unfold Heap.kmalloc
  rw [(unitUp_le hsize).2.2]
  refine Outcome.wp_bind_returns (Outcome.returns_gets _ s) ?_
  have hlisted : Listed L s.kernelHeapEnd F (InUse (xs ++ b :: ys)) V s ([] ++ (xs ++ b :: ys)) s :=
    h.listed fun v hv => inUse_owned hv
  obtain ⟨hne, hfind⟩ := hlisted.findFree_first h.length_lt hfits hfirst
  rw [← h.first] at hfind
  refine Outcome.wp_bind_returns hfind ?_
  rw [if_pos hne]
  exact h.takeEntry hfits hfirst (unitUp_mod size)

/-- `kmalloc` without such a block: it extends the heap, or finds no frames. -/
theorem HeapState.kmalloc_extend (h : HeapState L F V bs s) (hsize : size + 48 ≤ 2 ^ 64)
    (hnone : ∀ b ∈ bs, ¬b.Fits (unitUp size))
    (hlimit : (mmapGetPages s.physMmap (pageCount (unitUp size))).1 ≠ 0 →
      s.kernelHeapEnd + 4096 * pageCount (unitUp size) ≤ L.kernelHeapStart + kernelHeapMaxSize)
    (hE : ∀ i < pageCount (unitUp size), MayMap E s (s.kernelHeapEnd + 4096 * i)) :
    Outcome.wp E (kmalloc size) (fun p s' =>
      (p = 0 ∧ s' = s ∧ (mmapGetPages s.physMmap (pageCount (unitUp size))).1 = 0) ∨
      p = s.kernelHeapEnd + 32 ∧ ∃ F' V' bs₁ s₁, Extended (unitUp size) F bs s F' bs₁ s₁ ∧ DataStep s₁ s' ∧
        HeapState L F' V' (bs ++ (Block.cut ⟨s.kernelHeapEnd, 4096 * pageCount (unitUp size) - 32, true⟩
          (unitUp size) ++ [])) s' ∧ ∀ v, InUse bs v → V' v = V v) s := by
  obtain ⟨-, hlt, hunit⟩ := unitUp_le hsize
  unfold Heap.kmalloc
  rw [hunit]
  refine Outcome.wp_bind_returns (Outcome.returns_gets _ s) ?_
  refine Outcome.wp_bind_returns (h.findFree_none hnone) ?_
  rw [if_neg (by simp)]
  refine Outcome.wp_bind (Outcome.wp_mono (h.extendHeap hnone hlt hlimit hE) fun a s₁ hs => ?_)
  rcases hs with ⟨rfl, rfl, hzero⟩ | ⟨rfl, F₁, V₁, bs₁, hext, hstate, hkept⟩
  · rw [if_neg (by simp)]
    exact Outcome.wp_of_returns (Outcome.returns_pure _ _) (.inl ⟨rfl, rfl, hzero⟩)
  · have hne : s.kernelHeapEnd ≠ 0 := by
      have := h.pages.start_le
      have := L.lower
      have := L.buf_below
      omega
    rw [if_pos hne]
    have hblocks := hext.blocks
    subst hblocks
    have hfits : Block.Fits ⟨s.kernelHeapEnd, 4096 * pageCount (unitUp size) - 32, false⟩ (unitUp size) := by
      refine ⟨rfl, ?_⟩
      unfold pageCount
      simp only
      omega
    have htake := hstate.takeEntry (E := E) hfits hnone (unitUp_mod size)
    refine Outcome.wp_mono htake fun p s₂ hs => .inr ?_
    obtain ⟨rfl, V₂, hstate₂, hstep, hkept₂⟩ := hs
    refine ⟨rfl, F₁, V₂, _, s₁, hext, hstep, hstate₂, fun v hv => ?_⟩
    rw [hkept₂ v, hkept v hv]
    obtain ⟨b, hb, hused, howns⟩ := hv
    exact ⟨b, List.mem_append_left _ hb, hused, howns⟩

/-- **`kmalloc`.** It finds no block and no frames, and nothing has changed; or it takes a
block of its supply. -/
theorem HeapState.kmalloc (h : HeapState L F V bs s) (hsize : size + 48 ≤ 2 ^ 64)
    (hlimit : (∀ b ∈ bs, ¬b.Fits (unitUp size)) → (mmapGetPages s.physMmap (pageCount (unitUp size))).1 ≠ 0 →
      s.kernelHeapEnd + 4096 * pageCount (unitUp size) ≤ L.kernelHeapStart + kernelHeapMaxSize)
    (hE : (∃ b ∈ bs, b.Fits (unitUp size)) ∨
      ∀ i < pageCount (unitUp size), MayMap E s (s.kernelHeapEnd + 4096 * i)) :
    Outcome.wp E (kmalloc size) (fun p s' =>
      (p = 0 ∧ s' = s ∧ (∀ b ∈ bs, ¬b.Fits (unitUp size)) ∧
        (mmapGetPages s.physMmap (pageCount (unitUp size))).1 = 0) ∨
      ∃ F' V' bs₁ b bs', Supply (unitUp size) F bs s F' bs₁ s' ∧ Taken (unitUp size) bs₁ b bs' ∧
        p = b.memory ∧ HeapState L F' V' bs' s' ∧ ∀ v, InUse bs v → V' v = V v) s := by
  by_cases hfit : ∃ b ∈ bs, b.Fits (unitUp size)
  · obtain ⟨xs, b, ys, rfl, hfits, hfirst⟩ := first_fit hfit
    refine Outcome.wp_mono (h.kmalloc_first size hsize hfits hfirst) fun p s' hs => .inr ?_
    obtain ⟨rfl, V', hstate, hstep, hkept⟩ := hs
    exact ⟨F, V', _, b, _, .reuse hfit hstep, .mk hfits hfirst, rfl, hstate, hkept⟩
  · have hnone : ∀ b ∈ bs, ¬b.Fits (unitUp size) := fun b hb hfits => hfit ⟨b, hb, hfits⟩
    refine Outcome.wp_mono (h.kmalloc_extend hsize hnone (hlimit hnone)
      (hE.resolve_left hfit)) fun p s' hs => hs.imp (fun ⟨hp, hs, hzero⟩ => ⟨hp, hs, hnone, hzero⟩) ?_
    rintro ⟨rfl, F', V', bs₁, s₁, hext, hstep, hstate, hkept⟩
    have hblocks := hext.blocks
    subst hblocks
    refine ⟨F', V', _, _, _, .extend hext hstep, .mk ⟨rfl, ?_⟩ hnone, rfl, hstate, hkept⟩
    unfold pageCount
    simp only
    omega

end KoalemOS.Heap
