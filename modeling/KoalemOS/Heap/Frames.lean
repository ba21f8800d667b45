import KoalemOS.Heap.Pages

/-!
# Frames that come to the heap and leave it

- `mapPages_wp`: pages are mapped behind the heap to frames taken from `phys_mmap`
- `freePhysPages_wp`: frames are given back, or become a part of the buffer of `phys_mmap`
-/

namespace KoalemOS.Heap

open KoalemOS.Library KoalemOS.Mmap KoalemOS.Paging

variable {L : Layout} {e : Nat} {F : Nat → Nat} {V : Mem} {s s' : Kernel}
  {E : Stop → Prop}

/-! ## A page is mapped -/

section Mapped

variable {v pte : Nat} {taken : List Nat}

/-- A page outside the heap: the heap is what it was. -/
theorem Pages.mapElsewhere (h : Pages L e F V s) (ho : Owned L e F s) (hm : Mapped s s' v pte taken)
    (hv : ∀ w, L.Within e w → w / 4096 ≠ v / 4096) : Pages L e F V s' := by
  have hframe := fun w (hw : L.Within e w) =>
    hm.frame ho.free (ho.notFree w hw) (h.notTable w hw)
  refine ⟨hm.pageTables, fun w hw => ?_, h.inj, fun w hw => (hframe w hw).1, fun w hw => ?_,
    fun w h₁ h₂ => ?_, h.endAligned, h.start_le, h.end_le⟩
  · rw [hm.others w (h.slot hw) (hv w hw)]
    exact h.mapped w hw
  · rw [(hframe w hw).2 _ (by omega)]
    exact h.bytes w hw
  · refine hm.noLarge w ?_ (h.noLarge w h₁ h₂)
    rw [(slot_of_lt h₁ h₂).1]
    decide

theorem Owned.mapped (h : Owned L e F s) (hm : Mapped s s' v pte taken) : Owned L e F s' := by
  refine ⟨hm.free, fun w hw hc => ?_, h.frame, ?_, ?_⟩
  · exact h.notFree w hw (hm.frames.symm.subset (List.mem_append_right _ hc))
  · rw [hm.maxRangeCount]
    exact h.buffer
  · rw [hm.maxRangeCount]
    exact h.bufferSize

/-- The page behind the heap: the heap is one page longer. -/
theorem Pages.mapNext (h : Pages L e F V s) (ho : Owned L (e + 4096) F s) (hm : Mapped s s' e pte taken)
    (hpte : present pte = true ∧ frameOf pte = F (e / 4096)) (he : e + 4096 ≤ 0xFFFFFF8000000000)
    (hinj : ∀ w, L.Within e w → F (w / 4096) ≠ F (e / 4096)) (ht : ¬IsTable s.mem s.cr3 (F (e / 4096)))
    (hbytes : ∀ i < 4096, s.mem (4096 * F (e / 4096) + i) = V (e + i)) :
    Pages L (e + 4096) F V s' := by
  have haligned := h.endAligned
  have hstart := h.start_le
  have hself : L.Within (e + 4096) e := ⟨h.start_le, by omega⟩
  have hold : ∀ {w}, L.Within (e + 4096) w → w / 4096 ≠ e / 4096 → L.Within e w := by
    intro w hw hne
    have hupper := hw.upper
    exact ⟨hw.lower, by omega⟩
  have hoold : Owned L e F s :=
    ⟨ho.free, fun w hw => ho.notFree w ⟨hw.lower, by have := hw.upper; omega⟩,
      fun w hw => ho.frame w ⟨hw.lower, by have := hw.upper; omega⟩, ho.buffer, ho.bufferSize⟩
  have hp := h.mapElsewhere hoold hm fun w hw => by
    have hupper := hw.upper
    omega
  have hframe := hm.frame ho.free (ho.notFree e hself) ht
  have hpage : UserPage e :=
    userPage_of_lt (L := L) (by have := buf_le_start L; omega) (by omega) h.endAligned
  refine ⟨hm.pageTables, fun w hw => ?_, fun w x hw hx heq => ?_, fun w hw => ?_, fun w hw => ?_,
    hp.noLarge, by omega, by omega, he⟩
  · by_cases hwe : w / 4096 = e / 4096
    · refine ⟨pte, ?_, ?_⟩
      · rw [hm.walk_self hpage hwe, if_pos hpte.1]
      · rw [hwe]
        exact hpte.2
    · exact hp.mapped w (hold hw hwe)
  · by_cases hwe : w / 4096 = e / 4096 <;> by_cases hxe : x / 4096 = e / 4096
    · rw [hwe, hxe]
    · rw [hwe] at heq
      exact absurd heq.symm (hinj x (hold hx hxe))
    · rw [hxe] at heq
      exact absurd heq (hinj w (hold hw hwe))
    · exact hp.inj w x (hold hw hwe) (hold hx hxe) heq
  · by_cases hwe : w / 4096 = e / 4096
    · rw [hwe]
      exact hframe.1
    · exact hp.notTable w (hold hw hwe)
  · by_cases hwe : w / 4096 = e / 4096
    · rw [hwe, hframe.2 _ (by omega), hbytes _ (by omega)]
      congr 1
      omega
    · exact hp.bytes w (hold hw hwe)

end Mapped

/-! ## Pages behind the heap -/

/-- The frames after pages have been mapped behind the heap, to consecutive frames. -/
def extendFrames (F : Nat → Nat) (e base : Nat) : Nat → Nat := fun p =>
  if p < e / 4096 then F p else base / 4096 + (p - e / 4096)

/-- From `s` to `s'` only page tables and `phys_mmap` have changed, and tables are still there. -/
structure MapStep (s s' : Kernel) : Prop where
  same : s' = { s with mem := s'.mem, physMmap := s'.physMmap, allocLog := s'.allocLog }
  keep : ∀ p n, tablePaths.mem p → tableAt s.mem s.cr3 p = some n → tableAt s'.mem s'.cr3 p = some n
  maxRangeCount : s'.physMmap.maxRangeCount = s.physMmap.maxRangeCount
  rangeCount : s'.physMmap.rangeCount ≤ s.physMmap.rangeCount

theorem MapStep.refl (s : Kernel) : MapStep s s := ⟨rfl, fun _ _ _ h => h, rfl, le_rfl⟩

theorem MapStep.trans {s'' : Kernel} (h : MapStep s s') (h' : MapStep s' s'') : MapStep s s'' :=
  ⟨by rw [h'.same, h.same], fun p n hp hn => h'.keep p n hp (h.keep p n hp hn),
    h'.maxRangeCount.trans h.maxRangeCount, h'.rangeCount.trans h.rangeCount⟩

theorem mapStep_of_mapped {v pte : Nat} {taken : List Nat} (h : Mapped s s' v pte taken) : MapStep s s' :=
  ⟨h.same, h.keep, h.maxRangeCount, h.rangeCount⟩

/-- A page table that was there is there still. -/
theorem MapStep.mayMap (h : MapStep s s') {v : Nat} (h₁ : L.physMmapRangeBuf ≤ v)
    (h₂ : v < 0xFFFFFF8000000000) (hE : MayMap E s v) : MayMap E s' v := by
  rcases hE with hE | ⟨n, hn⟩
  · exact .inl hE
  · have hslot : index v 39 ≠ 511 := by
      rw [(slot_of_lt h₁ h₂).1]
      decide
    exact .inr ⟨n, h.keep _ _ (UpperOf.pd.mem hslot).2 hn⟩

/-- A page given to the heap, with the frame it is mapped to. -/
theorem leaf_readWrite {p : Nat} (hp : FrameAddr p) :
    present (p ||| pagingFlagPresent ||| pagingFlagReadWrite) = true ∧
      frameOf (p ||| pagingFlagPresent ||| pagingFlagReadWrite) = p / 4096 := by
  obtain ⟨hpres, -, hframe⟩ := link_eq_some.mp (link_frame_flags hp flagsOk_readWrite).1
  exact ⟨hpres, hframe⟩

/-- Only the memory and `cr3` matter. -/
theorem Pages.of_mem_eq (h : Pages L e F V s) (hmem : s'.mem = s.mem) (hcr3 : s'.cr3 = s.cr3) :
    Pages L e F V s' := by
  obtain ⟨htables, hmapped, hinj, hnot, hbytes, hlarge, ha, hs, he⟩ := h
  exact ⟨by rwa [hmem, hcr3], by rwa [hmem, hcr3], hinj, by rwa [hmem, hcr3], by rwa [hmem],
    by rwa [hmem, hcr3], ha, hs, he⟩

theorem Owned.of_eq (h : Owned L e F s) (hmem : s'.mem = s.mem) (hcr3 : s'.cr3 = s.cr3)
    (hmap : s'.physMmap = s.physMmap) : Owned L e F s' := by
  obtain ⟨⟨hwf, hgood⟩, hnot, hframe, hbuf, hsize⟩ := h
  exact ⟨⟨by rwa [hmap], by rwa [hmap, hmem, hcr3]⟩, by rwa [hmap], hframe, by rwa [hmap], by rwa [hmap]⟩

/-- Only the frames and bytes of the heap matter. -/
theorem Pages.congr (h : Pages L e F V s) {F' : Nat → Nat} {V' : Mem}
    (hF : ∀ v, L.Within e v → F' (v / 4096) = F (v / 4096)) (hV : ∀ v, L.Within e v → V' v = V v) :
    Pages L e F' V' s := by
  refine ⟨h.tables, fun v hv => ?_, fun v w hv hw heq => ?_, fun v hv => ?_, fun v hv => ?_, h.noLarge,
    h.endAligned, h.start_le, h.end_le⟩
  · rw [hF v hv]
    exact h.mapped v hv
  · rw [hF v hv, hF w hw] at heq
    exact h.inj v w hv hw heq
  · rw [hF v hv]
    exact h.notTable v hv
  · rw [hF v hv, hV v hv]
    exact h.bytes v hv

/-- The heap up to an earlier page. -/
theorem Pages.restrict (h : Pages L e F V s) {e' : Nat} (hle : e' ≤ e) (ha : e' % 4096 = 0)
    (hs : L.kernelHeapStart ≤ e') : Pages L e' F V s := by
  have hw : ∀ {v}, L.Within e' v → L.Within e v := fun hv => ⟨hv.lower, hv.upper.trans_le hle⟩
  exact ⟨h.tables, fun v hv => h.mapped v (hw hv), fun v w hv hv' => h.inj v w (hw hv) (hw hv'),
    fun v hv => h.notTable v (hw hv), fun v hv => h.bytes v (hw hv), h.noLarge, ha, hs,
    hle.trans h.end_le⟩

theorem Owned.restrict (h : Owned L e F s) {e' : Nat} (hle : e' ≤ e) : Owned L e' F s := by
  have hw : ∀ {v}, L.Within e' v → L.Within e v := fun hv => ⟨hv.lower, hv.upper.trans_le hle⟩
  exact ⟨h.free, fun v hv => h.notFree v (hw hv), fun v hv => h.frame v (hw hv), h.buffer, h.bufferSize⟩

section Extend

variable {n base : Nat}

theorem extendFrames_old {v : Nat} (ha : e % 4096 = 0) (hv : v < e) :
    extendFrames F e base (v / 4096) = F (v / 4096) := by
  unfold extendFrames
  rw [if_pos (by omega)]

theorem extendFrames_new {v : Nat} (ha : e % 4096 = 0) (hv : e ≤ v) :
    extendFrames F e base (v / 4096) = base / 4096 + (v - e) / 4096 := by
  unfold extendFrames
  rw [if_neg (by omega)]
  congr 1
  omega

/-- After frames have been taken for the pages behind the heap, they are free no more, and
the heap may have them. -/
theorem Owned.taken (hp : Pages L e F V s) (ho : Owned L e F s) (hn : 0 < n)
    (hbase : (mmapGetPages s.physMmap n).1 = base) (hne : base ≠ 0) :
    Owned L (e + 4096 * n) (extendFrames F e base) (s.allocated n) ∧
      (∀ i < n, GoodFrame s.mem s.cr3 (base + 4096 * i)) ∧
      ∀ i < n, ∀ v, L.Within e v → F (v / 4096) ≠ base / 4096 + i := by
  have ha := hp.endAligned
  subst hbase
  obtain ⟨hwf, hrange, hperm⟩ := mmapGetPages_pages ho.free.wf hn hne
  have hmax := (mmapGetPages_counts s.physMmap n).1
  generalize hbase : (mmapGetPages s.physMmap n).1 = base at *
  have hnodup := List.nodup_append.mp (hperm.nodup_iff.mp ho.free.wf.freePages_nodup)
  have hpage : ∀ i < n, base + 4096 * i ∈ MemoryRange.pageList ⟨base, n⟩ := fun i hi =>
    MemoryRange.mem_pageList.mpr ⟨i, hi, rfl⟩
  have hold : ∀ i < n, base + 4096 * i ∈ s.physMmap.freePages := fun i hi =>
    hperm.symm.subset (List.mem_append_left _ (hpage i hi))
  have hgood : ∀ i < n, GoodFrame s.mem s.cr3 (base + 4096 * i) := fun i hi => ho.free.good _ (hold i hi)
  have halign : base % 4096 = 0 := hrange.aligned
  have hnew : ∀ i < n, 4096 * (base / 4096 + i) = base + 4096 * i := fun i hi => by omega
  refine ⟨⟨⟨hwf, fun a haf => ?_⟩, fun v hv hc => ?_, fun v hv => ?_, ?_, ?_⟩, hgood, fun i hi v hv hc => ?_⟩
  · exact ho.free.good a (hperm.symm.subset (List.mem_append_right _ haf))
  · by_cases hve : v < e
    · rw [extendFrames_old ha hve] at hc
      exact ho.notFree v ⟨hv.lower, hve⟩ (hperm.symm.subset (List.mem_append_right _ hc))
    · have hupper := hv.upper
      rw [extendFrames_new ha (by omega), hnew _ (by omega)] at hc
      exact hnodup.2.2 _ (hpage ((v - e) / 4096) (by omega)) _ hc rfl
  · by_cases hve : v < e
    · rw [extendFrames_old ha hve]
      exact ho.frame v ⟨hv.lower, hve⟩
    · have hupper := hv.upper
      have hg := hgood ((v - e) / 4096) (by omega)
      have hlt := hg.lt
      have hnz := hg.nonzero
      rw [extendFrames_new ha (by omega)]
      omega
  · rw [allocated_physMmap, hmax]
    exact ho.buffer
  · rw [allocated_physMmap, hmax]
    exact ho.bufferSize
  · refine ho.notFree v hv ?_
    rw [hc, hnew i hi]
    exact hold i hi

/-- **Pages behind the heap.** The loop of `kmalloc` maps them, or `map_page` panics. -/
theorem mapPages_wp (hp : Pages L e F V s) (ho : Owned L e F s) (hn : 0 < n)
    (hbase : (mmapGetPages s.physMmap n).1 = base) (hne : base ≠ 0)
    (hend : e + 4096 * n ≤ 0xFFFFFF8000000000) (hE : ∀ i < n, MayMap E s (e + 4096 * i)) :
    Outcome.wp E
      (Outcome.loop 0 n fun i =>
        mapPage (wrap (e + i * 0x1000)) (wrap (base + i * 0x1000)) pagingFlagReadWrite)
      (fun _ s' => ∃ V', Pages L (e + 4096 * n) (extendFrames F e base) V' s' ∧
        Owned L (e + 4096 * n) (extendFrames F e base) s' ∧ (∀ v < e, V' v = V v) ∧
        MapStep (s.allocated n) s') (s.allocated n) := by
  have ha := hp.endAligned
  have hstart := hp.start_le
  obtain ⟨howned, hgood, hinj⟩ := ho.taken hp hn hbase hne
  have halign : base % 4096 = 0 := by simpa using (hgood 0 hn).aligned
  let F' := extendFrames F e base
  -- the bytes of the new pages are those their frames hold now
  let V' : Mem := fun v => if v < e then V v else s.mem (4096 * F' (v / 4096) + v % 4096)
  have hpages : Pages L e F' V' (s.allocated n) :=
    (hp.congr (fun v hv => extendFrames_old ha hv.upper) fun v hv => if_pos hv.upper).of_mem_eq rfl rfl
  refine Outcome.wp_mono (Outcome.wp_loop (fun i t => Pages L (e + 4096 * i) F' V' t ∧
    Owned L (e + 4096 * n) F' t ∧ MapStep (s.allocated n) t ∧ ∀ j, i ≤ j → j < n →
      ¬IsTable t.mem t.cr3 (base / 4096 + j) ∧ ∀ k < 4096, t.mem (4096 * (base / 4096 + j) + k) =
        V' (e + 4096 * j + k)) 0 n ?_ ⟨by simpa using hpages, howned, MapStep.refl _, ?_⟩) ?_
  · rintro i t - hi ⟨hpt, hot, hstep, hpend⟩
    rw [Nat.zero_add] at hi
    have hnew : F' ((e + 4096 * i) / 4096) = base / 4096 + i := by
      show extendFrames F e base _ = _
      rw [extendFrames_new ha (by omega)]
      omega
    have hframe := (hgood i hi).toFrameAddr
    have hlt := hframe.lt
    obtain ⟨hpres, hpte⟩ := leaf_readWrite hframe
    have hv : wrap (e + i * 0x1000) = e + 4096 * i := by
      rw [wrap_of_lt (by omega), Nat.mul_comm]
    have hpa : wrap (base + i * 0x1000) = base + 4096 * i := by
      rw [wrap_of_lt (by omega), Nat.mul_comm]
    have hbuf := buf_le_start L
    rw [hv, hpa]
    refine Outcome.wp_mono (mapPage_wp hpt.tables hot.free
      (userPage_of_lt (L := L) (by omega) (by omega) (by omega))
      (hpt.noLarge _ (by omega) (by omega)) (by omega) flagsOk_readWrite
      (hstep.mayMap (L := L) (by omega) (by omega) (hE i hi))) fun _ t' ht => ?_
    obtain ⟨taken, hm⟩ := ht
    obtain ⟨htable, hbytes⟩ := hpend i le_rfl hi
    refine ⟨?_, hot.mapped hm, hstep.trans (mapStep_of_mapped hm), fun j hij hj => ?_⟩
    · rw [show e + 4096 * (i + 1) = e + 4096 * i + 4096 by omega]
      refine hpt.mapNext (hot.restrict (by omega)) hm ⟨hpres, ?_⟩ (by omega) (fun w hw => ?_) ?_ ?_
      · rw [hpte, hnew]
        omega
      · rw [hnew]
        show extendFrames F e base _ ≠ _
        have hupper := hw.upper
        by_cases hwe : w < e
        · rw [extendFrames_old ha hwe]
          exact hinj i hi w ⟨hw.lower, hwe⟩
        · rw [extendFrames_new ha (by omega)]
          omega
      · rwa [hnew]
      · rw [hnew]
        exact hbytes
    · have hfree : 4096 * (base / 4096 + j) ∉ t.physMmap.freePages := by
        have hw : L.Within (e + 4096 * n) (e + 4096 * j) := ⟨by omega, by omega⟩
        have hnot := hot.notFree _ hw
        have hj' : F' ((e + 4096 * j) / 4096) = base / 4096 + j := by
          show extendFrames F e base _ = _
          rw [extendFrames_new ha (by omega)]
          omega
        rwa [hj'] at hnot
      obtain ⟨htable, hbytes⟩ := hpend j (by omega) hj
      obtain ⟨ht', hb'⟩ := hm.frame hot.free hfree htable
      exact ⟨ht', fun k hk => by rw [hb' _ (by omega), hbytes k hk]⟩
  · intro j _ hj
    refine ⟨?_, fun k hk => ?_⟩
    · have ht := (hgood j hj).notTable
      rwa [show (base + 4096 * j) / 4096 = base / 4096 + j by omega] at ht
    · show s.mem _ = V' _
      have hj' : F' ((e + 4096 * j + k) / 4096) = base / 4096 + j := by
        show extendFrames F e base _ = _
        rw [extendFrames_new ha (by omega)]
        omega
      show s.mem _ = if e + 4096 * j + k < e then _ else _
      rw [if_neg (by omega), hj']
      congr 1
      omega
  · rintro _ s' ⟨hp', ho', hstep, -⟩
    rw [Nat.zero_add] at hp'
    exact ⟨V', hp', ho', fun v hv => if_pos hv, hstep⟩

end Extend

/-! ## Pages that are given back -/

/-- `PHYS_ADDR_OF` reads the entry of a page. -/
theorem physAddrOf_returns (ht : PageTables s.mem s.cr3) {v n : Nat}
    (hn : ptAt s.mem s.cr3 v = some n) (ha : v % 4096 = 0) :
    (physAddrOf v).Returns s (tables s.mem n (index v 12) / 4096 % 2 ^ 36 * 4096) s := by
  refine (readEntry (translate_pteAddrOf ht.selfMap hn)).bind ?_
  generalize Paging.tables s.mem n (index v 12) = pte
  have hframe : pte &&& 0xFFFFFFFFF000 = pte / 2 ^ 12 % 2 ^ 36 * 2 ^ 12 := land_shifted_mask pte 12 36
  have hoff : v &&& 0xFFF = v % 4096 := Nat.and_two_pow_sub_one_eq_mod v 12
  have hsum : (pte &&& 0xFFFFFFFFF000) + (v &&& 0xFFF) = pte / 4096 % 2 ^ 36 * 4096 := by omega
  rw [hsum]
  exact Outcome.returns_pure _ s

theorem Pages.physAddrOf (h : Pages L e F V s) (ho : Owned L e F s) {v : Nat} (hv : L.Within e v)
    (ha : v % 4096 = 0) : (physAddrOf v).Returns s (4096 * F (v / 4096)) s := by
  obtain ⟨pte, hwalk, hframe⟩ := h.mapped v hv
  obtain ⟨n, hn, rfl⟩ := ptAt_of_walk hwalk
  have hlt := (ho.frame v hv).2
  have hret := physAddrOf_returns h.tables hn ha
  unfold frameOf at hframe
  have heq : Paging.tables s.mem n (index v 12) / 4096 % 2 ^ 36 * 4096 = 4096 * F (v / 4096) := by omega
  rwa [heq] at hret

/-- Well-formed ranges without a common page are disjoint. -/
theorem disjoint_of_pages {q r : MemoryRange} (hq : q.Wf) (hr : r.Wf)
    (h : ∀ a ∈ r.pageList, a ∉ q.pageList) : q.Disjoint r := by
  have hqp := hq.pos
  have hrp := hr.pos
  have hqa := hq.aligned
  have hra := hr.aligned
  unfold MemoryRange.Disjoint MemoryRange.endAddr
  by_contra hc
  -- the first page of the one that starts later is a page of both
  by_cases hle : q.baseAddr ≤ r.baseAddr
  · refine h r.baseAddr (MemoryRange.mem_pageList.mpr ⟨0, hrp, by omega⟩)
      (MemoryRange.mem_pageList.mpr ⟨(r.baseAddr - q.baseAddr) / 4096, by omega, by omega⟩)
  · refine h q.baseAddr (MemoryRange.mem_pageList.mpr ⟨(q.baseAddr - r.baseAddr) / 4096, by omega, by omega⟩)
      (MemoryRange.mem_pageList.mpr ⟨0, hqp, by omega⟩)

/-- The pages from `v` on are mapped to consecutive frames. -/
def Consecutive (F : Nat → Nat) (v count : Nat) : Prop :=
  ∀ i < count, F (v / 4096 + i) = F (v / 4096) + i

/-- What `free_phys_pages` leaves, called with the frame behind the heap that ends at `v`. -/
structure GivenBack (L : Layout) (e : Nat) (F : Nat → Nat) (V : Mem) (v count : Nat) (s s' : Kernel) :
    Prop where
  pages : Pages L e F V s'
  owned : (count = 0 ∨ Consecutive F v count) → Owned L v F s'
  same : s' = { s with mem := s'.mem, physMmap := s'.physMmap, allocLog := s'.allocLog }
  keep : ∀ p n, tablePaths.mem p → tableAt s.mem s.cr3 p = some n → tableAt s'.mem s'.cr3 p = some n

theorem mmapAddRangeMerge_maxRangeCount (m : MemoryMap) (b n : Nat) :
    (mmapAddRangeMerge m b n).2.maxRangeCount = m.maxRangeCount := by
  by_cases hn : n = 0
  · subst hn
    rfl
  have hadd : (mmapAddRange m b n).2.maxRangeCount = m.maxRangeCount := by
    have h := mmapAddRange_eq m b hn
    split_ifs at h
    · obtain ⟨m', hm', -, hmax, -⟩ := h
      rw [hm', hmax]
    · rw [h]
  have h := mmapAddRangeMerge_eq m b hn
  split at h
  · rw [h, hadd]
  · obtain ⟨m', hm', -, hmax, -⟩ := h
    rw [hm', hmax]

/-- Frames of the heap that are added to `phys_mmap` are free. -/
theorem Owned.added (hp : Pages L e F V s) (ho : Owned L e F s) {v count : Nat} (hcount : 0 < count)
    (hv : L.kernelHeapStart ≤ v) (ha : v % 4096 = 0) (hend : v + 4096 * count ≤ e)
    (hcon : Consecutive F v count) :
    (mmapAddRangeMerge s.physMmap (4096 * F (v / 4096)) count).1 = false ∧
        (mmapAddRangeMerge s.physMmap (4096 * F (v / 4096)) count).2 = s.physMmap ∨
      (mmapAddRangeMerge s.physMmap (4096 * F (v / 4096)) count).1 = true ∧
        Owned L v F { s with physMmap := (mmapAddRangeMerge s.physMmap (4096 * F (v / 4096)) count).2 } := by
  have hwithin : ∀ i < count, L.Within e (v + 4096 * i) := fun i hi => ⟨by omega, by omega⟩
  have hpage : ∀ i, (v + 4096 * i) / 4096 = v / 4096 + i := fun i => by omega
  have hframe : ∀ i < count, 4096 * F (v / 4096) + 4096 * i = 4096 * F ((v + 4096 * i) / 4096) := by
    intro i hi
    rw [hpage, hcon i hi]
    omega
  have hgood := fun i hi => ho.frame _ (hwithin i hi)
  have hlast := hgood (count - 1) (by omega)
  have hlastframe := hframe (count - 1) (by omega)
  have hrange : MemoryRange.Wf ⟨4096 * F (v / 4096), count⟩ := by
    have hfirst := (hgood 0 hcount).1
    rw [hpage] at hfirst
    refine ⟨hcount, ?_, ?_, ?_⟩
    · show 4096 * F (v / 4096) % 4096 = 0
      omega
    · show 0 < 4096 * F (v / 4096)
      simp only [Nat.add_zero] at hfirst
      omega
    · show 4096 * F (v / 4096) + 4096 * count ≤ 2 ^ 64
      omega
  have hnotfree : ∀ a ∈ MemoryRange.pageList ⟨4096 * F (v / 4096), count⟩, a ∉ s.physMmap.freePages := by
    intro a hmem
    obtain ⟨i, hi, rfl⟩ := MemoryRange.mem_pageList.mp hmem
    show 4096 * F (v / 4096) + 4096 * i ∉ _
    rw [hframe i hi]
    exact ho.notFree _ (hwithin i hi)
  have hadd : s.physMmap.CanAdd ⟨4096 * F (v / 4096), count⟩ := by
    refine ⟨hrange, fun q hq => disjoint_of_pages (ho.free.wf.ranges_wf q hq) hrange fun a hmem hc => ?_⟩
    exact hnotfree a hmem (List.mem_flatMap.mpr ⟨q, hq, hc⟩)
  obtain ⟨hwf, hyes, hno⟩ := mmapAddRangeMerge_pages ho.free.wf hadd
  have hmax := mmapAddRangeMerge_maxRangeCount s.physMmap (4096 * F (v / 4096)) count
  cases hres : (mmapAddRangeMerge s.physMmap (4096 * F (v / 4096)) count).1 with
  | false => exact .inl ⟨rfl, hno hres⟩
  | true =>
    refine .inr ⟨rfl, ?_⟩
    have hperm := hyes hres
    refine ⟨⟨hwf, fun a hmem => ?_⟩, fun w hw hc => ?_, fun w hw => ?_, ?_, ?_⟩
    · rcases List.mem_append.mp (hperm.subset hmem) with hmem | hmem
      · obtain ⟨i, hi, rfl⟩ := MemoryRange.mem_pageList.mp hmem
        show GoodFrame s.mem s.cr3 (4096 * F (v / 4096) + 4096 * i)
        rw [hframe i hi]
        obtain ⟨hnz, hlt⟩ := hgood i hi
        refine ⟨⟨by omega, by omega⟩, by omega, ?_⟩
        rw [Nat.mul_div_cancel_left _ (by decide)]
        exact hp.notTable _ (hwithin i hi)
      · exact ho.free.good a hmem
    · have hwe : L.Within e w := ⟨hw.lower, by have := hw.upper; omega⟩
      rcases List.mem_append.mp (hperm.subset hc) with hmem | hmem
      · obtain ⟨i, hi, heq⟩ := MemoryRange.mem_pageList.mp hmem
        change 4096 * F (w / 4096) = 4096 * F (v / 4096) + 4096 * i at heq
        rw [hframe i hi] at heq
        have hsame := hp.inj w _ hwe (hwithin i hi) (by omega)
        have hupper := hw.upper
        omega
      · exact ho.notFree w hwe hmem
    · exact ho.frame w ⟨hw.lower, by have := hw.upper; omega⟩
    · show (mmapAddRangeMerge _ _ _).2.maxRangeCount % 256 = 0
      rw [hmax]
      exact ho.buffer
    · show (mmapAddRangeMerge _ _ _).2.maxRangeCount * 16 ≤ _
      rw [hmax]
      exact ho.bufferSize

/-- A range can be given back while the buffer has a slot left. -/
theorem mmapAddRangeMerge_true {m : MemoryMap} {b n : Nat} (hn : n ≠ 0) (h : m.rangeCount < m.maxRangeCount) :
    (mmapAddRangeMerge m b n).1 = true := by
  have heq := mmapAddRangeMerge_eq m b hn
  split at heq
  · have hadd := mmapAddRange_eq m b hn
    rw [if_pos h] at hadd
    obtain ⟨m', hm', -⟩ := hadd
    rw [heq, hm']
  · obtain ⟨m', hm', -⟩ := heq
    rw [hm']

theorem mmapAddRangeMerge_false {m : MemoryMap} {b n : Nat} (h : (mmapAddRangeMerge m b n).1 = false) :
    (mmapAddRangeMerge m b n).2 = m := by
  by_cases hn : n = 0
  · subst hn
    rfl
  have heq := mmapAddRangeMerge_eq m b hn
  split at heq
  · rw [heq] at h ⊢
    have hadd := mmapAddRange_eq m b hn
    split_ifs at hadd
    · obtain ⟨m', hm', -⟩ := hadd
      rw [hm'] at h
      cases h
    · rw [hadd]
  · obtain ⟨m', hm', -⟩ := heq
    rw [hm'] at h
    cases h

/-- A longer buffer for `phys_mmap` changes nothing else. -/
theorem Owned.buffered (h : Owned L e F s) {k : Nat} (hsize : (s.physMmap.maxRangeCount + 256 * k) * 16 ≤ physMmapMaxSize) :
    Owned L e F { s with physMmap :=
      { s.physMmap with maxRangeCount := s.physMmap.maxRangeCount + 256 * k } } := by
  obtain ⟨⟨hwf, hgood⟩, hnot, hframe, hbuf, -⟩ := h
  simp only [physMmapMaxSize] at hsize
  refine ⟨⟨⟨hwf.ranges_wf, hwf.disjoint, ?_, ?_⟩, hgood⟩, hnot, hframe, ?_, hsize⟩
  · exact hwf.count_le.trans (Nat.le_add_right _ _)
  · show s.physMmap.maxRangeCount + 256 * k < 2 ^ 31
    omega
  · show (s.physMmap.maxRangeCount + 256 * k) % 256 = 0
    omega

/-- **`free_phys_pages`**, for the pages from `v` on, or for none. -/
theorem freePhysPages_wp (hp : Pages L e F V s) (ho : Owned L e F s) {v count base : Nat}
    (hv : L.kernelHeapStart ≤ v) (ha : v % 4096 = 0) (hend : v + 4096 * count ≤ e)
    (hbase : 0 < count → base = 4096 * F (v / 4096)) (hlt : base < 2 ^ 64)
    (hE : (∀ e, IsPanic e → E e) ∨ (mmapAddRangeMerge s.physMmap base count).1 = true) :
    Outcome.wp E (freePhysPages L base count) (fun _ s' => GivenBack L e F V v count s s') s := by
  have hlower := L.lower
  have hbuf := L.buf_below
  have hend' := hp.end_le
  have hbufsize := ho.bufferSize
  simp only [physMmapMaxSize] at hbufsize
  cases hres : (mmapAddRangeMerge s.physMmap base count).1 with
  | true =>
    have hadd : Outcome.Returns (fun s => (.ok (mmapAddRangeMerge s.physMmap base count).1,
        { s with physMmap := (mmapAddRangeMerge s.physMmap base count).2 }) : KernelM Bool) s true
        { s with physMmap := (mmapAddRangeMerge s.physMmap base count).2 } := by
      show _ = _
      rw [← hres]
    refine Outcome.wp_bind_returns hadd (Outcome.wp_of_returns (Outcome.returns_pure _ _) ?_)
    refine ⟨hp.of_mem_eq rfl rfl, fun hcon => ?_, rfl, fun _ _ _ hn => hn⟩
    have hcount : 0 < count := by
      by_contra hc
      rw [Nat.eq_zero_of_not_pos hc] at hres
      cases hres
    have hadded := ho.added hp hcount hv ha hend (hcon.resolve_left (by omega))
    rw [← hbase hcount] at hadded
    rcases hadded with ⟨hfalse, -⟩ | ⟨-, howned⟩
    · rw [hres] at hfalse
      cases hfalse
    · exact howned
  | false =>
    have hadd : Outcome.Returns (fun s => (.ok (mmapAddRangeMerge s.physMmap base count).1,
        { s with physMmap := (mmapAddRangeMerge s.physMmap base count).2 }) : KernelM Bool) s false s := by
      show (_, _) = _
      rw [hres, mmapAddRangeMerge_false hres]
    refine Outcome.wp_bind_returns hadd ?_
    rw [if_neg (by decide)]
    refine Outcome.wp_bind_returns (Outcome.returns_gets _ s) ?_
    have hcountlt : 4096 * count ≤ 2 ^ 50 := by omega
    refine Outcome.wp_ite (fun _ => ?_) fun hroom => ?_
    · -- the buffer has its greatest size: the frames are lost
      refine Outcome.wp_of_returns (Outcome.returns_pure _ _) ⟨hp, fun _ => ho.restrict (by omega), rfl,
        fun _ _ _ hn => hn⟩
    · rw [wrap_of_lt (by omega)] at hroom
      simp only [physMmapMaxSize] at hroom
      simp only [physMmapMaxSize] at hbuf
      have hbuf256 := ho.buffer
      have haligned := L.buf_aligned
      have hheap := L.heap_aligned
      rw [wrap_of_lt (show L.physMmapRangeBuf + 16 * s.physMmap.maxRangeCount < 2 ^ 64 by omega)]
      refine Outcome.wp_bind (Outcome.wp_mono (mapPage_wp hp.tables ho.free
        (userPage_of_lt (L := L) (by omega) (by omega) (by omega)) (hp.noLarge _ (by omega) (by omega))
        hlt flagsOk_readWrite (.inl (hE.resolve_right (by rw [hres]; decide)))) fun _ s₁ hm => ?_)
      obtain ⟨taken, hm⟩ := hm
      have hp₁ := hp.mapElsewhere ho hm fun w hw => by
        have := hw.lower
        omega
      have ho₁ := (ho.mapped hm).restrict (show v ≤ e by omega)
      refine Outcome.wp_bind_returns (Outcome.returns_modify _ s₁)
        (Outcome.wp_of_returns (Outcome.returns_pure _ _) ?_)
      have hmul : count * 0x1000 / 16 = 256 * count := by omega
      rw [hmul]
      refine ⟨hp₁.of_mem_eq rfl rfl, fun _ => ho₁.buffered ?_, ?_, hm.keep⟩
      · rw [hm.maxRangeCount]
        simp only [physMmapMaxSize]
        omega
      · rw [hm.same]

end KoalemOS.Heap
