import KoalemOS.Heap.Freed

/-!
# `kfree` on a heap

`kfree` merges the block with its neighbours and may end the heap earlier (`HeapState.kfree`).
The pages it gives back stay mapped; their frames are free afterwards when they are
consecutive.
-/

namespace KoalemOS.Heap

open KoalemOS.Library KoalemOS.Library.LinkedList KoalemOS.Mmap KoalemOS.Paging

variable {L : Layout} {e : Nat} {F : Nat → Nat} {K : Nat → Prop} {V V₀ : Mem} {s₀ s s' : Kernel}
  {b c : Block} {bs bs' xs ys : List Block} {E : Stop → Prop}

/-! ## The last entry -/

/-- `endHeapAt` -/
theorem Listed.endHeapAt (h : Listed L e F K V₀ s₀ (xs ++ [c]) s) (hxs : xs ≠ []) (newEnd : Nat) :
    Outcome.wp E (endHeapAt c.addr newEnd)
      (fun _ s' => ∃ bs', Ended newEnd xs c bs' ∧ Listed L e F K V₀ s₀ bs' s') s := by
  refine Outcome.wp_ite (fun heq => ?_) fun hne => ?_
  · obtain ⟨ps, p, rfl⟩ := (List.eq_nil_or_concat' xs).resolve_left hxs
    refine Outcome.wp_bind_returns h.entryLast ?_
    rw [lastOr_append, lastOr_cons, lastOr_nil]
    obtain ⟨H, hheld, hlinks⟩ := h.held
    have hspaced : Spaced L.kernelHeapStart (ps ++ p :: ([c] ++ [])) e := by simpa using h.spaced
    have hspaced' := Spaced.omit [c] hspaced
    obtain ⟨hpp, -⟩ := hspaced'.ne_around
    obtain ⟨hinit, -⟩ := chain_append.mp hlinks
    obtain ⟨hps, hp, -⟩ := chain_append.mp hinit
    refine Outcome.wp_bind (Outcome.wp_mono (hheld.setLastHeapEntry p.addr) fun _ s₁ h₁ => ?_)
    refine Outcome.wp_mono (h₁.setNext (a := p.addr) (x := 0) (by simp) (by decide)) fun _ s₂ h₂ => ?_
    refine ⟨_, .drop heq, Listed.of_parts h₂ (fun a ha => ?_) (hps.congr fun x hx => ?_) ?_ trivial hspaced'⟩
    · simp only [addrs, List.map_append, List.mem_append] at ha ⊢
      tauto
    · exact Function.update_of_ne (hpp x hx) _ _
    · rw [Function.update_self, hp, Node.withNext_mk]
      rfl
  · refine Outcome.wp_mono (h.setSize (sub64_lt _ _)) fun _ s' hs' => ⟨_, .resize hne, hs'⟩

/-! ## The end of the heap -/

/-- What is left of a heap that ended at `e`. -/
structure Remains (L : Layout) (e : Nat) (F : Nat → Nat) (K : Nat → Prop) (V₀ : Mem) (bs : List Block)
    (s : Kernel) : Prop where
  listed : Listed L e F K V₀ s bs s
  first : s.firstHeapEntry = headOr Block.addr 0 bs
  owned : Consecutive F s.kernelHeapEnd ((e - s.kernelHeapEnd) / 4096) → Owned L s.kernelHeapEnd F s
  tail : RoomAtEnd bs ∨ ∃ n, ptAt s.mem s.cr3 s.kernelHeapEnd = some n

/-- Pages are given back, and the list stays. -/
theorem Listed.givenBack (h : Listed L e F K V₀ s₀ bs s) (ho : Owned L e F s) {v count base : Nat}
    (hv : L.kernelHeapStart ≤ v) (ha : v % 4096 = 0) (hend : v + 4096 * count ≤ e)
    (hbase : 0 < count → base = 4096 * F (v / 4096)) (hlt : base < 2 ^ 64)
    (hE : (∀ e, IsPanic e → E e) ∨ (mmapAddRangeMerge s.physMmap base count).1 = true) :
    Outcome.wp E (freePhysPages L base count) (fun _ s' => Listed L e F K V₀ s' bs s' ∧
      (count = 0 ∨ Consecutive F v count → Owned L v F s') ∧
      s' = { s with mem := s'.mem, physMmap := s'.physMmap, allocLog := s'.allocLog } ∧
      ∀ p n, tablePaths.mem p → tableAt s.mem s.cr3 p = some n → tableAt s'.mem s'.cr3 p = some n) s := by
  obtain ⟨V, hpages, hlinks, hkept⟩ := h.bytes
  refine Outcome.wp_mono (freePhysPages_wp hpages ho hv ha hend hbase hlt hE) fun _ s' hg => ?_
  have hlast : s'.lastHeapEntry = lastOr Block.addr 0 bs := by
    rw [hg.same]
    exact h.last
  refine ⟨⟨⟨header V, ⟨Room.of_spaced h.spaced h.aligned h.clear, ⟨V, hg.pages, fun _ _ => rfl, hkept⟩, hlast,
    DataStep.refl s'⟩, hlinks⟩, h.spaced⟩, hg.owned, hg.same, hg.keep⟩

/-- The page table entry of the page where the heap will end gives the frame of that page. -/
theorem Listed.endFrame (h : Listed L e F K V₀ s₀ bs s) (ho : Owned L e F s) {v : Nat} (ha : v % 4096 = 0)
    (hv : L.kernelHeapStart ≤ v) (hle : v ≤ e) (htail : v = e → ∃ n, ptAt s.mem s.cr3 v = some n) :
    ∃ base n, (physAddrOf v).Returns s base s ∧ base < 2 ^ 64 ∧ (v < e → base = 4096 * F (v / 4096)) ∧
      ptAt s.mem s.cr3 v = some n := by
  obtain ⟨V, hpages, -⟩ := h.bytes
  by_cases hlt : v < e
  · have hw : L.Within e v := ⟨hv, hlt⟩
    have hframe := ho.frame v hw
    obtain ⟨pte, hwalk, -⟩ := hpages.mapped v hw
    obtain ⟨n, hn, -⟩ := ptAt_of_walk hwalk
    exact ⟨_, n, hpages.physAddrOf ho hw ha, by omega, fun _ => rfl, hn⟩
  · obtain ⟨n, hn⟩ := htail (by omega)
    refine ⟨_, n, physAddrOf_returns hpages.tables hn ha, ?_, fun hc => absurd hc hlt, hn⟩
    generalize Paging.tables s.mem n (index v 12) = pte
    omega

/-- `trimHeap` on the last of several entries. -/
theorem Listed.trimHeap (h : Listed L e F K V₀ s₀ (xs ++ [c]) s) (hend : s.kernelHeapEnd = e)
    (hfirst : s.firstHeapEntry = headOr Block.addr 0 (xs ++ [c])) (ho : Owned L e F s) (hxs : xs ≠ [])
    (hlt : e < 0xFFFFFF8000000000) (htail : pageUp c.addr = e → ∃ n, ptAt s.mem s.cr3 e = some n)
    (hE : (∀ e, IsPanic e → E e) ∨ (mmapAddRangeMerge s.physMmap (4096 * F (pageUp c.addr / 4096))
      ((e - pageUp c.addr) / 4096)).1 = true) :
    Outcome.wp E (trimHeap L c.addr) (fun _ s' => ∃ bs', Ended (pageUp c.addr) xs c bs' ∧
      s'.kernelHeapEnd = pageUp c.addr ∧ Remains L e F K V₀ bs' s') s := by
  have hbounds := h.spaced.bounds (b := c) (by simp)
  simp only [Block.memory] at hbounds
  have hlower := L.lower
  have hbuf := L.buf_below
  have he : e % 4096 = 0 := by
    obtain ⟨V, hpages, -⟩ := h.bytes
    exact hpages.endAligned
  obtain ⟨hge, hle⟩ := pageUp_bounds he hbounds.2
  have hmod := pageUp_mod c.addr
  have hself : Listed L e F K V₀ s (xs ++ [c]) s := h.of_eq rfl rfl rfl
  unfold Heap.trimHeap
  rw [alignUp_page (by omega) (by omega)]
  generalize hv : pageUp c.addr = v at *
  refine Outcome.wp_bind (Outcome.wp_mono (hself.endHeapAt hxs v) fun _ s₁ hs => ?_)
  obtain ⟨bs', hended, h₁⟩ := hs
  have hstep := h₁.step
  have hend₁ : s₁.kernelHeapEnd = e := by rw [hstep.same]; exact hend
  have hfirst₁ : s₁.firstHeapEntry = headOr Block.addr 0 bs' := by
    have heq : s₁.firstHeapEntry = s.firstHeapEntry := by rw [hstep.same]
    rw [heq, hfirst]
    exact (hended.headOr_eq hxs).symm
  refine Outcome.wp_bind_returns (Outcome.returns_gets _ s₁) ?_
  rw [hend₁]
  have ho₁ := hstep.owned ho
  obtain ⟨base, n, hbase, hbaselt, hframe, hn⟩ := h₁.endFrame ho₁ hmod (by omega) hle fun heq => by
    obtain ⟨n, hn⟩ := htail heq
    refine ⟨n, hstep.ptAt_some ?_ (by rw [heq]; exact hn)⟩
    rw [(slot_of_lt (L := L) (v := v) (by omega) (by omega)).1]
    decide
  refine Outcome.wp_bind_returns hbase ?_
  have hcount : sub64 e v / 0x1000 = (e - v) / 4096 := by rw [sub64_of_le hle (by omega)]
  rw [hcount]
  have hE₁ : (∀ e, IsPanic e → E e) ∨ (mmapAddRangeMerge s₁.physMmap base ((e - v) / 4096)).1 = true := by
    refine hE.imp_right fun hadd => ?_
    rw [hstep.physMmap]
    by_cases hve : v < e
    · rwa [hframe hve]
    · rw [show (e - v) / 4096 = 0 by omega] at hadd
      cases hadd
  refine Outcome.wp_bind (Outcome.wp_mono (h₁.givenBack ho₁ (by omega) hmod (by omega)
    (fun hpos => hframe (by omega)) hbaselt hE₁) fun _ s₂ hs => ?_)
  obtain ⟨h₂, ho₂, hsame, hkeep⟩ := hs
  -- the loop that is to unmap the pages
  rw [show v - e = 0 by omega]
  refine Outcome.wp_bind_returns (Outcome.returns_pure () s₂) ?_
  refine Outcome.wp_of_returns (Outcome.returns_modify _ s₂) ⟨bs', hended, rfl, ?_⟩
  refine ⟨h₂.of_eq rfl rfl rfl, ?_, fun hcon => (ho₂ (.inr hcon)).of_eq rfl rfl rfl, .inr ⟨n, ?_⟩⟩
  · show s₂.firstHeapEntry = _
    rw [hsame]
    exact hfirst₁
  · refine hkeep _ n (UpperOf.pd.mem ?_).2 hn
    rw [(slot_of_lt (L := L) (v := v) (by omega) (by omega)).1]
    decide

/-- `kfree` may give up, or the frames it gives back go to a slot of `phys_mmap`. -/
def MayFree (E : Stop → Prop) (bs : List Block) (s : Kernel) : Prop :=
  (∀ e, IsPanic e → E e) ∨ RoomAtEnd bs ∧ s.physMmap.rangeCount < s.physMmap.maxRangeCount

/-- `trimIfLast` -/
theorem Listed.trimIfLast (h : Listed L e F K V₀ s₀ (xs ++ c :: ys) s) (hend : s.kernelHeapEnd = e)
    (hfirst : s.firstHeapEntry = headOr Block.addr 0 (xs ++ c :: ys)) (ho : Owned L e F s)
    (hlt : e < 0xFFFFFF8000000000)
    (htail : RoomAtEnd (xs ++ c :: ys) ∨ ∃ n, ptAt s.mem s.cr3 e = some n) (hstop : c.stop ≤ e)
    (hE : MayFree E (xs ++ c :: ys) s) :
    Outcome.wp E (trimIfLast L c.addr) (fun _ s' => ∃ bs', Trimmed e xs c ys bs' s'.kernelHeapEnd ∧
      Remains L e F K V₀ bs' s' ∧ (¬Trims e xs c ys → s' = s)) s := by
  have hbounds := h.spaced.bounds (b := c) (by simp)
  have hlower := L.lower
  have hbuf := L.buf_below
  have he : e % 4096 = 0 := by
    obtain ⟨V, hpages, -⟩ := h.bytes
    exact hpages.endAligned
  simp only [Block.memory] at hbounds
  have hstays : ¬Trims e xs c ys → ∃ bs', Trimmed e xs c ys bs' s.kernelHeapEnd ∧
      Remains L e F K V₀ bs' s ∧ (¬Trims e xs c ys → s = s) := by
    intro hno
    rw [hend]
    refine ⟨_, .keep hno, ⟨h.of_eq rfl rfl rfl, hfirst, fun _ => ?_, by rwa [hend]⟩, fun _ => rfl⟩
    rwa [hend]
  refine Outcome.wp_bind_returns h.entryNext ?_
  cases ys with
  | cons y ys =>
    have hy : Listed L e F K V₀ s₀ ((xs ++ [c]) ++ y :: ys) s := by simpa using h
    have hyne : y.addr ≠ 0 := by
      obtain ⟨H, hheld, -⟩ := hy.held
      exact hheld.ne_zero (by simp)
    rw [headOr_cons, if_pos hyne]
    exact Outcome.wp_of_returns (Outcome.returns_pure _ s) (hstays fun htrims => List.cons_ne_nil _ _ htrims.last)
  | nil =>
    rw [headOr_nil, if_neg (by decide)]
    refine Outcome.wp_bind_returns h.entryLast (Outcome.wp_bind_returns (Outcome.returns_gets _ s) ?_)
    have hlast : lastOr Block.addr 0 xs ≠ 0 ↔ xs ≠ [] := by
      rcases List.eq_nil_or_concat' xs with rfl | ⟨ps, p, rfl⟩
      · simp
      · have hp : Listed L e F K V₀ s₀ (ps ++ p :: [c]) s := by simpa using h
        obtain ⟨H, hheld, -⟩ := hp.held
        simpa using hheld.ne_zero (a := p.addr) (by simp)
    have hround : alignUp (wrap (memoryOf c.addr + sizeofMaxAlign)) 0x1000 = pageUp (c.addr + 64) := by
      rw [memoryOf_addr (by omega)]
      simp only [Block.memory, sizeofMaxAlign]
      rw [wrap_of_lt (by omega), alignUp_page (by omega) (by omega)]
    rw [hround, hend]
    refine Outcome.wp_ite (fun htrims => ?_) fun hno => ?_
    · obtain ⟨hxs, hroom⟩ := htrims
      have htrims : Trims e xs c [] := ⟨rfl, hlast.mp hxs, hroom⟩
      refine Outcome.wp_mono (h.trimHeap hend hfirst ho (hlast.mp hxs) hlt (fun heq => ?_) ?_) fun _ s' hs => ?_
      · -- a header whose block has no room for another one
        refine htail.resolve_left fun hbig => ?_
        rw [roomAtEnd_append (by simp), roomAtEnd_singleton] at hbig
        simp only [Block.stop] at hstop
        unfold pageUp at heq hroom
        omega
      · refine hE.imp_right fun hmay => ?_
        obtain ⟨hbig, hcount⟩ := hmay
        refine mmapAddRangeMerge_true ?_ hcount
        rw [roomAtEnd_append (by simp), roomAtEnd_singleton] at hbig
        simp only [Block.stop] at hstop
        unfold pageUp at hroom ⊢
        omega
      · obtain ⟨bs', hended, hend', hremains⟩ := hs
        refine ⟨bs', ?_, hremains, fun hno => absurd htrims hno⟩
        rw [hend']
        exact .trim htrims hended
    · refine Outcome.wp_of_returns (Outcome.returns_pure _ s) (hstays fun htrims => ?_)
      exact hno ⟨hlast.mpr htrims.several, htrims.room⟩

/-! ## `kfree` -/

/-- The bytes that belong to the owners of used blocks other than `b`. -/
def OthersUse (bs : List Block) (b : Block) (v : Nat) : Prop := ∃ d ∈ bs, d ≠ b ∧ d.used = true ∧ d.Owns v

/-- **`kfree`.** The block is merged with its free neighbours, and the heap may be trimmed. -/
theorem HeapState.kfree (h : HeapState L F V (xs ++ b :: ys) s) (hE : MayFree E (xs ++ b :: ys) s) :
    Outcome.wp E (kfree L b.memory) (fun _ s' => ∃ xs' b₁ c ys' bs',
      LastMerged xs ⟨b.addr, b.size, false⟩ xs' b₁ ∧ NextMerged b₁ ys c ys' ∧
      Trimmed s.kernelHeapEnd xs' c ys' bs' s'.kernelHeapEnd ∧
      Remains L s.kernelHeapEnd F (OthersUse (xs ++ b :: ys) b) V bs' s' ∧
      (¬Trims s.kernelHeapEnd xs' c ys' → DataStep s s')) s := by
  have hlisted := h.listed (K := OthersUse (xs ++ b :: ys) b) fun v hv => by
    obtain ⟨d, hd, -, -, howns⟩ := hv
    exact ⟨d, hd, howns⟩
  have hlt : s.kernelHeapEnd < 0xFFFFFF8000000000 := by
    have hupper := L.upper
    have hlimit := h.limit
    omega
  have hstop_lt : ∀ {xs ys : List Block} {d : Block}, Arena L.kernelHeapStart (xs ++ ys) s.kernelHeapEnd →
      d ∈ xs ++ ys → d.stop < 2 ^ 64 := fun ha hd => by
    have := (ha.bounds hd).2
    omega
  have haddr := hlisted.addr_lt (b := b) (by simp)
  have hentry : sub64 b.memory sizeofHeapEntry = b.addr := by
    simp only [Block.memory, sizeofHeapEntry]
    rw [sub64_of_le (by omega) (by omega)]
    omega
  have harena : Arena L.kernelHeapStart (xs ++ ⟨b.addr, b.size, false⟩ :: ys) s.kernelHeapEnd := by
    obtain ⟨hbefore, hbehind⟩ := Placed.append_cons_iff.mp h.arena
    exact Placed.append_cons_iff.mpr ⟨hbefore, hbehind⟩
  unfold Heap.kfree
  rw [hentry]
  refine Outcome.wp_bind (Outcome.wp_mono (hlisted.setUsed false) fun _ s₁ h₁ => ?_)
  -- the entry before
  refine Outcome.wp_bind (Outcome.wp_mono (h₁.mergeLast (hstop_lt harena (by simp))
    fun x hx => hstop_lt harena (by simp [hx])) fun a s₂ hs => ?_)
  obtain ⟨xs', b₁, hlast, rfl, h₂⟩ := hs
  have harena₁ := hlast.placed harena
  -- the entry behind
  refine Outcome.wp_bind (Outcome.wp_mono (h₂.mergeNext (hstop_lt harena₁ (by simp))
    fun y hy => hstop_lt harena₁ (by simp [hy])) fun _ s₃ hs => ?_)
  obtain ⟨c, ys', hnext, hc, h₃⟩ := hs
  rw [← hc]
  have hjoined : Joined (xs ++ b :: ys) b xs' c ys' := .mk hlast hnext
  have harena₂ := hjoined.placed h.arena
  have hstep := h₃.step
  refine Outcome.wp_mono (h₃.trimIfLast ?_ ?_ (hstep.owned h.owned) hlt ?_
    (Arena.bounds harena₂ (by simp)).2 ?_)
    fun _ s₄ hs => ?_
  · rw [hstep.same]
  · rw [hjoined.headOr_eq, hstep.same]
    exact h.first
  · exact h.tail.imp hjoined.roomAtEnd (Exists.imp fun n hn => hstep.ptAt_some h.slot_end hn)
  · refine hE.imp_right fun hmay => ⟨hjoined.roomAtEnd hmay.1, ?_⟩
    rw [hstep.physMmap]
    exact hmay.2
  · obtain ⟨bs', htrimmed, hremains, hstays⟩ := hs
    refine ⟨xs', b₁, c, ys', bs', hlast, hnext, htrimmed, hremains, fun hno => ?_⟩
    rw [hstays hno]
    exact hstep

end KoalemOS.Heap
