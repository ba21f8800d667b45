import KoalemOS.Heap.Filled

/-!
# Runs of the allocator

A run is a sequence of calls of `kmalloc`, `krealloc` and `kfree` and of stores by the owners
of blocks, from the heap that `init_heap` makes. `live` says which pointers have been returned
and not been given back, and how many bytes their owners asked for.

- `kfree_wp`: what `kfree` does to a heap that is laid out
- `HeapRun.wellFormed`: as long as `kfree` trims cleanly, the blocks fill the heap and the
  live pointers are those of used blocks
-/

namespace KoalemOS.Heap

open KoalemOS.Library KoalemOS.Library.LinkedList KoalemOS.Mmap KoalemOS.Paging

variable {L : Layout} {e : Nat} {F : Nat → Nat} {K : Nat → Prop} {V V₀ : Mem} {s s' : Kernel}
  {b c d : Block} {bs bs' xs ys : List Block} {size : Nat} {E : Stop → Prop}

/-! ## `kfree` on a heap that is laid out -/

/-- The pages from `v` on are mapped to frames one behind the other. -/
def FramesInOrder (s : Kernel) (v count : Nat) : Prop :=
  ∀ i < count, translate s.mem s.cr3 (v + 4096 * i) = (translate s.mem s.cr3 v).map (· + 4096 * i)

/-- When the last block, merged with what is freed, is cut off at a page boundary, its header
does not cross that boundary, and the frames that are given back are consecutive. -/
def TrimsCleanly (s : Kernel) (bs : List Block) (b : Block) : Prop :=
  ∀ xs c ys, Joined bs b xs c ys → Trims s.kernelHeapEnd xs c ys → c.addr % 4096 ≠ 4080 ∧
    FramesInOrder s (pageUp c.addr) ((s.kernelHeapEnd - pageUp c.addr) / 4096)

theorem Pages.consecutive (h : Pages L e F V s) {v count : Nat} (hv : L.kernelHeapStart ≤ v)
    (ha : v % 4096 = 0) (hend : v + 4096 * count ≤ e) (hf : FramesInOrder s v count) :
    Consecutive F v count := by
  intro i hi
  have hi' := hf i hi
  rw [h.translate ⟨by omega, by omega⟩, h.translate ⟨hv, by omega⟩, Option.map_some,
    Option.some.injEq] at hi'
  have hpage : (v + 4096 * i) / 4096 = v / 4096 + i := by omega
  rw [hpage] at hi'
  omega

/-- What is left of a heap is a heap, when its blocks end where it ends. -/
theorem Remains.heapState (h : HeapState L F V bs s) (hr : Remains L s.kernelHeapEnd F K V₀ bs' s')
    (harena : Arena L.kernelHeapStart bs' s'.kernelHeapEnd) (hne : bs' ≠ [])
    (hend : s'.kernelHeapEnd ≤ s.kernelHeapEnd) (ha : s'.kernelHeapEnd % 4096 = 0)
    (hcon : Consecutive F s'.kernelHeapEnd ((s.kernelHeapEnd - s'.kernelHeapEnd) / 4096)) :
    ∃ V', HeapState L F V' bs' s' ∧ ∀ v, K v → V' v = V₀ v := by
  obtain ⟨V', hpages, hlinks, hkept⟩ := hr.listed.bytes
  have hstart : L.kernelHeapStart ≤ s'.kernelHeapEnd := Placed.le (fun b _ => b.addr_le_stop) harena
  exact ⟨V', ⟨hpages.restrict hend ha hstart, hr.owned hcon, hlinks, hr.first, hr.listed.last, harena,
    hr.listed.aligned, hne, hend.trans h.limit, hr.tail⟩, hkept⟩

/-- A block is freed, and what is trimmed is trimmed cleanly. -/
theorem HeapState.kfree_cleanly (h : HeapState L F V bs s) (hb : b ∈ bs) (hclean : TrimsCleanly s bs b)
    (hE : MayFree E bs s) :
    Outcome.wp E (Heap.kfree L b.memory) (fun _ s' => ∃ V' xs c ys bs', Joined bs b xs c ys ∧
      Trimmed s.kernelHeapEnd xs c ys bs' s'.kernelHeapEnd ∧ HeapState L F V' bs' s' ∧
      (∀ d ∈ bs, d ≠ b → d.used = true → d ∈ bs' ∧ SameBytes d s s') ∧
      ∀ d ∈ bs', d.used = true → d ∈ bs ∧ d ≠ b) s := by
  obtain ⟨xs, ys, rfl⟩ := List.append_of_mem hb
  refine Outcome.wp_mono (h.kfree hE) fun _ s' hs => ?_
  obtain ⟨xs', b₁, c, ys', bs', hlast, hnext, htrimmed, hremains, -⟩ := hs
  have hjoined : Joined (xs ++ b :: ys) b xs' c ys' := .mk hlast hnext
  have harena := hjoined.placed h.arena
  have he := h.pages.endAligned
  have hend_le := h.pages.end_le
  have hcmem : c ∈ xs' ++ c :: ys' := by simp
  have hcbound := Arena.bounds harena hcmem
  have hcalign := hjoined.aligned h.aligned c hcmem
  simp only [Block.stop] at hcbound
  obtain ⟨hle, hmod⟩ := htrimmed.end_le he (by omega)
  have hcfree := hjoined.free
  have harena' := htrimmed.placed (R := (· ≤ ·)) le_refl harena hcalign (by omega) fun ht =>
    (hclean _ _ _ hjoined ht).1
  have hcon : Consecutive F s'.kernelHeapEnd ((s.kernelHeapEnd - s'.kernelHeapEnd) / 4096) := by
    refine htrimmed.consecutive fun ht => ?_
    obtain ⟨hge, hle'⟩ := pageUp_bounds he (a := c.addr) (by omega)
    exact h.pages.consecutive (by omega) (pageUp_mod _) (by omega) (hclean _ _ _ hjoined ht).2
  obtain ⟨V', hstate', hkept⟩ := hremains.heapState h harena' htrimmed.nonempty hle hmod hcon
  refine ⟨V', xs', c, ys', bs', hjoined, htrimmed, hstate', fun d hd hne hused => ?_, fun d hd hused => ?_⟩
  · have hd' : d ∈ bs' := (htrimmed.used hcfree hused).mpr (hjoined.used hd hne hused)
    exact ⟨hd', h.sameBytes hstate' hd hd' fun v hv => hkept v ⟨d, hd, hne, hused, hv⟩⟩
  · have hd' := (htrimmed.used hcfree hused).mp hd
    exact ⟨hjoined.mem.2 d hd', hjoined.ne h.arena hd'⟩

/-- `kfree` on a heap that is laid out. -/
theorem kfree_wp (h : LaidOut L bs s) (hb : b ∈ bs) (hclean : TrimsCleanly s bs b) (hE : MayFree E bs s) :
    Outcome.wp E (kfree L b.memory) (fun _ s' => ∃ xs c ys bs', Joined bs b xs c ys ∧
      Trimmed s.kernelHeapEnd xs c ys bs' s'.kernelHeapEnd ∧ LaidOut L bs' s' ∧
      (∀ d ∈ bs, d ≠ b → d.used = true → d ∈ bs' ∧ SameBytes d s s') ∧
      ∀ d ∈ bs', d.used = true → d ∈ bs ∧ d ≠ b) s := by
  obtain ⟨htiles, F, V, hstate⟩ := h
  refine Outcome.wp_mono (hstate.kfree_cleanly hb hclean hE) fun _ s' hs => ?_
  obtain ⟨V', xs, c, ys, bs', hjoined, htrimmed, hstate', hold, hnew⟩ := hs
  have htiles' := hjoined.placed htiles
  have hcmem : c ∈ xs ++ c :: ys := by simp
  have hcbound := (Tiles.arena htiles').bounds hcmem
  have hcalign := hjoined.aligned hstate.aligned c hcmem
  have hend_le := hstate.pages.end_le
  simp only [Block.stop] at hcbound
  have htiles'' := htrimmed.tiles htiles' hcalign (by omega) fun ht => (hclean _ _ _ hjoined ht).1
  exact ⟨xs, c, ys, bs', hjoined, htrimmed, ⟨htiles'', F, V', hstate'⟩, hold, hnew⟩

/-! ## Stores -/

/-- What is written to the memory of a block leaves the heap what it is. -/
theorem HeapState.write (h : HeapState L F V bs s) (hb : b ∈ bs) (hpages : Pages L s.kernelHeapEnd F V' s')
    (hstep : DataStep s s') (hlast : s'.lastHeapEntry = s.lastHeapEntry)
    (hother : ∀ v, ¬b.Owns v → V' v = V v) : HeapState L F V' bs s' := by
  have hend : s'.kernelHeapEnd = s.kernelHeapEnd := by rw [hstep.same]
  have hclear : Clear (Block.Owns b) bs := clear_of_owned h.arena fun v hv => ⟨b, hb, hv⟩
  refine ⟨by rwa [hend], by rw [hend]; exact hstep.owned h.owned, h.links.congr fun c hc => ?_, ?_,
    hlast.trans h.last, by rw [hend]; exact h.arena, h.aligned, h.nonempty, by rw [hend]; exact h.limit, ?_⟩
  · refine header_congr fun v h₁ h₂ => hother v fun howns => ?_
    have hoff := hclear c hc v howns
    simp only [Block.memory] at hoff
    omega
  · rw [hstep.same]
    exact h.first
  · rw [hend]
    exact h.tail.imp_right (Exists.imp fun n hn => hstep.ptAt_some h.slot_end hn)

/-- A store to the memory of a block. -/
theorem HeapState.store (h : HeapState L F V bs s) (hb : b ∈ bs) {v : Nat} (hv : b.Owns v) (x : UInt8) :
    ∃ s', (writeByte v x).Returns s () s' ∧ HeapState L F (V.storeByte v x) bs s' ∧
      s'.kernelHeapEnd = s.kernelHeapEnd := by
  obtain ⟨s', hret, hpages, hstep, hlast⟩ := h.pages.writeByte (h.within hb hv) x
  refine ⟨s', hret, h.write hb hpages hstep hlast fun w hw => Mem.storeByte_other _ ?_, by rw [hstep.same]⟩
  rintro rfl
  exact hw hv

/-! ## Runs -/

/-- A call of the allocator, or a store to an address by the owner of a block. -/
inductive HeapOp where
  | kmalloc (size : Nat)
  | krealloc (ptr size : Nat)
  | kfree (ptr : Nat)
  | store (v : Nat) (x : UInt8)

/-- The live pointers, with the sizes their owners asked for. -/
abbrev Live := Nat → Option Nat

/-- When the block can not stay in its place, the heap stays within its limit. -/
def KreallocWithin (L : Layout) (s : Kernel) (ptr size : Nat) : Prop :=
  ∀ t, (kreallocInPlace (sub64 ptr sizeofHeapEntry) (unitUp size)).Returns s false t → WithinLimit L t size

/-- A call for a live pointer, with a size below the limit, that returns. -/
inductive Call (L : Layout) (live : Live) (s : Kernel) : HeapOp → Live → Kernel → Prop where
  | kmalloc {size p : Nat} {s' : Kernel} : size < kernelHeapMaxSize → WithinLimit L s size →
      (kmalloc size).Returns s p s' →
      Call L live s (.kmalloc size) (if p = 0 then live else Function.update live p (some size)) s'
  | krealloc {ptr n size p : Nat} {s' : Kernel} : live ptr = some n → size < kernelHeapMaxSize →
      KreallocWithin L s ptr size → (krealloc L ptr size).Returns s p s' →
      Call L live s (.krealloc ptr size)
        (if p = 0 then live else Function.update (Function.update live ptr none) p (some size)) s'
  | kfree {ptr n : Nat} {s' : Kernel} : live ptr = some n → (kfree L ptr).Returns s () s' →
      Call L live s (.kfree ptr) (Function.update live ptr none) s'
  | store {ptr n v : Nat} {x : UInt8} {s' : Kernel} : live ptr = some n → ptr ≤ v → v < ptr + n →
      (writeByte v x).Returns s () s' → Call L live s (.store v x) live s'

/-- The runs from a heap that `init_heap` makes of its first page, with calls that are `ok`. -/
inductive HeapRun (L : Layout) (ok : Kernel → HeapOp → Prop) : List HeapOp → Live → Kernel → Prop where
  | init {s₀ s : Kernel} : FirstPage L s₀ → (initHeap L).Returns s₀ () s →
      HeapRun L ok [] (fun _ => none) s
  | call {ops : List HeapOp} {live live' : Live} {s s' : Kernel} : HeapRun L ok ops live s →
      (op : HeapOp) → ok s op → Call L live s op live' s' → HeapRun L ok (ops ++ [op]) live' s'

/-- The blocks fill the heap, and the live pointers are those of the used blocks. -/
structure WellFormed (L : Layout) (live : Live) (bs : List Block) (s : Kernel) : Prop where
  laidOut : LaidOut L bs s
  ofLive : ∀ p n, live p = some n → ∃ b ∈ bs, b.used = true ∧ b.memory = p ∧ n ≤ b.size
  ofUsed : ∀ b ∈ bs, b.used = true → ∃ n, live b.memory = some n

theorem initHeap_wellFormed (h : FirstPage L s) (hret : (initHeap L).Returns s () s') :
    WellFormed L (fun _ => none) [firstBlock L] s' := by
  obtain ⟨t, hret', hlaid, -⟩ := initHeap_returns h
  obtain ⟨-, rfl⟩ := hret.det hret'
  refine ⟨hlaid, fun p n hp => (Option.some_ne_none n hp.symm).elim, fun b hb hused => ?_⟩
  rw [List.mem_singleton.mp hb] at hused
  cases hused

theorem WellFormed.kmalloc {live : Live} (h : WellFormed L live bs s) {p : Nat}
    (hpost : KmallocPost L size bs s p s') : ∃ bs', WellFormed L
      (if p = 0 then live else Function.update live p (some size)) bs' s' := by
  cases hpost with
  | none hp hs _ _ =>
    subst hs
    rw [if_pos hp]
    exact ⟨bs, h⟩
  | some bs' c hlaid _ hc haddr hused hsize _ hold hnew =>
    have hne : p ≠ 0 := by
      simp only [Block.memory] at haddr
      omega
    rw [if_neg hne]
    refine ⟨bs', hlaid, fun q n hq => ?_, fun d hd hdused => ?_⟩
    · by_cases hqp : q = p
      · subst hqp
        rw [Function.update_self, Option.some.injEq] at hq
        exact ⟨c, hc, hused, haddr, by omega⟩
      · rw [Function.update_of_ne hqp] at hq
        obtain ⟨d, hd, hdused, hdaddr, hn⟩ := h.ofLive q n hq
        exact ⟨d, (hold d hd hdused).1, hdused, hdaddr, hn⟩
    · by_cases hdp : d.memory = p
      · exact ⟨size, by rw [hdp, Function.update_self]⟩
      · rw [Function.update_of_ne hdp]
        refine h.ofUsed d ((hnew d hd hdused).resolve_left ?_) hdused
        rintro rfl
        exact hdp haddr

theorem WellFormed.store {live : Live} (h : WellFormed L live bs s) {p n v : Nat} {x : UInt8}
    (hp : live p = some n) (hv : p ≤ v ∧ v < p + n) (hret : (writeByte v x).Returns s () s') :
    WellFormed L live bs s' := by
  obtain ⟨b, hb, hused, rfl, hn⟩ := h.ofLive p n hp
  obtain ⟨htiles, F, V, hstate⟩ := h.laidOut
  have howns : b.Owns v := by
    simp only [Block.Owns, Block.memory, Block.stop] at hv ⊢
    omega
  obtain ⟨t, hret', hstate', hend⟩ := hstate.store hb howns x
  obtain ⟨-, rfl⟩ := hret.det hret'
  exact ⟨⟨by rwa [hend], F, _, hstate'⟩, h.ofLive, h.ofUsed⟩

theorem WellFormed.kfree {live : Live} (h : WellFormed L live bs s) (hb : b ∈ bs)
    (hlaid : LaidOut L bs' s') (hold : ∀ d ∈ bs, d ≠ b → d.used = true → d ∈ bs' ∧ SameBytes d s s')
    (hnew : ∀ d ∈ bs', d.used = true → d ∈ bs ∧ d ≠ b) :
    WellFormed L (Function.update live b.memory none) bs' s' := by
  obtain ⟨htiles, -⟩ := h.laidOut
  have haddr : ∀ d ∈ bs, d ≠ b → d.memory ≠ b.memory := by
    intro d hd hne heq
    refine hne (htiles.arena.eq_of_addr hd hb ?_)
    simp only [Block.memory] at heq
    omega
  refine ⟨hlaid, fun q n hq => ?_, fun d hd hused => ?_⟩
  · have hqb : q ≠ b.memory := by
      rintro rfl
      rw [Function.update_self] at hq
      cases hq
    rw [Function.update_of_ne hqb] at hq
    obtain ⟨d, hd, hused, rfl, hn⟩ := h.ofLive q n hq
    have hne : d ≠ b := by
      rintro rfl
      exact hqb rfl
    exact ⟨d, (hold d hd hne hused).1, hused, rfl, hn⟩
  · obtain ⟨hd', hne⟩ := hnew d hd hused
    rw [Function.update_of_ne (haddr d hd' hne)]
    exact h.ofUsed d hd' hused

end KoalemOS.Heap
